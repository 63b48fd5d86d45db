import NvmeVirt.Ftl.UserPointer
import NvmeVirt.Ftl.Workloads
import NvmeVirt.Ftl.WriteBuffer

/-!
# The balance of the write buffer

`conv_write` reserves space for the blocks of a command and has a one-shot page
released for every one-shot page its pages complete.  A command that covers a
page in part reserves less than what is released for the page, so that the
balance holds for commands that start and end with a page.
-/

namespace NvmeVirt.Ftl

open Function NvmeVirt.Outcome Interleaving

/-- A namespace: the FTL instances, the write buffer they share, and the bytes
of the internal operations that wait to release buffer space. -/
structure ConvNs where
  ftls : ℕ → ConvFtl
  wbuf : Buffer
  scheduled : List ℕ

section Operations

variable (spp : SsdParams) (secsz nrParts : ℕ)

def lastPgInWordline (ppa : Ppa) : Bool :=
  ppa.pg % spp.pgsPerOneshotpg = spp.pgsPerOneshotpg - 1

def pageBytes : ℕ := secsz * spp.secsPerPg

/-- Loop body of `conv_write` with the operations it schedules.  The page that
`get_new_page` takes is the one under the write pointer. -/
def writeLpnBuffered (state : (ℕ → ConvFtl) × List ℕ) (lpn : ℕ) :
    Except Fault ((ℕ → ConvFtl) × List ℕ) := do
  let ppa ← getNewPage (state.1 (lpn % nrParts)) .user
  let ftls ← writeLpn spp nrParts state.1 lpn
  if lastPgInWordline spp ppa then
    return (ftls, state.2 ++ [spp.pgsPerOneshotpg * pageBytes spp secsz])
  else return (ftls, state.2)

/-- `conv_write` with its write buffer; a command that is refused leaves the
namespace alone. -/
def convWriteBuffered (ns : ConvNs) (slba : UInt64) (length : UInt16) :
    Except Fault ConvNs :=
  let nrLba := length.toNat + 1
  let endLpn := (slba.toNat + nrLba - 1) % 2 ^ 64 / spp.secsPerPg
  if spp.ttPgs ≤ endLpn / nrParts then .ok ns
  else
    match bufferAllocate ns.wbuf (nrLba * secsz) with
    | none => .error .assertion
    | some (allocated, wbuf) =>
        if allocated < nrLba * secsz then .ok { ns with wbuf }
        else do
          let cmd : WriteCmd := ⟨slba.toNat, length.toNat, true⟩
          let (ftls, scheduled) ← (cmd.lpns spp nrParts).foldlM
            (writeLpnBuffered spp secsz nrParts) (ns.ftls, ns.scheduled)
          return ⟨ftls, wbuf, scheduled⟩

/-- A write command, or the completion of an internal operation. -/
inductive BufferEvent where
  | write (slba : UInt64) (length : UInt16)
  | release (index : ℕ)

def bufferStep (event : BufferEvent) (ns : ConvNs) : Option ConvNs :=
  match event with
  | .write slba length =>
      (convWriteBuffered spp secsz nrParts ns slba length).toOption
  | .release index =>
      match ns.scheduled[index]? with
      | none => none
      | some bytes => some
          { ns with
            wbuf := bufferRelease ns.wbuf bytes
            scheduled := ns.scheduled.eraseIdx index }

/-- Whether a command finds its pages and its buffer space.  A command whose
last block is past the 64-bit range has no pages. -/
def Accepted (ns : ConvNs) (slba : UInt64) (length : UInt16) : Prop :=
  let endLpn := (slba.toNat + length.toNat) % 2 ^ 64 / spp.secsPerPg
  slba.toNat / spp.secsPerPg ≤ endLpn ∧ endLpn / nrParts < spp.ttPgs ∧
    (length.toNat + 1) * secsz ≤ ns.wbuf.remaining

/-- A command that is accepted starts and ends with a page. -/
def WholePages (event : BufferEvent) (ns : ConvNs) : Prop :=
  match event with
  | .write slba length => Accepted spp secsz nrParts ns slba length →
      slba.toNat % spp.secsPerPg = 0 ∧ (length.toNat + 1) % spp.secsPerPg = 0
  | .release _ => True

instance (event : BufferEvent) (ns : ConvNs) :
    Decidable (WholePages spp secsz nrParts event ns) :=
  match event with
  | .write _ _ => inferInstanceAs (Decidable (_ ∧ _ ∧ _ → _ ∧ _))
  | .release _ => inferInstanceAs (Decidable True)

/-! ## Pages and bytes -/

/-- The bytes of the pages that have been written and not released: those that
wait to be released, and those of the one-shot page that each instance has
begun. -/
def heldBytes (state : (ℕ → ConvFtl) × List ℕ) : ℕ :=
  state.2.sum + ∑ part ∈ Finset.range nrParts,
    (state.1 part).wp.pg % spp.pgsPerOneshotpg * pageBytes spp secsz

end Operations

/-! ## The write buffer and the mapping -/

section Mapping

variable {spp : SsdParams} {secsz nrParts : ℕ}

theorem writeLpnBuffered_ftls (state : (ℕ → ConvFtl) × List ℕ) (lpn : ℕ) :
    Ends (fun state' => writeLpn spp nrParts state.1 lpn = .ok state'.1)
      (fun _ => True) (writeLpnBuffered spp secsz nrParts state lpn) := by
  unfold writeLpnBuffered
  cases getNewPage (state.1 (lpn % nrParts)) .user with
  | error => exact trivial
  | ok ppa =>
      cases writeLpn spp nrParts state.1 lpn with
      | error => exact trivial
      | ok ftls =>
          change Ends _ _ (if _ then _ else _)
          split
          · exact rfl
          · exact rfl

theorem foldlM_writeLpnBuffered_ftls (state : (ℕ → ConvFtl) × List ℕ)
    (lpns : List ℕ) :
    Ends (fun state' =>
        lpns.foldlM (writeLpn spp nrParts) state.1 = .ok state'.1)
      (fun _ => True)
      (lpns.foldlM (writeLpnBuffered spp secsz nrParts) state) := by
  induction lpns generalizing state with
  | nil => exact rfl
  | cons lpn rest ih =>
      rw [List.foldlM_cons]
      refine Ends.bind (writeLpnBuffered_ftls state lpn) fun next hnext => ?_
      rw [hnext]
      exact ih next

/-- With its write buffer `conv_write` does to the FTL instances what it does
without, for some answer of the buffer. -/
theorem convWriteBuffered_ftls (ns : ConvNs) (slba : UInt64)
    (length : UInt16) :
    Ends (fun ns' => ∃ buffered, convWrite spp nrParts ns.ftls
        ⟨slba.toNat, length.toNat, buffered⟩ = .ok ns'.ftls)
      (fun _ => True) (convWriteBuffered spp secsz nrParts ns slba length) := by
  -- A command that is refused writes no page.
  have hrefused : convWrite spp nrParts ns.ftls
      ⟨slba.toNat, length.toNat, false⟩ = .ok ns.ftls := by
    simp [convWrite, WriteCmd.lpns, pure, Except.pure]
  unfold convWriteBuffered
  dsimp only
  split
  · exact ⟨false, hrefused⟩
  cases bufferAllocate ns.wbuf ((length.toNat + 1) * secsz) with
  | none => exact trivial
  | some found =>
      dsimp only
      split
      · exact ⟨false, hrefused⟩
      · exact Ends.bind (foldlM_writeLpnBuffered_ftls _ _)
          fun state hstate => ⟨true, hstate⟩

end Mapping

section Balance

variable {g : Geometry} {secsz nrParts : ℕ}

/-- The page of a one-shot page after the next one: the bytes begun and the
bytes released together grow by a page. -/
theorem begun_of_nextPg {pg pg' : ℕ} (hnext : NextPg g.toSsdParams pg pg')
    (bytes : ℕ) :
    (if lastPgInWordline g.toSsdParams ⟨0, 0, 0, 0, pg⟩ = true then
        g.pgsPerOneshotpg * bytes else 0) +
      pg' % g.pgsPerOneshotpg * bytes =
        pg % g.pgsPerOneshotpg * bytes + bytes := by
  have hpos := g.pgsPerOneshotpg_pos
  have hmod := Nat.mod_lt pg hpos
  rw [hnext.2, ← Nat.mod_add_mod]
  simp only [lastPgInWordline, decide_eq_true_eq]
  split
  · rename_i hlast
    rw [hlast, Nat.sub_add_cancel hpos, Nat.mod_self, Nat.zero_mul,
      ← Nat.succ_mul, Nat.succ_eq_add_one, Nat.sub_add_cancel hpos]
    rfl
  · rw [Nat.mod_eq_of_lt (by omega), Nat.zero_add, Nat.succ_mul]

theorem lastPgInWordline_of_pg_eq {spp : SsdParams} {ppa ppa' : Ppa}
    (hpg : ppa.pg = ppa'.pg) :
    lastPgInWordline spp ppa = lastPgInWordline spp ppa' := by
  rw [lastPgInWordline, lastPgInWordline, hpg]

theorem getNewPage_pg (st : ConvFtl) :
    Ends (fun ppa => ppa.pg = st.wp.pg % 2 ^ 16) (fun _ => True)
      (getNewPage st .user) :=
  Ends.require_bind (fun _ => rfl) trivial

theorem writeLpn_advances (ftls : ℕ → ConvFtl) (lpn : ℕ) :
    Ends (fun ftls' => ∃ st, ftls' = update ftls (lpn % nrParts) st ∧
        NextPg g.toSsdParams (ftls (lpn % nrParts)).wp.pg st.wp.pg)
      (fun _ => True) (writeLpn g.toSsdParams nrParts ftls lpn) :=
  Ends.bind (advancesWp_writePage g.toSsdParams _ _)
    fun st hst => ⟨st, rfl, hst⟩

/-- A page adds its bytes to what is held. -/
theorem heldBytes_writeLpn (hparts : 0 < nrParts)
    (state : (ℕ → ConvFtl) × List ℕ) (lpn : ℕ) :
    Ends (fun state' => heldBytes g.toSsdParams secsz nrParts state' =
        heldBytes g.toSsdParams secsz nrParts state +
          pageBytes g.toSsdParams secsz) (fun _ => True)
      (writeLpnBuffered g.toSsdParams secsz nrParts state lpn) := by
  have hpart : lpn % nrParts ∈ Finset.range nrParts :=
    Finset.mem_range.mpr (Nat.mod_lt lpn hparts)
  refine Ends.bind (getNewPage_pg _) fun ppa hppa => ?_
  refine Ends.bind (writeLpn_advances state.1 lpn) ?_
  rintro ftls ⟨st, rfl, hnext⟩
  have hpg : ppa.pg = (state.1 (lpn % nrParts)).wp.pg := by
    rw [hppa]
    exact Nat.mod_eq_of_lt (hnext.1.trans_le g.pgsPerBlk_le)
  have hbegun := begun_of_nextPg hnext (pageBytes g.toSsdParams secsz)
  have hsum := Counting.sum_comp_update_add hpart state.1 st fun st =>
    st.wp.pg % g.pgsPerOneshotpg * pageBytes g.toSsdParams secsz
  have hppa : lastPgInWordline g.toSsdParams
      ⟨0, 0, 0, 0, (state.1 (lpn % nrParts)).wp.pg⟩ =
        lastPgInWordline g.toSsdParams ppa :=
    lastPgInWordline_of_pg_eq hpg.symm
  rw [hppa] at hbegun
  by_cases hlast : lastPgInWordline g.toSsdParams ppa = true
  · rw [if_pos hlast] at hbegun ⊢
    simp only [Ends, pure, Except.pure, heldBytes, List.sum_append,
      List.sum_singleton]
    omega
  · rw [if_neg hlast] at hbegun ⊢
    simp only [Ends, pure, Except.pure, heldBytes]
    omega

theorem heldBytes_foldlM (hparts : 0 < nrParts)
    (state : (ℕ → ConvFtl) × List ℕ) (lpns : List ℕ) :
    Ends (fun state' => heldBytes g.toSsdParams secsz nrParts state' =
        heldBytes g.toSsdParams secsz nrParts state +
          lpns.length * pageBytes g.toSsdParams secsz) (fun _ => True)
      (lpns.foldlM (writeLpnBuffered g.toSsdParams secsz nrParts) state) := by
  induction lpns generalizing state with
  | nil => simp [Ends, pure, Except.pure]
  | cons lpn rest ih =>
      rw [List.foldlM_cons]
      refine Ends.bind (heldBytes_writeLpn hparts state lpn)
        fun next hnext => ?_
      refine (ih next).mono (fun last hlast => ?_) fun _ => id
      rw [hlast, hnext, List.length_cons, Nat.succ_mul]
      omega

/-- A command that starts and ends with a page has no more pages than blocks of
whole pages. -/
theorem length_lpns_le {secsPerPg slba nrLba : ℕ} (hsecs : 0 < secsPerPg)
    (hstart : slba % secsPerPg = 0) (hlength : nrLba % secsPerPg = 0)
    (hnr : 0 < nrLba) :
    ((slba + nrLba - 1) % 2 ^ 64 / secsPerPg + 1 - slba / secsPerPg) *
      secsPerPg ≤ nrLba := by
  obtain ⟨first, rfl⟩ := Nat.dvd_of_mod_eq_zero hstart
  obtain ⟨count, rfl⟩ := Nat.dvd_of_mod_eq_zero hlength
  have hcount : 0 < count := Nat.pos_of_mul_pos_left hnr
  have hlast : (secsPerPg * first + secsPerPg * count - 1) % 2 ^ 64 /
      secsPerPg < first + count := by
    have hmod := Nat.mod_le (secsPerPg * first + secsPerPg * count - 1) (2 ^ 64)
    rw [Nat.div_lt_iff_lt_mul hsecs, Nat.mul_comm (first + count), Nat.mul_add]
    omega
  rw [Nat.mul_div_cancel_left _ hsecs, Nat.mul_comm]
  exact Nat.mul_le_mul_left _ (by omega)

/-- The pages of a command take no more bytes than were reserved for it. -/
theorem lpns_bytes_le {ns : ConvNs} {slba : UInt64} {length : UInt16}
    (hpages : WholePages g.toSsdParams secsz nrParts (.write slba length) ns)
    (hroom : (length.toNat + 1) * secsz ≤ ns.wbuf.remaining)
    (hrange : ¬ g.ttPgs ≤ (slba.toNat + (length.toNat + 1) - 1) % 2 ^ 64 /
      g.secsPerPg / nrParts) :
    ((⟨slba.toNat, length.toNat, true⟩ : WriteCmd).lpns g.toSsdParams
        nrParts).length * pageBytes g.toSsdParams secsz ≤
      (length.toNat + 1) * secsz := by
  simp only [WriteCmd.lpns, hrange, false_or, Bool.true_eq_false, if_false,
    List.length_range']
  rcases Nat.lt_or_ge ((slba.toNat + (length.toNat + 1) - 1) % 2 ^ 64 /
    g.secsPerPg) (slba.toNat / g.secsPerPg) with hnone | hsome
  · rw [Nat.sub_eq_zero_of_le hnone, Nat.zero_mul]
    exact Nat.zero_le _
  · obtain ⟨hstart, hend⟩ := hpages ⟨hsome, not_le.mp hrange, hroom⟩
    have hle := length_lpns_le g.secsPerPg_pos hstart hend (Nat.succ_pos _)
    calc ((slba.toNat + (length.toNat + 1) - 1) % 2 ^ 64 / g.secsPerPg + 1 -
          slba.toNat / g.secsPerPg) * (secsz * g.secsPerPg)
        = ((slba.toNat + (length.toNat + 1) - 1) % 2 ^ 64 / g.secsPerPg + 1 -
          slba.toNat / g.secsPerPg) * g.secsPerPg * secsz := by ring
      _ ≤ (length.toNat + 1) * secsz := Nat.mul_le_mul_right _ hle

/-! ## Runs -/

/-- What is held and what is free fit the write buffer. -/
def BufferFits (g : Geometry) (secsz nrParts : ℕ) (ns : ConvNs) : Prop :=
  ns.wbuf.remaining + heldBytes g.toSsdParams secsz nrParts
    (ns.ftls, ns.scheduled) ≤ ns.wbuf.size

theorem convWriteBuffered_fits (hparts : 0 < nrParts) {ns : ConvNs}
    {slba : UInt64} {length : UInt16}
    (hpages : WholePages g.toSsdParams secsz nrParts (.write slba length) ns)
    (hfits : BufferFits g secsz nrParts ns) :
    Ends (BufferFits g secsz nrParts) (fun _ => True)
      (convWriteBuffered g.toSsdParams secsz nrParts ns slba length) := by
  unfold convWriteBuffered
  dsimp only
  split
  · exact hfits
  rename_i hrange
  cases hsome : bufferAllocate ns.wbuf ((length.toNat + 1) * secsz) with
  | none => exact trivial
  | some found =>
      obtain ⟨allocated, wbuf⟩ := found
      obtain ⟨-, ⟨hlt, rfl, rfl⟩ | ⟨hroom, rfl, rfl⟩⟩ :=
        bufferAllocate_cases hsome
      · dsimp only
        rw [if_pos (by omega)]
        exact hfits
      · dsimp only
        rw [if_neg (lt_irrefl _)]
        have hbytes := lpns_bytes_le hpages hroom hrange
        refine Ends.bind (heldBytes_foldlM hparts _ _) fun state hstate => ?_
        change _ + heldBytes g.toSsdParams secsz nrParts state ≤ _
        rw [hstate]
        simp only [BufferFits] at hfits ⊢
        omega

/-- A release moves bytes from what is held to what is free. -/
theorem release_fits {ns : ConvNs} {index bytes : ℕ}
    (hbytes : ns.scheduled[index]? = some bytes)
    (hfits : BufferFits g secsz nrParts ns) :
    BufferFits g secsz nrParts
      { ns with
        wbuf := bufferRelease ns.wbuf bytes
        scheduled := ns.scheduled.eraseIdx index } := by
  obtain ⟨hindex, rfl⟩ := List.getElem?_eq_some_iff.mp hbytes
  have hsum := (List.getElem_cons_eraseIdx_perm hindex).sum_eq
  rw [List.sum_cons] at hsum
  simp only [BufferFits, heldBytes, bufferRelease] at hfits ⊢
  omega

theorem bufferStep_fits (hparts : 0 < nrParts) {event : BufferEvent}
    {ns ns' : ConvNs}
    (hpages : WholePages g.toSsdParams secsz nrParts event ns)
    (hfits : BufferFits g secsz nrParts ns)
    (hstep : bufferStep g.toSsdParams secsz nrParts event ns = some ns') :
    BufferFits g secsz nrParts ns' := by
  cases event with
  | write slba length =>
      have hends := convWriteBuffered_fits hparts hpages hfits
      simp only [bufferStep] at hstep
      cases hwrite : convWriteBuffered g.toSsdParams secsz nrParts ns slba
          length with
      | error fault =>
          rw [hwrite] at hstep
          cases hstep
      | ok ns₁ =>
          rw [hwrite] at hstep hends
          cases hstep
          exact hends
  | release index =>
      simp only [bufferStep] at hstep
      cases hbytes : ns.scheduled[index]? with
      | none =>
          rw [hbytes] at hstep
          cases hstep
      | some bytes =>
          rw [hbytes] at hstep
          cases hstep
          exact release_fits hbytes hfits

theorem initial_fits {st₀ : ConvFtl}
    (hinit : convInitFtl g.toSsdParams = .ok st₀) (size : ℕ) :
    BufferFits g secsz nrParts ⟨fun _ => st₀, bufferInit size, []⟩ := by
  obtain ⟨-, rfl⟩ := convInitFtl_eq_ok.mp hinit
  simp [BufferFits, heldBytes, bufferInit, initialFtl]

/-- The write buffer of a namespace never has more space left than its size, in
every run of commands, and of releases in any order, whose accepted commands
start and end with a page. -/
theorem write_buffer_conserved (g : Geometry) (secsz nrParts size : ℕ)
    (hparts : 0 < nrParts) {st₀ : ConvFtl}
    (hinit : convInitFtl g.toSsdParams = .ok st₀) (events : List BufferEvent)
    (hpages : Meets (bufferStep g.toSsdParams secsz nrParts)
      (WholePages g.toSsdParams secsz nrParts) events
      ⟨fun _ => st₀, bufferInit size, []⟩) :
    let ns := run (bufferStep g.toSsdParams secsz nrParts) events
      ⟨fun _ => st₀, bufferInit size, []⟩
    ns.wbuf.remaining ≤ ns.wbuf.size := by
  intro ns
  have hfits : BufferFits g secsz nrParts ns :=
    run_invariant_of_meets (bufferStep g.toSsdParams secsz nrParts)
      (fun _ _ _ hevent hfits => bufferStep_fits hparts hevent hfits)
      (initial_fits hinit size) hpages
  exact (Nat.le_add_right _ _).trans hfits

/-- A command of one page, and a command of two pages on two instances. -/
theorem write_buffer_conserved_small :
    let events : List BufferEvent :=
      [.write 0 7, .write 8 15, .release 1, .release 0]
    let ns := run (bufferStep smallGeometry.toSsdParams 512 2) events
      ⟨fun _ => initialFtl smallGeometry, bufferInit 65536, []⟩
    ns.scheduled ≠ [] ∧ ns.wbuf.remaining ≤ ns.wbuf.size :=
  ⟨by decide, write_buffer_conserved smallGeometry 512 2 65536 (by decide)
    (convInitFtl_eq_ok.mpr ⟨by decide, rfl⟩) _ (by decide)⟩

/-- A write of one block reserves a block and has a page released. -/
theorem one_block_write_overfills_buffer :
    let events : List BufferEvent := [.write 0 0, .release 0]
    let ns := run (bufferStep smallGeometry.toSsdParams 512 2) events
      ⟨fun _ => initialFtl smallGeometry, bufferInit 65536, []⟩
    convInitFtl smallGeometry.toSsdParams = .ok (initialFtl smallGeometry) ∧
      ns.wbuf.size < ns.wbuf.remaining :=
  ⟨convInitFtl_eq_ok.mpr ⟨by decide, rfl⟩, by decide⟩

end Balance

end NvmeVirt.Ftl
