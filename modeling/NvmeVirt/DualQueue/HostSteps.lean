import NvmeVirt.DualQueue.Steps

/-!
# Every step of the host keeps the invariant

The send loop carries out the plan of the iteration, the aggregation announces
one column after the other, and the end of an iteration hands the future values
on to the next one.
-/

namespace NvmeVirt.DualQueue

open Function NvmeVirt.Csd

variable {s : Setup} {csd k : ℕ} {st st' : State}

theorem mem_sendTodo {r c : ℕ} : (r, c, csd) ∈ sendTodo s k ↔
    (r < s.numPartitions ∧ c < s.numPartitions) ∧ csd < s.numCsds := by
  simp only [sendTodo, List.mem_flatMap, List.mem_map, List.mem_range,
    Prod.mk.injEq]
  constructor
  · rintro ⟨block, hblock, csd', hcsd, rfl, rfl, rfl⟩
    exact ⟨(mem_sendOrder s).mp hblock, hcsd⟩
  · rintro ⟨hblock, hcsd⟩
    exact ⟨(r, c), (mem_sendOrder s).mpr hblock, csd, hcsd, rfl, rfl, rfl⟩

theorem nodup_sendTodo (s : Setup) (k : ℕ) : (sendTodo s k).Nodup := by
  rw [sendTodo, List.nodup_flatMap]
  constructor
  · intro block _
    apply List.nodup_range.map
    intro csd csd' heq
    exact congrArg (fun position => position.2.2) heq
  · apply (nodup_sendOrder s k).imp
    intro block block' hne position hposition hposition'
    obtain ⟨csd, -, rfl⟩ := List.mem_map.mp hposition
    obtain ⟨csd', -, heq⟩ := List.mem_map.mp hposition'
    apply hne
    rw [Prod.mk.injEq, Prod.mk.injEq] at heq
    exact Prod.ext heq.1.symm heq.2.1.symm

theorem mem_columnOrder {c : ℕ} :
    c ∈ columnOrder s k ↔ c < s.numPartitions := by
  unfold columnOrder
  split <;> simp

theorem nodup_columnOrder (s : Setup) (k : ℕ) : (columnOrder s k).Nodup := by
  unfold columnOrder
  split
  · exact List.nodup_range
  · exact List.nodup_reverse.mpr List.nodup_range

theorem unsent_cons (s : Setup) (csd k : ℕ) (position : ℕ × ℕ × ℕ)
    (rest : List (ℕ × ℕ × ℕ)) :
    unsent s csd k (position :: rest) =
      if position.2.2 = csd ∧ needed s csd k (position.1, position.2.1) then
        (position.1, position.2.1) :: unsent s csd k rest
      else unsent s csd k rest := by
  unfold unsent
  by_cases hsent : position.2.2 = csd ∧
      needed s csd k (position.1, position.2.1) = true
  · rw [if_pos hsent, List.filter_cons_of_pos (by simp [hsent]), List.map_cons]
  · rw [if_neg hsent, List.filter_cons_of_neg (by simpa using hsent)]

/-! ## What the steps of the host do -/

inductive HostEffect (s : Setup) (st : State) : State → Prop
  | sent (hhost : st.host = .send []) :
      HostEffect s st { st with host := .aggr (columnOrder s st.iter) }
  | send {r c csd : ℕ} {rest : List (ℕ × ℕ × ℕ)}
      (hhost : st.host = .send ((r, c, csd) :: rest)) :
      HostEffect s st (sendStep s st r c csd rest)
  | column {c : ℕ} {rest : List ℕ} (hhost : st.host = .aggr (c :: rest))
      (hready : aggrReady s st.mem c = true) :
      HostEffect s st { st with host := .merge c rest (mergeTodo s c) }
  | aggregated (hhost : st.host = .aggr []) :
      HostEffect s st { st with host := .wait }
  | merge {c v csd : ℕ} {rest : List ℕ} {todo : List (ℕ × ℕ)}
      (hhost : st.host = .merge c rest ((v, csd) :: todo)) :
      HostEffect s st { st with
        host := .merge c rest todo
        mem := { st.mem with
          buf1 := mergeSection s.toConfig (mergeValue s.toConfig) v st.mem.buf1
            csd } }
  | merged {c : ℕ} {rest : List ℕ} (hhost : st.host = .merge c rest []) :
      HostEffect s st
        { st with host := .damp c rest (partitionVertices s.toConfig c) }
  | damp {c v : ℕ} {rest todo : List ℕ}
      (hhost : st.host = .damp c rest (v :: todo)) :
      HostEffect s st { st with
        host := .damp c rest todo
        mem := { st.mem with
          buf1 := update st.mem.buf1 v
            (convValue s.toConfig (st.mem.buf1 v)) } }
  | damped {c : ℕ} {rest : List ℕ} (hhost : st.host = .damp c rest []) :
      HostEffect s st { st with host := .notify c rest }
  | notify {c : ℕ} {rest : List ℕ} (hhost : st.host = .notify c rest) :
      HostEffect s st { st with
        host := .aggr rest
        mem := { st.mem with
          donePartition := update st.mem.donePartition c true } }
  | replace (hhost : st.host = .wait) (hready : endReady s st.mem = true) :
      HostEffect s st (replaceStep s st)
  | release {csd : ℕ} {rest : List ℕ}
      (hhost : st.host = .release (csd :: rest)) :
      HostEffect s st { st with
        host := .release rest
        mem := { st.mem with
          donePartition := update st.mem.donePartition
            (barrierId s.numPartitions csd) false } }
  | start (hhost : st.host = .release []) (hmore : st.iter < s.numIters) :
      HostEffect s st { st with host := .send (sendTodo s st.iter) }
  | finish (hhost : st.host = .release []) (hdone : s.numIters ≤ st.iter) :
      HostEffect s st { st with host := .finished }

theorem hostStep_effect (hstep : hostStep s st = some st') :
    HostEffect s st st' := by
  cases hhost : st.host with
  | send todo =>
      cases todo with
      | nil =>
          simp only [hostStep, hhost, Option.some.injEq] at hstep
          subst hstep
          exact .sent hhost
      | cons position rest =>
          simp only [hostStep, hhost, Option.some.injEq] at hstep
          subst hstep
          exact .send hhost
  | aggr columns =>
      cases columns with
      | nil =>
          simp only [hostStep, hhost, Option.some.injEq] at hstep
          subst hstep
          exact .aggregated hhost
      | cons c rest =>
          simp only [hostStep, hhost] at hstep
          split at hstep
          · rename_i hready
            cases hstep
            exact .column hhost hready
          · cases hstep
  | merge c rest todo =>
      cases todo with
      | nil =>
          simp only [hostStep, hhost, Option.some.injEq] at hstep
          subst hstep
          exact .merged hhost
      | cons cell todo =>
          simp only [hostStep, hhost, Option.some.injEq] at hstep
          subst hstep
          exact .merge hhost
  | damp c rest todo =>
      cases todo with
      | nil =>
          simp only [hostStep, hhost, Option.some.injEq] at hstep
          subst hstep
          exact .damped hhost
      | cons v todo =>
          simp only [hostStep, hhost, Option.some.injEq] at hstep
          subst hstep
          exact .damp hhost
  | notify c rest =>
      simp only [hostStep, hhost, Option.some.injEq] at hstep
      subst hstep
      exact .notify hhost
  | wait =>
      simp only [hostStep, hhost] at hstep
      split at hstep
      · rename_i hready
        cases hstep
        exact .replace hhost hready
      · cases hstep
  | release todo =>
      cases todo with
      | nil =>
          simp only [hostStep, hhost, Option.some.injEq] at hstep
          subst hstep
          split
          · rename_i hmore
            exact .start hhost hmore
          · rename_i hdone
            exact .finish hhost (not_lt.mp hdone)
      | cons csd rest =>
          simp only [hostStep, hhost, Option.some.injEq] at hstep
          subst hstep
          exact .release hhost
  | finished =>
      simp only [hostStep, hhost] at hstep
      cases hstep

/-! ## Steps that change no flag -/

/-- The host goes on, and nothing that the invariant speaks of changes. -/
theorem Inv.moveHost (h : Inv s st) {host : HostPc} {mem : Hmb}
    (hsends : host.sends s st.iter = st.host.sends s st.iter)
    (hcolumns : host.columns s st.iter = st.host.columns s st.iter)
    (hheld : host.held = st.host.held) (htimely : host.Timely s st.iter)
    (hsame : ∀ csd, SameFlags s csd st.mem mem)
    (hpartition : mem.donePartition = st.mem.donePartition) :
    Inv s { st with host := host, mem := mem } where
  devices := by
    rw [hsends]
    exact h.devices
  flags := by
    intro csd hcsd
    rw [hsends, hheld]
    exact (h.flags csd hcsd).congr (hsame csd)
  columns_iff := by
    rw [hcolumns, hpartition]
    exact h.columns_iff
  timely := htimely
  iter_le := h.iter_le
  columns_suffix := by
    rw [hcolumns]
    exact h.columns_suffix
  sends_suffix := by
    rw [hsends]
    exact h.sends_suffix
  held_sublist := by
    rw [hheld]
    exact h.held_sublist

/-! ## Announcements -/

/-- The host announces a column. -/
theorem Inv.notify (h : Inv s st) {c : ℕ} {rest : List ℕ}
    (hhost : st.host = .notify c rest) :
    Inv s { st with
      host := .aggr rest
      mem := { st.mem with
        donePartition := update st.mem.donePartition c true } } := by
  have hcolumns : st.host.columns s st.iter = c :: rest := by rw [hhost]; rfl
  have hsends : st.host.sends s st.iter = [] := by rw [hhost]; rfl
  have hheld : st.host.held = [] := by rw [hhost]; rfl
  have hsuffix := h.columns_suffix
  rw [hcolumns] at hsuffix
  have hnodup := (nodup_columnOrder s st.iter).sublist hsuffix.sublist
  have hc : c < s.numPartitions :=
    mem_columnOrder.mp (hsuffix.mem List.mem_cons_self)
  refine ⟨?_, ?_, ?_, ?_, h.iter_le, ?_, ?_, List.nil_sublist _⟩
  · have hdevices := h.devices
    rw [hsends] at hdevices
    exact hdevices
  · intro csd hcsd
    have hflags := h.flags csd hcsd
    rw [hsends, hheld] at hflags
    refine hflags.congr ⟨fun _ _ _ _ => rfl, fun _ _ _ _ => rfl, ?_⟩
    apply update_of_ne
    simp only [barrierId]
    omega
  · intro c' hc'
    have hiff := h.columns_iff c' hc'
    rw [hcolumns] at hiff
    change update st.mem.donePartition c true c' = true ↔ c' ∉ rest
    by_cases heq : c' = c
    · subst heq
      simp [(List.nodup_cons.mp hnodup).1]
    · rw [update_of_ne heq, hiff]
      simp [heq]
  · have htimely := h.timely
    rw [hhost] at htimely
    exact htimely
  · exact (List.suffix_cons c rest).trans hsuffix
  · exact List.nil_suffix

/-! ## The release of the devices -/

/-- The host lets a device leave the barrier. -/
theorem Inv.release (h : Inv s st) {csd : ℕ} {rest : List ℕ}
    (hhost : st.host = .release (csd :: rest)) :
    Inv s { st with
      host := .release rest
      mem := { st.mem with
        donePartition := update st.mem.donePartition
          (barrierId s.numPartitions csd) false } } := by
  have hcolumns : st.host.columns s st.iter = columnOrder s st.iter := by
    rw [hhost]
    rfl
  have hsends : st.host.sends s st.iter = sendTodo s st.iter := by
    rw [hhost]
    rfl
  have hheld : st.host.held = csd :: rest := by rw [hhost]; rfl
  have hsublist := h.held_sublist
  rw [hheld] at hsublist
  have hnodup := List.nodup_range.sublist hsublist
  refine ⟨?_, ?_, ?_, trivial, h.iter_le, List.suffix_rfl, List.suffix_rfl,
    (List.sublist_cons_self csd rest).trans hsublist⟩
  · have hdevices := h.devices
    rw [hsends] at hdevices
    exact hdevices
  · intro other hother
    have hflags := h.flags other hother
    rw [hsends, hheld] at hflags
    by_cases heq : other = csd
    · subst heq
      obtain ⟨hlate, -⟩ := hflags.held_copies List.mem_cons_self
      have hnot : other ∉ rest := (List.nodup_cons.mp hnodup).1
      refine ⟨hflags.done1_iff, hflags.done2_iff, ?_, fun hin =>
        absurd hin hnot⟩
      change update st.mem.donePartition (barrierId s.numPartitions other) false
        (barrierId s.numPartitions other) = true ↔ _
      rw [update_self]
      refine iff_of_false Bool.false_ne_true ?_
      rintro ⟨-, hcopies | hin⟩
      · change (st.devices other).copies = st.iter at hcopies
        omega
      · exact hnot hin
    · have hin : other ∈ csd :: rest ↔ other ∈ rest := by simp [heq]
      refine ⟨hflags.done1_iff, hflags.done2_iff, ?_, fun hrest =>
        hflags.held_copies (hin.mpr hrest)⟩
      change update st.mem.donePartition (barrierId s.numPartitions csd) false
        (barrierId s.numPartitions other) = true ↔ _
      rw [update_of_ne (by simp only [barrierId]; omega), hflags.barrier_iff,
        hin]
      rfl
  · intro c hc
    have hiff := h.columns_iff c hc
    rw [hcolumns] at hiff
    change update st.mem.donePartition (barrierId s.numPartitions csd) false c =
      true ↔ c ∉ columnOrder s st.iter
    rw [update_of_ne (by simp only [barrierId]; omega), hiff]

/-! ## The send loop -/

/-- The flags after the host has looked at a portion: an empty one that does
not close the iteration is marked. -/
def markEmpty (s : Setup) (k r c csd : ℕ) (mem : Hmb) : Hmb :=
  if s.edgeBlocksLength r c csd = 0 ∧ (r, c) ≠ endBlock s k then
    { mem with
      done1 := update mem.done1 (blockId s.numPartitions csd r c) true }
  else mem

theorem sendStep_eq (s : Setup) (st : State) (r c csd : ℕ)
    (rest : List (ℕ × ℕ × ℕ)) :
    let mem := markEmpty s st.iter r c csd st.mem
    let next := { st with mem := mem, host := .send rest }
    sendStep s st r c csd rest =
      if mem.done1 (blockId s.numPartitions csd r c) then next
      else next.setDevice csd { st.devices csd with
        sq := (st.devices csd).sq ++ [task s csd st.iter (r, c) false] } := rfl

theorem markEmpty_barriers (s : Setup) (k r c csd : ℕ) (mem : Hmb) :
    (markEmpty s k r c csd mem).donePartition = mem.donePartition ∧
      (markEmpty s k r c csd mem).done2 = mem.done2 := by
  unfold markEmpty
  split <;> exact ⟨rfl, rfl⟩

theorem markEmpty_self (s : Setup) (k r c csd : ℕ) (mem : Hmb) :
    (markEmpty s k r c csd mem).done1 (blockId s.numPartitions csd r c) =
        true ↔
      mem.done1 (blockId s.numPartitions csd r c) = true ∨
        sendable s csd k (r, c) = false := by
  have hsendable : sendable s csd k (r, c) = false ↔
      s.edgeBlocksLength r c csd = 0 ∧ (r, c) ≠ endBlock s k := by
    simp [sendable]
  unfold markEmpty
  rw [hsendable]
  split
  · rename_i hempty
    exact iff_of_true (update_self _ _ _) (.inr hempty)
  · rename_i hempty
    rw [or_iff_left hempty]

theorem markEmpty_other {r c r' c' other : ℕ} (hr : r < s.numPartitions)
    (hr' : r' < s.numPartitions) (hc : c < s.numPartitions)
    (hc' : c' < s.numPartitions) (hne : (r', c', other) ≠ (r, c, csd))
    (mem : Hmb) :
    (markEmpty s k r c csd mem).done1 (blockId s.numPartitions other r' c') =
      mem.done1 (blockId s.numPartitions other r' c') := by
  unfold markEmpty
  split
  · apply update_of_ne
    rw [Ne, blockId_inj hr' hr hc' hc]
    rintro ⟨rfl, rfl, rfl⟩
    exact hne rfl
  · rfl

/-- What the host knows of the portion that it visits. -/
structure Visits (s : Setup) (st : State) (r c csd : ℕ)
    (rest : List (ℕ × ℕ × ℕ)) : Prop where
  row_lt : r < s.numPartitions
  column_lt : c < s.numPartitions
  csd_lt : csd < s.numCsds
  not_mem : (r, c, csd) ∉ rest
  suffix : rest <:+ sendTodo s st.iter
  not_ran : needed s csd st.iter (r, c) = true →
    (r, c) ∉ (st.devices csd).ran false st.iter

theorem Inv.visits (h : Inv s st) {r c csd : ℕ} {rest : List (ℕ × ℕ × ℕ)}
    (hhost : st.host = .send ((r, c, csd) :: rest)) :
    Visits s st r c csd rest := by
  have hsends : st.host.sends s st.iter = (r, c, csd) :: rest := by
    rw [hhost]
    rfl
  have hsuffix := h.sends_suffix
  rw [hsends] at hsuffix
  obtain ⟨⟨hr, hc⟩, hcsd⟩ := mem_sendTodo.mp
    (hsuffix.mem List.mem_cons_self)
  have hnodup := (nodup_sendTodo s st.iter).sublist hsuffix.sublist
  refine ⟨hr, hc, hcsd, (List.nodup_cons.mp hnodup).1,
    (List.suffix_cons _ rest).trans hsuffix, fun hneeded hran => ?_⟩
  have hdev := h.devices csd hcsd
  rw [hsends, unsent_cons, if_pos ⟨rfl, hneeded⟩] at hdev
  have hnormals := hdev.normals_eq ▸ nodup_normals s csd st.iter
  exact List.disjoint_of_nodup_append hnormals
    (List.mem_append_left _ (List.mem_append_left _ hran))
    List.mem_cons_self

/-- The host skips exactly the portions that are not in the plan. -/
theorem Inv.markEmpty_done (h : Inv s st) {r c csd : ℕ}
    {rest : List (ℕ × ℕ × ℕ)}
    (hhost : st.host = .send ((r, c, csd) :: rest)) :
    (markEmpty s st.iter r c csd st.mem).done1
        (blockId s.numPartitions csd r c) = true ↔
      needed s csd st.iter (r, c) = false := by
  have hv := h.visits hhost
  have hflags := (h.flags csd hv.csd_lt).done1_iff r hv.row_lt c hv.column_lt
  have hsends : st.host.sends s st.iter = (r, c, csd) :: rest := by
    rw [hhost]
    rfl
  have hnotmem : ¬(r, c, csd) ∉ st.host.sends s st.iter := by
    rw [hsends]
    simp
  simp only [hnotmem, and_false, or_false] at hflags
  rw [markEmpty_self, hflags]
  have hran := hv.not_ran
  unfold needed at hran ⊢
  cases hsendable : sendable s csd st.iter (r, c) <;>
    cases hcarried : carried s csd st.iter (r, c) <;> simp_all

/-- The flags of a device when the host has visited a portion. -/
theorem Inv.flags_visited (h : Inv s st) {r c csd : ℕ}
    {rest : List (ℕ × ℕ × ℕ)}
    (hhost : st.host = .send ((r, c, csd) :: rest)) {other : ℕ}
    (hother : other < s.numCsds) :
    Flags s other st.iter rest [] (markEmpty s st.iter r c csd st.mem)
      (st.devices other) := by
  have hv := h.visits hhost
  have hflags := h.flags other hother
  have hsends : st.host.sends s st.iter = (r, c, csd) :: rest := by
    rw [hhost]
    rfl
  have hheld : st.host.held = [] := by rw [hhost]; rfl
  rw [hsends, hheld] at hflags
  obtain ⟨hbarrier, hdone2⟩ := markEmpty_barriers s st.iter r c csd st.mem
  refine ⟨fun r' hr' c' hc' => ?_, ?_, ?_, hflags.held_copies⟩
  · by_cases hsame : (r', c', other) = (r, c, csd)
    · obtain ⟨rfl, rfl, rfl⟩ : r' = r ∧ c' = c ∧ other = csd := by
        simpa using hsame
      rw [markEmpty_self, hflags.done1_iff r' hr' c' hc']
      simp only [List.mem_cons_self, not_true_eq_false, and_false, or_false,
        hv.not_mem, not_false_eq_true, and_true, or_assoc]
    · rw [markEmpty_other hv.row_lt hr' hv.column_lt hc' hsame,
        hflags.done1_iff r' hr' c' hc', List.mem_cons, not_or]
      simp only [hsame, not_false_eq_true, true_and]
  · rw [hdone2]
    exact hflags.done2_iff
  · rw [hbarrier]
    exact hflags.barrier_iff

/-- One round of the send loop. -/
theorem Inv.send (h : Inv s st) {r c csd : ℕ} {rest : List (ℕ × ℕ × ℕ)}
    (hhost : st.host = .send ((r, c, csd) :: rest)) :
    Inv s (sendStep s st r c csd rest) := by
  have hv := h.visits hhost
  have hsends : st.host.sends s st.iter = (r, c, csd) :: rest := by
    rw [hhost]
    rfl
  have hcolumns : st.host.columns s st.iter = columnOrder s st.iter := by
    rw [hhost]
    rfl
  have htimely : st.iter < s.numIters := by
    have := h.timely
    rwa [hhost] at this
  have hbarrier := (markEmpty_barriers s st.iter r c csd st.mem).1
  -- What does not depend on whether the portion is sent.
  have hframe : ∀ devices : ℕ → Device,
      (∀ other < s.numCsds, DeviceInv s other st.iter (devices other)
        (unsent s other st.iter rest)) →
      (∀ other < s.numCsds, Flags s other st.iter rest []
        (markEmpty s st.iter r c csd st.mem) (devices other)) →
      Inv s { st with
        host := .send rest
        devices := devices
        mem := markEmpty s st.iter r c csd st.mem } := by
    intro devices hdevices hflags
    refine ⟨hdevices, hflags, ?_, htimely, h.iter_le, List.suffix_rfl,
      hv.suffix, List.nil_sublist _⟩
    intro column hcolumn
    have hiff := h.columns_iff column hcolumn
    rw [hcolumns, ← hbarrier] at hiff
    exact hiff
  have hothers : ∀ other < s.numCsds,
      ¬(csd = other ∧ needed s other st.iter (r, c) = true) →
      DeviceInv s other st.iter (st.devices other)
        (unsent s other st.iter rest) := by
    intro other hother hnot
    have hdev := h.devices other hother
    rwa [hsends, unsent_cons, if_neg hnot] at hdev
  rw [sendStep_eq]
  dsimp only
  by_cases hneeded : needed s csd st.iter (r, c) = true
  · have hdone : ¬(markEmpty s st.iter r c csd st.mem).done1
        (blockId s.numPartitions csd r c) = true := by
      rw [h.markEmpty_done hhost, hneeded]
      exact Bool.noConfusion
    rw [if_neg hdone]
    apply hframe
    · intro other hother
      by_cases heq : other = csd
      · subst heq
        have hdev := h.devices other hother
        rw [hsends, unsent_cons, if_pos ⟨rfl, hneeded⟩] at hdev
        rw [update_self]
        exact hdev.submit htimely
      · rw [update_of_ne heq]
        exact hothers other hother fun hboth => heq hboth.1.symm
    · intro other hother
      by_cases heq : other = csd
      · subst heq
        rw [update_self]
        exact (h.flags_visited hhost hother).sameWorker (fun _ _ => rfl) rfl rfl
      · rw [update_of_ne heq]
        exact h.flags_visited hhost hother
  · rw [if_pos ((h.markEmpty_done hhost).mpr (Bool.eq_false_of_not_eq_true
      hneeded))]
    apply hframe st.devices
    · intro other hother
      apply hothers other hother
      rintro ⟨rfl, hother⟩
      exact hneeded hother
    · exact fun other hother => h.flags_visited hhost hother

/-! ## The end of an iteration -/

theorem blockId_lt {numPartitions numCsds r c : ℕ} (hr : r < numPartitions)
    (hc : c < numPartitions) (hcsd : csd < numCsds) :
    blockId numPartitions csd r c < numCsds * numPartitions * numPartitions := by
  simp only [blockId, ← Nat.add_mul]
  exact Digits.digits_lt hc (Digits.digits_lt hr hcsd)

/-- When every flag is up, every device has closed the iteration. -/
theorem Inv.closed (h : Inv s st) (hhost : st.host = .wait)
    (hready : endReady s st.mem = true) (hcsd : csd < s.numCsds) :
    Closed s csd st.iter (st.devices csd) [] ∧
      (st.devices csd).worker = .barrier (marker s csd st.iter) := by
  have hdev := h.devices csd hcsd
  have hflags := h.flags csd hcsd
  have hsends : st.host.sends s st.iter = [] := by rw [hhost]; rfl
  have hheld : st.host.held = [] := by rw [hhost]; rfl
  rw [hsends] at hdev
  rw [hheld] at hflags
  have hflag : st.mem.donePartition (barrierId s.numPartitions csd) = true :=
    List.all_eq_true.mp hready csd (List.mem_range.mpr hcsd)
  obtain ⟨hworker, hcopies⟩ := hflags.barrier_iff.mp hflag
  have hcopies : (st.devices csd).copies = st.iter :=
    hcopies.resolve_right List.not_mem_nil
  rw [hcopies] at hworker
  refine ⟨?_, hworker⟩
  rcases hdev.phase with hlagging | hworking | hclosed
  · have hlate := hlagging.copies_eq
    omega
  · exact absurd hworker (hworking.worker_ok.ne_barrier _)
  · exact hclosed

theorem replaceStep_mem (s : Setup) (st : State) :
    (∀ csd < s.numCsds, ∀ r < s.numPartitions, ∀ c < s.numPartitions,
        (replaceStep s st).mem.done1 (blockId s.numPartitions csd r c) =
            st.mem.done2 (blockId s.numPartitions csd r c) ∧
          (replaceStep s st).mem.done2 (blockId s.numPartitions csd r c) =
            false) ∧
      (∀ c < s.numPartitions,
        (replaceStep s st).mem.donePartition c = false) ∧
      ∀ csd, (replaceStep s st).mem.donePartition
          (barrierId s.numPartitions csd) =
        st.mem.donePartition (barrierId s.numPartitions csd) := by
  refine ⟨fun csd hcsd r hr c hc => ⟨?_, ?_⟩, fun c hc => if_pos hc,
    fun csd => if_neg (by simp only [barrierId]; omega)⟩
  · exact if_pos (blockId_lt hr hc hcsd)
  · exact if_pos (blockId_lt hr hc hcsd)

/-- The flags of a closed device become those of the next iteration. -/
theorem Flags.next {mem mem' : Hmb} {dev : Device}
    (h : Flags s csd k [] [] mem dev) (hdev : DeviceInv s csd k dev [])
    (hclosed : Closed s csd k dev [])
    (hworker : dev.worker = .barrier (marker s csd k))
    (hnext : DeviceInv s csd (k + 1) dev (normals s csd (k + 1)))
    (hcsd : csd < s.numCsds)
    (hdone : ∀ r < s.numPartitions, ∀ c < s.numPartitions,
      mem'.done1 (blockId s.numPartitions csd r c) =
          mem.done2 (blockId s.numPartitions csd r c) ∧
        mem'.done2 (blockId s.numPartitions csd r c) = false)
    (hbarrier : mem'.donePartition (barrierId s.numPartitions csd) =
      mem.donePartition (barrierId s.numPartitions csd)) :
    Flags s csd (k + 1) (sendTodo s (k + 1)) (List.range s.numCsds) mem'
      dev := by
  have hlagging : Lagging s csd (k + 1) dev := by
    rcases hnext.phase with hlagging | hworking | hnew
    · exact hlagging
    · exact absurd hworker (hworking.worker_ok.ne_barrier _)
    · have hold := hclosed.copies_eq
      have hcopies := hnew.copies_eq
      omega
  have hran : dev.ran false k = normals s csd k := by
    have heq := hdev.normals_eq
    rw [hclosed.queued_eq, Device.running_of_ne_run dev (by simp [hworker])]
      at heq
    simpa using heq
  refine ⟨fun r hr c hc => ?_, fun r hr c hc => ?_, ?_, fun _ => ?_⟩
  · have hsent : (r, c, csd) ∈ sendTodo s (k + 1) :=
      mem_sendTodo.mpr ⟨⟨hr, hc⟩, hcsd⟩
    rw [(hdone r hr c hc).1, h.done2_iff r hr c hc, hlagging.ran_normal_eq,
      hclosed.perm.mem_iff, hran, List.mem_filter, mem_normals, carried_succ,
      Bool.and_eq_true]
    simp only [List.not_mem_nil, false_or, hsent, not_true_eq_false, and_false,
      or_false, hr, hc, true_and]
    exact and_comm
  · rw [(hdone r hr c hc).2, hlagging.ran_eq]
    simp
  · rw [hbarrier, h.barrier_iff]
    have hcopies := hclosed.copies_eq
    simp only [hworker, hcopies, true_and, true_or, List.mem_range, hcsd,
      or_true]
  · rw [hworker, hclosed.copies_eq]
    exact ⟨rfl, rfl⟩

/-- The host replaces the values and goes on to the next iteration. -/
theorem Inv.replace (h : Inv s st) (hhost : st.host = .wait)
    (hready : endReady s st.mem = true) : Inv s (replaceStep s st) := by
  have hsends : st.host.sends s st.iter = [] := by rw [hhost]; rfl
  have hheld : st.host.held = [] := by rw [hhost]; rfl
  obtain ⟨hdone, hcolumns, hbarriers⟩ := replaceStep_mem s st
  have hnext : ∀ csd < s.numCsds, DeviceInv s csd (st.iter + 1)
      (st.devices csd) (normals s csd (st.iter + 1)) := by
    intro csd hcsd
    obtain ⟨hclosed, hworker⟩ := h.closed hhost hready hcsd
    have hdev := h.devices csd hcsd
    rw [hsends] at hdev
    exact hdev.nextIteration hclosed hworker
  refine ⟨?_, ?_, ?_, trivial, ?_, List.suffix_rfl, List.suffix_rfl,
    List.Sublist.refl _⟩
  · intro csd hcsd
    change DeviceInv s csd (st.iter + 1) (st.devices csd)
      (unsent s csd (st.iter + 1) (sendTodo s (st.iter + 1)))
    rw [unsent_sendTodo hcsd]
    exact hnext csd hcsd
  · intro csd hcsd
    obtain ⟨hclosed, hworker⟩ := h.closed hhost hready hcsd
    have hdev := h.devices csd hcsd
    have hflags := h.flags csd hcsd
    rw [hsends] at hdev hflags
    rw [hheld] at hflags
    exact hflags.next hdev hclosed hworker (hnext csd hcsd) hcsd
      (hdone csd hcsd) (hbarriers csd)
  · intro c hc
    rw [hcolumns c hc]
    exact iff_of_false Bool.false_ne_true
      (not_not.mpr (mem_columnOrder.mpr hc))
  · have htimely := h.timely
    rw [hhost] at htimely
    exact htimely

theorem hostStep_inv (h : Inv s st) (hstep : hostStep s st = some st') :
    Inv s st' := by
  have htimely := h.timely
  -- A step that goes on within the iteration changes `buf1` at most.
  have hmove : ∀ host buf1, host.sends s st.iter = st.host.sends s st.iter →
      host.columns s st.iter = st.host.columns s st.iter →
      host.held = st.host.held → host.Timely s st.iter →
      Inv s { st with host := host, mem := { st.mem with buf1 := buf1 } } :=
    fun _ _ hsends hcolumns hheld htimely => h.moveHost hsends hcolumns hheld
      htimely (fun _ => ⟨fun _ _ _ _ => rfl, fun _ _ _ _ => rfl, rfl⟩) rfl
  cases hostStep_effect hstep with
  | send hhost => exact h.send hhost
  | notify hhost => exact h.notify hhost
  | replace hhost hready => exact h.replace hhost hready
  | release hhost => exact h.release hhost
  | sent hhost | aggregated hhost | column hhost | merge hhost
  | merged hhost | damp hhost | damped hhost =>
      rw [hhost] at htimely hmove
      exact hmove _ _ rfl rfl rfl htimely
  | start hhost hmore =>
      rw [hhost] at hmove
      exact hmove _ st.mem.buf1 rfl rfl rfl hmore
  | finish hhost hdone =>
      rw [hhost] at hmove
      exact hmove _ st.mem.buf1 rfl rfl rfl hdone

/-! ## Runs -/

theorem inv_initial (s : Setup) : Inv s (initialState s) where
  devices := by
    intro csd hcsd
    change DeviceInv s csd 0 initialDevice (unsent s csd 0 (sendTodo s 0))
    rw [unsent_sendTodo hcsd]
    have hran : ∀ f iter, initialDevice.ran f iter = [] := fun _ _ => rfl
    have hnot : ¬Marked s 0 initialDevice := by simp [Marked, hran]
    refine ⟨⟨fun _ hlt => absurd hlt (Nat.not_lt_zero _),
      fun _ hlt => absurd hlt (Nat.not_lt_zero _), fun _ he => ?_⟩, rfl,
      fun _ hnode => ?_, fun _ => rfl, .inr (.inl ⟨rfl, trivial, [], ?_, ?_,
      List.nil_sublist _⟩)⟩
    · exact absurd he List.not_mem_nil
    · exact absurd hnode List.not_mem_nil
    · rw [if_neg hnot]
      rfl
    · exact List.Perm.refl _
  flags := by
    intro csd hcsd
    have hdone : ∀ r < s.numPartitions, ∀ c < s.numPartitions,
        blockId s.numPartitions csd r c <
          s.numCsds * s.numPartitions * s.numPartitions :=
      fun r hr c hc => blockId_lt hr hc hcsd
    refine ⟨fun r hr c hc => ?_, fun r hr c hc => ?_, ?_, fun hheld => ?_⟩
    · have hsent : (r, c, csd) ∈ sendTodo s 0 :=
        mem_sendTodo.mpr ⟨⟨hr, hc⟩, hcsd⟩
      change (if _ then false else _) = true ↔ (r, c) ∈ [] ∨
        carried s csd 0 (r, c) = true ∨ _ ∧ (r, c, csd) ∉ sendTodo s 0
      rw [if_pos (hdone r hr c hc)]
      simp [carried, hsent]
    · change (if _ then false else _) = true ↔ (r, c) ∈ []
      rw [if_pos (hdone r hr c hc)]
      simp
    · change (if _ then false else _) = true ↔ _
      rw [if_neg (by simp only [barrierId]; omega)]
      change s.mem.donePartition (s.numPartitions + csd + 1) = true ↔ _
      rw [s.flags_down csd]
      simp [initialState, initialDevice]
    · exact absurd hheld List.not_mem_nil
  columns_iff := by
    intro c hc
    change (if c < s.numPartitions then false else _) = true ↔
      c ∉ columnOrder s 0
    rw [if_pos hc, mem_columnOrder]
    simp [hc]
  timely := trivial
  iter_le := Nat.zero_le _
  columns_suffix := List.suffix_rfl
  sends_suffix := List.suffix_rfl
  held_sublist := List.nil_sublist _

/-- The next party does not take the marker for a block. -/
def PicksBlocks (s : Setup) : Actor → State → Prop
  | .worker csd, st => csd < s.numCsds → PicksBlock csd st
  | _, _ => True

theorem step_inv {actor : Actor} (hpicks : PicksBlocks s actor st)
    (h : Inv s st) (hstep : step s actor st = some st') : Inv s st' := by
  cases actor with
  | host => exact hostStep_inv h hstep
  | dispatcher csd =>
      simp only [step] at hstep
      split at hstep
      · rename_i hcsd
        exact dispatchStep_inv h hcsd hstep
      · cases hstep
  | worker csd =>
      simp only [step] at hstep
      split at hstep
      · rename_i hcsd
        exact workerStep_inv h hcsd (hpicks hcsd) hstep
      · cases hstep

end NvmeVirt.DualQueue
