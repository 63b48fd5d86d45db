import NvmeVirt.Ftl.WriteOrder

/-!
# A line is written once

While only `advance_write_pointer` moves a write pointer, the pages that
`get_new_page` hands out on a line are all its pages, each once.  The addresses
have bit fields of 8 and 16 bits and the page indices are computed partly with
`int`, so the geometry has to fit both.
-/

namespace NvmeVirt.Ftl

variable {spp : SsdParams}

/-! ## Page indices in machine words -/

/-- A product of two `int` values that is converted to `unsigned long`. -/
def intProduct (left right : ℕ) : BitVec 64 :=
  (BitVec.ofNat 32 left * BitVec.ofNat 32 right).signExtend 64

theorem intProduct_eq {left right : ℕ} (hlt : left * right < 2 ^ 31) :
    intProduct left right = BitVec.ofNat 64 (left * right) := by
  have hmsb : (BitVec.ofNat 32 (left * right)).msb = false := by
    rw [BitVec.msb_eq_false_iff_two_mul_lt, BitVec.toNat_ofNat]
    omega
  rw [intProduct, BitVec.ofNat_mul_ofNat,
    BitVec.signExtend_eq_setWidth_of_msb_false hmsb]
  apply BitVec.eq_of_toNat_eq
  rw [BitVec.toNat_setWidth, BitVec.toNat_ofNat, BitVec.toNat_ofNat]
  omega

section Words

variable (spp : SsdParams)

def pgsPerPlWord : BitVec 64 := intProduct spp.pgsPerBlk spp.blksPerPl

def pgsPerLunWord : BitVec 64 :=
  pgsPerPlWord spp * BitVec.ofNat 64 spp.plsPerLun

def pgsPerChWord : BitVec 64 :=
  pgsPerLunWord spp * BitVec.ofNat 64 spp.lunsPerCh

def ttPgsWord : BitVec 64 := pgsPerChWord spp * BitVec.ofNat 64 spp.nchs

/-- `ppa2pgidx` with the widths of its operands: the product with `pgs_per_blk`
is one of `int` values. -/
def ppa2pgidxWord (ppa : Ppa) : BitVec 64 :=
  BitVec.ofNat 64 ppa.ch * pgsPerChWord spp +
    BitVec.ofNat 64 ppa.lun * pgsPerLunWord spp +
    BitVec.ofNat 64 ppa.pl * pgsPerPlWord spp +
    intProduct ppa.blk spp.pgsPerBlk + BitVec.ofNat 64 ppa.pg

end Words

section PageIndices

variable {ppa ppa' : Ppa} (hfits : AddressFits spp)
include hfits

theorem ttPgs_lt : spp.ttPgs < 2 ^ 64 := by
  have hplanes : spp.plsPerLun * spp.lunsPerCh * spp.nchs ≤
      2 ^ 8 * 2 ^ 8 * 2 ^ 8 :=
    Nat.mul_le_mul (Nat.mul_le_mul hfits.plsPerLun_le hfits.lunsPerCh_le)
      hfits.nchs_le
  calc spp.ttPgs
      = spp.pgsPerPl * (spp.plsPerLun * spp.lunsPerCh * spp.nchs) := by
        simp only [SsdParams.ttPgs, SsdParams.pgsPerCh, SsdParams.pgsPerLun]
        ring
    _ ≤ 2 ^ 31 * (2 ^ 8 * 2 ^ 8 * 2 ^ 8) :=
        Nat.mul_le_mul hfits.pgsPerPl_lt.le hplanes
    _ < 2 ^ 64 := by norm_num

theorem pgsPerPlWord_eq : pgsPerPlWord spp = BitVec.ofNat 64 spp.pgsPerPl :=
  intProduct_eq hfits.pgsPerPl_lt

theorem ttPgsWord_eq : ttPgsWord spp = BitVec.ofNat 64 spp.ttPgs := by
  rw [ttPgsWord, pgsPerChWord, pgsPerLunWord, pgsPerPlWord_eq hfits,
    SsdParams.ttPgs, SsdParams.pgsPerCh, SsdParams.pgsPerLun,
    BitVec.ofNat_mul, BitVec.ofNat_mul, BitVec.ofNat_mul]

theorem ppa2pgidxWord_eq (hppa : validPpa spp ppa = true) :
    ppa2pgidxWord spp ppa = BitVec.ofNat 64 (ppa2pgidx spp ppa) := by
  have hblk : ppa.blk * spp.pgsPerBlk < 2 ^ 31 := by
    simp only [validPpa, Bool.and_eq_true, decide_eq_true_eq] at hppa
    calc ppa.blk * spp.pgsPerBlk
        ≤ spp.blksPerPl * spp.pgsPerBlk :=
          Nat.mul_le_mul_right _ hppa.1.2.le
      _ = spp.pgsPerPl := Nat.mul_comm _ _
      _ < 2 ^ 31 := hfits.pgsPerPl_lt
  rw [ppa2pgidxWord, pgsPerChWord, pgsPerLunWord, pgsPerPlWord_eq hfits,
    intProduct_eq hblk, ppa2pgidx, SsdParams.pgsPerCh, SsdParams.pgsPerLun]
  simp only [BitVec.ofNat_add, BitVec.ofNat_mul]

theorem toNat_ppa2pgidxWord (hppa : validPpa spp ppa = true) :
    (ppa2pgidxWord spp ppa).toNat = ppa2pgidx spp ppa := by
  rw [ppa2pgidxWord_eq hfits hppa, BitVec.toNat_ofNat]
  exact Nat.mod_eq_of_lt ((ppa2pgidx_lt hppa).trans (ttPgs_lt hfits))

theorem ppa2pgidxWord_lt (hppa : validPpa spp ppa = true) :
    ppa2pgidxWord spp ppa < ttPgsWord spp := by
  rw [BitVec.lt_def, toNat_ppa2pgidxWord hfits hppa, ttPgsWord_eq hfits,
    BitVec.toNat_ofNat, Nat.mod_eq_of_lt (ttPgs_lt hfits)]
  exact ppa2pgidx_lt hppa

theorem ppa2pgidxWord_inj (hppa : validPpa spp ppa = true)
    (hppa' : validPpa spp ppa' = true)
    (heq : ppa2pgidxWord spp ppa = ppa2pgidxWord spp ppa') : ppa = ppa' := by
  apply ppa2pgidx_inj hppa hppa'
  rw [← toNat_ppa2pgidxWord hfits hppa, heq, toNat_ppa2pgidxWord hfits hppa']

end PageIndices

/-- In a geometry, the machine computes the page index. -/
theorem Geometry.toNat_ppa2pgidxWord (g : Geometry) {ppa : Ppa}
    (hppa : validPpa g.toSsdParams ppa = true) :
    (ppa2pgidxWord g.toSsdParams ppa).toNat = ppa2pgidx g.toSsdParams ppa :=
  Ftl.toNat_ppa2pgidxWord g.addressFits hppa

/-! ## The pages of a line -/

/-- The states in which a write pointer hands out the pages of a line, in order.
Anything may happen in between that leaves this pointer alone. -/
structure TakesPages (spp : SsdParams) (io : IoType) (line blk : ℕ)
    (states : ℕ → ConvFtl) : Prop where
  fresh : (states 0).getWp io = freshPointer line blk
  moved : ∀ i, i + 1 < spp.pgsPerLine → ∀ st,
    advanceWritePointer spp (states i) io = .ok st →
      (states (i + 1)).getWp io = st.getWp io

/-- The pages handed out are those of the line, each once; the pointer stays on
the line until the last of them and starts on another line after it. -/
structure CoversLine (spp : SsdParams) (io : IoType) (line blk : ℕ)
    (states : ℕ → ConvFtl) : Prop where
  distinct : ∀ i < spp.pgsPerLine, ∀ j < spp.pgsPerLine,
    getNewPage (states i) io = getNewPage (states j) io → i = j
  taken : ∀ i < spp.pgsPerLine, ∃ ch < spp.nchs, ∃ lun < spp.lunsPerCh,
    ∃ pg < spp.pgsPerBlk, getNewPage (states i) io = .ok ⟨ch, lun, 0, blk, pg⟩
  all : ∀ ch < spp.nchs, ∀ lun < spp.lunsPerCh, ∀ pg < spp.pgsPerBlk,
    ∃ i < spp.pgsPerLine,
      getNewPage (states i) io = .ok ⟨ch, lun, 0, blk, pg⟩
  stays : ∀ i, i + 1 < spp.pgsPerLine → ∃ wp : WritePointer,
    advanceWritePointer spp (states i) io = .ok ((states i).setWp wp io) ∧
      wp.curline = line
  leaves : ∀ i, i + 1 = spp.pgsPerLine → ∀ st,
    advanceWritePointer spp (states i) io = .ok st →
      ∃ next rest, (states i).freeLineList = next :: rest ∧
        st.getWp io = freshPointer next ((states i).lines next).id

section Line

variable {io : IoType} {line blk index : ℕ} {states : ℕ → ConvFtl}

/-- The pointer is determined by the number of pages it has passed. -/
theorem StandsAt.unique (h : WriteShape spp) {wp wp' : WritePointer}
    (hat : StandsAt spp line blk index wp)
    (hat' : StandsAt spp line blk index wp') : wp = wp' := by
  obtain ⟨hch, hlun, hpg⟩ := h.writeIndex_inj hat.ch_lt hat.lun_lt hat'.ch_lt
    hat'.lun_lt (hat.index_eq.trans hat'.index_eq.symm)
  have hcurline := hat.curline_eq.trans hat'.curline_eq.symm
  have hblk := hat.blk_eq.trans hat'.blk_eq.symm
  have hpl := hat.pl_eq.trans hat'.pl_eq.symm
  cases wp
  cases wp'
  simp_all

/-- After `i` pages the pointer stands at page `i` of the line. -/
theorem TakesPages.standsAt (htakes : TakesPages spp io line blk states)
    (h : WriteShape spp) :
    ∀ i < spp.pgsPerLine, StandsAt spp line blk i ((states i).getWp io) := by
  intro i
  induction i with
  | zero =>
      intro _
      rw [htakes.fresh]
      exact StandsAt.fresh h line blk
  | succ i ih =>
      intro hi
      obtain ⟨wp, hadvance, hat⟩ := advance_within h (ih (by omega)) hi
      rw [htakes.moved i hi _ hadvance, getWp_setWp]
      exact hat

theorem takesPages_of_standsAt (h : WriteShape spp)
    (hat : ∀ i < spp.pgsPerLine,
      StandsAt spp line blk i ((states i).getWp io)) :
    TakesPages spp io line blk states := by
  have hpos : 0 < spp.pgsPerLine :=
    (Nat.zero_le _).trans_lt
      (h.writeIndex_lt h.nchs_pos h.lunsPerCh_pos h.pgsPerBlk_pos)
  refine ⟨(hat 0 hpos).unique h (StandsAt.fresh h line blk), ?_⟩
  intro i hi st hadvance
  obtain ⟨wp, heq, hnext⟩ := advance_within h (hat i (by omega)) hi
  rw [heq] at hadvance
  cases hadvance
  rw [getWp_setWp]
  exact (hat (i + 1) hi).unique h hnext

/-- The page that a pointer hands out, with room for it in the bit fields. -/
theorem StandsAt.getNewPage {st : ConvFtl} (hfits : AddressFits spp)
    (hblk : blk < spp.blksPerPl)
    (hat : StandsAt spp line blk index (st.getWp io)) :
    Ftl.getNewPage st io = .ok ⟨(st.getWp io).ch, (st.getWp io).lun, 0, blk,
      (st.getWp io).pg⟩ := by
  have hch := hat.ch_lt.trans_le hfits.nchs_le
  have hlun := hat.lun_lt.trans_le hfits.lunsPerCh_le
  have hpg := hat.pg_lt.trans_le hfits.pgsPerBlk_le
  have hblk := hblk.trans_le hfits.blksPerPl_le
  have hpack : Ppa.pack (st.getWp io).ch (st.getWp io).lun (st.getWp io).pl
      (st.getWp io).blk (st.getWp io).pg =
        ⟨(st.getWp io).ch, (st.getWp io).lun, 0, blk, (st.getWp io).pg⟩ := by
    rw [Ppa.pack, hat.pl_eq, hat.blk_eq, Nat.mod_eq_of_lt hch,
      Nat.mod_eq_of_lt hlun, Nat.mod_eq_of_lt hblk, Nat.mod_eq_of_lt hpg,
      Nat.zero_mod]
  simp only [Ftl.getNewPage, hpack, nvmevAssert]
  rfl

theorem TakesPages.coversLine (htakes : TakesPages spp io line blk states)
    (h : WriteShape spp) (hfits : AddressFits spp)
    (hblk : blk < spp.blksPerPl) : CoversLine spp io line blk states := by
  have hat := htakes.standsAt h
  have hpage := fun i hi => (hat i hi).getNewPage hfits hblk
  constructor
  · intro i hi j hj heq
    rw [hpage i hi, hpage j hj] at heq
    obtain ⟨hch, hlun, -, -, hpg⟩ := Ppa.mk.inj (Except.ok.inj heq)
    rw [← (hat i hi).index_eq, ← (hat j hj).index_eq, WritePointer.index,
      WritePointer.index, hch, hlun, hpg]
  · intro i hi
    exact ⟨_, (hat i hi).ch_lt, _, (hat i hi).lun_lt, _, (hat i hi).pg_lt,
      hpage i hi⟩
  · intro ch hch lun hlun pg hpg
    have hi := h.writeIndex_lt hch hlun hpg
    refine ⟨writeIndex spp ch lun pg, hi, ?_⟩
    rw [hpage _ hi, (hat _ hi).unique h
      (⟨rfl, rfl, rfl, hch, hlun, hpg, rfl⟩ :
        StandsAt spp line blk _ ⟨line, ch, lun, pg, blk, 0⟩)]
  · intro i hi
    obtain ⟨wp, hadvance, hnext⟩ := advance_within h (hat i (by omega)) hi
    exact ⟨wp, hadvance, hnext.curline_eq⟩
  · intro i hi st hadvance
    rw [advance_last h (hat i (by omega)) hi] at hadvance
    cases hretire : retireLine spp (states i) line with
    | error fault =>
        rw [hretire] at hadvance
        cases hadvance
    | ok retired =>
        rw [hretire] at hadvance
        obtain ⟨hfree, hlines⟩ := retireLine_free hretire
        rw [← hfree, ← hlines]
        exact openLine_free hadvance

end Line

theorem prepareWritePointer_fresh {st st' : ConvFtl} {io : IoType}
    (hprepare : prepareWritePointer st io = .ok st') :
    ∃ next rest, st.freeLineList = next :: rest ∧
      st'.getWp io = freshPointer next (st.lines next).id := by
  rw [prepareWritePointer, getNextFreeLine] at hprepare
  cases hfree : st.freeLineList with
  | nil =>
      rw [hfree] at hprepare
      cases hprepare
  | cons next rest =>
      rw [hfree] at hprepare
      cases hprepare
      exact ⟨next, rest, rfl, getWp_setWp _ _ io⟩

/-- A geometry that fits the addresses: `prepare_write_pointer` starts on a
fresh line, the pages handed out on a fresh line are all its pages, each once,
before the pointer leaves it, and the page indices are distinct and in range. -/
theorem line_covered_once (h : WriteShape spp) (hfits : AddressFits spp) :
    (∀ io st st', prepareWritePointer st io = .ok st' →
        ∃ next rest, st.freeLineList = next :: rest ∧
          st'.getWp io = freshPointer next (st.lines next).id) ∧
      (∀ io line, ∀ blk < spp.blksPerPl, ∀ states,
        TakesPages spp io line blk states →
          CoversLine spp io line blk states) ∧
      (∀ ppa, validPpa spp ppa = true →
        ppa2pgidxWord spp ppa < ttPgsWord spp) ∧
      ∀ ppa ppa', validPpa spp ppa = true → validPpa spp ppa' = true →
        ppa2pgidxWord spp ppa = ppa2pgidxWord spp ppa' → ppa = ppa' :=
  ⟨fun _ _ _ hprepare => prepareWritePointer_fresh hprepare,
    fun _ _ _ hblk _ htakes => htakes.coversLine h hfits hblk,
    fun _ hppa => ppa2pgidxWord_lt hfits hppa,
    fun _ _ hppa hppa' heq => ppa2pgidxWord_inj hfits hppa hppa' heq⟩

/-- Channels of one die each, with one-shot pages of one page. -/
def channelParams (nchs pgsPerBlk : ℕ) : SsdParams where
  secsPerPg := 8
  pgsPerFlashpg := 1
  flashpgsPerBlk := pgsPerBlk
  pgsPerOneshotpg := 1
  oneshotpgsPerBlk := pgsPerBlk
  pgsPerBlk := pgsPerBlk
  blksPerPl := 4
  plsPerLun := 1
  lunsPerCh := 1
  nchs := nchs

/-- The states of a user pointer on page after page. -/
def channelStates (nchs pgsPerBlk i : ℕ) : ConvFtl :=
  (initTables (channelParams nchs pgsPerBlk)).setWp
    ⟨0, i % nchs, 0, i / nchs, 0, 0⟩ .user

theorem writeShape_channelParams {nchs pgsPerBlk : ℕ} (hnchs : 0 < nchs)
    (hpgs : 0 < pgsPerBlk) : WriteShape (channelParams nchs pgsPerBlk) :=
  ⟨Nat.one_pos, hpgs, Nat.one_dvd _, Nat.one_pos, hnchs⟩

theorem pgsPerLine_channelParams (nchs pgsPerBlk : ℕ) :
    (channelParams nchs pgsPerBlk).pgsPerLine = nchs * pgsPerBlk := by
  simp [channelParams, SsdParams.pgsPerLine, SsdParams.blksPerLine,
    SsdParams.ttLuns]

theorem takesPages_channelStates {nchs pgsPerBlk : ℕ} (hnchs : 0 < nchs)
    (hpgs : 0 < pgsPerBlk) :
    TakesPages (channelParams nchs pgsPerBlk) .user 0 0
      (channelStates nchs pgsPerBlk) := by
  refine takesPages_of_standsAt (writeShape_channelParams hnchs hpgs) ?_
  intro i hi
  rw [pgsPerLine_channelParams] at hi
  refine ⟨rfl, rfl, rfl, Nat.mod_lt _ hnchs, Nat.one_pos,
    Nat.div_lt_of_lt_mul hi, ?_⟩
  rw [channelStates, getWp_setWp, WritePointer.index, writeIndex]
  simp only [channelParams, Nat.div_one, Nat.mul_one, Nat.add_zero,
    Nat.mod_one, Nat.div_add_mod']

theorem line_covered_once_two_channels :
    TakesPages (channelParams 2 2) .user 0 0 (channelStates 2 2) ∧
      CoversLine (channelParams 2 2) .user 0 0 (channelStates 2 2) := by
  have htakes := takesPages_channelStates Nat.two_pos Nat.two_pos
  have hcovered := line_covered_once
    (writeShape_channelParams Nat.two_pos Nat.two_pos)
    ⟨by decide, by decide, by decide, by decide, by decide, by decide⟩
  exact ⟨htakes, hcovered.2.1 .user 0 0 (by decide) _ htakes⟩

/-- With 257 channels of one page each, the channel of the last page does not
fit its bit field, and the first page of the line is handed out again. -/
theorem channel_bits_repeat_page :
    WriteShape (channelParams 257 1) ∧
      TakesPages (channelParams 257 1) .user 0 0 (channelStates 257 1) ∧
      getNewPage (channelStates 257 1 256) .user =
        getNewPage (channelStates 257 1 0) .user ∧
      ¬ CoversLine (channelParams 257 1) .user 0 0 (channelStates 257 1) := by
  have hpack : Ppa.pack 256 0 0 0 0 = Ppa.pack 0 0 0 0 0 := by decide
  have hrepeat : getNewPage (channelStates 257 1 256) .user =
      getNewPage (channelStates 257 1 0) .user := by
    simp only [getNewPage, channelStates, getWp_setWp]
    exact congrArg (fun ppa : Ppa => nvmevAssert (ppa.pl = 0) >>= fun _ =>
      pure ppa) hpack
  refine ⟨writeShape_channelParams (by norm_num) Nat.one_pos,
    takesPages_channelStates (by norm_num) Nat.one_pos, hrepeat, ?_⟩
  intro hcovers
  have hline := pgsPerLine_channelParams 257 1
  have heq := hcovers.distinct 256 (by omega) 0 (by omega) hrepeat
  omega

end NvmeVirt.Ftl
