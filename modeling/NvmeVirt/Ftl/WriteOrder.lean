import NvmeVirt.Ftl.Accounting

/-!
# The order of the write pointer

The write pointer steps through a line page by page: through a one-shot page,
then across the channels, then across the dies, then to the next one-shot page
of the blocks.  `advance_write_pointer` moves it to the next page in the order
of `writeIndex`, and leaves the line after the last one.
-/

namespace NvmeVirt.Ftl

open NvmeVirt.Outcome

variable {spp : SsdParams}

theorem writeIndex_zero (spp : SsdParams) : writeIndex spp 0 0 0 = 0 := by
  simp [writeIndex]

@[simp]
theorem getWp_setWp (st : ConvFtl) (wpp : WritePointer) (io : IoType) :
    (st.setWp wpp io).getWp io = wpp := by
  cases io <;> rfl

/-- The pointer moves to the next page in the write order, or the line is used
up and the pointer is back at the first page. -/
theorem nextPage_spec (h : WriteShape spp) {wp : WritePointer}
    (hch : wp.ch < spp.nchs) (hlun : wp.lun < spp.lunsPerCh)
    (hpg : wp.pg < spp.pgsPerBlk) :
    ∃ wp' usedUp, nextPage spp wp = .ok (wp', usedUp) ∧
      wp'.curline = wp.curline ∧ wp'.blk = wp.blk ∧ wp'.pl = wp.pl ∧
      wp'.ch < spp.nchs ∧ wp'.lun < spp.lunsPerCh ∧ wp'.pg < spp.pgsPerBlk ∧
      (usedUp = false →
        wp'.index spp = wp.index spp + 1) ∧
      (usedUp = true → wp.index spp + 1 = spp.pgsPerLine ∧
        wp'.ch = 0 ∧ wp'.lun = 0 ∧ wp'.pg = 0) := by
  obtain ⟨curline, ch, lun, pg, blk, pl⟩ := wp
  have hone := h.pgsPerOneshotpg_pos
  obtain ⟨shots, hshots, hline⟩ := h.exists_shots
  obtain ⟨q, r, hr, rfl⟩ : ∃ q r, r < spp.pgsPerOneshotpg ∧
      pg = spp.pgsPerOneshotpg * q + r :=
    ⟨pg / spp.pgsPerOneshotpg, pg % spp.pgsPerOneshotpg, Nat.mod_lt _ hone,
      (Nat.div_add_mod _ _).symm⟩
  have hq : q < shots := by
    simp only [hshots] at hpg
    exact Nat.lt_of_mul_lt_mul_left
      (Nat.lt_of_le_of_lt (Nat.le_add_right _ _) hpg)
  -- The first page of one-shot page `shot` of a block.
  have hstart : ∀ shot < shots,
      spp.pgsPerOneshotpg * shot < spp.pgsPerBlk := by
    intro shot hshot
    rw [hshots]
    exact Nat.mul_lt_mul_of_pos_left hshot hone
  have hindexStart : ∀ ch lun shot, writeIndex spp ch lun
      (spp.pgsPerOneshotpg * shot) =
        ((shot * spp.lunsPerCh + lun) * spp.nchs + ch) * spp.pgsPerOneshotpg :=
    fun ch lun shot => h.writeIndex_digits ch lun hone
  have hindex := h.writeIndex_digits (q := q) ch lun hr
  simp only [nextPage, checkAddr, nvmevAssert, WritePointer.index]
  rw [require_bind hpg]
  by_cases hlast : r + 1 = spp.pgsPerOneshotpg
  · have hmod :
        (spp.pgsPerOneshotpg * q + r + 1) % spp.pgsPerOneshotpg = 0 := by
      rw [add_assoc, hlast, Nat.mul_add_mod, Nat.mod_self]
    have hback : spp.pgsPerOneshotpg * q + r + 1 - spp.pgsPerOneshotpg =
        spp.pgsPerOneshotpg * q := by
      omega
    rw [if_neg (not_not.mpr hmod), require_bind hch, hback, hindex, ← hlast]
    by_cases hchLast : ch + 1 = spp.nchs
    · rw [if_neg (not_not.mpr hchLast), require_bind hlun]
      by_cases hlunLast : lun + 1 = spp.lunsPerCh
      · rw [if_neg (not_not.mpr hlunLast), hlast]
        have hnext : spp.pgsPerOneshotpg * q + spp.pgsPerOneshotpg =
            spp.pgsPerOneshotpg * (q + 1) := by
          ring
        by_cases hpgLast : q + 1 = shots
        · rw [if_neg (not_not.mpr (by
            rw [hnext, hpgLast, hshots]))]
          refine ⟨_, true, rfl, rfl, rfl, rfl, h.nchs_pos, h.lunsPerCh_pos,
            h.pgsPerBlk_pos, by simp, ?_⟩
          refine fun _ => ⟨?_, rfl, rfl, rfl⟩
          rw [hline, ← hchLast, ← hlunLast, ← hpgLast, ← hlast]
          ring
        · have hroom := hstart (q + 1) (by omega)
          rw [if_pos (by rw [hnext]; exact hroom.ne)]
          refine ⟨_, false, rfl, rfl, rfl, rfl, h.nchs_pos, h.lunsPerCh_pos,
            by rw [hnext]; exact hroom, ?_, by simp⟩
          intro _
          rw [hnext, hindexStart, ← hchLast, ← hlunLast, ← hlast]
          ring
      · rw [if_pos hlunLast, hlast]
        refine ⟨_, false, rfl, rfl, rfl, rfl, h.nchs_pos,
          Nat.lt_of_le_of_ne hlun hlunLast, hstart q hq, ?_, by simp⟩
        intro _
        rw [hindexStart, ← hchLast, ← hlast]
        ring
    · rw [if_pos hchLast, hlast]
      refine ⟨_, false, rfl, rfl, rfl, rfl, Nat.lt_of_le_of_ne hch hchLast,
        hlun, hstart q hq, ?_, by simp⟩
      intro _
      rw [hindexStart, ← hlast]
      ring
  · have hmod :
        (spp.pgsPerOneshotpg * q + r + 1) % spp.pgsPerOneshotpg ≠ 0 := by
      rw [add_assoc, Nat.mul_add_mod, Nat.mod_eq_of_lt (by omega)]
      omega
    have hroom : spp.pgsPerOneshotpg * q + r + 1 < spp.pgsPerBlk := by
      have hnext := Nat.mul_le_mul_left spp.pgsPerOneshotpg
        (show q + 1 ≤ shots from hq)
      rw [← hshots, Nat.mul_add] at hnext
      omega
    rw [if_pos hmod]
    refine ⟨_, false, rfl, rfl, rfl, rfl, hch, hlun, hroom, ?_, by simp⟩
    intro _
    rw [hindex, add_assoc, h.writeIndex_digits ch lun (by omega)]
    ring

/-! ## One line -/

/-- The write pointer on the first page of a line. -/
def freshPointer (line blk : ℕ) : WritePointer := ⟨line, 0, 0, 0, blk, 0⟩

/-- The write pointer is on the line and has passed `index` of its pages. -/
structure StandsAt (spp : SsdParams) (line blk index : ℕ)
    (wp : WritePointer) : Prop where
  curline_eq : wp.curline = line
  blk_eq : wp.blk = blk
  pl_eq : wp.pl = 0
  ch_lt : wp.ch < spp.nchs
  lun_lt : wp.lun < spp.lunsPerCh
  pg_lt : wp.pg < spp.pgsPerBlk
  index_eq : wp.index spp = index

section Line

variable {line blk index : ℕ} {st st' : ConvFtl} {io : IoType}

theorem StandsAt.fresh (h : WriteShape spp) (line blk : ℕ) :
    StandsAt spp line blk 0 (freshPointer line blk) :=
  ⟨rfl, rfl, rfl, h.nchs_pos, h.lunsPerCh_pos, h.pgsPerBlk_pos,
    writeIndex_zero spp⟩

/-- Before the last page, `advance_write_pointer` succeeds and only moves the
pointer on. -/
theorem advance_within (h : WriteShape spp)
    (hat : StandsAt spp line blk index (st.getWp io))
    (hindex : index + 1 < spp.pgsPerLine) :
    ∃ wp, advanceWritePointer spp st io = .ok (st.setWp wp io) ∧
      StandsAt spp line blk (index + 1) wp := by
  obtain ⟨wp, usedUp, hnext, hcurline, hblk, hpl, hch, hlun, hpg, hwithin,
    hover⟩ := nextPage_spec h hat.ch_lt hat.lun_lt hat.pg_lt
  rw [hat.index_eq] at hwithin hover
  cases usedUp with
  | false =>
      refine ⟨wp, ?_, hcurline.trans hat.curline_eq, hblk.trans hat.blk_eq,
        hpl.trans hat.pl_eq, hch, hlun, hpg, hwithin rfl⟩
      simp only [advanceWritePointer, hnext]
      rfl
  | true =>
      have hlast := (hover rfl).1
      omega

/-- On the last page, `advance_write_pointer` retires the line and goes on to
another one. -/
theorem advance_last (h : WriteShape spp)
    (hat : StandsAt spp line blk index (st.getWp io))
    (hindex : index + 1 = spp.pgsPerLine) :
    advanceWritePointer spp st io = (retireLine spp st line >>= fun st =>
      openLine spp st (freshPointer line blk) io) := by
  obtain ⟨wp, usedUp, hnext, hcurline, hblk, hpl, hch, hlun, hpg, hwithin,
    hover⟩ := nextPage_spec h hat.ch_lt hat.lun_lt hat.pg_lt
  rw [hat.index_eq] at hwithin hover
  cases usedUp with
  | false =>
      have hlt : wp.index spp < spp.pgsPerLine := h.writeIndex_lt hch hlun hpg
      rw [hwithin rfl] at hlt
      omega
  | true =>
      obtain ⟨-, hch, hlun, hpg⟩ := hover rfl
      have hwp : wp = freshPointer line blk := by
        rw [hat.curline_eq] at hcurline
        rw [hat.blk_eq] at hblk
        rw [hat.pl_eq] at hpl
        cases wp
        simp_all [freshPointer]
      simp only [advanceWritePointer, hnext, hwp]
      rfl

theorem retireLine_free (hretire : retireLine spp st line = .ok st') :
    st'.freeLineList = st.freeLineList ∧ st'.lines = st.lines := by
  simp only [retireLine, nvmevAssert] at hretire
  split at hretire
  · obtain ⟨-, heq⟩ := require_bind_eq_ok.mp hretire
    cases heq
    exact ⟨rfl, rfl⟩
  · obtain ⟨-, hretire⟩ := require_bind_eq_ok.mp hretire
    obtain ⟨-, heq⟩ := require_bind_eq_ok.mp hretire
    cases heq
    exact ⟨rfl, rfl⟩

/-- The line that is opened is the first free one. -/
theorem openLine_free (hopen : openLine spp st (freshPointer line blk) io =
      .ok st') :
    ∃ next rest, st.freeLineList = next :: rest ∧
      st'.getWp io = freshPointer next (st.lines next).id := by
  simp only [openLine, checkAddr, nvmevAssert] at hopen
  obtain ⟨-, hopen⟩ := require_bind_eq_ok.mp hopen
  rw [getNextFreeLine] at hopen
  cases hfree : st.freeLineList with
  | nil =>
      rw [hfree] at hopen
      cases hopen
  | cons next rest =>
      rw [hfree] at hopen
      simp only [require_bind_eq_ok] at hopen
      obtain ⟨-, -, -, -, -, heq⟩ := hopen
      cases heq
      exact ⟨next, rest, rfl, getWp_setWp _ _ io⟩

end Line

end NvmeVirt.Ftl
