import NvmeVirt.Csd.Priorities

/-!
# Victims under reversed priorities

While the cost model reverses the priorities, the eviction loop still scans for
its victim in the order of `lower` and only asks `lower_reverse` whether to
stop.  Blocks for the next iteration go first in both orders.  After them the
scan finds the blocks of rows that are not aggregated, although prefetched
normal blocks rank below these in the reversed order.
-/

namespace NvmeVirt.Csd

variable {aggregated : ℤ → Bool}

/-- The rounds of the eviction loop that evict or shrink a unit: the units that
are resident at the time, and the one that the round takes. -/
def evictions (params : EvictionParams) (aggregated : ℤ → Bool)
    (inserted : EdgeBufferUnit) (isPrefetch : ℤ) :
    ℕ → EdgeBuffer → List (List EdgeBufferUnit × EdgeBufferUnit)
  | 0, _ => []
  | rounds + 1, buf =>
      let position := victim params.cacheEvictionPolicy aggregated buf.units
      match buf.units[position]? with
      | none => []
      | some unit =>
          if longLong (buf.size + inserted.size) ≤ buf.capacity then []
          else if skipsEviction buf aggregated inserted unit isPrefetch then []
          else if params.partialEdgeEviction ∧
              longLong (buf.size - unit.size + inserted.size) < buf.capacity
          then [(buf.units, unit)]
          else (buf.units, unit) ::
            evictions params aggregated inserted isPrefetch rounds
              (buf.delete position unit)

/-- A round of the loop takes the unit at a position. -/
structure Takes (params : EvictionParams) (aggregated : ℤ → Bool)
    (inserted : EdgeBufferUnit) (isPrefetch : ℤ) (buf : EdgeBuffer)
    (position : ℕ) (unit : EdgeBufferUnit) : Prop where
  position_eq :
    position = victim params.cacheEvictionPolicy aggregated buf.units
  getElem_eq : buf.units[position]? = some unit
  exceeds : buf.capacity < longLong (buf.size + inserted.size)
  evicts : ¬ skipsEviction buf aggregated inserted unit isPrefetch

/-- A part of the unit is enough. -/
def Shrinks (params : EvictionParams) (inserted : EdgeBufferUnit)
    (buf : EdgeBuffer) (unit : EdgeBufferUnit) : Prop :=
  params.partialEdgeEviction ∧
    longLong (buf.size - unit.size + inserted.size) < buf.capacity

section Rounds

variable (params : EvictionParams) (aggregated) (inserted : EdgeBufferUnit)
  (isPrefetch : ℤ) (rounds : ℕ) (buf : EdgeBuffer)

/-- What a round does: it ends the loop, shrinks a unit and ends it, or deletes
a unit. -/
theorem round_cases :
    let loop := evictLoop params aggregated inserted isPrefetch
    let log := evictions params aggregated inserted isPrefetch
    (loop (rounds + 1) buf = buf ∧ log (rounds + 1) buf = [] ∧
      ∀ position unit,
        ¬ Takes params aggregated inserted isPrefetch buf position unit) ∨
    ∃ position unit,
      Takes params aggregated inserted isPrefetch buf position unit ∧
      (Shrinks params inserted buf unit ∧
        loop (rounds + 1) buf = buf.shrink position
          (longLong (buf.size + inserted.size - buf.capacity)) ∧
        log (rounds + 1) buf = [(buf.units, unit)] ∨
      ¬ Shrinks params inserted buf unit ∧
        loop (rounds + 1) buf = loop rounds (buf.delete position unit) ∧
        log (rounds + 1) buf =
          (buf.units, unit) :: log rounds (buf.delete position unit)) := by
  intro loop log
  let position := victim params.cacheEvictionPolicy aggregated buf.units
  rcases hunit : buf.units[position]? with _ | unit
  · refine .inl ⟨?_, ?_, ?_⟩
    · simp only [loop, evictLoop, position, hunit]
    · simp only [log, evictions, position, hunit]
    · rintro position' unit ⟨rfl, hsome, -, -⟩
      rw [hunit] at hsome
      cases hsome
  by_cases hroom : longLong (buf.size + inserted.size) ≤ buf.capacity
  · refine .inl ⟨?_, ?_, ?_⟩
    · simp only [loop, evictLoop, position, hunit, hroom, if_true]
    · simp only [log, evictions, position, hunit, hroom, if_true]
    · rintro position' unit ⟨-, -, hexceeds, -⟩
      exact absurd hroom (not_le.mpr hexceeds)
  by_cases hskips :
      skipsEviction buf aggregated inserted unit isPrefetch = true
  · refine .inl ⟨?_, ?_, ?_⟩
    · simp only [loop, evictLoop, position, hunit, hroom, hskips, if_true,
        if_false]
    · simp only [log, evictions, position, hunit, hroom, hskips, if_true,
        if_false]
    · rintro position' unit' ⟨rfl, hsome, -, hevicts⟩
      rw [hunit] at hsome
      cases hsome
      exact hevicts hskips
  refine .inr ⟨position, unit, ⟨rfl, hunit, not_le.mp hroom, hskips⟩, ?_⟩
  by_cases hshrinks : Shrinks params inserted buf unit
  · refine .inl ⟨hshrinks, ?_, ?_⟩
    · simp only [loop, evictLoop, position, hunit, hroom, hskips, hshrinks.1,
        not_le.mpr hshrinks.2, Bool.false_eq_true, if_true, if_false]
    · simp only [log, evictions, position, hunit, hroom, hskips,
        Bool.false_eq_true, if_false]
      exact if_pos hshrinks
  · refine .inr ⟨hshrinks, ?_, ?_⟩
    · simp only [loop, evictLoop, position, hunit, hroom, hskips,
        Bool.false_eq_true, if_false]
      split
      · rename_i hpart
        exact if_pos (not_lt.mp fun hlt => hshrinks ⟨hpart, hlt⟩)
      · rfl
    · simp only [log, evictions, position, hunit, hroom, hskips,
        Bool.false_eq_true, if_false]
      exact if_neg hshrinks

end Rounds

section Log

variable {params : EvictionParams} {inserted : EdgeBufferUnit} {isPrefetch : ℤ}
  {rounds : ℕ} {buf : EdgeBuffer}

/-- A unit that no round takes stays in the buffer as it is. -/
theorem mem_evictLoop {unit : EdgeBufferUnit} (hunit : unit ∈ buf.units)
    (hleft : ∀ round ∈ evictions params aggregated inserted isPrefetch rounds
      buf, round.2 ≠ unit) :
    unit ∈ (evictLoop params aggregated inserted isPrefetch rounds buf).units
    := by
  induction rounds generalizing buf with
  | zero => exact hunit
  | succ rounds ih =>
      rcases round_cases aggregated params inserted isPrefetch rounds buf with
        ⟨hloop, -, -⟩ | ⟨position, taken, htakes, hround⟩
      · rwa [hloop]
      obtain ⟨front, back, hsplit, hposition⟩ := exists_split htakes.getElem_eq
      have hrest : taken ≠ unit → unit ∈ front ++ back := by
        intro hne
        rw [hsplit, List.mem_append, List.mem_cons] at hunit
        rw [List.mem_append]
        rcases hunit with hfront | rfl | hback
        · exact .inl hfront
        · exact absurd rfl hne
        · exact .inr hback
      rcases hround with ⟨-, hloop, hlog⟩ | ⟨-, hloop, hlog⟩
      · rw [hlog] at hleft
        have hmem := hrest (hleft _ List.mem_cons_self)
        rw [hloop, EdgeBuffer.shrink, hsplit, hposition, modify_split]
        rw [List.mem_append] at hmem
        simp only [List.mem_append, List.mem_cons]
        exact hmem.imp id .inr
      · rw [hlog] at hleft
        have hmem := hrest (hleft _ List.mem_cons_self)
        rw [hloop]
        refine ih ?_ fun round hround =>
          hleft round (List.mem_cons_of_mem _ hround)
        rw [EdgeBuffer.delete, hsplit, hposition, eraseIdx_split]
        exact hmem

end Log

/-! ## The order of the victims -/

/-- The unit that a round takes has the lowest rank in the reversed order, and
no block that is not ready goes before a prefetched normal one. -/
def InReverseOrder (aggregated : ℤ → Bool)
    (round : List EdgeBufferUnit × EdgeBufferUnit) : Prop :=
  (∀ other ∈ round.1,
    reverseRank aggregated round.2 ≤ reverseRank aggregated other) ∧
  (unexecutable aggregated round.2 →
    ∀ other ∈ round.1, other.isPrefetchedNormal ≠ 1)

instance (aggregated : ℤ → Bool)
    (round : List EdgeBufferUnit × EdgeBufferUnit) :
    Decidable (InReverseOrder aggregated round) :=
  inferInstanceAs (Decidable (_ ∧ _))

/-- The blocks that are prefetched for the next iteration. -/
def nextIteration (units : List EdgeBufferUnit) : List EdgeBufferUnit :=
  units.filter fun unit => unit.isPrefetchedNormal = 2

/-- Evicting the blocks of the next iteration, the last one first, makes no room
for the inserted unit at any point. -/
def ExceedsWithoutNext (buf : EdgeBuffer) (inserted : EdgeBufferUnit) : Prop :=
  ∀ removed, removed <+: (nextIteration buf.units).reverse →
    buf.capacity < longLong
      (buf.size - (removed.map EdgeBufferUnit.size).sum + inserted.size)

/-- A future block is inserted while blocks that are not ready and prefetched
normal blocks are resident, and the next iteration does not make room for it. -/
structure ReachesUnexecutable (aggregated : ℤ → Bool)
    (inserted : EdgeBufferUnit) (buf : EdgeBuffer) : Prop where
  future : 2 ≤ reverseRank aggregated inserted
  exists_unexecutable : ∃ unit ∈ buf.units, unexecutable aggregated unit
  exists_normal : ∃ unit ∈ buf.units, unit.isPrefetchedNormal = 1
  exceeds : ExceedsWithoutNext buf inserted

section Ranks

variable {unit : EdgeBufferUnit}

theorem rank_eq_zero_iff :
    rank aggregated unit = 0 ↔ unit.isPrefetchedNormal = 2 := by
  rw [rank]
  split_ifs <;> simp [*]

theorem rank_le_one_iff :
    rank aggregated unit ≤ 1 ↔
      unit.isPrefetchedNormal = 2 ∨ unexecutable aggregated unit := by
  rw [rank]
  split_ifs <;> simp [*]

theorem reverseRank_of_unexecutable (hunit : unexecutable aggregated unit) :
    reverseRank aggregated unit = 2 := by
  have hkind := hunit.1
  rw [reverseRank, if_neg (by omega), if_neg (by omega), if_pos hunit]

theorem rank_of_unexecutable (hunit : unexecutable aggregated unit) :
    rank aggregated unit = 1 := by
  have hkind := hunit.1
  rw [rank, if_neg (by omega), if_pos hunit]

/-- A unit of the lowest rank in the order of `lower` has the lowest rank in the
reversed order, unless it is not ready and a prefetched normal block is there.
-/
theorem inReverseOrder_iff {units : List EdgeBufferUnit}
    (hrank : ∀ other ∈ units, rank aggregated unit ≤ rank aggregated other) :
    InReverseOrder aggregated (units, unit) ↔
      (unexecutable aggregated unit →
        ∀ other ∈ units, other.isPrefetchedNormal ≠ 1) := by
  refine ⟨fun horder => horder.2, fun hnormal => ⟨?_, hnormal⟩⟩
  intro other hother
  have hle := hrank other hother
  by_cases hunit : unexecutable aggregated unit
  · rw [rank_of_unexecutable hunit] at hle
    have hnext : other.isPrefetchedNormal ≠ 2 := fun hkind => by
      rw [rank_eq_zero_iff.mpr hkind] at hle
      omega
    rw [reverseRank_of_unexecutable hunit, reverseRank, if_neg hnext,
      if_neg (hnormal hunit other hother)]
    split_ifs <;> omega
  · simp only [rank, reverseRank, if_neg hunit] at hle ⊢
    split_ifs at hle ⊢ <;> simp_all

end Ranks

section Exceeds

variable {buf : EdgeBuffer} {inserted unit : EdgeBufferUnit}

theorem longLong_sub_add (left middle right : ℤ) :
    longLong (longLong left - middle + right) =
      longLong (left - middle + right) := by
  unfold longLong
  rw [sub_add_eq_add_sub, sub_add_eq_add_sub, ← Int.bmod_sub_bmod,
    Int.bmod_add_bmod, Int.bmod_sub_bmod]

theorem ExceedsWithoutNext.now (h : ExceedsWithoutNext buf inserted) :
    buf.capacity < longLong (buf.size + inserted.size) := by
  have := h [] List.nil_prefix
  simpa using this

/-- The last block of the next iteration goes first. -/
theorem exceeds_delete_iff {front back : List EdgeBufferUnit}
    (hsplit : buf.units = front ++ unit :: back)
    (hnext : unit.isPrefetchedNormal = 2)
    (hlast : ∀ other ∈ back, other.isPrefetchedNormal ≠ 2) :
    ExceedsWithoutNext buf inserted ↔
      buf.capacity < longLong (buf.size + inserted.size) ∧
        ExceedsWithoutNext (buf.delete front.length unit) inserted := by
  have hback : nextIteration back = [] :=
    List.filter_eq_nil_iff.mpr (by simpa using hlast)
  have hunits : (nextIteration buf.units).reverse =
      unit :: (nextIteration front).reverse := by
    rw [nextIteration, hsplit, List.filter_append,
      List.filter_cons_of_pos (by simpa using hnext)]
    change (nextIteration front ++ unit :: nextIteration back).reverse = _
    rw [hback, List.reverse_append]
    rfl
  have hrest : (nextIteration (buf.delete front.length unit).units).reverse =
      (nextIteration front).reverse := by
    rw [EdgeBuffer.delete, hsplit, eraseIdx_split, nextIteration,
      List.filter_append]
    change (nextIteration front ++ nextIteration back).reverse = _
    rw [hback, List.append_nil]
  have hsize : ∀ removed : List EdgeBufferUnit,
      longLong ((buf.delete front.length unit).size -
          (removed.map EdgeBufferUnit.size).sum + inserted.size) =
        longLong (buf.size - ((unit :: removed).map EdgeBufferUnit.size).sum +
          inserted.size) := by
    intro removed
    rw [EdgeBuffer.delete, longLong_sub_add, List.map_cons, List.sum_cons]
    congr 1
    ring
  constructor
  · intro h
    refine ⟨h.now, fun removed hremoved => ?_⟩
    rw [hsize]
    apply h
    rw [hunits, List.cons_prefix_cons]
    exact ⟨rfl, hrest ▸ hremoved⟩
  · rintro ⟨hnow, h⟩ removed hremoved
    rw [hunits, List.prefix_cons_iff] at hremoved
    rcases hremoved with rfl | ⟨rest, rfl, hrest'⟩
    · simpa using hnow
    · rw [← hsize]
      exact h rest (hrest ▸ hrest')

end Exceeds

section Reversed

variable {params : EvictionParams} {inserted : EdgeBufferUnit} {isPrefetch : ℤ}
  {buf : EdgeBuffer} {position : ℕ} {unit : EdgeBufferUnit}

theorem skipsEviction_reversed (hreverse : buf.prReverse = true)
    (hprefetch : isPrefetch ≠ 0) :
    skipsEviction buf aggregated inserted unit isPrefetch = true ↔
      lowerReverse inserted unit aggregated = true := by
  rw [skipsEviction, if_pos hreverse]
  simp [hprefetch]

theorem Takes.chosen (hpolicy : params.cacheEvictionPolicy = "PRIORITY")
    (htakes : Takes params aggregated inserted isPrefetch buf position unit) :
    Chosen aggregated buf.units position unit := by
  have hunits : buf.units ≠ [] :=
    List.ne_nil_of_mem (List.mem_of_getElem? htakes.getElem_eq)
  obtain ⟨unit', hchosen⟩ := priority_chosen aggregated hunits
  rw [← hpolicy, ← htakes.position_eq] at hchosen
  have heq := hchosen.getElem_eq
  rw [htakes.getElem_eq] at heq
  rwa [Option.some.inj heq]

/-- The blocks of the next iteration leave the rest as it is. -/
theorem reachesUnexecutable_delete_iff
    (hpolicy : params.cacheEvictionPolicy = "PRIORITY")
    (htakes : Takes params aggregated inserted isPrefetch buf position unit)
    (hnext : unit.isPrefetchedNormal = 2) :
    ReachesUnexecutable aggregated inserted (buf.delete position unit) ↔
      ReachesUnexecutable aggregated inserted buf := by
  have hchosen := htakes.chosen hpolicy
  obtain ⟨front, back, hsplit, hposition⟩ := exists_split htakes.getElem_eq
  have hlast : ∀ other ∈ back, other.isPrefetchedNormal ≠ 2 := by
    intro other hother hkind
    obtain ⟨i, hi, rfl⟩ := List.getElem_of_mem hother
    have hrank : rank aggregated unit = 0 := rank_eq_zero_iff.mpr hnext
    have hafter := hchosen.last (.inl hrank) (front.length + (i + 1)) back[i]
      (by rw [hsplit, List.getElem?_append_right (by omega)]; simp [hi])
      (by rw [hrank, rank_eq_zero_iff.mpr hkind])
    omega
  have hmem : ∀ other, other.isPrefetchedNormal ≠ 2 →
      (other ∈ (buf.delete position unit).units ↔ other ∈ buf.units) := by
    intro other hkind
    rw [EdgeBuffer.delete, hposition, hsplit, eraseIdx_split, List.mem_append,
      List.mem_append, List.mem_cons]
    have hne : other ≠ unit := fun heq => hkind (heq ▸ hnext)
    simp [hne]
  have hexceeds := @exceeds_delete_iff buf inserted unit front back hsplit
    hnext hlast
  rw [← hposition] at hexceeds
  constructor
  · rintro ⟨hfuture, ⟨other, hother, hready⟩, ⟨normal, hnormal, hkind⟩, hrest⟩
    refine ⟨hfuture, ⟨other, (hmem other ?_).mp hother, hready⟩,
      ⟨normal, (hmem normal ?_).mp hnormal, hkind⟩,
      hexceeds.mpr ⟨htakes.exceeds, hrest⟩⟩
    · rw [hready.1]
      decide
    · rw [hkind]
      decide
  · rintro ⟨hfuture, ⟨other, hother, hready⟩, ⟨normal, hnormal, hkind⟩, hrest⟩
    refine ⟨hfuture, ⟨other, (hmem other ?_).mpr hother, hready⟩,
      ⟨normal, (hmem normal ?_).mpr hnormal, hkind⟩, (hexceeds.mp hrest).2⟩
    · rw [hready.1]
      decide
    · rw [hkind]
      decide

variable (hreverse : buf.prReverse = true) (hprefetch : isPrefetch ≠ 0)
include hreverse hprefetch

/-- A round that takes a block that is not ready beside a prefetched normal
block. -/
theorem Takes.reachesUnexecutable
    (htakes : Takes params aggregated inserted isPrefetch buf position unit)
    (hrank : ∀ other ∈ buf.units, rank aggregated unit ≤ rank aggregated other)
    (hunit : unexecutable aggregated unit)
    (hnormal : ∃ other ∈ buf.units, other.isPrefetchedNormal = 1) :
    ReachesUnexecutable aggregated inserted buf := by
  have hevicts := htakes.evicts
  rw [skipsEviction_reversed hreverse hprefetch, lowerReverse_iff,
    reverseRank_of_unexecutable hunit] at hevicts
  have hnone : nextIteration buf.units = [] := by
    apply List.filter_eq_nil_iff.mpr
    intro other hother hkind
    have hle := hrank other hother
    rw [rank_of_unexecutable hunit,
      rank_eq_zero_iff.mpr (of_decide_eq_true hkind)] at hle
    omega
  refine ⟨by omega, ⟨unit, List.mem_of_getElem? htakes.getElem_eq, hunit⟩,
    hnormal, ?_⟩
  intro removed hremoved
  rw [hnone, List.reverse_nil, List.prefix_nil] at hremoved
  subst hremoved
  simpa using htakes.exceeds

/-- As long as nothing has made room, the loop goes on. -/
theorem ReachesUnexecutable.takes
    (hpolicy : params.cacheEvictionPolicy = "PRIORITY")
    (hreaches : ReachesUnexecutable aggregated inserted buf) :
    ∃ position unit,
      Takes params aggregated inserted isPrefetch buf position unit ∧
        rank aggregated unit ≤ 1 := by
  obtain ⟨other, hother, hready⟩ := hreaches.exists_unexecutable
  obtain ⟨unit, hchosen⟩ :=
    priority_chosen aggregated (List.ne_nil_of_mem hother)
  have hle := hchosen.rank_le other hother
  rw [rank_of_unexecutable hready] at hle
  refine ⟨_, unit, ⟨by rw [hpolicy], hchosen.getElem_eq,
    hreaches.exceeds.now, ?_⟩, hle⟩
  rw [skipsEviction_reversed hreverse hprefetch, lowerReverse_iff]
  have hfuture := hreaches.future
  have hvictim : reverseRank aggregated unit ≤ 2 := by
    rcases rank_le_one_iff.mp hle with hkind | hunit
    · rw [reverseRank, if_pos hkind]
      omega
    · rw [reverseRank_of_unexecutable hunit]
  omega

theorem evictions_inReverseOrder_iff
    (hpolicy : params.cacheEvictionPolicy = "PRIORITY") {rounds : ℕ}
    (hrounds : buf.units.length ≤ rounds) :
    (∀ round ∈ evictions params aggregated inserted isPrefetch rounds buf,
        InReverseOrder aggregated round) ↔
      ¬ ReachesUnexecutable aggregated inserted buf := by
  induction rounds generalizing buf with
  | zero =>
      have hempty : buf.units = [] := List.eq_nil_of_length_eq_zero (by omega)
      constructor
      · rintro - ⟨-, ⟨unit, hunit, -⟩, -, -⟩
        rw [hempty] at hunit
        cases hunit
      · rintro - round hround
        cases hround
  | succ rounds ih =>
      rcases round_cases aggregated params inserted isPrefetch rounds buf with
        ⟨-, hlog, hstops⟩ | ⟨position, unit, htakes, hround⟩
      · rw [hlog]
        refine ⟨fun _ hreaches => ?_, fun _ round hround => by cases hround⟩
        obtain ⟨position, unit, htakes, -⟩ :=
          hreaches.takes hreverse hprefetch hpolicy
        exact hstops position unit htakes
      have hchosen := htakes.chosen hpolicy
      have horder := inReverseOrder_iff hchosen.rank_le
      have hreaches : unexecutable aggregated unit →
          (∃ other ∈ buf.units, other.isPrefetchedNormal = 1) →
            ReachesUnexecutable aggregated inserted buf :=
        htakes.reachesUnexecutable hreverse hprefetch hchosen.rank_le
      have hlowest : ReachesUnexecutable aggregated inserted buf →
          unit.isPrefetchedNormal = 2 ∨ unexecutable aggregated unit := by
        rintro ⟨-, ⟨other, hother, hready⟩, -, -⟩
        rw [← rank_le_one_iff, ← rank_of_unexecutable hready]
        exact hchosen.rank_le other hother
      rcases hround with ⟨hshrinks, -, hlog⟩ | ⟨-, -, hlog⟩
      · rw [hlog, List.forall_mem_singleton, horder]
        constructor
        · intro hnormal hbuf
          rcases hlowest hbuf with hnext | hready
          · -- the sum that the loop tests next does not exceed the capacity
            have hnow := ((reachesUnexecutable_delete_iff hpolicy htakes
              hnext).mpr hbuf).exceeds.now
            have hsize := longLong_sub_add (buf.size - unit.size) 0
              inserted.size
            rw [sub_zero, sub_zero] at hsize
            rw [EdgeBuffer.delete, hsize] at hnow
            exact lt_asymm hnow hshrinks.2
          · obtain ⟨other, hother, hkind⟩ := hbuf.exists_normal
            exact hnormal hready other hother hkind
        · intro hnot hready other hother hkind
          exact hnot (hreaches hready ⟨other, hother, hkind⟩)
      · have hposition := (List.getElem?_eq_some_iff.mp htakes.getElem_eq).1
        have hlength : (buf.delete position unit).units.length ≤ rounds := by
          rw [EdgeBuffer.delete, List.length_eraseIdx_of_lt hposition]
          omega
        have hsubset : ∀ other ∈ (buf.delete position unit).units,
            other ∈ buf.units := fun other => List.mem_of_mem_eraseIdx
        have hrest := @ih (buf.delete position unit) hreverse hlength
        rw [hlog, List.forall_mem_cons, horder, hrest]
        by_cases hnext : unit.isPrefetchedNormal = 2
        · rw [reachesUnexecutable_delete_iff hpolicy htakes hnext]
          refine ⟨fun h => h.2, fun hnot => ⟨fun hready => ?_, hnot⟩⟩
          rw [hready.1] at hnext
          exact absurd hnext (by decide)
        by_cases hready : unexecutable aggregated unit
        · constructor
          · rintro ⟨hnormal, -⟩ hbuf
            obtain ⟨other, hother, hkind⟩ := hbuf.exists_normal
            exact hnormal hready other hother hkind
          · intro hnot
            have hnormal : ∀ other ∈ buf.units, other.isPrefetchedNormal ≠ 1 :=
              fun other hother hkind =>
                hnot (hreaches hready ⟨other, hother, hkind⟩)
            refine ⟨fun _ => hnormal, fun hrest => ?_⟩
            obtain ⟨other, hother, hkind⟩ := hrest.exists_normal
            exact hnormal other (hsubset other hother) hkind
        · refine ⟨fun _ hbuf => (hlowest hbuf).elim hnext hready, fun _ => ?_⟩
          refine ⟨fun h => absurd h hready, fun hrest => ?_⟩
          obtain ⟨other, hother, hother'⟩ := hrest.exists_unexecutable
          have hle := hchosen.rank_le other (hsubset other hother)
          rw [rank_of_unexecutable hother', rank_le_one_iff] at hle
          exact hle.elim hnext hready

end Reversed

/-- With the priorities reversed, a prefetch takes its victims in the reversed
order exactly if it is not one of a future block that gets past the blocks of
the next iteration while blocks that are not ready and prefetched normal blocks
are resident. -/
theorem reversed_victims_iff {params : EvictionParams}
    (hpolicy : params.cacheEvictionPolicy = "PRIORITY") {buf : EdgeBuffer}
    (hreverse : buf.prReverse = true) (aggregated : ℤ → Bool)
    (inserted : EdgeBufferUnit) {isPrefetch : ℤ} (hprefetch : isPrefetch ≠ 0) :
    (∀ round ∈ evictions params aggregated inserted isPrefetch
        buf.units.length buf, InReverseOrder aggregated round) ↔
      ¬ ReachesUnexecutable aggregated inserted buf :=
  evictions_inReverseOrder_iff hreverse hprefetch hpolicy le_rfl

/-- A block that is not ready, a prefetched normal block and one for the next
iteration. -/
def mixedBuffer : EdgeBuffer :=
  ⟨[⟨0, 0, 4096, 0⟩, ⟨1, 1, 4096, 1⟩, ⟨3, 3, 4096, 2⟩], 12288, 12288, 0, 0, true⟩

/-- A future block takes the place of the one for the next iteration. -/
theorem reversed_victims_iff_next :
    evictions ⟨12288, "PRIORITY", true⟩ (fun _ => false) ⟨2, 2, 4096, 0⟩ 1 3
        mixedBuffer = [(mixedBuffer.units, ⟨3, 3, 4096, 2⟩)] ∧
      ¬ ReachesUnexecutable (fun _ => false) ⟨2, 2, 4096, 0⟩ mixedBuffer :=
  ⟨by decide, (@reversed_victims_iff ⟨12288, "PRIORITY", true⟩ rfl mixedBuffer
    rfl (fun _ => false) ⟨2, 2, 4096, 0⟩ 1 (by decide)).mp (by decide)⟩

/-- A larger one goes on to evict the block that is not ready, beside a
prefetched normal block. -/
theorem reversed_victims_unexecutable :
    let log := evictions ⟨12288, "PRIORITY", true⟩ (fun _ => false)
      ⟨2, 2, 8192, 0⟩ 1 mixedBuffer.units.length mixedBuffer
    ¬ ∀ round ∈ log, InReverseOrder (fun _ => false) round := by
  decide

end NvmeVirt.Csd
