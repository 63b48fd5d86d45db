import NvmeVirt.Csd.EdgeAccess

/-!
# Priorities of cached edge blocks

Both comparisons of the edge buffer order its units by a rank.  Units of one
rank are evicted from the tail of the list if the comparison holds between them
and from its head if it does not.  A prefetch stops at the first victim that
ranks above it.
-/

namespace NvmeVirt.Csd

variable {aggregated : ℤ → Bool}

/-- A block for a future value whose source row has not been aggregated. -/
def unexecutable (aggregated : ℤ → Bool) (unit : EdgeBufferUnit) : Prop :=
  unit.isPrefetchedNormal = 0 ∧ !aggregated unit.r

instance (aggregated : ℤ → Bool) (unit : EdgeBufferUnit) :
    Decidable (unexecutable aggregated unit) :=
  inferInstanceAs (Decidable (_ ∧ _))

/-- The rank of a unit in the order of `lower`: blocks prefetched for the next
iteration, blocks of rows that are not aggregated, prefetched normal blocks,
and blocks of aggregated rows. -/
def rank (aggregated : ℤ → Bool) (unit : EdgeBufferUnit) : ℕ :=
  if unit.isPrefetchedNormal = 2 then 0
  else if unexecutable aggregated unit then 1
  else if unit.isPrefetchedNormal = 1 then 2
  else 3

/-- The rank in the order of `lower_reverse`, where prefetched normal blocks
come before those that are not ready. -/
def reverseRank (aggregated : ℤ → Bool) (unit : EdgeBufferUnit) : ℕ :=
  if unit.isPrefetchedNormal = 2 then 0
  else if unit.isPrefetchedNormal = 1 then 1
  else if unexecutable aggregated unit then 2
  else 3

/-- Units of the ranks 0 and 2 are evicted last in, first out. -/
def lifo (rank : ℕ) : Prop := rank = 0 ∨ rank = 2

instance (rank : ℕ) : Decidable (lifo rank) := inferInstanceAs (Decidable (_ ∨ _))

theorem lower_iff (unit evictUnit : EdgeBufferUnit) :
    lower unit evictUnit aggregated = true ↔
      rank aggregated unit < rank aggregated evictUnit ∨
        rank aggregated unit = rank aggregated evictUnit ∧
          lifo (rank aggregated unit) := by
  change (if unit.isPrefetchedNormal = 2 then true
    else if evictUnit.isPrefetchedNormal = 2 then false
    else if unexecutable aggregated evictUnit then false
    else if unexecutable aggregated unit then true
    else if unit.isPrefetchedNormal = 1 then true else false) = true ↔ _
  simp only [rank, lifo]
  split_ifs <;> simp

theorem lowerReverse_iff (unit evictUnit : EdgeBufferUnit) :
    lowerReverse unit evictUnit aggregated = true ↔
      reverseRank aggregated unit < reverseRank aggregated evictUnit ∨
        reverseRank aggregated unit = reverseRank aggregated evictUnit ∧
          reverseRank aggregated unit ≤ 1 := by
  change (if unit.isPrefetchedNormal = 2 then true
    else if evictUnit.isPrefetchedNormal = 2 then false
    else if unit.isPrefetchedNormal = 1 then true
    else if evictUnit.isPrefetchedNormal = 1 then false
    else if unexecutable aggregated evictUnit then false
    else if unexecutable aggregated unit then true else false) = true ↔ _
  simp only [reverseRank]
  split_ifs <;> simp

/-! ## The scan for a victim -/

/-- The unit at a position is the one to evict: none has a lower rank, and it is
the last or the first one of its rank. -/
structure Chosen (aggregated : ℤ → Bool) (units : List EdgeBufferUnit)
    (position : ℕ) (unit : EdgeBufferUnit) : Prop where
  getElem_eq : units[position]? = some unit
  rank_le : ∀ other ∈ units, rank aggregated unit ≤ rank aggregated other
  last : lifo (rank aggregated unit) → ∀ i other, units[i]? = some other →
    rank aggregated other = rank aggregated unit → i ≤ position
  first : ¬ lifo (rank aggregated unit) → ∀ i other, units[i]? = some other →
    rank aggregated other = rank aggregated unit → position ≤ i

section Scan

variable {units : List EdgeBufferUnit} {position : ℕ}
  {unit evictUnit : EdgeBufferUnit}

theorem Chosen.lt_length (h : Chosen aggregated units position unit) :
    position < units.length :=
  (List.getElem?_eq_some_iff.mp h.getElem_eq).1

/-- A unit of lower rank, or a later one of a rank that is evicted last in,
first out, takes the place of the one found so far. -/
theorem Chosen.replace (h : Chosen aggregated units position evictUnit)
    (hlower : lower unit evictUnit aggregated = true) :
    Chosen aggregated (units ++ [unit]) units.length unit := by
  have hrank := (lower_iff unit evictUnit).mp hlower
  have hle : rank aggregated unit ≤ rank aggregated evictUnit := by
    rcases hrank with hlt | ⟨heq, -⟩
    · exact hlt.le
    · exact heq.le
  refine ⟨List.getElem?_concat_length, ?_, ?_, ?_⟩
  · intro other hother
    rcases List.mem_append.mp hother with hold | hnew
    · exact hle.trans (h.rank_le other hold)
    · rw [List.mem_singleton.mp hnew]
  · intro _ i other hother _
    have hlt := (List.getElem?_eq_some_iff.mp hother).1
    rw [List.length_append, List.length_singleton] at hlt
    omega
  · intro hfifo i other hother heq
    by_contra hbefore
    rw [List.getElem?_append_left (by omega)] at hother
    have hmin := h.rank_le other (List.mem_of_getElem? hother)
    rcases hrank with hlt | ⟨-, hlifo⟩
    · omega
    · exact hfifo hlifo

theorem Chosen.keep (h : Chosen aggregated units position evictUnit)
    (hlower : ¬ lower unit evictUnit aggregated = true) :
    Chosen aggregated (units ++ [unit]) position evictUnit := by
  rw [lower_iff, not_or, not_lt, not_and] at hlower
  obtain ⟨hle, hfifo⟩ := hlower
  have hlength := h.lt_length
  -- Only the new unit is at the end of the list.
  have hsplit : ∀ i other, (units ++ [unit])[i]? = some other →
      units[i]? = some other ∨ i = units.length ∧ other = unit := by
    intro i other hother
    rw [List.getElem?_append] at hother
    split at hother
    · exact .inl hother
    · rename_i hge
      have hlt := (List.getElem?_eq_some_iff.mp hother).1
      rw [List.length_singleton] at hlt
      have hi : i - units.length = 0 := by omega
      rw [hi] at hother
      exact .inr ⟨by omega, (Option.some.inj hother).symm⟩
  refine ⟨?_, ?_, ?_, ?_⟩
  · rw [List.getElem?_append_left hlength]
    exact h.getElem_eq
  · intro other hother
    rcases List.mem_append.mp hother with hold | hnew
    · exact h.rank_le other hold
    · rw [List.mem_singleton.mp hnew]
      exact hle
  · intro hlifo i other hother heq
    rcases hsplit i other hother with hold | ⟨-, rfl⟩
    · exact h.last hlifo i other hold heq
    · exact absurd (heq ▸ hlifo) (hfifo heq)
  · intro hnot i other hother heq
    rcases hsplit i other hother with hold | ⟨rfl, -⟩
    · exact h.first hnot i other hold heq
    · exact hlength.le

theorem lowestFrom_chosen (rest : List EdgeBufferUnit)
    (h : Chosen aggregated units position evictUnit) :
    ∃ unit, Chosen aggregated (units ++ rest)
      (lowestFrom aggregated evictUnit position units.length rest) unit := by
  induction rest generalizing units position evictUnit with
  | nil => exact ⟨evictUnit, by rwa [List.append_nil]⟩
  | cons unit rest ih =>
      have hlength : units.length + 1 = (units ++ [unit]).length := by simp
      rw [lowestFrom, List.append_cons, hlength]
      split
      · rename_i hlower
        exact ih (h.replace hlower)
      · rename_i hlower
        exact ih (h.keep hlower)

theorem priority_chosen (aggregated : ℤ → Bool) {units : List EdgeBufferUnit}
    (hunits : units ≠ []) :
    ∃ unit, Chosen aggregated units (victim "PRIORITY" aggregated units)
      unit := by
  cases units with
  | nil => exact absurd rfl hunits
  | cons unit rest =>
      have hfirst : Chosen aggregated [unit] 0 unit := by
        refine ⟨rfl, ?_, ?_, ?_⟩
        · intro other hother
          rw [List.mem_singleton.mp hother]
        · intro _ i other hother _
          have hlt := (List.getElem?_eq_some_iff.mp hother).1
          rw [List.length_singleton] at hlt
          omega
        · intro _ i _ _ _
          exact Nat.zero_le i
      exact lowestFrom_chosen rest hfirst

/-- The scan of the `PRIORITY` policy finds a unit of the lowest rank: the last
one of its rank in the list for the ranks 0 and 2, the first one for the ranks 1
and 3. -/
theorem priority_victim_rank (aggregated : ℤ → Bool)
    {units : List EdgeBufferUnit} (hunits : units ≠ []) :
    let position := victim "PRIORITY" aggregated units
    ∃ unit, units[position]? = some unit ∧
      (∀ other ∈ units, rank aggregated unit ≤ rank aggregated other) ∧
      ∀ i other, units[i]? = some other →
        rank aggregated other = rank aggregated unit →
        if rank aggregated unit = 0 ∨ rank aggregated unit = 2 then i ≤ position
        else position ≤ i := by
  intro position
  obtain ⟨unit, hchosen⟩ := priority_chosen aggregated hunits
  refine ⟨unit, hchosen.getElem_eq, hchosen.rank_le, ?_⟩
  intro i other hother heq
  split
  · rename_i hlifo
    exact hchosen.last hlifo i other hother heq
  · rename_i hfifo
    exact hchosen.first hfifo i other hother heq

/-- Two prefetched normal blocks beside a block of an aggregated row. -/
theorem priority_victim_rank_normal :
    let units : List EdgeBufferUnit := [⟨0, 0, 4096, 1⟩, ⟨1, 1, 4096, 0⟩,
      ⟨2, 2, 4096, 1⟩]
    victim "PRIORITY" (fun _ => true) units = 2 ∧
      ∃ unit, units[victim "PRIORITY" (fun _ => true) units]? = some unit ∧
        ∀ other ∈ units,
          rank (fun _ => true) unit ≤ rank (fun _ => true) other := by
  intro units
  obtain ⟨unit, hunit, hrank, -⟩ :=
    priority_victim_rank (fun _ => true) (show units ≠ [] by simp [units])
  exact ⟨by decide, unit, hunit, hrank⟩

end Scan

/-! ## Units that a prefetch may not evict -/

/-- The rank in the order that the buffer uses. -/
def rankInForce (prReverse : Bool) (aggregated : ℤ → Bool)
    (unit : EdgeBufferUnit) : ℕ :=
  if prReverse then reverseRank aggregated unit else rank aggregated unit

/-- The units other than `(r, c)` that rank above the inserted one. -/
def Outranks (prReverse : Bool) (aggregated : ℤ → Bool)
    (inserted unit : EdgeBufferUnit) : Prop :=
  isBlock inserted.r inserted.c unit = false ∧
    rankInForce prReverse aggregated inserted <
      rankInForce prReverse aggregated unit

instance (prReverse : Bool) (aggregated : ℤ → Bool)
    (inserted unit : EdgeBufferUnit) :
    Decidable (Outranks prReverse aggregated inserted unit) :=
  inferInstanceAs (Decidable (_ ∧ _))

/-- The units that a prefetch may not touch. -/
def EdgeBuffer.outranking (buf : EdgeBuffer) (aggregated : ℤ → Bool)
    (inserted : EdgeBufferUnit) : List EdgeBufferUnit :=
  buf.units.filter fun unit => Outranks buf.prReverse aggregated inserted unit

section Outranking

variable {buf : EdgeBuffer} {inserted unit : EdgeBufferUnit} {position : ℕ}

theorem skipsEviction_of_outranks {isPrefetch : ℤ} (hprefetch : isPrefetch ≠ 0)
    (houtranks : Outranks buf.prReverse aggregated inserted unit) :
    skipsEviction buf aggregated inserted unit isPrefetch = true := by
  have hlt := houtranks.2
  simp only [rankInForce] at hlt
  simp only [skipsEviction, ne_eq, hprefetch, not_false_eq_true, decide_true,
    Bool.true_and]
  split
  · rename_i hreverse
    rw [if_pos hreverse, if_pos hreverse] at hlt
    exact (lowerReverse_iff _ _).mpr (.inl hlt)
  · rename_i hforward
    rw [if_neg hforward, if_neg hforward] at hlt
    exact (lower_iff _ _).mpr (.inl hlt)

theorem outranking_delete (hunit : buf.units[position]? = some unit)
    (hnot : ¬ Outranks buf.prReverse aggregated inserted unit) :
    (buf.delete position unit).outranking aggregated inserted =
      buf.outranking aggregated inserted := by
  obtain ⟨front, back, hsplit, rfl⟩ := exists_split hunit
  rw [EdgeBuffer.outranking, EdgeBuffer.outranking, EdgeBuffer.delete, hsplit,
    eraseIdx_split, List.filter_append, List.filter_append,
    List.filter_cons_of_neg (by simpa using hnot)]

theorem outranking_shrink (hunit : buf.units[position]? = some unit)
    (hnot : ¬ Outranks buf.prReverse aggregated inserted unit) (diff : ℤ) :
    (buf.shrink position diff).outranking aggregated inserted =
      buf.outranking aggregated inserted := by
  obtain ⟨front, back, hsplit, rfl⟩ := exists_split hunit
  have hshrunk : ¬ Outranks buf.prReverse aggregated inserted
      { unit with size := longLong (unit.size - diff) } := hnot
  rw [EdgeBuffer.outranking, EdgeBuffer.outranking, EdgeBuffer.shrink, hsplit,
    modify_split, List.filter_append, List.filter_append,
    List.filter_cons_of_neg (by rwa [decide_eq_true_eq]),
    List.filter_cons_of_neg (by rwa [decide_eq_true_eq])]

/-- No round of the eviction loop touches a unit that ranks above the inserted
one. -/
theorem outranking_evictLoop (params : EvictionParams) {isPrefetch : ℤ}
    (hprefetch : isPrefetch ≠ 0) (rounds : ℕ) :
    (evictLoop params aggregated inserted isPrefetch rounds buf).outranking
        aggregated inserted = buf.outranking aggregated inserted := by
  induction rounds generalizing buf with
  | zero => rfl
  | succ rounds ih =>
      rw [evictLoop]
      split
      · rfl
      next unit hunit =>
      split
      · rfl
      split
      · rfl
      next hevicts =>
      have hnot : ¬ Outranks buf.prReverse aggregated inserted unit :=
        fun houtranks => hevicts (skipsEviction_of_outranks hprefetch houtranks)
      split
      · split
        · rw [ih, outranking_delete hunit hnot]
        · exact outranking_shrink hunit hnot _
      · rw [ih, outranking_delete hunit hnot]

theorem outranking_invalidate (buf : EdgeBuffer) (inserted : EdgeBufferUnit) :
    (invalidateEdgeBlock buf inserted.r inserted.c).outranking aggregated
        inserted = buf.outranking aggregated inserted := by
  rw [invalidateEdgeBlock]
  split
  · rfl
  · rename_i unit hfind
    apply outranking_delete (getElem?_findIdx hfind)
    intro houtranks
    rw [Outranks, List.find?_some hfind] at houtranks
    exact absurd houtranks.1 (by decide)

theorem outranking_addTail (hblock : isBlock inserted.r inserted.c unit = true) :
    (buf.addTail unit).outranking aggregated inserted =
      buf.outranking aggregated inserted := by
  have hnot : ¬ Outranks buf.prReverse aggregated inserted unit := by
    rintro ⟨hother, -⟩
    rw [hblock] at hother
    exact absurd hother (by decide)
  rw [EdgeBuffer.outranking, EdgeBuffer.outranking, EdgeBuffer.addTail,
    List.filter_append, List.filter_singleton]
  simp [hnot]

@[simp]
theorem prReverse_evictLoop (params : EvictionParams) (isPrefetch : ℤ)
    (rounds : ℕ) :
    (evictLoop params aggregated inserted isPrefetch rounds buf).prReverse =
      buf.prReverse := by
  induction rounds generalizing buf with
  | zero => rfl
  | succ rounds ih =>
      rw [evictLoop]
      split
      · rfl
      split
      · rfl
      split
      · rfl
      split
      · split
        · exact ih
        · rfl
      · exact ih

@[simp]
theorem prReverse_invalidate (buf : EdgeBuffer) (r c : ℤ) :
    (invalidateEdgeBlock buf r c).prReverse = buf.prReverse := by
  rw [invalidateEdgeBlock]
  split <;> rfl

@[simp]
theorem prReverse_addTail (buf : EdgeBuffer) (unit : EdgeBufferUnit) :
    (buf.addTail unit).prReverse = buf.prReverse := rfl

variable (params : EvictionParams) (aggregated) (buf) (r c size : ℤ)
  {isPrefetch : ℤ} (hprefetch : isPrefetch ≠ 0) (allocated : Bool)
include hprefetch

/-- A prefetch appends a unit of its block to the buffer, from which it may have
removed the block's old unit and evicted others. -/
theorem prefetch_cases :
    let inserted := insertedUnit buf r c size isPrefetch
    let buf' :=
      (accessEdgeBlock params buf aggregated r c size isPrefetch allocated).2
    buf' = buf ∨ ∃ base prepared free,
      (base = buf ∨ base = invalidateEdgeBlock buf r c) ∧
      (prepared = base ∨ prepared =
        (evictEdgeBlock params base aggregated inserted isPrefetch).2) ∧
      buf' = prepared.addTail
        { inserted with size := min inserted.size free } := by
  intro inserted buf'
  by_cases hnone : size = 0 ∨ allocated = false
  · left
    rcases hnone with hzero | hfail
    · simp [buf', accessEdgeBlock, hzero]
    · simp only [buf', accessEdgeBlock, hfail]
      split <;> rfl
  right
  simp only [not_or, Bool.not_eq_false] at hnone
  by_cases hmiss : getEdgeBlockSize buf r c = -1
  · refine ⟨buf, _, (evictEdgeBlock params buf aggregated inserted
      isPrefetch).1, .inl rfl, .inr rfl, ?_⟩
    simp only [buf', accessEdgeBlock, hnone, hmiss, hprefetch]
    rfl
  · cases hpart : params.partialEdgeEviction
    · refine ⟨_, _, 0, .inr rfl, .inl rfl, ?_⟩
      simp only [buf', accessEdgeBlock, hnone, hmiss, hprefetch, hpart]
      rfl
    · refine ⟨_, _, (evictEdgeBlock params (invalidateEdgeBlock buf r c)
        aggregated inserted isPrefetch).1, .inr rfl, .inr rfl, ?_⟩
      simp only [buf', accessEdgeBlock, hnone, hmiss, hprefetch, hpart]
      rfl

theorem prReverse_prefetch :
    (accessEdgeBlock params buf aggregated r c size isPrefetch
      allocated).2.prReverse = buf.prReverse := by
  rcases prefetch_cases aggregated buf params r c size hprefetch allocated with
    hbuf | ⟨base, prepared, free, rfl | rfl, rfl | rfl, hbuf⟩
  · rw [hbuf]
  all_goals rw [hbuf]; simp [evictEdgeBlock]

theorem outranking_prefetch :
    (accessEdgeBlock params buf aggregated r c size isPrefetch
        allocated).2.outranking aggregated
          (insertedUnit buf r c size isPrefetch) =
      buf.outranking aggregated (insertedUnit buf r c size isPrefetch) := by
  have hinvalidate := @outranking_invalidate aggregated buf
    (insertedUnit buf r c size isPrefetch)
  rcases prefetch_cases aggregated buf params r c size hprefetch allocated with
    hbuf | ⟨base, prepared, free, hbase, hprepared, hbuf⟩
  · rw [hbuf]
  · have hbase : base.outranking aggregated
          (insertedUnit buf r c size isPrefetch) =
        buf.outranking aggregated (insertedUnit buf r c size isPrefetch) := by
      rcases hbase with rfl | rfl
      · rfl
      · exact hinvalidate
    rw [hbuf, outranking_addTail (by simp [isBlock])]
    rcases hprepared with rfl | rfl
    · exact hbase
    · exact (outranking_evictLoop params hprefetch _).trans hbase

end Outranking

/-- A prefetch leaves every other unit alone that ranks above the one it
inserts, in the order that the buffer uses. -/
theorem prefetch_spares_higher_ranks (aggregated : ℤ → Bool) (buf : EdgeBuffer)
    (params : EvictionParams) (r c size : ℤ) {isPrefetch : ℤ}
    (hprefetch : isPrefetch ≠ 0) (allocated : Bool) :
    let inserted := insertedUnit buf r c size isPrefetch
    let buf' :=
      (accessEdgeBlock params buf aggregated r c size isPrefetch allocated).2
    buf'.units.filter (fun unit =>
        Outranks buf.prReverse aggregated inserted unit) =
      buf.units.filter fun unit =>
        Outranks buf.prReverse aggregated inserted unit := by
  intro inserted buf'
  have hunits := outranking_prefetch aggregated buf params r c size hprefetch
    allocated
  rw [EdgeBuffer.outranking, prReverse_prefetch aggregated buf params r c size
    hprefetch allocated] at hunits
  exact hunits

/-- The executable future block stays when a normal block is prefetched into a
full buffer. -/
theorem prefetch_spares_higher_ranks_normal :
    let buf : EdgeBuffer :=
      ⟨[⟨0, 0, 4096, 0⟩, ⟨1, 1, 4096, 0⟩], 8192, 8192, 0, 0, false⟩
    let aggregated : ℤ → Bool := fun r => r = 0
    let inserted := insertedUnit buf 2 2 8192 2
    let buf' := (accessEdgeBlock ⟨8192, "PRIORITY", false⟩ buf aggregated 2 2
      8192 2 true).2
    buf'.units = [⟨0, 0, 4096, 0⟩, ⟨2, 2, 4096, 1⟩] ∧
      buf'.units.filter (fun unit =>
          Outranks buf.prReverse aggregated inserted unit) =
        buf.units.filter fun unit =>
          Outranks buf.prReverse aggregated inserted unit := by
  intro buf aggregated inserted buf'
  exact ⟨by decide, prefetch_spares_higher_ranks aggregated buf
    ⟨8192, "PRIORITY", false⟩ 2 2 8192 (by decide : (2 : ℤ) ≠ 0) true⟩

end NvmeVirt.Csd
