import NvmeVirt.Lib.Interleaving

/-!
# The edge buffer of a device

A device caches edge blocks in a list of units.  The buffer carries the number
of bytes it holds beside the list, an access makes room by evicting units under
the configured policy, and a prefetch stops at the first unit it may not evict.
Sizes are `long long`, whose sums wrap.
-/

namespace NvmeVirt.Csd

open Interleaving

/-- The value of a `long long` expression. -/
def longLong (value : ℤ) : ℤ := Int.bmod value (2 ^ 64)

/-- The largest `long long`. -/
def longMax : ℤ := 2 ^ 63 - 1

theorem longLong_eq {value : ℤ} (hlow : -longMax ≤ value)
    (hhigh : value ≤ longMax) : longLong value = value := by
  unfold longMax at hlow hhigh
  rw [longLong, Int.bmod_def]
  split <;> omega

/-- A sum of two sizes that overflows is negative. -/
theorem longLong_neg_of_overflow {left right : ℤ} (hleft : left ≤ longMax)
    (hright : right ≤ longMax) (hoverflow : longMax < left + right) :
    longLong (left + right) < 0 := by
  unfold longMax at hleft hright hoverflow
  rw [longLong, Int.bmod_def]
  split <;> omega

structure EdgeBufferUnit where
  r : ℤ
  c : ℤ
  size : ℤ
  isPrefetchedNormal : ℤ
  deriving DecidableEq

structure EdgeBuffer where
  units : List EdgeBufferUnit
  size : ℤ
  capacity : ℤ
  totalAccessCnt : ℤ
  hitCnt : ℤ
  prReverse : Bool
  deriving DecidableEq

/-- The module parameters the buffer reads. -/
structure EvictionParams where
  edgeBufferSize : ℤ
  cacheEvictionPolicy : String
  partialEdgeEviction : Bool

def edgeBufferInit (params : EvictionParams) : EdgeBuffer where
  units := []
  size := 0
  capacity := params.edgeBufferSize
  totalAccessCnt := 0
  hitCnt := 0
  prReverse := false

def edgeBufferDestroy (buf : EdgeBuffer) : EdgeBuffer :=
  { buf with
    units := []
    size := 0
    totalAccessCnt := 0
    hitCnt := 0
    prReverse := false }

/-- Whether `unit` gives way to `evictUnit`, which stands earlier in the list.
-/
def lower (unit evictUnit : EdgeBufferUnit) (aggregated : ℤ → Bool) : Bool :=
  if unit.isPrefetchedNormal = 2 then true
  else if evictUnit.isPrefetchedNormal = 2 then false
  else if evictUnit.isPrefetchedNormal = 0 ∧ !aggregated evictUnit.r then false
  else if unit.isPrefetchedNormal = 0 ∧ !aggregated unit.r then true
  else if unit.isPrefetchedNormal = 1 then true
  else false

/-- The order used while PageRank runs its columns backwards: prefetched normal
blocks are looked at before the blocks that are not ready. -/
def lowerReverse (unit evictUnit : EdgeBufferUnit) (aggregated : ℤ → Bool) :
    Bool :=
  if unit.isPrefetchedNormal = 2 then true
  else if evictUnit.isPrefetchedNormal = 2 then false
  else if unit.isPrefetchedNormal = 1 then true
  else if evictUnit.isPrefetchedNormal = 1 then false
  else if evictUnit.isPrefetchedNormal = 0 ∧ !aggregated evictUnit.r then false
  else if unit.isPrefetchedNormal = 0 ∧ !aggregated unit.r then true
  else false

/-- The scan of the `PRIORITY` policy: the unit found so far, its position, and
the position of the next unit to look at. -/
def lowestFrom (aggregated : ℤ → Bool) (evictUnit : EdgeBufferUnit)
    (position next : ℕ) : List EdgeBufferUnit → ℕ
  | [] => position
  | unit :: rest =>
      if lower unit evictUnit aggregated then
        lowestFrom aggregated unit next (next + 1) rest
      else lowestFrom aggregated evictUnit position (next + 1) rest

/-- The position of the unit the policy evicts next. -/
def victim (policy : String) (aggregated : ℤ → Bool)
    (units : List EdgeBufferUnit) : ℕ :=
  if policy = "LIFO" then units.length - 1
  else if policy = "FIFO" then 0
  else if policy = "PRIORITY" then
    match units with
    | [] => 0
    | unit :: rest => lowestFrom aggregated unit 0 1 rest
  else 0

/-- `list_del` of the unit at a position, with the bytes it held. -/
def EdgeBuffer.delete (buf : EdgeBuffer) (position : ℕ)
    (unit : EdgeBufferUnit) : EdgeBuffer :=
  { buf with
    units := buf.units.eraseIdx position
    size := longLong (buf.size - unit.size) }

/-- Partial eviction of the unit at a position. -/
def EdgeBuffer.shrink (buf : EdgeBuffer) (position : ℕ) (diff : ℤ) :
    EdgeBuffer :=
  { buf with
    units := buf.units.modify position
      fun unit => { unit with size := longLong (unit.size - diff) }
    size := longLong (buf.size - diff) }

/-- A prefetch may not evict a unit that has the higher priority. -/
def skipsEviction (buf : EdgeBuffer) (aggregated : ℤ → Bool)
    (inserted unit : EdgeBufferUnit) (isPrefetch : ℤ) : Bool :=
  isPrefetch ≠ 0 &&
    (if buf.prReverse then lowerReverse inserted unit aggregated
    else lower inserted unit aggregated)

/-- The eviction loop.  Every round that does not end it deletes a unit, so the
number of units bounds the number of rounds. -/
def evictLoop (params : EvictionParams) (aggregated : ℤ → Bool)
    (inserted : EdgeBufferUnit) (isPrefetch : ℤ) :
    ℕ → EdgeBuffer → EdgeBuffer
  | 0, buf => buf
  | rounds + 1, buf =>
      let position := victim params.cacheEvictionPolicy aggregated buf.units
      match buf.units[position]? with
      | none => buf
      | some unit =>
          if longLong (buf.size + inserted.size) ≤ buf.capacity then buf
          else if skipsEviction buf aggregated inserted unit isPrefetch then buf
          else if params.partialEdgeEviction then
            if buf.capacity ≤ longLong (buf.size - unit.size + inserted.size)
            then
              evictLoop params aggregated inserted isPrefetch rounds
                (buf.delete position unit)
            else
              buf.shrink position
                (longLong (buf.size + inserted.size - buf.capacity))
          else
            evictLoop params aggregated inserted isPrefetch rounds
              (buf.delete position unit)

/-- Makes room for a unit and returns the free space. -/
def evictEdgeBlock (params : EvictionParams) (buf : EdgeBuffer)
    (aggregated : ℤ → Bool) (inserted : EdgeBufferUnit) (isPrefetch : ℤ) :
    ℤ × EdgeBuffer :=
  let buf' := evictLoop params aggregated inserted isPrefetch buf.units.length
    buf
  (longLong (buf'.capacity - buf'.size), buf')

def invalidateEdgeBlockFifo (buf : EdgeBuffer) : EdgeBuffer :=
  match buf.units with
  | [] => buf
  | unit :: _ => buf.delete 0 unit

/-- The unit of a block. -/
def isBlock (r c : ℤ) (unit : EdgeBufferUnit) : Bool :=
  unit.r = r ∧ unit.c = c

def invalidateEdgeBlock (buf : EdgeBuffer) (r c : ℤ) : EdgeBuffer :=
  match buf.units.find? (isBlock r c) with
  | none => buf
  | some unit => buf.delete (buf.units.findIdx (isBlock r c)) unit

/-- The cached bytes of a block, or -1. -/
def getEdgeBlockSize (buf : EdgeBuffer) (r c : ℤ) : ℤ :=
  match buf.units.find? (isBlock r c) with
  | none => -1
  | some unit => unit.size

def pageSize : ℤ := 4096

/-- `bytes / PAGE_SIZE`, which is a division of unsigned values. -/
def pages (bytes : ℤ) : ℤ := bytes % 2 ^ 64 / pageSize

/-- Appends a unit to the list. -/
def EdgeBuffer.addTail (buf : EdgeBuffer) (unit : EdgeBufferUnit) :
    EdgeBuffer :=
  { buf with
    units := buf.units ++ [unit]
    size := longLong (buf.size + unit.size) }

/-- The counters of a demand access. -/
def EdgeBuffer.count (buf : EdgeBuffer) (hits total : ℤ) : EdgeBuffer :=
  { buf with
    hitCnt := longLong (buf.hitCnt + pages hits)
    totalAccessCnt := longLong (buf.totalAccessCnt + pages total) }

/-- The unit an access inserts, before eviction. -/
def insertedUnit (buf : EdgeBuffer) (r c size isPrefetch : ℤ) :
    EdgeBufferUnit where
  r := r
  c := c
  size := min size buf.capacity
  isPrefetchedNormal :=
    if isPrefetch = 2 ∨ isPrefetch = 3 then isPrefetch - 1 else 0

/-- `access_edge_block`.  `allocated` says whether `kmalloc` returned memory for
the unit. -/
def accessEdgeBlock (params : EvictionParams) (buf : EdgeBuffer)
    (aggregated : ℤ → Bool) (r c size isPrefetch : ℤ) (allocated : Bool) :
    ℤ × EdgeBuffer :=
  if size = 0 then (0, buf)
  else if !allocated then (-1, buf)
  else
    let unit := insertedUnit buf r c size isPrefetch
    let size := if isPrefetch ≠ 0 then min size buf.capacity else size
    let currSize := getEdgeBlockSize buf r c
    if currSize = -1 then
      let (evictedSize, buf) :=
        evictEdgeBlock params buf aggregated unit isPrefetch
      if isPrefetch = 0 then
        (size, (buf.count 0 size).addTail unit)
      else
        (size, buf.addTail { unit with size := min unit.size evictedSize })
    else
      let buf := invalidateEdgeBlock buf r c
      let (evictedSize, buf) :=
        if params.partialEdgeEviction then
          evictEdgeBlock params buf aggregated unit isPrefetch
        else (0, buf)
      if isPrefetch = 0 then
        (longLong (size - currSize), (buf.count currSize size).addTail unit)
      else
        (longLong (size - currSize),
          buf.addTail { unit with size := min unit.size evictedSize })

theorem exists_split {α : Type} {l : List α} {x : α} {i : ℕ}
    (h : l[i]? = some x) :
    ∃ front back, l = front ++ x :: back ∧ i = front.length := by
  obtain ⟨hlt, rfl⟩ := List.getElem?_eq_some_iff.mp h
  refine ⟨l.take i, l.drop (i + 1), ?_, ?_⟩
  · rw [List.getElem_cons_drop, List.take_append_drop]
  · rw [List.length_take, min_eq_left hlt.le]

theorem eraseIdx_split {α : Type} (front back : List α) (x : α) :
    (front ++ x :: back).eraseIdx front.length = front ++ back := by
  rw [List.eraseIdx_append_of_length_le le_rfl]
  simp

theorem modify_split {α : Type} (front back : List α) (x : α) (f : α → α) :
    (front ++ x :: back).modify front.length f = front ++ f x :: back := by
  rw [List.modify_eq_take_cons_drop (by simp)]
  simp

theorem lowestFrom_lt (aggregated : ℤ → Bool) (evictUnit : EdgeBufferUnit)
    {position next : ℕ} (units : List EdgeBufferUnit) (hlt : position < next) :
    lowestFrom aggregated evictUnit position next units <
      next + units.length := by
  induction units generalizing evictUnit position next with
  | nil => simpa [lowestFrom] using hlt
  | cons unit rest ih =>
      rw [lowestFrom, List.length_cons]
      split
      · have := ih unit (by omega : next < next + 1)
        omega
      · have := ih evictUnit (by omega : position < next + 1)
        omega

theorem victim_lt (policy : String) (aggregated : ℤ → Bool)
    {units : List EdgeBufferUnit} (hunits : units ≠ []) :
    victim policy aggregated units < units.length := by
  have hpos : 0 < units.length := List.length_pos_of_ne_nil hunits
  unfold victim
  split
  · omega
  split
  · exact hpos
  split
  · cases units with
    | nil => exact absurd rfl hunits
    | cons unit rest =>
        have := lowestFrom_lt aggregated unit rest Nat.zero_lt_one
        simpa [add_comm] using this
  · exact hpos

/-- The block of each unit. -/
def EdgeBuffer.blocks (buf : EdgeBuffer) : List (ℤ × ℤ) :=
  buf.units.map fun unit => (unit.r, unit.c)

@[simp]
theorem blocks_shrink (buf : EdgeBuffer) (position : ℕ) (diff : ℤ) :
    (buf.shrink position diff).blocks = buf.blocks := by
  rw [EdgeBuffer.blocks, EdgeBuffer.blocks, EdgeBuffer.shrink]
  apply List.ext_getElem?
  intro i
  rw [List.getElem?_map, List.getElem?_map, List.getElem?_modify]
  rcases buf.units[i]? with _ | unit
  · rfl
  · by_cases hposition : position = i <;> simp [hposition]

theorem blocks_delete_sublist (buf : EdgeBuffer) (position : ℕ)
    (unit : EdgeBufferUnit) :
    (buf.delete position unit).blocks.Sublist buf.blocks :=
  (List.eraseIdx_sublist _ _).map _

/-- The bytes counted by the buffer are those of its units, and no block is
cached twice. -/
structure EdgeBuffer.Accounted (buf : EdgeBuffer) : Prop where
  size_eq : buf.size = (buf.units.map EdgeBufferUnit.size).sum
  sizes_nonneg : ∀ unit ∈ buf.units, 0 ≤ unit.size
  blocks_nodup : buf.blocks.Nodup

namespace EdgeBuffer.Accounted

variable {buf : EdgeBuffer}

theorem size_nonneg (hbuf : buf.Accounted) : 0 ≤ buf.size := by
  rw [hbuf.size_eq]
  apply List.sum_nonneg
  simpa using hbuf.sizes_nonneg

theorem unit_le (hbuf : buf.Accounted) {unit : EdgeBufferUnit}
    (hunit : unit ∈ buf.units) : unit.size ≤ buf.size := by
  rw [hbuf.size_eq]
  apply List.single_le_sum
  · simpa using hbuf.sizes_nonneg
  · exact List.mem_map_of_mem hunit

theorem size_delete (hbuf : buf.Accounted) (hmax : buf.size ≤ longMax)
    {position : ℕ} {unit : EdgeBufferUnit}
    (hunit : buf.units[position]? = some unit) :
    (buf.delete position unit).size = buf.size - unit.size := by
  have hle := hbuf.unit_le (List.mem_of_getElem? hunit)
  have hnonneg := hbuf.sizes_nonneg unit (List.mem_of_getElem? hunit)
  have hmin : (0 : ℤ) ≤ longMax := by decide
  exact longLong_eq (by omega) (by omega)

theorem delete (hbuf : buf.Accounted) (hmax : buf.size ≤ longMax)
    {position : ℕ} {unit : EdgeBufferUnit}
    (hunit : buf.units[position]? = some unit) :
    (buf.delete position unit).Accounted := by
  obtain ⟨front, back, hsplit, rfl⟩ := exists_split hunit
  have herase : (buf.delete front.length unit).units = front ++ back := by
    rw [EdgeBuffer.delete, hsplit, eraseIdx_split]
  have hsublist : (front ++ back).Sublist buf.units := by
    rw [hsplit]
    exact (List.sublist_cons_self unit back).append_left front
  constructor
  · rw [hbuf.size_delete hmax hunit, herase, hbuf.size_eq, hsplit]
    simp
    ring
  · intro other hother
    rw [herase] at hother
    exact hbuf.sizes_nonneg other (hsublist.subset hother)
  · rw [EdgeBuffer.blocks, herase]
    exact hbuf.blocks_nodup.sublist (hsublist.map _)

theorem shrink (hbuf : buf.Accounted) (hmax : buf.size ≤ longMax)
    {position : ℕ} {unit : EdgeBufferUnit}
    (hunit : buf.units[position]? = some unit) {diff : ℤ} (hdiff : 0 ≤ diff)
    (hle : diff ≤ unit.size) :
    (buf.shrink position diff).Accounted ∧
      (buf.shrink position diff).size = buf.size - diff := by
  have hunitSize := hbuf.unit_le (List.mem_of_getElem? hunit)
  have hmin : (0 : ℤ) ≤ longMax := by decide
  have hsize : (buf.shrink position diff).size = buf.size - diff :=
    longLong_eq (by omega) (by omega)
  have hshrunk : longLong (unit.size - diff) = unit.size - diff :=
    longLong_eq (by omega) (by omega)
  obtain ⟨front, back, hsplit, rfl⟩ := exists_split hunit
  have hunits : (buf.shrink front.length diff).units =
      front ++ { unit with size := unit.size - diff } :: back := by
    rw [EdgeBuffer.shrink, hsplit, modify_split, hshrunk]
  refine ⟨⟨?_, ?_, ?_⟩, hsize⟩
  · rw [hsize, hunits, hbuf.size_eq, hsplit]
    simp
    ring
  · intro other hother
    rw [hunits, List.mem_append, List.mem_cons] at hother
    rcases hother with hfront | rfl | hback
    · exact hbuf.sizes_nonneg other (by simp [hsplit, hfront])
    · exact sub_nonneg.mpr hle
    · exact hbuf.sizes_nonneg other (by simp [hsplit, hback])
  · rw [blocks_shrink]
    exact hbuf.blocks_nodup

end EdgeBuffer.Accounted

/-- What eviction may do to a buffer. -/
structure EdgeBuffer.EvictsTo (buf buf' : EdgeBuffer) : Prop where
  accounted : buf'.Accounted
  capacity_eq : buf'.capacity = buf.capacity
  size_le : buf'.size ≤ buf.size
  blocks_sublist : buf'.blocks.Sublist buf.blocks

section Eviction

variable (params : EvictionParams) (aggregated : ℤ → Bool) (isPrefetch : ℤ)
  {buf : EdgeBuffer} {inserted : EdgeBufferUnit}

/-- The test that starts a round is only passed by a sum that does not wrap. -/
theorem exceeds_capacity (hbuf : buf.Accounted)
    (hcapacity : buf.capacity ≤ longMax) (hsize : buf.size ≤ buf.capacity)
    (hnonneg : 0 ≤ inserted.size) (hinserted : inserted.size ≤ buf.capacity)
    (hexceeds : ¬ longLong (buf.size + inserted.size) ≤ buf.capacity) :
    buf.size + inserted.size ≤ longMax ∧
      buf.capacity < buf.size + inserted.size := by
  have hbufSize := hbuf.size_nonneg
  by_cases hoverflow : longMax < buf.size + inserted.size
  · have hneg := longLong_neg_of_overflow (hsize.trans hcapacity)
      (hinserted.trans hcapacity) hoverflow
    omega
  · rw [not_lt] at hoverflow
    have heq : longLong (buf.size + inserted.size) =
        buf.size + inserted.size :=
      longLong_eq (by unfold longMax; omega) hoverflow
    omega

/-- Partial eviction leaves exactly the room that was asked for. -/
theorem partial_eviction (hbuf : buf.Accounted)
    (hcapacity : buf.capacity ≤ longMax) (hsize : buf.size ≤ buf.capacity)
    (hnonneg : 0 ≤ inserted.size) (hinserted : inserted.size ≤ buf.capacity)
    (hexceeds : ¬ longLong (buf.size + inserted.size) ≤ buf.capacity)
    {position : ℕ} {unit : EdgeBufferUnit}
    (hunit : buf.units[position]? = some unit)
    (hpart : ¬ buf.capacity ≤
      longLong (buf.size - unit.size + inserted.size)) :
    (buf.shrink position
        (longLong (buf.size + inserted.size - buf.capacity))).Accounted ∧
      (buf.shrink position
        (longLong (buf.size + inserted.size - buf.capacity))).size =
          buf.capacity - inserted.size := by
  have hmem := List.mem_of_getElem? hunit
  have hunitNonneg := hbuf.sizes_nonneg unit hmem
  have hunitSize := hbuf.unit_le hmem
  obtain ⟨hfits, hover⟩ := exceeds_capacity hbuf hcapacity hsize hnonneg
    hinserted hexceeds
  rw [longLong_eq (by unfold longMax; omega) (by omega)] at hpart
  have hdiff : longLong (buf.size + inserted.size - buf.capacity) =
      buf.size + inserted.size - buf.capacity :=
    longLong_eq (by unfold longMax; omega) (by omega)
  rw [hdiff]
  obtain ⟨haccounted, heq⟩ := hbuf.shrink (hsize.trans hcapacity) hunit
    (show 0 ≤ buf.size + inserted.size - buf.capacity by omega) (by omega)
  exact ⟨haccounted, by omega⟩

theorem evictLoop_of_fits (rounds : ℕ)
    (hfits : longLong (buf.size + inserted.size) ≤ buf.capacity) :
    evictLoop params aggregated inserted isPrefetch rounds buf = buf := by
  cases rounds with
  | zero => rfl
  | succ rounds =>
      rw [evictLoop]
      split
      · rfl
      · exact if_pos hfits

theorem evictLoop_evictsTo (rounds : ℕ) (hbuf : buf.Accounted)
    (hcapacity : buf.capacity ≤ longMax) (hsize : buf.size ≤ buf.capacity)
    (hnonneg : 0 ≤ inserted.size) (hinserted : inserted.size ≤ buf.capacity) :
    buf.EvictsTo (evictLoop params aggregated inserted isPrefetch rounds buf)
    := by
  have hself : buf.EvictsTo buf := ⟨hbuf, rfl, le_rfl, .refl _⟩
  induction rounds generalizing buf with
  | zero => exact hself
  | succ rounds ih =>
      have hmax := hsize.trans hcapacity
      rw [evictLoop]
      split
      · exact hself
      next unit hunit =>
      have hmem := List.mem_of_getElem? hunit
      have hunitNonneg := hbuf.sizes_nonneg unit hmem
      have hdeletedSize := hbuf.size_delete hmax hunit
      -- a round that deletes the victim goes on with a smaller buffer
      have hdeleted : buf.EvictsTo
          (evictLoop params aggregated inserted isPrefetch rounds (buf.delete
            (victim params.cacheEvictionPolicy aggregated buf.units) unit)) := by
        have hdelete := hbuf.delete hmax hunit
        have hrest := ih hdelete hcapacity
          (by rw [hdeletedSize]; exact (sub_le_self _ hunitNonneg).trans hsize)
          hinserted ⟨hdelete, rfl, le_rfl, .refl _⟩
        refine ⟨hrest.accounted, hrest.capacity_eq, ?_, ?_⟩
        · exact hrest.size_le.trans (by rw [hdeletedSize]; omega)
        · exact hrest.blocks_sublist.trans (blocks_delete_sublist _ _ _)
      split
      · exact hself
      next hexceeds =>
      split
      · exact hself
      split
      · split
        · exact hdeleted
        next hpart =>
          obtain ⟨haccounted, hshrunk⟩ := partial_eviction hbuf hcapacity hsize
            hnonneg hinserted hexceeds hunit hpart
          obtain ⟨-, hover⟩ := exceeds_capacity hbuf hcapacity hsize hnonneg
            hinserted hexceeds
          refine ⟨haccounted, rfl, ?_, ?_⟩
          · rw [hshrunk]
            omega
          · rw [blocks_shrink]
      · exact hdeleted

/-- A demand access whose sums do not wrap finds room. -/
theorem evictLoop_room (rounds : ℕ) (hbuf : buf.Accounted)
    (hcapacity : buf.capacity ≤ longMax) (hsize : buf.size ≤ buf.capacity)
    (hnonneg : 0 ≤ inserted.size) (hinserted : inserted.size ≤ buf.capacity)
    (hfits : buf.size + inserted.size ≤ longMax)
    (hrounds : buf.units.length ≤ rounds) :
    (evictLoop params aggregated inserted 0 rounds buf).size + inserted.size ≤
      buf.capacity := by
  induction rounds generalizing buf with
  | zero =>
      have hempty : buf.units = [] := List.eq_nil_of_length_eq_zero (by omega)
      have hzero : buf.size = 0 := by rw [hbuf.size_eq, hempty]; rfl
      rw [evictLoop, hzero, zero_add]
      exact hinserted
  | succ rounds ih =>
      have hmax := hsize.trans hcapacity
      have hbufSize := hbuf.size_nonneg
      rw [evictLoop]
      split
      next hnone =>
        have hempty : buf.units = [] := by
          by_contra hunits
          have hlt := victim_lt params.cacheEvictionPolicy aggregated hunits
          rw [List.getElem?_eq_none_iff] at hnone
          omega
        have hzero : buf.size = 0 := by rw [hbuf.size_eq, hempty]; rfl
        rw [hzero, zero_add]
        exact hinserted
      next unit hunit =>
      have hmem := List.mem_of_getElem? hunit
      have hunitNonneg := hbuf.sizes_nonneg unit hmem
      have hdeletedSize := hbuf.size_delete hmax hunit
      have hdeleted : (evictLoop params aggregated inserted 0 rounds (buf.delete
          (victim params.cacheEvictionPolicy aggregated buf.units)
          unit)).size + inserted.size ≤ buf.capacity := by
        have hlt : victim params.cacheEvictionPolicy aggregated buf.units <
            buf.units.length := (List.getElem?_eq_some_iff.mp hunit).1
        refine ih (hbuf.delete hmax hunit) hcapacity ?_ hinserted ?_ ?_
        · rw [hdeletedSize]
          exact (sub_le_self _ hunitNonneg).trans hsize
        · rw [hdeletedSize]
          omega
        · rw [EdgeBuffer.delete, List.length_eraseIdx_of_lt hlt]
          omega
      split
      next hroom =>
        rwa [longLong_eq (by unfold longMax; omega) hfits] at hroom
      next hexceeds =>
      rw [if_neg (by simp [skipsEviction])]
      split
      · split
        · exact hdeleted
        next hpart =>
          rw [(partial_eviction hbuf hcapacity hsize hnonneg hinserted hexceeds
            hunit hpart).2]
          omega
      · exact hdeleted

end Eviction

end NvmeVirt.Csd
