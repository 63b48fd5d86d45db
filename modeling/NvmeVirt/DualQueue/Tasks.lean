import NvmeVirt.DualQueue.Engine

/-!
# Which blocks run when

In iteration `k` a device runs as normal tasks the blocks that it has not
already run ahead of time, and of these it runs some again, ahead of time, for
iteration `k + 1`.  `needed` and `carried` are that plan.  It depends on the
lengths of the portions only; the rest of this development shows that every
schedule carries it out.
-/

namespace NvmeVirt.DualQueue

open Function NvmeVirt.Csd

variable (s : Setup)

/-- Whether the block is run in iteration `k` for iteration `k + 1`.  The task
of block `(P - 1, P - 1)` only marks the end of an iteration that goes
forwards. -/
def ahead (k : ℕ) (block : ℕ × ℕ) : Bool :=
  k + 1 < s.numIters &&
    if k % 2 = 0 then
      block.1 ≤ block.2 &&
        block ≠ (s.numPartitions - 1, s.numPartitions - 1)
    else block.2 < block.1

/-- The host sends the portion in iteration `k` unless it has been run ahead
of time. -/
def sendable (csd k : ℕ) (block : ℕ × ℕ) : Bool :=
  s.edgeBlocksLength block.1 block.2 csd ≠ 0 || block = endBlock s k

/-- The device has run the block for iteration `k` in the iteration before. -/
def carried (csd : ℕ) : ℕ → ℕ × ℕ → Bool
  | 0, _ => false
  | k + 1, block =>
      ahead s k block && (sendable s csd k block && !carried csd k block)

/-- The device runs the block as a normal task in iteration `k`. -/
def needed (csd k : ℕ) (block : ℕ × ℕ) : Bool :=
  sendable s csd k block && !carried s csd k block

/-- The normal tasks of iteration `k` in the order in which they are sent. -/
def normals (csd k : ℕ) : List (ℕ × ℕ) :=
  (sendOrder s k).filter (needed s csd k)

theorem carried_succ (csd k : ℕ) (block : ℕ × ℕ) :
    carried s csd (k + 1) block =
      (ahead s k block && needed s csd k block) := rfl

/-- A non-empty portion is run for iteration `k` in exactly one way. -/
theorem needed_eq_not_carried {csd k : ℕ} {block : ℕ × ℕ}
    (hlen : s.edgeBlocksLength block.1 block.2 csd ≠ 0) :
    needed s csd k block = !carried s csd k block := by
  simp [needed, sendable, hlen]

/-! ## The order of the blocks -/

/-- The host goes through all blocks, by rows or by columns. -/
theorem sendOrder_eq (k : ℕ) : ∃ outer inner : List ℕ,
    outer.Perm (List.range s.numPartitions) ∧
      inner.Perm (List.range s.numPartitions) ∧
      (sendOrder s k = outer ×ˢ inner ∨
        sendOrder s k = (outer ×ˢ inner).map Prod.swap) := by
  have hreverse := List.reverse_perm (List.range s.numPartitions)
  have hcolumns : ∀ outer inner : List ℕ,
      (outer.flatMap fun c => inner.map fun r => (r, c)) =
        (outer ×ˢ inner).map Prod.swap := by
    intro outer inner
    simp only [SProd.sprod, List.product, List.map_flatMap, List.map_map]
    rfl
  simp only [sendOrder, hcolumns]
  split <;> split
  · exact ⟨_, _, List.Perm.refl _, List.Perm.refl _, .inl rfl⟩
  · exact ⟨_, _, List.Perm.refl _, List.Perm.refl _, .inr rfl⟩
  · exact ⟨_, _, hreverse, hreverse, .inl rfl⟩
  · exact ⟨_, _, hreverse, List.Perm.refl _, .inr rfl⟩

theorem mem_sendOrder {k : ℕ} {block : ℕ × ℕ} :
    block ∈ sendOrder s k ↔
      block.1 < s.numPartitions ∧ block.2 < s.numPartitions := by
  obtain ⟨outer, inner, houter, hinner, horder | horder⟩ := sendOrder_eq s k
  · rw [horder, List.mem_product, houter.mem_iff, hinner.mem_iff,
      List.mem_range, List.mem_range]
  · rw [horder, List.mem_map_swap, List.mem_product, houter.mem_iff,
      hinner.mem_iff, List.mem_range, List.mem_range, and_comm]

theorem nodup_sendOrder (k : ℕ) : (sendOrder s k).Nodup := by
  obtain ⟨outer, inner, houter, hinner, horder | horder⟩ := sendOrder_eq s k
  all_goals
    have hproduct := (houter.nodup_iff.mpr List.nodup_range).product
      (hinner.nodup_iff.mpr List.nodup_range)
    rw [horder]
  · exact hproduct
  · exact hproduct.map Prod.swap_injective

theorem mem_normals {csd k : ℕ} {block : ℕ × ℕ} :
    block ∈ normals s csd k ↔
      (block.1 < s.numPartitions ∧ block.2 < s.numPartitions) ∧
        needed s csd k block = true := by
  rw [normals, List.mem_filter, mem_sendOrder]

theorem nodup_normals (csd k : ℕ) : (normals s csd k).Nodup :=
  (nodup_sendOrder s k).filter _

/-- Blocks on and above the diagonal are run ahead of iterations that go
backwards, the others ahead of those that go forwards. -/
theorem carried_side {csd k : ℕ} {block : ℕ × ℕ}
    (hcarried : carried s csd k block = true) :
    if k % 2 = 0 then block.2 < block.1
    else block.1 ≤ block.2 ∧
      block ≠ (s.numPartitions - 1, s.numPartitions - 1) := by
  cases k with
  | zero => exact absurd hcarried Bool.false_ne_true
  | succ k =>
      rw [carried_succ, Bool.and_eq_true, ahead, Bool.and_eq_true] at hcarried
      obtain ⟨⟨-, hside⟩, -⟩ := hcarried
      by_cases heven : k % 2 = 0
      · rw [if_pos heven] at hside
        rw [if_neg (by omega)]
        simpa using hside
      · rw [if_neg heven] at hside
        rw [if_pos (by omega)]
        simpa using hside

/-- The end block is never run ahead of time for its own iteration. -/
theorem needed_endBlock (csd k : ℕ) : needed s csd k (endBlock s k) = true := by
  have htwo := s.two_partitions
  have hnot : carried s csd k (endBlock s k) = false := by
    rw [Bool.eq_false_iff]
    intro hcarried
    have hside := carried_side s hcarried
    simp only [endBlock] at hside
    split at hside
    · omega
    · split at hside <;> simp only at hside <;> omega
  simp [needed, sendable, hnot]

/-- Row 0 has always been run ahead of an iteration that goes backwards. -/
theorem needed_row_zero (csd : ℕ) {k : ℕ} (hk : k < s.numIters)
    (hodd : k % 2 = 1) (c : ℕ) : needed s csd k (0, c) = false := by
  have htwo := s.two_partitions
  obtain ⟨k, rfl⟩ := Nat.exists_eq_succ_of_ne_zero (show k ≠ 0 by omega)
  have heven : k % 2 = 0 := by omega
  have hend : (0, c) ≠ endBlock s (k + 1) := by
    simp only [endBlock, if_neg (show ¬ (k + 1) % 2 = 0 by omega)]
    split
    · simp
    · simp
      omega
  by_cases hlen : s.edgeBlocksLength 0 c csd = 0
  · simp [needed, sendable, hlen, hend]
  · have hbefore : carried s csd k (0, c) = false := by
      rw [Bool.eq_false_iff]
      intro hcarried
      have hside := carried_side s hcarried
      simp [heven] at hside
    have hahead : ahead s k (0, c) = true := by
      simp only [ahead, if_pos heven]
      simp
      omega
    simp [needed, carried, hahead, sendable, hlen, hbefore]

/-- A grid, split at the last element of one of its lines. -/
theorem flatMap_map_split {α β γ : Type*} (f : α → β → γ) (outer rest : List α)
    (inner : List β) (x : α) (y : β) :
    ((outer ++ x :: rest).flatMap fun a => (inner ++ [y]).map (f a)) =
      (outer.flatMap (fun a => (inner ++ [y]).map (f a)) ++ inner.map (f x)) ++
        f x y :: rest.flatMap fun a => (inner ++ [y]).map (f a) := by
  simp

/-- After the end block the host visits no block that it sends. -/
theorem sendOrder_split (csd : ℕ) {k : ℕ} (hk : k < s.numIters) :
    ∃ front tail,
    sendOrder s k = front ++ endBlock s k :: tail ∧
      ∀ block ∈ tail, needed s csd k block = false := by
  obtain ⟨p, hp⟩ := Nat.exists_eq_add_of_le' s.two_partitions
  have hforward : List.range (p + 2) = List.range (p + 1) ++ [p + 1] :=
    List.range_succ
  have hback : (List.range (p + 2)).reverse =
      ((List.range (p + 1)).map Nat.succ).reverse ++ [0] := by
    rw [List.range_succ_eq_map, List.reverse_cons]
  have hrows : (List.range (p + 2)).reverse =
      (((List.range p).map Nat.succ).map Nat.succ).reverse ++ [1, 0] := by
    rw [hback, List.range_succ_eq_map, List.map_cons, List.reverse_cons,
      List.append_assoc]
    rfl
  simp only [sendOrder, endBlock, hp]
  by_cases heven : k % 2 = 0
  · simp only [if_pos heven]
    split
    · rw [hforward, flatMap_map_split]
      exact ⟨_, _, rfl, by simp⟩
    · rw [hforward, flatMap_map_split (fun c r => (r, c))]
      exact ⟨_, _, rfl, by simp⟩
  · simp only [if_neg heven]
    split
    · -- By rows, backwards: the last block below the diagonal is `(1, 0)`.
      have hgrid : ((List.range (p + 2)).reverse.flatMap fun r =>
          (List.range (p + 2)).reverse.map fun c => (r, c)) =
          ((((List.range p).map Nat.succ).map Nat.succ).reverse ++
            [1, 0]).flatMap fun r =>
              (((List.range (p + 1)).map Nat.succ).reverse ++ [0]).map
                fun c => (r, c) := by
        rw [← hrows, ← hback]
      rw [hgrid, flatMap_map_split, List.flatMap_singleton, ← hback]
      refine ⟨_, _, rfl, ?_⟩
      intro block hblock
      obtain ⟨c, hc, rfl⟩ := List.mem_map.mp hblock
      exact needed_row_zero s csd hk (by omega) c
    · rw [hback, hforward, flatMap_map_split (fun c r => (r, c))]
      exact ⟨_, _, rfl, by simp⟩

theorem normals_split (csd : ℕ) {k : ℕ} (hk : k < s.numIters) :
    ∃ front, normals s csd k = front ++ [endBlock s k] := by
  obtain ⟨front, tail, horder, htail⟩ := sendOrder_split s csd hk
  refine ⟨front.filter (needed s csd k), ?_⟩
  have hrest : tail.filter (needed s csd k) = [] := by
    rw [List.filter_eq_nil_iff]
    intro block hblock
    simp [htail block hblock]
  rw [normals, horder, List.filter_append,
    List.filter_cons_of_pos (needed_endBlock s csd k), hrest]

/-! ## Tasks -/

/-- The task of a block for iteration `k`. -/
def task (csd k : ℕ) (block : ℕ × ℕ) (future : Bool) : ProcEdge :=
  sendProcEdge s.toConfig block.1 block.2 csd k s.numIters future s.rowOverlap

/-- The task that closes iteration `k` on a device. -/
def marker (csd k : ℕ) : ProcEdge :=
  if k + 1 = s.numIters then
    if k % 2 = 0 then
      { task s csd k (endBlock s k) false with iter := k + 1 }
    else
      { task s csd k (endBlock s k) false with r := 0, c := 0, iter := k + 1 }
  else
    if k % 2 = 0 then task s csd (k + 1) (endBlock s k) true
    else { task s csd (k + 1) (endBlock s k) true with r := 0, c := 0 }

/-- Whether the marker of iteration `k` is appended after the future task of
the end block, and not after its normal task. -/
def markedLate (k : ℕ) : Bool := k % 2 = 1 && k + 1 < s.numIters

@[simp]
theorem task_r (csd k : ℕ) (block : ℕ × ℕ) (future : Bool) :
    (task s csd k block future).r = block.1 := rfl

@[simp]
theorem task_c (csd k : ℕ) (block : ℕ × ℕ) (future : Bool) :
    (task s csd k block future).c = block.2 := rfl

@[simp]
theorem task_iter (csd k : ℕ) (block : ℕ × ℕ) (future : Bool) :
    (task s csd k block future).iter = k := rfl

@[simp]
theorem task_rowOverlap (csd k : ℕ) (block : ℕ × ℕ) (future : Bool) :
    (task s csd k block future).rowOverlap = s.rowOverlap := rfl

@[simp]
theorem task_numIters (csd k : ℕ) (block : ℕ × ℕ) (future : Bool) :
    (task s csd k block future).numIters = s.numIters := rfl

@[simp]
theorem task_numPartitions (csd k : ℕ) (block : ℕ × ℕ) (future : Bool) :
    (task s csd k block future).numPartitions = s.numPartitions := rfl

theorem marker_fields (csd k : ℕ) :
    (marker s csd k).csdId = csd ∧
      (marker s csd k).numPartitions = s.numPartitions ∧
      (marker s csd k).numVertices = s.numVertices ∧
      (marker s csd k).rowOverlap = s.rowOverlap := by
  simp only [marker]
  split <;> split <;> exact ⟨rfl, rfl, rfl, rfl⟩

/-- The marker waits for the partition that is aggregated last. -/
theorem marker_r (csd k : ℕ) :
    (marker s csd k).r = if k % 2 = 0 then s.numPartitions - 1 else 0 := by
  simp only [marker]
  split <;> split <;> first | rfl | simp [endBlock, *]

theorem endsIteration_iff (task : ProcEdge) :
    endsIteration task = true ↔ task.iter = task.numIters ∨
      (task.iter % 2 = 1 ∧ task.r + 1 = task.numPartitions) ∨
      (task.iter % 2 = 0 ∧ task.r = 0) := by
  simp only [endsIteration, Bool.or_eq_true, Bool.and_eq_true,
    decide_eq_true_eq]
  omega

theorem endsIteration_marker (csd k : ℕ) :
    endsIteration (marker s csd k) = true := by
  have htwo := s.two_partitions
  rw [endsIteration_iff]
  by_cases hlast : k + 1 = s.numIters
  · left
    simp only [marker, if_pos hlast]
    split <;> exact hlast
  · right
    simp only [marker, if_neg hlast]
    by_cases heven : k % 2 = 0
    · left
      rw [if_pos heven]
      refine ⟨show (k + 1) % 2 = 1 by omega, ?_⟩
      simp only [task_r, endBlock, if_pos heven]
      exact Nat.sub_add_cancel (by omega)
    · right
      rw [if_neg heven]
      exact ⟨show (k + 1) % 2 = 0 by omega, rfl⟩

/-- A task that is run ahead of time does not look like a marker. -/
theorem endsIteration_task {csd k : ℕ} {block : ℕ × ℕ}
    (hahead : ahead s k block = true) (hlt : block.2 < s.numPartitions) :
    endsIteration (task s csd (k + 1) block true) = false := by
  obtain ⟨r, c⟩ := block
  simp only [ahead, Bool.and_eq_true, decide_eq_true_eq] at hahead
  obtain ⟨hiters, hside⟩ := hahead
  rw [Bool.eq_false_iff, Ne, endsIteration_iff]
  simp only [task, sendProcEdge]
  simp only at hlt
  by_cases heven : k % 2 = 0
  · simp only [if_pos heven, Bool.and_eq_true, decide_eq_true_eq, ne_eq,
      Prod.mk.injEq] at hside
    omega
  · simp only [if_neg heven, decide_eq_true_eq] at hside
    omega

theorem lastBackwards_iff (task : ProcEdge) :
    lastBackwards task = true ↔ task.c = 0 ∧
      if task.rowOverlap = 3 then task.r = 1
      else task.r + 1 = task.numPartitions := by
  simp only [lastBackwards, Bool.or_eq_true, Bool.and_eq_true,
    decide_eq_true_eq]
  split <;> omega

theorem lastBackwards_task {k : ℕ} (hodd : k % 2 = 1) (csd iter : ℕ)
    (block : ℕ × ℕ) (future : Bool) :
    lastBackwards (task s csd iter block future) = true ↔
      block = endBlock s k := by
  have htwo := s.two_partitions
  obtain ⟨r, c⟩ := block
  have hne : ¬ k % 2 = 0 := by omega
  rw [lastBackwards_iff]
  by_cases hrows : s.rowOverlap = 3
  · rw [endBlock, if_neg hne, if_pos hrows, task_rowOverlap, if_pos hrows]
    simp only [task_r, task_c, Prod.mk.injEq, and_comm]
  · rw [endBlock, if_neg hne, if_neg hrows, task_rowOverlap, if_neg hrows]
    simp only [task_r, task_c, Prod.mk.injEq]
    rw [task_numPartitions]
    omega

theorem afterFuture_task {k : ℕ} (csd : ℕ) (block : ℕ × ℕ)
    (hk : k + 1 < s.numIters) :
    afterFuture (task s csd (k + 1) block true) =
      if block = endBlock s k ∧ markedLate s k then [marker s csd k]
      else [] := by
  by_cases hodd : k % 2 = 1
  · have hlate : markedLate s k = true := by simp [markedLate, hodd, hk]
    have hnot : ¬ k % 2 = 0 := by omega
    have heven : (k + 1) % 2 = 0 := by omega
    simp only [afterFuture, lastBackwards_task s hodd, task_iter, heven, hlate,
      true_and, and_true]
    split
    · rename_i hblock
      simp only [marker, if_neg hnot, if_neg (Nat.ne_of_lt hk), hblock]
      rfl
    · rfl
  · have hlate : markedLate s k = false := by simp [markedLate, hodd]
    have hnext : ¬ (k + 1) % 2 = 0 := by omega
    simp [afterFuture, hlate, hnext]

theorem runsAgain_iff (task : ProcEdge) :
    runsAgain task = true ↔ task.iter + 1 ≠ task.numIters ∧
      if task.iter % 2 = 0 then task.r ≤ task.c else task.c < task.r := by
  simp only [runsAgain, Bool.and_eq_true, Bool.or_eq_true, decide_eq_true_eq]
  split <;> omega

theorem lastFake_of_ne {task : ProcEdge} (hne : task.iter + 1 ≠ task.numIters) :
    lastFake task = [] := by
  rw [lastFake, if_neg hne]

/-- A normal task of the last iteration appends the marker if it is that of the
end block. -/
theorem lastFake_task {k : ℕ} (csd : ℕ) (block : ℕ × ℕ)
    (hlast : k + 1 = s.numIters) :
    lastFake (task s csd k block false) =
      if block = endBlock s k then [marker s csd k] else [] := by
  have htwo := s.two_partitions
  rw [lastFake, task_iter, task_numIters, if_pos hlast, marker, if_pos hlast]
  by_cases heven : k % 2 = 0
  · have hblock : (k % 2 = 0 ∧ block.1 + 1 = s.numPartitions ∧
        block.2 + 1 = s.numPartitions) ↔ block = endBlock s k := by
      obtain ⟨r, c⟩ := block
      rw [endBlock, if_pos heven, Prod.mk.injEq]
      omega
    rw [task_r, task_c, task_numPartitions, if_pos heven]
    by_cases hend : block = endBlock s k
    · rw [if_pos (hblock.mpr hend), if_pos hend, hend]
      rfl
    · rw [if_neg (mt hblock.mp hend), if_neg hend, if_neg (by omega)]
  · have hodd : k % 2 = 1 := by omega
    have hback := lastBackwards_task s hodd csd k block false
    rw [if_neg (fun h => heven h.1), if_neg heven]
    by_cases hend : block = endBlock s k
    · rw [if_pos ⟨hodd, hback.mpr hend⟩, if_pos hend, hend]
      rfl
    · rw [if_neg (fun h => hend (hback.mp h.2)), if_neg hend]

/-- The future copy of a task never appends the fake task of the last
iteration. -/
theorem lastFake_again {k : ℕ} (csd : ℕ) {block : ℕ × ℕ}
    (hside : if k % 2 = 0 then block.1 ≤ block.2 else block.2 < block.1) :
    lastFake (task s csd (k + 1) block true) = [] := by
  have htwo := s.two_partitions
  rw [lastFake, task_iter, task_numIters, task_r, task_c, task_numPartitions]
  by_cases heven : k % 2 = 0
  · have hodd : (k + 1) % 2 = 1 := by omega
    rw [if_pos heven] at hside
    have hback := lastBackwards_task s hodd csd (k + 1) block true
    rw [endBlock, if_neg (by omega)] at hback
    split
    · rw [if_neg (by omega), if_neg]
      rintro ⟨-, hlast⟩
      have hend := hback.mp hlast
      split at hend <;> rw [hend] at hside <;> simp only at hside <;> omega
    · rfl
  · rw [if_neg heven] at hside
    split
    · rw [if_neg (by omega), if_neg (by omega)]
    · rfl

theorem afterNormal_task {k : ℕ} (csd : ℕ) {block : ℕ × ℕ}
    (hk : k < s.numIters) :
    afterNormal (task s csd k block false) =
      (if ahead s k block then [task s csd (k + 1) block true] else []) ++
        if block = endBlock s k ∧ markedLate s k = false then
          [marker s csd k]
        else [] := by
  by_cases hlast : k + 1 = s.numIters
  · have hagain : runsAgain (task s csd k block false) = false := by
      rw [Bool.eq_false_iff, Ne, runsAgain_iff]
      exact fun h => h.1 hlast
    have hahead : ahead s k block = false := by simp [ahead, hlast]
    have hlate : markedLate s k = false := by simp [markedLate, hlast]
    simp [afterNormal, hagain, lastFake_task s csd block hlast, hahead, hlate]
  · have hlater : k + 1 < s.numIters := by omega
    have hnone : lastFake (task s csd k block false) = [] :=
      lastFake_of_ne hlast
    by_cases hside : if k % 2 = 0 then block.1 ≤ block.2
        else block.2 < block.1
    · have hagain : runsAgain (task s csd k block false) = true :=
        (runsAgain_iff _).mpr ⟨hlast, hside⟩
      have hafter : afterNormal (task s csd k block false) =
          [task s csd (k + 1) block true] := by
        rw [afterNormal, if_pos hagain]
        exact congrArg _ (lastFake_again s csd hside)
      rw [hafter]
      by_cases heven : k % 2 = 0
      · have hlate : markedLate s k = false := by simp [markedLate, heven]
        rw [if_pos heven] at hside
        by_cases hend : block = endBlock s k
        · have hahead : ahead s k (endBlock s k) = false := by
            simp [ahead, heven, endBlock]
          simp [hahead, hend, hlate, marker, hlast, heven]
        · have hahead : ahead s k block = true := by
            rw [endBlock, if_pos heven] at hend
            simp [ahead, heven, hside, hlater, hend]
          simp [hahead, hend]
      · have hlate : markedLate s k = true := by
          simp [markedLate, hlater]
          omega
        rw [if_neg heven] at hside
        have hahead : ahead s k block = true := by
          simp [ahead, heven, hside, hlater]
        simp [hahead, hlate]
    · have hagain : runsAgain (task s csd k block false) = false := by
        rw [Bool.eq_false_iff, Ne, runsAgain_iff]
        exact fun h => hside h.2
      rw [afterNormal, hagain, hnone]
      have hahead : ahead s k block = false := by
        simp only [ahead]
        split at hside
        · simp [*]
        · simp [*]
      by_cases heven : k % 2 = 0
      · have hend : block ≠ endBlock s k := by
          rintro rfl
          simp [endBlock, heven] at hside
        simp [hahead, hend]
      · have hlate : markedLate s k = true := by
          simp [markedLate, hlater]
          omega
        simp [hahead, hlate]

end NvmeVirt.DualQueue
