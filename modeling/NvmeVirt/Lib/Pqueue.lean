import Mathlib

/-!
# Indexed binary heaps

`pqueue.c`: a binary heap in `d[1 .. size - 1]` whose elements know their own
position.  The position that `setpos` stores in the element is kept beside the
array, and the priority that `getpri` reads is passed to the operations.  An
element with position 0 is not in the queue.  The lemmas are about the position
index; they hold for every priority and every comparison.
-/

namespace NvmeVirt

open Function

structure Pqueue (α : Type*) where
  size : ℕ
  d : ℕ → α
  pos : α → ℕ

namespace Pqueue

variable {α β : Type*} [DecidableEq α]

/-- `q->d[i] = x; q->setpos(x, i)`. -/
def put (q : Pqueue α) (i : ℕ) (x : α) : Pqueue α :=
  { q with d := update q.d i x, pos := update q.pos x i }

/-- `q->d[q->size++] = x`. -/
def pushBack (q : Pqueue α) (x : α) : Pqueue α :=
  { q with size := q.size + 1, d := update q.d q.size x }

/-- `q->d[1] = q->d[--q->size]`. -/
def lastToRoot (q : Pqueue α) : Pqueue α :=
  { q with size := q.size - 1, d := update q.d 1 (q.d (q.size - 1)) }

/-- Forget the position of an element. -/
def resetPos (q : Pqueue α) (x : α) : Pqueue α :=
  { q with pos := update q.pos x 0 }

@[simp]
theorem put_size (q : Pqueue α) (i : ℕ) (x : α) : (q.put i x).size = q.size :=
  rfl

section Sifting

variable (cmppri : β → β → Bool) (pri : α → β)

/-- The loop of `bubble_up` and the assignment after it. -/
def bubbleUpFrom (movingNode : α) (i : ℕ) (q : Pqueue α) : Pqueue α :=
  if 1 < i ∧ cmppri (pri (q.d (i / 2))) (pri movingNode) then
    bubbleUpFrom movingNode (i / 2) (q.put i (q.d (i / 2)))
  else q.put i movingNode
termination_by i
decreasing_by omega

def bubbleUp (q : Pqueue α) (i : ℕ) : Pqueue α :=
  bubbleUpFrom cmppri pri (q.d i) i q

/-- `maxchild`: the child to compare with, 0 if there is none. -/
def maxchild (q : Pqueue α) (i : ℕ) : ℕ :=
  let childNode := 2 * i
  if q.size ≤ childNode then 0
  else if childNode + 1 < q.size ∧
      cmppri (pri (q.d childNode)) (pri (q.d (childNode + 1))) then
    childNode + 1
  else childNode

omit [DecidableEq α] in
theorem maxchild_spec (q : Pqueue α) (i : ℕ)
    (hchild : maxchild cmppri pri q i ≠ 0) :
    i < maxchild cmppri pri q i ∧ maxchild cmppri pri q i < q.size := by
  simp only [maxchild] at hchild ⊢
  split at hchild
  · exact absurd rfl hchild
  · rename_i hleft
    split at hchild
    · rename_i hright
      rw [if_neg hleft, if_pos hright]
      omega
    · rename_i hright
      rw [if_neg hleft, if_neg hright]
      omega

/-- The loop of `percolate_down` and the assignment after it. -/
def percolateDownFrom (movingNode : α) (i : ℕ) (q : Pqueue α) : Pqueue α :=
  if hchild : maxchild cmppri pri q i ≠ 0 ∧
      cmppri (pri movingNode) (pri (q.d (maxchild cmppri pri q i))) then
    percolateDownFrom movingNode (maxchild cmppri pri q i)
      (q.put i (q.d (maxchild cmppri pri q i)))
  else q.put i movingNode
termination_by q.size - i
decreasing_by
  have hspec := maxchild_spec cmppri pri q i hchild.1
  rw [put_size]
  omega

def percolateDown (q : Pqueue α) (i : ℕ) : Pqueue α :=
  percolateDownFrom cmppri pri (q.d i) i q

/-- `pqueue_insert`. -/
def insert (q : Pqueue α) (x : α) : Pqueue α :=
  bubbleUp cmppri pri (q.pushBack x) q.size

/-- `pqueue_change_priority`, after `setpri`: `pri` is the new priority. -/
def changePriority (q : Pqueue α) (oldPri : β) (x : α) : Pqueue α :=
  if cmppri oldPri (pri x) then bubbleUp cmppri pri q (q.pos x)
  else percolateDown cmppri pri q (q.pos x)

/-- `pqueue_peek`. -/
def peek (q : Pqueue α) : Option α :=
  if q.size = 1 then none else some (q.d 1)

/-- `pqueue_pop` of a queue that is not empty. -/
def pop (q : Pqueue α) : Pqueue α :=
  percolateDown cmppri pri q.lastToRoot 1

end Sifting

/-! ## The position index -/

/-- Every slot but `hole` holds an element that knows its slot, and every
element with a position is in its slot.  Elements in `out` are in no slot. -/
structure Indexed (q : Pqueue α) (hole : ℕ) (out : α → Prop) : Prop where
  size_pos : 0 < q.size
  pos_d : ∀ j, 0 < j → j < q.size → j ≠ hole →
    q.pos (q.d j) = j ∧ ¬ out (q.d j)
  d_pos : ∀ x, ¬ out x → q.pos x ≠ 0 →
    q.pos x < q.size ∧ q.pos x ≠ hole ∧ q.d (q.pos x) = x

variable {q : Pqueue α} {hole : ℕ} {out : α → Prop}

/-- Moving the element of slot `j` into the hole opens a hole at `j`. -/
theorem Indexed.move (hq : Indexed q hole out) {j : ℕ}
    (hholeLt : hole < q.size) (hj : 0 < j) (hjLt : j < q.size)
    (hne : j ≠ hole) : Indexed (q.put hole (q.d j)) j out := by
  obtain ⟨hposJ, houtJ⟩ := hq.pos_d j hj hjLt hne
  refine ⟨hq.size_pos, ?_, ?_⟩
  · intro i hi hiLt hij
    by_cases hih : i = hole
    · simp [put, hih, houtJ]
    · obtain ⟨hposI, houtI⟩ := hq.pos_d i hi hiLt hih
      have hneq : q.d i ≠ q.d j := by
        intro heq
        exact hij (by rw [← hposI, ← hposJ, heq])
      simp [put, hih, hneq, hposI, houtI]
  · intro x hx hpos
    by_cases hxj : x = q.d j
    · simp [put, hxj, hholeLt, hne.symm]
    · simp only [put, update_of_ne hxj] at hpos ⊢
      obtain ⟨hlt, hneHole, hd⟩ := hq.d_pos x hx hpos
      refine ⟨hlt, ?_, ?_⟩
      · intro heq
        exact hxj (by rw [← heq, hd])
      · rw [update_of_ne hneHole, hd]

/-- Filling the hole with an element that was outside. -/
theorem Indexed.fill (hq : Indexed q hole out) (hhole : 0 < hole)
    (hholeLt : hole < q.size) {x : α} (hx : out x) :
    Indexed (q.put hole x) 0 (fun y => out y ∧ y ≠ x) := by
  refine ⟨hq.size_pos, ?_, ?_⟩
  · intro i hi hiLt _
    by_cases hih : i = hole
    · simp [put, hih]
    · obtain ⟨hposI, houtI⟩ := hq.pos_d i hi hiLt hih
      have hneq : q.d i ≠ x := fun heq => houtI (heq ▸ hx)
      simp [put, hih, hneq, hposI, houtI]
  · intro y hy hpos
    by_cases hyx : y = x
    · simp only [put, hyx, update_self]
      exact ⟨hholeLt, hhole.ne', trivial⟩
    · have hout : ¬ out y := fun hout => hy ⟨hout, hyx⟩
      simp only [put, update_of_ne hyx] at hpos ⊢
      obtain ⟨hlt, hneHole, hd⟩ := hq.d_pos y hout hpos
      exact ⟨hlt, hpos, by rw [update_of_ne hneHole, hd]⟩

/-- What a sift from a hole does to the position index. -/
structure Settled (q q' : Pqueue α) (movingNode : α) (out : α → Prop) : Prop
    where
  size_eq : q'.size = q.size
  indexed : Indexed q' 0 (fun y => out y ∧ y ≠ movingNode)
  moving_pos : q'.pos movingNode ≠ 0
  pos_ne_zero : ∀ y, y ≠ movingNode → (q'.pos y ≠ 0 ↔ q.pos y ≠ 0)

theorem Settled.ofFill (hq : Indexed q hole out) (hhole : 0 < hole)
    (hholeLt : hole < q.size) {x : α} (hx : out x) :
    Settled q (q.put hole x) x out := by
  refine ⟨rfl, hq.fill hhole hholeLt hx, ?_, ?_⟩
  · simp [put, hhole.ne']
  · intro y hy
    simp [put, hy]

theorem Settled.ofMove {q' : Pqueue α} {x : α} {j : ℕ}
    (hq : Indexed q hole out) (hhole : 0 < hole) (hj : 0 < j)
    (hjLt : j < q.size) (hne : j ≠ hole)
    (hq' : Settled (q.put hole (q.d j)) q' x out) : Settled q q' x out := by
  refine ⟨hq'.size_eq, hq'.indexed, hq'.moving_pos, ?_⟩
  intro y hy
  rw [hq'.pos_ne_zero y hy]
  by_cases hyj : y = q.d j
  · simp [put, hyj, hhole.ne', (hq.pos_d j hj hjLt hne).1, hj.ne']
  · simp [put, hyj]

section Sifting

variable (cmppri : β → β → Bool) (pri : α → β)

theorem bubbleUpFrom_settled {x : α} (hq : Indexed q hole out)
    (hhole : 0 < hole) (hholeLt : hole < q.size) (hx : out x) :
    Settled q (bubbleUpFrom cmppri pri x hole q) x out := by
  induction hole using Nat.strong_induction_on generalizing q with
  | _ hole ih =>
      rw [bubbleUpFrom]
      split
      · rename_i hup
        have hmove := hq.move hholeLt (j := hole / 2) (by omega)
          (by omega) (by omega)
        exact Settled.ofMove hq hhole (by omega) (by omega) (by omega)
          (ih (hole / 2) (by omega) hmove (by omega)
            (by rw [put_size]; omega))
      · exact Settled.ofFill hq hhole hholeLt hx

theorem percolateDownFrom_settled {x : α} (hq : Indexed q hole out)
    (hhole : 0 < hole) (hholeLt : hole < q.size) (hx : out x) :
    Settled q (percolateDownFrom cmppri pri x hole q) x out := by
  induction hbound : q.size - hole using Nat.strong_induction_on
      generalizing q hole with
  | _ bound ih =>
      rw [percolateDownFrom]
      split
      · rename_i hdown
        obtain ⟨hgt, hlt⟩ := maxchild_spec cmppri pri q hole hdown.1
        exact Settled.ofMove hq hhole (by omega) hlt (by omega)
          (ih _ (by rw [← hbound, put_size]; omega)
            (hq.move hholeLt (by omega) hlt (by omega)) (by omega)
            hlt rfl)
      · exact Settled.ofFill hq hhole hholeLt hx

/-- A queue whose elements are the ones with a position. -/
def Valid (q : Pqueue α) : Prop := Indexed q 0 (fun _ => False)

theorem insert_settled (hq : Valid q) {x : α} (hx : q.pos x = 0) :
    Valid (insert cmppri pri q x) ∧
      (insert cmppri pri q x).size = q.size + 1 ∧
      ∀ y, (insert cmppri pri q x).pos y ≠ 0 ↔ y = x ∨ q.pos y ≠ 0 := by
  have hstart : Indexed (q.pushBack x) q.size (· = x) := by
    refine ⟨Nat.succ_pos _, ?_, ?_⟩
    · intro j hj hjLt hne
      have hjOld : j < q.size := by
        simp only [pushBack] at hjLt
        omega
      have hold := (hq.pos_d j hj hjOld hj.ne').1
      have hneX : q.d j ≠ x := by
        rintro rfl
        omega
      simp only [pushBack, update_of_ne hne]
      exact ⟨hold, hneX⟩
    · intro y hy hpos
      obtain ⟨hlt, -, hd⟩ := hq.d_pos y id hpos
      simp only [pushBack]
      exact ⟨Nat.lt_succ_of_lt hlt, hlt.ne, by rw [update_of_ne hlt.ne, hd]⟩
  have hsettled := bubbleUpFrom_settled cmppri pri hstart hq.size_pos
    (Nat.lt_succ_self _) rfl
  have heq : insert cmppri pri q x =
      bubbleUpFrom cmppri pri x q.size (q.pushBack x) := by
    simp only [insert, bubbleUp, pushBack, update_self]
  rw [heq]
  refine ⟨?_, hsettled.size_eq, ?_⟩
  · have hindexed := hsettled.indexed
    simpa [Valid] using hindexed
  · intro y
    by_cases hy : y = x
    · simp [hy, hsettled.moving_pos]
    · rw [hsettled.pos_ne_zero y hy]
      simp [hy, pushBack]

theorem changePriority_settled (hq : Valid q) (oldPri : β) {x : α}
    (hx : q.pos x ≠ 0) :
    Valid (changePriority cmppri pri q oldPri x) ∧
      (changePriority cmppri pri q oldPri x).size = q.size ∧
      ∀ y, (changePriority cmppri pri q oldPri x).pos y ≠ 0 ↔
        q.pos y ≠ 0 := by
  obtain ⟨hlt, -, hd⟩ := hq.d_pos x id hx
  have hpos := Nat.pos_of_ne_zero hx
  have hstart : Indexed q (q.pos x) (· = x) := by
    refine ⟨hq.size_pos, ?_, ?_⟩
    · intro j hj hjLt hne
      have hold := (hq.pos_d j hj hjLt hj.ne').1
      exact ⟨hold, by rintro rfl; exact hne hold.symm⟩
    · intro y hy hposY
      obtain ⟨hltY, -, hdY⟩ := hq.d_pos y id hposY
      exact ⟨hltY, fun heq => hy (by rw [← hdY, heq, hd]), hdY⟩
  have hsettled : Settled q (changePriority cmppri pri q oldPri x) x
      (· = x) := by
    rw [changePriority, bubbleUp, percolateDown, hd]
    split
    · exact bubbleUpFrom_settled cmppri pri hstart hpos hlt rfl
    · exact percolateDownFrom_settled cmppri pri hstart hpos hlt rfl
  refine ⟨?_, hsettled.size_eq, ?_⟩
  · have hindexed := hsettled.indexed
    simpa [Valid] using hindexed
  · intro y
    by_cases hy : y = x
    · simp [hy, hsettled.moving_pos, hx]
    · exact hsettled.pos_ne_zero y hy

/-- Popping the only element puts it back into slot 1, which is then behind
the end. -/
theorem pop_single (hsize : q.size = 2) :
    pop cmppri pri q = (q.lastToRoot).put 1 (q.d 1) := by
  rw [pop, percolateDown, percolateDownFrom]
  simp [maxchild, lastToRoot, hsize]

omit [DecidableEq α] in
theorem lastToRoot_indexed (hq : Valid q) (hsize : 2 < q.size) :
    Indexed q.lastToRoot 1
      (fun y => y = q.d (q.size - 1) ∨ y = q.d 1) := by
  have hhead := (hq.pos_d 1 Nat.one_pos (by omega) (by omega)).1
  have hlast := (hq.pos_d (q.size - 1) (by omega) (by omega) (by omega)).1
  refine ⟨by simp only [lastToRoot]; omega, ?_, ?_⟩
  · intro j hj hjLt hne
    simp only [lastToRoot] at hjLt
    have hold := (hq.pos_d j hj (by omega) hj.ne').1
    simp only [lastToRoot, update_of_ne hne]
    refine ⟨hold, ?_⟩
    rintro (heq | heq)
    · rw [heq] at hold
      omega
    · rw [heq] at hold
      omega
  · intro y hy hpos
    push Not at hy
    obtain ⟨hlt, -, hd⟩ := hq.d_pos y id hpos
    have hneOne : q.pos y ≠ 1 := fun heq => hy.2 (by rw [← hd, heq])
    have hneEnd : q.pos y ≠ q.size - 1 := fun heq => hy.1 (by rw [← hd, heq])
    simp only [lastToRoot]
    exact ⟨by omega, hneOne, by rw [update_of_ne hneOne, hd]⟩

/-- `pqueue_pop`, followed by the reset of the position of the popped
element. -/
theorem pop_settled (hq : Valid q) (hsize : q.size ≠ 1) :
    Valid ((pop cmppri pri q).resetPos (q.d 1)) ∧
      (pop cmppri pri q).size = q.size - 1 ∧ q.pos (q.d 1) ≠ 0 ∧
      ∀ y, ((pop cmppri pri q).resetPos (q.d 1)).pos y ≠ 0 ↔
        y ≠ q.d 1 ∧ q.pos y ≠ 0 := by
  have hsizePos := hq.size_pos
  have hhead := (hq.pos_d 1 Nat.one_pos (by omega) (by omega)).1
  have hlast := (hq.pos_d (q.size - 1) (by omega) (by omega) (by omega)).1
  by_cases htwo : q.size = 2
  · rw [pop_single cmppri pri htwo]
    refine ⟨⟨by simp [resetPos, put, lastToRoot, htwo], ?_, ?_⟩, rfl,
      by omega, ?_⟩
    · intro j hj hjLt
      simp [resetPos, put, lastToRoot, htwo] at hjLt
      omega
    · intro y _ hpos
      exfalso
      by_cases hy : y = q.d 1
      · simp [resetPos, hy] at hpos
      · simp only [resetPos, put, lastToRoot, update_of_ne hy] at hpos
        obtain ⟨hlt, -, hd⟩ := hq.d_pos y id hpos
        have hone : q.pos y = 1 := by omega
        exact hy (by rw [← hd, hone])
    · intro y
      by_cases hy : y = q.d 1 <;> simp [resetPos, put, lastToRoot, hy]
  · have hneLast : q.d (q.size - 1) ≠ q.d 1 := by
      intro heq
      rw [heq, hhead] at hlast
      omega
    have hsettled := percolateDownFrom_settled cmppri pri
      (lastToRoot_indexed hq (by omega)) Nat.one_pos
      (by simp only [lastToRoot]; omega) (Or.inl rfl)
    have hpop : pop cmppri pri q = percolateDownFrom cmppri pri
        (q.d (q.size - 1)) 1 q.lastToRoot := by
      simp [pop, percolateDown, lastToRoot]
    rw [← hpop] at hsettled
    have hindexed := hsettled.indexed
    refine ⟨⟨hindexed.size_pos, ?_, ?_⟩, hsettled.size_eq, by omega, ?_⟩
    · intro j hj hjLt hne
      obtain ⟨hposJ, houtJ⟩ := hindexed.pos_d j hj hjLt hne
      have hneHead : (pop cmppri pri q).d j ≠ q.d 1 := fun heq =>
        houtJ ⟨Or.inr heq, heq ▸ hneLast.symm⟩
      simp [resetPos, hneHead, hposJ]
    · intro y _ hpos
      by_cases hy : y = q.d 1
      · simp [resetPos, hy] at hpos
      · simp only [resetPos, update_of_ne hy] at hpos ⊢
        refine hindexed.d_pos y ?_ hpos
        rintro ⟨heq | heq, hne⟩
        · exact hne heq
        · exact hy heq
    · intro y
      by_cases hy : y = q.d 1
      · simp [resetPos, hy]
      · simp only [resetPos, update_of_ne hy]
        by_cases hyLast : y = q.d (q.size - 1)
        · have hmoving := hsettled.moving_pos
          rw [← hyLast] at hmoving hlast
          simp only [hmoving, hy, hlast, ne_eq, not_false_eq_true, true_and,
            true_iff]
          omega
        · rw [hsettled.pos_ne_zero y hyLast]
          simp [hy, lastToRoot]

end Sifting

/-! ## Elements -/

/-- The elements of the queue in heap order. -/
def elements (q : Pqueue α) : List α :=
  (List.range' 1 (q.size - 1)).map q.d

omit [DecidableEq α] in
@[simp]
theorem length_elements (q : Pqueue α) : q.elements.length = q.size - 1 := by
  simp [elements]

omit [DecidableEq α] in
theorem mem_elements (hq : Valid q) {x : α} :
    x ∈ q.elements ↔ q.pos x ≠ 0 := by
  simp only [elements, List.mem_map, List.mem_range'_1]
  constructor
  · rintro ⟨i, hi, rfl⟩
    have hpos := (hq.pos_d i (by omega) (by omega) (by omega)).1
    omega
  · intro hpos
    obtain ⟨hlt, -, hd⟩ := hq.d_pos x id hpos
    exact ⟨q.pos x, by omega, hd⟩

omit [DecidableEq α] in
theorem nodup_elements (hq : Valid q) : q.elements.Nodup := by
  refine List.Nodup.map_on ?_ List.nodup_range'
  intro i hi j hj heq
  rw [List.mem_range'_1] at hi hj
  have hposI := (hq.pos_d i (by omega) (by omega) (by omega)).1
  have hposJ := (hq.pos_d j (by omega) (by omega) (by omega)).1
  rw [← hposI, ← hposJ, heq]

theorem count_elements (hq : Valid q) (x : α) :
    q.elements.count x = if q.pos x ≠ 0 then 1 else 0 := by
  rw [(nodup_elements hq).count]
  simp only [mem_elements hq]

end Pqueue

end NvmeVirt
