import NvmeVirt.Lib.Pqueue

/-!
# The order of a binary heap

`cmppri a b` says that `b` goes before `a`.  For a comparison that is a weak
order, the operations of a queue keep every element no worse than its children,
so that no element goes before the root.  A sift works on a queue with a hole:
the pairs that do not touch the hole are in order, and the neighbours of the
hole are in the order that the direction of the sift needs.
-/

namespace NvmeVirt.Pqueue

open Function

variable {α β : Type*} [DecidableEq α]

/-- A comparison of priorities that can drive a heap. -/
structure WeakOrder (cmppri : β → β → Bool) : Prop where
  asymm : ∀ {a b}, cmppri a b = true → cmppri b a = false
  trans : ∀ {a b c}, cmppri a b = false → cmppri b c = false →
    cmppri a c = false

section Order

variable (cmppri : β → β → Bool) (pri : α → β)

/-- The second element does not go before the first one. -/
def Before (x y : α) : Prop := cmppri (pri x) (pri y) = false

/-- No element goes before its parent. -/
def Ordered (q : Pqueue α) : Prop :=
  ∀ j, 1 < j → j < q.size → Before cmppri pri (q.d (j / 2)) (q.d j)

/-- The pairs that do not touch the hole are in order. -/
def OrderedExcept (q : Pqueue α) (hole : ℕ) : Prop :=
  ∀ j, 1 < j → j < q.size → j ≠ hole → j / 2 ≠ hole →
    Before cmppri pri (q.d (j / 2)) (q.d j)

/-- The children of the hole are no better than its parent. -/
def OrderedAcross (q : Pqueue α) (hole : ℕ) : Prop :=
  1 < hole → ∀ j, j < q.size → j / 2 = hole →
    Before cmppri pri (q.d (hole / 2)) (q.d j)

/-- What `bubble_up` needs. -/
structure UpOrder (q : Pqueue α) (hole : ℕ) (x : α) : Prop where
  except : OrderedExcept cmppri pri q hole
  across : OrderedAcross cmppri pri q hole
  below : ∀ j, j < q.size → j / 2 = hole → Before cmppri pri x (q.d j)

/-- What `percolate_down` needs. -/
structure DownOrder (q : Pqueue α) (hole : ℕ) (x : α) : Prop where
  except : OrderedExcept cmppri pri q hole
  across : OrderedAcross cmppri pri q hole
  above : 1 < hole → Before cmppri pri (q.d (hole / 2)) x

end Order

variable {cmppri : β → β → Bool} {pri : α → β} {q : Pqueue α} {hole : ℕ} {x : α}

theorem put_d_self (q : Pqueue α) (i : ℕ) (x : α) : (q.put i x).d i = x :=
  update_self ..

theorem put_d_other (q : Pqueue α) {i j : ℕ} (x : α) (hne : j ≠ i) :
    (q.put i x).d j = q.d j :=
  update_of_ne hne ..

/-- Filling the hole with an element that fits between its neighbours. -/
theorem OrderedExcept.fill (hexcept : OrderedExcept cmppri pri q hole)
    (hhole : 0 < hole)
    (habove : 1 < hole → Before cmppri pri (q.d (hole / 2)) x)
    (hbelow : ∀ j, j < q.size → j / 2 = hole → Before cmppri pri x (q.d j)) :
    Ordered cmppri pri (q.put hole x) := by
  intro j hj hlt
  rw [put_size] at hlt
  by_cases hself : j = hole
  · subst hself
    rw [put_d_self, put_d_other _ _ (by omega)]
    exact habove hj
  · rw [put_d_other _ _ hself]
    by_cases hparent : j / 2 = hole
    · rw [hparent, put_d_self]
      exact hbelow j hlt hparent
    · rw [put_d_other _ _ hparent]
      exact hexcept j hj hlt hself hparent

/-! ## Sifting up -/

section Sifting

variable (horder : WeakOrder cmppri)
include horder

theorem UpOrder.move (h : UpOrder cmppri pri q hole x) (hhole : 1 < hole)
    (hlt : hole < q.size)
    (hup : cmppri (pri (q.d (hole / 2))) (pri x) = true) :
    UpOrder cmppri pri (q.put hole (q.d (hole / 2))) (hole / 2) x := by
  have hchild : ∀ j, j < q.size → j / 2 = hole / 2 → 1 < j → j ≠ hole →
      Before cmppri pri (q.d (hole / 2)) (q.d j) := by
    intro j hj hparent hone hne
    rw [← hparent]
    exact h.except j hone hj hne (by omega)
  constructor
  · intro j hj hjlt hne hparent
    rw [put_size] at hjlt
    by_cases hself : j = hole
    · exact absurd (congrArg (· / 2) hself) hparent
    · rw [put_d_other _ _ hself]
      by_cases hbelow : j / 2 = hole
      · rw [hbelow, put_d_self]
        exact h.across hhole j hjlt hbelow
      · rw [put_d_other _ _ hbelow]
        exact h.except j hj hjlt hself hbelow
  · intro hparent j hjlt hj
    rw [put_size] at hjlt
    have hgrand : Before cmppri pri (q.d (hole / 2 / 2)) (q.d (hole / 2)) :=
      h.except (hole / 2) hparent (by omega) (by omega) (by omega)
    rw [put_d_other _ _ (by omega)]
    by_cases hself : j = hole
    · rw [hself, put_d_self]
      exact hgrand
    · rw [put_d_other _ _ hself]
      exact horder.trans hgrand (hchild j hjlt hj (by omega) hself)
  · intro j hjlt hj
    rw [put_size] at hjlt
    have hbefore := horder.asymm hup
    by_cases hself : j = hole
    · rw [hself, put_d_self]
      exact hbefore
    · rw [put_d_other _ _ hself]
      by_cases hone : 1 < j
      · exact horder.trans hbefore (hchild j hjlt hj hone hself)
      · omega

theorem bubbleUpFrom_ordered (h : UpOrder cmppri pri q hole x)
    (hhole : 0 < hole) (hlt : hole < q.size) :
    Ordered cmppri pri (bubbleUpFrom cmppri pri x hole q) := by
  induction hole using Nat.strong_induction_on generalizing q with
  | _ hole ih =>
      rw [bubbleUpFrom]
      split
      · rename_i hup
        exact ih (hole / 2) (by omega) (h.move horder hup.1 hlt hup.2)
          (by omega) (by rw [put_size]; omega)
      · rename_i hstop
        refine h.except.fill hhole (fun hone => ?_) h.below
        exact Bool.eq_false_iff.mpr fun hup => hstop ⟨hone, hup⟩

/-! ## Sifting down -/

omit [DecidableEq α] in
/-- `maxchild` finds a child that none of the children goes before. -/
theorem maxchild_before (hchild : maxchild cmppri pri q hole ≠ 0) :
    maxchild cmppri pri q hole / 2 = hole ∧
      ∀ j, j < q.size → j / 2 = hole →
        j = maxchild cmppri pri q hole ∨
          Before cmppri pri (q.d (maxchild cmppri pri q hole)) (q.d j) := by
  simp only [maxchild] at hchild ⊢
  split at hchild
  · exact absurd rfl hchild
  · rename_i hleft
    rw [if_neg hleft]
    by_cases hright : 2 * hole + 1 < q.size ∧
        cmppri (pri (q.d (2 * hole))) (pri (q.d (2 * hole + 1))) = true
    · rw [if_pos hright]
      refine ⟨by omega, fun j _ hj => ?_⟩
      obtain rfl | rfl : j = 2 * hole ∨ j = 2 * hole + 1 := by omega
      · exact .inr (horder.asymm hright.2)
      · exact .inl rfl
    · rw [if_neg hright]
      refine ⟨by omega, fun j hjlt hj => ?_⟩
      obtain rfl | rfl : j = 2 * hole ∨ j = 2 * hole + 1 := by omega
      · exact .inl rfl
      · exact .inr (Bool.eq_false_iff.mpr fun hcmp => hright ⟨hjlt, hcmp⟩)

omit [DecidableEq α] horder in
theorem maxchild_zero (hnone : maxchild cmppri pri q hole = 0)
    (hhole : 0 < hole) (j : ℕ) (hlt : j < q.size) : j / 2 ≠ hole := by
  simp only [maxchild] at hnone
  split at hnone
  · omega
  · split at hnone <;> omega

theorem DownOrder.move (h : DownOrder cmppri pri q hole x) (hhole : 0 < hole)
    (hchild : maxchild cmppri pri q hole ≠ 0)
    (hdown : cmppri (pri x) (pri (q.d (maxchild cmppri pri q hole))) = true) :
    DownOrder cmppri pri (q.put hole (q.d (maxchild cmppri pri q hole)))
      (maxchild cmppri pri q hole) x := by
  obtain ⟨hparent, hbest⟩ := maxchild_before horder hchild
  obtain ⟨hgt, hlt⟩ := maxchild_spec cmppri pri q hole hchild
  set child := maxchild cmppri pri q hole with hset
  constructor
  · intro j hj hjlt hne hparentNe
    rw [put_size] at hjlt
    by_cases hself : j = hole
    · subst hself
      rw [put_d_self, put_d_other _ _ (by omega)]
      exact h.across hj child hlt hparent
    · rw [put_d_other _ _ hself]
      by_cases hbelow : j / 2 = hole
      · rw [hbelow, put_d_self]
        exact (hbest j hjlt hbelow).resolve_left hne
      · rw [put_d_other _ _ hbelow]
        exact h.except j hj hjlt hself hbelow
  · intro _ j hjlt hj
    rw [put_size] at hjlt
    rw [hparent, put_d_self, put_d_other _ _ (by omega)]
    have hpair := h.except j (by omega) hjlt (by omega) (by omega)
    rwa [hj] at hpair
  · intro _
    rw [hparent, put_d_self]
    exact horder.asymm hdown

theorem percolateDownFrom_ordered (h : DownOrder cmppri pri q hole x)
    (hhole : 0 < hole) :
    Ordered cmppri pri (percolateDownFrom cmppri pri x hole q) := by
  induction hbound : q.size - hole using Nat.strong_induction_on
      generalizing q hole with
  | _ bound ih =>
      rw [percolateDownFrom]
      split
      · rename_i hdown
        obtain ⟨hgt, hlt⟩ := maxchild_spec cmppri pri q hole hdown.1
        exact ih _ (by rw [← hbound, put_size]; omega)
          (h.move horder hhole hdown.1 hdown.2) (by omega) rfl
      · rename_i hstop
        refine h.except.fill hhole h.above fun j hjlt hj => ?_
        -- The sift ends because there is no child or because the best one
        -- does not go before the moving element.
        by_cases hnone : maxchild cmppri pri q hole = 0
        · exact absurd hj (maxchild_zero hnone hhole j hjlt)
        · have hbefore : Before cmppri pri x
              (q.d (maxchild cmppri pri q hole)) :=
            Bool.eq_false_iff.mpr fun hdown => hstop ⟨hnone, hdown⟩
          rcases (maxchild_before horder hnone).2 j hjlt hj with
            rfl | hbest
          · exact hbefore
          · exact horder.trans hbefore hbest

/-! ## The operations -/

theorem insert_ordered (hq : Ordered cmppri pri q) (hsize : 0 < q.size)
    (x : α) : Ordered cmppri pri (insert cmppri pri q x) := by
  have hstart : UpOrder cmppri pri (q.pushBack x) q.size x := by
    constructor
    · intro j hj hlt hne hparent
      simp only [pushBack] at hlt ⊢
      rw [update_of_ne hparent, update_of_ne hne]
      exact hq j hj (by omega)
    · intro _ j hlt hj
      simp only [pushBack] at hlt
      omega
    · intro j hlt hj
      simp only [pushBack] at hlt
      omega
  have heq : insert cmppri pri q x =
      bubbleUpFrom cmppri pri x q.size (q.pushBack x) := by
    simp only [insert, bubbleUp, pushBack, update_self]
  rw [heq]
  exact bubbleUpFrom_ordered horder hstart hsize (Nat.lt_succ_self _)

/-- Only the priority of the element at its position has changed. -/
theorem changePriority_ordered (hvalid : Valid q) {pri' : α → β}
    (hq : Ordered cmppri pri q) (hx : q.pos x ≠ 0)
    (hother : ∀ y, y ≠ x → pri' y = pri y) :
    Ordered cmppri pri' (changePriority cmppri pri' q (pri x) x) := by
  obtain ⟨hlt, -, hd⟩ := hvalid.d_pos x id hx
  have hpos := Nat.pos_of_ne_zero hx
  have hne : ∀ j, 0 < j → j < q.size → j ≠ q.pos x → pri' (q.d j) =
      pri (q.d j) := by
    intro j hj hjlt hjne
    apply hother
    rintro heq
    exact hjne (by rw [← (hvalid.pos_d j hj hjlt hj.ne').1, heq])
  have hexcept : OrderedExcept cmppri pri' q (q.pos x) := by
    intro j hj hjlt hjne hparent
    rw [Before, hne j (by omega) hjlt hjne,
      hne (j / 2) (by omega) (by omega) hparent]
    exact hq j hj hjlt
  have hbelow : ∀ j, j < q.size → j / 2 = q.pos x →
      cmppri (pri x) (pri' (q.d j)) = false := by
    intro j hjlt hj
    rw [hne j (by omega) hjlt (by omega), ← hd, ← hj]
    exact hq j (by omega) hjlt
  have habove : 1 < q.pos x →
      cmppri (pri' (q.d (q.pos x / 2))) (pri x) = false := by
    intro hone
    rw [hne _ (by omega) (by omega) (by omega)]
    have hpair := hq (q.pos x) hone hlt
    rwa [Before, hd] at hpair
  have hacross : OrderedAcross cmppri pri' q (q.pos x) :=
    fun hone j hjlt hj => horder.trans (habove hone) (hbelow j hjlt hj)
  rw [changePriority, bubbleUp, percolateDown, hd]
  split
  · rename_i hup
    refine bubbleUpFrom_ordered horder ⟨hexcept, hacross, ?_⟩ hpos hlt
    exact fun j hjlt hj => horder.trans (horder.asymm hup) (hbelow j hjlt hj)
  · rename_i hdown
    refine percolateDownFrom_ordered horder ⟨hexcept, hacross, ?_⟩ hpos
    exact fun hone => horder.trans (habove hone) (Bool.eq_false_iff.mpr hdown)

theorem pop_ordered (hq : Ordered cmppri pri q) :
    Ordered cmppri pri (pop cmppri pri q) := by
  have heq : pop cmppri pri q = percolateDownFrom cmppri pri
      (q.d (q.size - 1)) 1 q.lastToRoot := by
    simp [pop, percolateDown, lastToRoot]
  rw [heq]
  refine percolateDownFrom_ordered horder
    ⟨?_, fun hlt => absurd hlt (Nat.lt_irrefl 1),
      fun hlt => absurd hlt (Nat.lt_irrefl 1)⟩ Nat.one_pos
  intro j hj hlt hne hparent
  simp only [lastToRoot] at hlt ⊢
  rw [update_of_ne hne, update_of_ne hparent]
  exact hq j hj (by omega)

omit [DecidableEq α] in
/-- No element goes before the root. -/
theorem root_before (hq : Ordered cmppri pri q) {j : ℕ} (hj : 1 < j)
    (hlt : j < q.size) : Before cmppri pri (q.d 1) (q.d j) := by
  induction j using Nat.strong_induction_on with
  | _ j ih =>
      have hpair := hq j hj hlt
      by_cases hone : j / 2 = 1
      · rwa [hone] at hpair
      · exact horder.trans (ih (j / 2) (by omega) (by omega) (by omega)) hpair

end Sifting

omit [DecidableEq α] in
/-- The order is about the priorities of the elements in the queue. -/
theorem Ordered.congr {pri' : α → β} (hq : Ordered cmppri pri q)
    (hpri : ∀ j, 0 < j → j < q.size → pri' (q.d j) = pri (q.d j)) :
    Ordered cmppri pri' q := by
  intro j hj hlt
  rw [Before, hpri j (by omega) hlt, hpri (j / 2) (by omega) (by omega)]
  exact hq j hj hlt

end NvmeVirt.Pqueue
