import Mathlib

/-!
# Bounded loops as folds

A `for` loop over a list of indices is a fold.  The rules below carry a
relation, or an invariant that sees the part of the list already visited,
through such a loop.  A loop that can block is a fold in `Option`; its
invariant rule also shows that it does not block.
-/

namespace NvmeVirt.Loops

variable {α σ τ : Type*}

/-- Two loops over the same list, related before and after every body. -/
theorem foldl_rel (related : σ → τ → Prop) (f : σ → α → σ) (g : τ → α → τ)
    (visited : List α)
    (hbody : ∀ a ∈ visited, ∀ s t, related s t → related (f s a) (g t a))
    {s : σ} {t : τ} (hstart : related s t) :
    related (visited.foldl f s) (visited.foldl g t) := by
  induction visited generalizing s t with
  | nil => exact hstart
  | cons head tail ih =>
      rw [List.foldl_cons, List.foldl_cons]
      apply ih
      · intro a ha
        exact hbody a (List.mem_cons_of_mem _ ha)
      · exact hbody head List.mem_cons_self s t hstart

/-- Loop invariant over the visited prefix. -/
theorem foldl_prefix (invariant : List α → σ → Prop) (f : σ → α → σ)
    (visited : List α)
    (hbody : ∀ before a after s, visited = before ++ a :: after →
      invariant before s → invariant (before ++ [a]) (f s a))
    {s : σ} (hstart : invariant [] s) :
    invariant visited (visited.foldl f s) := by
  suffices haux : ∀ after before s, visited = before ++ after →
      invariant before s → invariant visited (after.foldl f s) by
    exact haux visited [] s rfl hstart
  intro after
  induction after with
  | nil =>
      intro before s hsplit hinv
      rw [hsplit, List.append_nil]
      exact hinv
  | cons head tail ih =>
      intro before s hsplit hinv
      rw [List.foldl_cons]
      apply ih (before ++ [head])
      · rw [hsplit, List.append_assoc, List.singleton_append]
      · exact hbody before head tail s hsplit hinv

/-- Loop invariant over the visited prefix, for a loop that may block. -/
theorem foldlM_prefix (invariant : List α → σ → Prop) (f : σ → α → Option σ)
    (visited : List α)
    (hbody : ∀ before a after s, visited = before ++ a :: after →
      invariant before s → ∃ s', f s a = some s' ∧ invariant (before ++ [a]) s')
    {s : σ} (hstart : invariant [] s) :
    ∃ s', visited.foldlM f s = some s' ∧ invariant visited s' := by
  suffices haux : ∀ after before s, visited = before ++ after →
      invariant before s →
        ∃ s', after.foldlM f s = some s' ∧ invariant visited s' by
    exact haux visited [] s rfl hstart
  intro after
  induction after with
  | nil =>
      intro before s hsplit hinv
      rw [List.append_nil] at hsplit
      exact ⟨s, rfl, hsplit ▸ hinv⟩
  | cons head tail ih =>
      intro before s hsplit hinv
      obtain ⟨next, hnext, hinv'⟩ := hbody before head tail s hsplit hinv
      rw [List.foldlM_cons, hnext]
      apply ih (before ++ [head]) next _ hinv'
      rw [hsplit, List.append_assoc, List.singleton_append]

/-- A body that blocks in every state blocks the loop. -/
theorem foldlM_blocked {f : σ → α → Option σ} {visited : List α} {a : α}
    (ha : a ∈ visited) (hblocked : ∀ s, f s a = none) (s : σ) :
    visited.foldlM f s = none := by
  obtain ⟨before, after, rfl⟩ := List.append_of_mem ha
  rw [List.foldlM_append]
  cases hbefore : before.foldlM f s with
  | none => rfl
  | some next =>
      change (a :: after).foldlM f next = none
      rw [List.foldlM_cons, hblocked next]
      rfl

/-- The index that a loop over a range visits next. -/
theorem range_split {count index : ℕ} {before after : List ℕ}
    (hsplit : List.range count = before ++ index :: after) :
    index = before.length ∧ before.length < count := by
  have hlength := congrArg List.length hsplit
  have hget := congrArg (fun visited => visited[before.length]?) hsplit
  simp only [List.length_range, List.length_append, List.length_cons]
    at hlength
  simp only [List.getElem?_append_right le_rfl, Nat.sub_self,
    List.getElem?_cons_zero] at hget
  rw [List.getElem?_range (by omega)] at hget
  exact ⟨(Option.some.inj hget).symm, by omega⟩

/-- A loop whose bodies all leave an observation alone leaves it alone. -/
theorem foldl_frame {β : Type*} (observe : σ → β) (f : σ → α → σ)
    (visited : List α)
    (hbody : ∀ a ∈ visited, ∀ s, observe (f s a) = observe s) (s : σ) :
    observe (visited.foldl f s) = observe s := by
  induction visited generalizing s with
  | nil => rfl
  | cons head tail ih =>
      rw [List.foldl_cons, ih (fun a ha => hbody a (List.mem_cons_of_mem _ ha))]
      exact hbody head List.mem_cons_self s

/-- An observation that only one of the visited bodies changes is changed
exactly once. -/
theorem foldl_once {β : Type*} (observe : σ → β) (effect : β → β)
    (f : σ → α → σ) {visited : List α} (hnodup : visited.Nodup) {a : α}
    (ha : a ∈ visited)
    (hother : ∀ b ∈ visited, b ≠ a → ∀ s, observe (f s b) = observe s)
    (hown : ∀ s, observe (f s a) = effect (observe s)) (s : σ) :
    observe (visited.foldl f s) = effect (observe s) := by
  obtain ⟨before, after, rfl⟩ := List.append_of_mem ha
  have hnotBefore : a ∉ before := by
    intro hmem
    exact (List.disjoint_of_nodup_append hnodup) hmem List.mem_cons_self
  have hnotAfter : a ∉ after :=
    (List.nodup_cons.mp hnodup.of_append_right).1
  rw [List.foldl_append, List.foldl_cons, foldl_frame observe f after, hown,
    foldl_frame observe f before]
  · intro b hb
    exact hother b (by simp [hb]) (ne_of_mem_of_not_mem hb hnotBefore)
  · intro b hb
    exact hother b (by simp [hb]) (ne_of_mem_of_not_mem hb hnotAfter)

/-- A loop whose bodies only raise its value ends no lower than it begins. -/
theorem le_foldl [Preorder σ] {f : σ → α → σ} (hraises : ∀ s a, s ≤ f s a)
    (visited : List α) (s : σ) : s ≤ visited.foldl f s := by
  induction visited generalizing s with
  | nil => exact le_rfl
  | cons head tail ih => exact (hraises s head).trans (ih (f s head))

/-- Such a loop ends no lower than any of its bodies. -/
theorem le_foldl_of_mem [Preorder σ] {f : σ → α → σ}
    (hraises : ∀ s a, s ≤ f s a) {visited : List α} {a : α} (ha : a ∈ visited)
    {value : σ} (hbody : ∀ s, value ≤ f s a) (s : σ) :
    value ≤ visited.foldl f s := by
  obtain ⟨before, after, rfl⟩ := List.append_of_mem ha
  rw [List.foldl_append, List.foldl_cons]
  exact (hbody _).trans (le_foldl hraises after _)

end NvmeVirt.Loops
