import Mathlib

/-!
# Linked chains

Nodes that are live or not and may link to another node.  The chain of a node
are the live nodes met by following the links, up to the first dead node or the
first node without a link.  A rank that decreases along the links bounds the
length of every chain.  A dead node that comes to life is added at the end of
the chains that reach it, and a node that dies cuts the chains through it.
-/

namespace NvmeVirt.Chain

variable {α : Type*} (live : α → Bool) (link : α → Option α)

/-- The chain of a node, of at most `fuel` nodes. -/
def chain : ℕ → α → List α
  | 0, _ => []
  | fuel + 1, a =>
      if live a then
        a :: match link a with
          | none => []
          | some b => chain fuel b
      else []

/-- The rank decreases from a live node to the live node it links to. -/
def Ranked (rank : α → ℕ) : Prop :=
  ∀ a b, live a = true → link a = some b → live b = true → rank b < rank a

variable {live link} {fuel fuel' : ℕ} {a b : α} {rank : α → ℕ}

theorem chain_of_dead (hdead : live a = false) : chain live link fuel a = [] := by
  cases fuel with
  | zero => rfl
  | succ fuel => rw [chain, if_neg (by simp [hdead])]

theorem chain_of_unlinked (hlive : live a = true) (hlink : link a = none) :
    chain live link (fuel + 1) a = [a] := by
  rw [chain, if_pos hlive, hlink]

theorem chain_of_linked (hlive : live a = true) (hlink : link a = some b) :
    chain live link (fuel + 1) a = a :: chain live link fuel b := by
  rw [chain, if_pos hlive, hlink]

/-- The rank bound is kept along a link. -/
theorem Ranked.fuel_step (hranked : Ranked live link rank)
    (hfuel : live a = true → rank a < fuel + 1) (hlive : live a = true)
    (hlink : link a = some b) : live b = true → rank b < fuel := by
  intro hb
  have hlt := hranked a b hlive hlink hb
  have hle := hfuel hlive
  omega

/-- More fuel than the rank makes no difference. -/
theorem chain_succ_fuel (hranked : Ranked live link rank)
    (hfuel : live a = true → rank a < fuel) :
    chain live link (fuel + 1) a = chain live link fuel a := by
  induction fuel generalizing a with
  | zero =>
      cases ha : live a with
      | false => rw [chain_of_dead ha, chain_of_dead ha]
      | true => exact absurd (hfuel ha) (Nat.not_lt_zero _)
  | succ fuel ih =>
      cases ha : live a with
      | false => rw [chain_of_dead ha, chain_of_dead ha]
      | true =>
          cases hlink : link a with
          | none => rw [chain_of_unlinked ha hlink, chain_of_unlinked ha hlink]
          | some b =>
              rw [chain_of_linked ha hlink, chain_of_linked ha hlink,
                ih (hranked.fuel_step hfuel ha hlink)]

theorem mem_chain_live {x : α} (hx : x ∈ chain live link fuel a) :
    live x = true := by
  induction fuel generalizing a with
  | zero => exact absurd hx List.not_mem_nil
  | succ fuel ih =>
      cases ha : live a with
      | false =>
          rw [chain_of_dead ha] at hx
          exact absurd hx List.not_mem_nil
      | true =>
          cases hlink : link a with
          | none =>
              rw [chain_of_unlinked ha hlink, List.mem_singleton] at hx
              rwa [hx]
          | some b =>
              rw [chain_of_linked ha hlink, List.mem_cons] at hx
              rcases hx with rfl | hx
              · exact ha
              · exact ih hx

/-- The nodes of a chain are reached along the links. -/
theorem mem_chain_reaches {x : α} (hx : x ∈ chain live link fuel a) :
    Relation.ReflTransGen (fun s t => link s = some t) a x := by
  induction fuel generalizing a with
  | zero => exact absurd hx List.not_mem_nil
  | succ fuel ih =>
      cases ha : live a with
      | false =>
          rw [chain_of_dead ha] at hx
          exact absurd hx List.not_mem_nil
      | true =>
          cases hlink : link a with
          | none =>
              rw [chain_of_unlinked ha hlink, List.mem_singleton] at hx
              rw [hx]
          | some b =>
              rw [chain_of_linked ha hlink, List.mem_cons] at hx
              rcases hx with rfl | hx
              · exact .refl
              · exact .head hlink (ih hx)

/-- A complete chain is closed under the links to live nodes. -/
theorem mem_chain_of_link (hranked : Ranked live link rank)
    (hfuel : live a = true → rank a < fuel) {x y : α}
    (hx : x ∈ chain live link fuel a) (hlink : link x = some y)
    (hy : live y = true) : y ∈ chain live link fuel a := by
  induction fuel generalizing a with
  | zero => exact absurd hx List.not_mem_nil
  | succ fuel ih =>
      cases ha : live a with
      | false =>
          rw [chain_of_dead ha] at hx
          exact absurd hx List.not_mem_nil
      | true =>
          cases hnext : link a with
          | none =>
              rw [chain_of_unlinked ha hnext, List.mem_singleton] at hx
              rw [hx, hnext] at hlink
              cases hlink
          | some b =>
              have hfuel' := hranked.fuel_step hfuel ha hnext
              rw [chain_of_linked ha hnext, List.mem_cons] at hx ⊢
              rcases hx with rfl | hx
              · cases hnext.symm.trans hlink
                obtain ⟨more, rfl⟩ : ∃ more, fuel = more + 1 :=
                  Nat.exists_eq_succ_of_ne_zero (by
                    have hpos := hfuel' hy
                    omega)
                right
                rw [chain, if_pos hy]
                exact List.mem_cons_self
              · exact .inr (ih hfuel' hx)

/-- The last node of a chain has no link, or links to a dead node. -/
theorem getLast?_chain (hranked : Ranked live link rank)
    (hfuel : live a = true → rank a < fuel) {x : α}
    (hlast : (chain live link fuel a).getLast? = some x) :
    ∀ y, link x = some y → live y = false := by
  intro y hlink
  cases hy : live y with
  | false => rfl
  | true =>
      exfalso
      induction fuel generalizing a with
      | zero => cases hlast
      | succ fuel ih =>
          cases ha : live a with
          | false =>
              rw [chain_of_dead ha] at hlast
              cases hlast
          | true =>
              cases hnext : link a with
              | none =>
                  rw [chain_of_unlinked ha hnext] at hlast
                  cases hlast
                  cases hnext.symm.trans hlink
              | some b =>
                  have hfuel' := hranked.fuel_step hfuel ha hnext
                  rw [chain_of_linked ha hnext, List.getLast?_cons] at hlast
                  cases hrest : (chain live link fuel b).getLast? with
                  | some z =>
                      rw [hrest] at hlast
                      cases hlast
                      exact ih hfuel' hrest
                  | none =>
                      rw [hrest] at hlast
                      cases hlast
                      cases hnext.symm.trans hlink
                      obtain ⟨more, rfl⟩ : ∃ more, fuel = more + 1 :=
                        Nat.exists_eq_succ_of_ne_zero (by
                          have hpos := hfuel' hy
                          omega)
                      rw [List.getLast?_eq_none_iff, chain, if_pos hy] at hrest
                      cases hrest

/-! ## Nodes that come to life and die -/

section Change

variable {live' : α → Bool} {link' : α → Option α} [DecidableEq α]

/-- A dead node comes to life; a link changes only to it, and only where it led
nowhere. -/
structure Grows (live live' : α → Bool) (link link' : α → Option α)
    (new : α) : Prop where
  dead : live new = false
  live_eq : ∀ x, live' x = (live x || decide (x = new))
  unlinked : link' new = none
  link_eq : ∀ x, live x = true → link' x = link x ∨
    link' x = some new ∧ ∀ y, link x = some y → live y = false

theorem chain_grows {new : α} (hgrows : Grows live live' link link' new)
    (hranked : Ranked live link rank) (hfuel : live a = true → rank a < fuel) :
    chain live' link' (fuel + 1) a = chain live link fuel a ∨
      chain live' link' (fuel + 1) a = chain live link fuel a ++ [new] := by
  have hnew' : live' new = true := by simp [hgrows.live_eq]
  induction fuel generalizing a with
  | zero =>
      have ha : live a = false := by
        cases ha : live a with
        | false => rfl
        | true => exact absurd (hfuel ha) (Nat.not_lt_zero _)
      by_cases heq : a = new
      · subst heq
        exact .inr (chain_of_unlinked hnew' hgrows.unlinked)
      · left
        exact chain_of_dead (by simp [hgrows.live_eq, ha, heq])
  | succ fuel ih =>
      cases ha : live a with
      | false =>
          rw [chain_of_dead ha]
          by_cases heq : a = new
          · subst heq
            exact .inr (chain_of_unlinked hnew' hgrows.unlinked)
          · left
            exact chain_of_dead (by simp [hgrows.live_eq, ha, heq])
      | true =>
          have ha' : live' a = true := by simp [hgrows.live_eq, ha]
          rcases hgrows.link_eq a ha with hsame | ⟨hjoins, hnowhere⟩
          · cases hlink : link a with
            | none =>
                rw [hlink] at hsame
                left
                rw [chain_of_unlinked ha hlink, chain_of_unlinked ha' hsame]
            | some b =>
                rw [hlink] at hsame
                rw [chain_of_linked ha hlink, chain_of_linked ha' hsame]
                rcases ih (hranked.fuel_step hfuel ha hlink) with h | h
                · exact .inl (congrArg (a :: ·) h)
                · exact .inr (congrArg (a :: ·) h)
          · right
            rw [chain_of_linked ha' hjoins,
              chain_of_unlinked hnew' hgrows.unlinked]
            cases hlink : link a with
            | none => rw [chain_of_unlinked ha hlink, List.singleton_append]
            | some b =>
                rw [chain_of_linked ha hlink,
                  chain_of_dead (hnowhere b hlink), List.singleton_append]

/-- A node dies, with its link. -/
theorem chain_dies {gone : α}
    (hlive : ∀ x, live' x = (live x && decide (x ≠ gone)))
    (hlink : ∀ x, x ≠ gone → link' x = link x) :
    chain live' link' fuel a =
      (chain live link fuel a).takeWhile (fun x => decide (x ≠ gone)) := by
  induction fuel generalizing a with
  | zero => rfl
  | succ fuel ih =>
      cases ha : live a with
      | false =>
          have ha' : live' a = false := by simp [hlive, ha]
          rw [chain_of_dead ha, chain_of_dead ha', List.takeWhile_nil]
      | true =>
          by_cases heq : a = gone
          · have ha' : live' a = false := by simp [hlive, heq]
            rw [chain_of_dead ha', chain, if_pos ha, List.takeWhile_cons,
              if_neg (by simp [heq])]
          · have ha' : live' a = true := by simp [hlive, ha, heq]
            have hsame := hlink a heq
            cases hnext : link a with
            | none =>
                rw [hnext] at hsame
                rw [chain_of_unlinked ha hnext, chain_of_unlinked ha' hsame,
                  List.takeWhile_cons, if_pos (by simp [heq]),
                  List.takeWhile_nil]
            | some b =>
                rw [hnext] at hsame
                rw [chain_of_linked ha hnext, chain_of_linked ha' hsame,
                  List.takeWhile_cons, if_pos (by simp [heq]), ih]

end Change

/-! ## Chains in a finite set of nodes -/

/-- The number of nodes with a later time. -/
def laterCount (nodes : Finset α) (time : α → ℕ) (a : α) : ℕ :=
  (nodes.filter fun b => time a < time b).card

theorem laterCount_lt_card {nodes : Finset α} (time : α → ℕ) (ha : a ∈ nodes) :
    laterCount nodes time a < nodes.card := by
  refine Finset.card_lt_card ⟨Finset.filter_subset _ _, fun hsubset => ?_⟩
  have hself := Finset.mem_filter.mp (hsubset ha)
  exact lt_irrefl _ hself.2

/-- Times that increase along the links rank the nodes. -/
theorem ranked_laterCount {nodes : Finset α} {time : α → ℕ}
    (hnodes : ∀ x, live x = true → x ∈ nodes)
    (htime : ∀ x y, live x = true → link x = some y → live y = true →
      time x < time y) : Ranked live link (laterCount nodes time) := by
  intro x y hx hlink hy
  have hlt := htime x y hx hlink hy
  refine Finset.card_lt_card ⟨?_, fun hsubset => ?_⟩
  · intro z hz
    rw [Finset.mem_filter] at hz ⊢
    exact ⟨hz.1, hlt.trans hz.2⟩
  · have hself := Finset.mem_filter.mp
      (hsubset (Finset.mem_filter.mpr ⟨hnodes y hy, hlt⟩))
    exact lt_irrefl _ hself.2

end NvmeVirt.Chain
