import NvmeVirt.Kv.KvFtl
import NvmeVirt.Lib.Chain
import NvmeVirt.Lib.Ring

/-!
# Chains of the mapping table

A slot taken by probing for one hash value is later the head of the chain of
another, so the chains of different hash values run together.  Every link leads
to a slot that was filled later than the slot it starts from, also when the slot
at its end has been emptied and filled again.  Hence no chain is cyclic, the
loops over the table end, and an insertion or a deletion changes the chains in
one place.
-/

namespace NvmeVirt.Kv

open Chain

variable (cfg : KvConfig)

def live (table : ℕ → MappingEntry) (slot : ℕ) : Bool := (table slot).occupied

def link (table : ℕ → MappingEntry) (slot : ℕ) : Option ℕ :=
  (table slot).nextSlot

/-- The occupied slots of the chain that starts in a slot. -/
def slotChain (table : ℕ → MappingEntry) (slot : ℕ) : List ℕ :=
  chain (live table) (link table) cfg.hashSlots slot

/-- The slot in which a key is found. -/
def lookup (table : ℕ → MappingEntry) (key : List UInt8) : Option ℕ :=
  (slotChain cfg table (getHashSlot cfg key)).find? fun slot =>
    (table slot).matchesKey key

/-- The links lead to slots of the table, and forward in the time at which the
slots were filled. -/
structure Chained (table : ℕ → MappingEntry) (time : ℕ → ℕ) (clock : ℕ) :
    Prop where
  live_lt : ∀ s, live table s = true → s < cfg.hashSlots
  link_lt : ∀ s t, link table s = some t → t < cfg.hashSlots
  link_time : ∀ s t, live table s = true → link table s = some t →
    live table t = true → time s < time t
  free_link : ∀ s, live table s = false → link table s = none
  time_lt : ∀ s, live table s = true → time s < clock

variable {cfg} {table table' : ℕ → MappingEntry} {time : ℕ → ℕ} {clock : ℕ}
  {key : List UInt8} {fuel slot : ℕ}

theorem chained_fresh : Chained cfg (fun _ => .fresh) (fun _ => 0) 0 where
  live_lt := by simp [live, MappingEntry.fresh, MappingEntry.occupied]
  link_lt := by simp [link, MappingEntry.fresh]
  link_time := by simp [live, MappingEntry.fresh, MappingEntry.occupied]
  free_link := by simp [link, MappingEntry.fresh]
  time_lt := by simp [live, MappingEntry.fresh, MappingEntry.occupied]

namespace Chained

theorem ranked (htable : Chained cfg table time clock) :
    Ranked (live table) (link table)
      (laterCount (Finset.range cfg.hashSlots) time) :=
  ranked_laterCount (fun x hx => Finset.mem_range.mpr (htable.live_lt x hx))
    htable.link_time

theorem rank_lt (htable : Chained cfg table time clock) (slot : ℕ) :
    live table slot = true →
      laterCount (Finset.range cfg.hashSlots) time slot < cfg.hashSlots := by
  intro hlive
  have hlt := laterCount_lt_card time
    (Finset.mem_range.mpr (htable.live_lt slot hlive))
  rwa [Finset.card_range] at hlt

/-- What the table looks like does not depend on the lengths and offsets. -/
theorem congr (htable : Chained cfg table time clock)
    (hlive : live table' = live table) (hlink : link table' = link table) :
    Chained cfg table' time clock := by
  obtain ⟨h1, h2, h3, h4, h5⟩ := htable
  rw [← hlive] at h1 h3 h4 h5
  rw [← hlink] at h2 h3 h4
  exact ⟨h1, h2, h3, h4, h5⟩

end Chained

theorem mem_slotChain_live {a x : ℕ} (hx : x ∈ slotChain cfg table a) :
    live table x = true :=
  mem_chain_live hx

theorem lookup_live (hfound : lookup cfg table key = some slot) :
    live table slot = true :=
  mem_slotChain_live (List.mem_of_find?_eq_some hfound)

theorem lookup_matches (hfound : lookup cfg table key = some slot) :
    (table slot).matchesKey key = true :=
  List.find?_some (p := fun slot => (table slot).matchesKey key) hfound

theorem find?_congr_mem {α : Type*} {l : List α} {p q : α → Bool}
    (hpq : ∀ x ∈ l, p x = q x) : l.find? p = l.find? q := by
  induction l with
  | nil => rfl
  | cons x xs ih =>
      obtain ⟨hx, hxs⟩ := List.forall_mem_cons.mp hpq
      rw [List.find?_cons, List.find?_cons, hx, ih hxs]

/-! ## The loops end -/

theorem searchLoop_eq {rank : ℕ → ℕ}
    (hranked : Ranked (live table) (link table) rank)
    (hfuel : live table slot = true → rank slot < fuel) :
    searchLoop table key (fuel + 1) slot =
      some ((chain (live table) (link table) fuel slot).find? fun s =>
        (table s).matchesKey key) := by
  induction fuel generalizing slot with
  | zero =>
      have hfree : live table slot = false := by
        cases hlive : live table slot with
        | false => rfl
        | true => exact absurd (hfuel hlive) (Nat.not_lt_zero _)
      rw [searchLoop, if_neg (by simpa [live] using hfree), chain_of_dead hfree,
        List.find?_nil]
  | succ fuel ih =>
      cases hlive : live table slot with
      | false =>
          rw [searchLoop, if_neg (by simpa [live] using hlive),
            chain_of_dead hlive, List.find?_nil]
      | true =>
          have hoccupied : (table slot).occupied = true := hlive
          rw [searchLoop, if_pos hoccupied]
          cases hmatch : (table slot).matchesKey key with
          | true =>
              rw [if_pos rfl, chain, if_pos hlive]
              simp only [List.find?_cons, hmatch]
          | false =>
              rw [if_neg (by simp)]
              cases hlink : link table slot with
              | none =>
                  have hnext : (table slot).nextSlot = none := hlink
                  rw [chain_of_unlinked hlive hlink, hnext,
                    List.find?_cons_of_neg (by simp [hmatch]), List.find?_nil]
              | some next =>
                  have hnext : (table slot).nextSlot = some next := hlink
                  rw [chain_of_linked hlive hlink, hnext,
                    List.find?_cons_of_neg (by simp [hmatch])]
                  exact ih (hranked.fuel_step hfuel hlive hlink)

/-- The search ends and finds the first entry of the chain with the key. -/
theorem Chained.search_eq (htable : Chained cfg table time clock)
    (key : List UInt8) :
    search cfg table key = some (lookup cfg table key) :=
  searchLoop_eq htable.ranked (htable.rank_lt _)

theorem findTail_eq {rank : ℕ → ℕ} {prevs : ℕ}
    (hranked : Ranked (live table) (link table) rank)
    (hfuel : live table slot = true → rank slot < fuel) :
    findTail table (fuel + 1) slot prevs =
      some ((chain (live table) (link table) fuel slot).getLastD prevs) := by
  induction fuel generalizing slot prevs with
  | zero =>
      have hfree : live table slot = false := by
        cases hlive : live table slot with
        | false => rfl
        | true => exact absurd (hfuel hlive) (Nat.not_lt_zero _)
      rw [findTail, if_neg (by simpa [live] using hfree), chain_of_dead hfree]
      rfl
  | succ fuel ih =>
      cases hlive : live table slot with
      | false =>
          rw [findTail, if_neg (by simpa [live] using hlive),
            chain_of_dead hlive]
          rfl
      | true =>
          have hoccupied : (table slot).occupied = true := hlive
          rw [findTail, if_pos hoccupied]
          cases hlink : link table slot with
          | none =>
              have hnext : (table slot).nextSlot = none := hlink
              rw [chain_of_unlinked hlive hlink, hnext]
              rfl
          | some next =>
              have hnext : (table slot).nextSlot = some next := hlink
              rw [chain_of_linked hlive hlink, hnext, List.getLastD_cons]
              exact ih (hranked.fuel_step hfuel hlive hlink)

/-- A slot that the probing loop returns is free. -/
theorem probe_free {slot' : ℕ} (hprobe : probe cfg table fuel slot = some slot')
    (hslot : slot < cfg.hashSlots) :
    slot' < cfg.hashSlots ∧ live table slot' = false := by
  induction fuel generalizing slot with
  | zero => cases hprobe
  | succ fuel ih =>
      rw [probe] at hprobe
      split at hprobe
      · refine ih hprobe ?_
        split
        · exact cfg.hashSlots_pos
        · omega
      · rename_i hfree
        cases hprobe
        exact ⟨hslot, by simpa [live] using hfree⟩

/-- The probing loop ends if there is a free slot. -/
theorem probe_ends {free : ℕ} (hfree : free < cfg.hashSlots)
    (hdead : live table free = false) (hslot : slot < cfg.hashSlots)
    (hfuel : Ring.distance cfg.hashSlots slot free < fuel) :
    ∃ slot', probe cfg table fuel slot = some slot' := by
  induction fuel generalizing slot with
  | zero => exact absurd hfuel (Nat.not_lt_zero _)
  | succ fuel ih =>
      rw [probe]
      split
      · rename_i hoccupied
        have hne : slot ≠ free := by
          rintro rfl
          simp [live, hoccupied] at hdead
        have hnext : (if cfg.hashSlots ≤ slot + 1 then 0 else slot + 1) =
            Ring.next cfg.hashSlots slot := by
          unfold Ring.next
          split <;> split <;> omega
        rw [hnext]
        have hstep := Ring.distance_next hslot hfree hne
        exact ih (Ring.next_lt hslot) (by omega)
      · exact ⟨slot, rfl⟩

/-- What a slot chosen for a new key is: free, and either the slot of the hash
value or linked from the end of the chain that starts there. -/
structure Chosen (cfg : KvConfig) (table : ℕ → MappingEntry)
    (key : List UInt8) (slot : ℕ) (prevSlot : Option ℕ) : Prop where
  slot_lt : slot < cfg.hashSlots
  free : live table slot = false
  from_hash : prevSlot = none → slot = getHashSlot cfg key
  from_tail : ∀ prev ∈ prevSlot,
    (slotChain cfg table (getHashSlot cfg key)).getLast? = some prev

theorem getHashSlot_lt (cfg : KvConfig) (key : List UInt8) :
    getHashSlot cfg key < cfg.hashSlots :=
  Nat.mod_lt _ cfg.hashSlots_pos

theorem getLastD_of_ne_nil {α : Type*} {l : List α} {a : α} (hl : l ≠ []) :
    l.getLast? = some (l.getLastD a) := by
  cases l with
  | nil => exact absurd rfl hl
  | cons x xs => simp [List.getLastD_eq_getLast?, List.getLast?_cons]

/-- The end of the chain of an occupied slot. -/
theorem Chained.findTail_eq (htable : Chained cfg table time clock)
    (hlive : live table slot = true) :
    ∃ prev, findTail table (cfg.hashSlots + 1) slot slot = some prev ∧
      (slotChain cfg table slot).getLast? = some prev ∧
      prev < cfg.hashSlots := by
  have hne : slotChain cfg table slot ≠ [] := by
    obtain ⟨n, hn⟩ := Nat.exists_eq_succ_of_ne_zero cfg.hashSlots_pos.ne'
    rw [slotChain, hn, chain, if_pos hlive]
    exact List.cons_ne_nil _ _
  have hlast := getLastD_of_ne_nil (a := slot) hne
  refine ⟨_, Kv.findTail_eq htable.ranked (htable.rank_lt slot), hlast, ?_⟩
  exact htable.live_lt _ (mem_slotChain_live (List.mem_of_getLast? hlast))

theorem Chained.chooseSlot_chosen (htable : Chained cfg table time clock)
    {prevSlot : Option ℕ}
    (hchoose : chooseSlot cfg table key = some (slot, prevSlot)) :
    Chosen cfg table key slot prevSlot := by
  unfold chooseSlot at hchoose
  dsimp only at hchoose
  split at hchoose
  next hoccupied =>
    obtain ⟨prev, htail, hlast, hprev⟩ := htable.findTail_eq hoccupied
    obtain ⟨⟨found, foundPrev⟩, hfind, heq⟩ := Option.map_eq_some_iff.mp hchoose
    cases heq
    rw [findNextSlot, htail] at hfind
    change (probe cfg table (cfg.hashSlots + 1) prev).bind _ = _ at hfind
    obtain ⟨free, hprobe, heq⟩ := Option.bind_eq_some_iff.mp hfind
    cases heq
    obtain ⟨hlt, hfree⟩ := probe_free hprobe hprev
    exact ⟨hlt, hfree, by simp, by simpa using hlast⟩
  next hfree =>
    cases hchoose
    exact ⟨getHashSlot_lt cfg key, by simpa [live] using hfree, fun _ => rfl,
      by simp⟩

/-- As long as a slot is free, one is chosen. -/
theorem Chained.chooseSlot_ends (htable : Chained cfg table time clock)
    {free : ℕ} (hfree : free < cfg.hashSlots) (hdead : live table free = false)
    (key : List UInt8) :
    ∃ slot prevSlot, chooseSlot cfg table key = some (slot, prevSlot) := by
  unfold chooseSlot
  dsimp only
  split
  next hoccupied =>
    obtain ⟨prev, htail, -, hprev⟩ := htable.findTail_eq hoccupied
    obtain ⟨slot, hprobe⟩ := probe_ends hfree hdead hprev
      (Nat.lt_succ_of_lt (Ring.distance_lt hprev hfree))
    refine ⟨slot, some prev, ?_⟩
    rw [findNextSlot, htail]
    change Option.map _ ((probe cfg table (cfg.hashSlots + 1) prev).bind _) = _
    rw [hprobe]
    rfl
  next => exact ⟨_, _, rfl⟩

/-- The links between slots. -/
def Links (table : ℕ → MappingEntry) (slot next : ℕ) : Prop :=
  link table slot = some next

theorem lookup_reaches (hfound : lookup cfg table key = some slot) :
    Relation.ReflTransGen (Links table) (getHashSlot cfg key) slot :=
  mem_chain_reaches (List.mem_of_find?_eq_some hfound)

/-- The links never lead back. -/
theorem Chained.acyclic (htable : Chained cfg table time clock) (slot : ℕ) :
    ¬Relation.TransGen (Links table) slot slot := by
  have hlive : ∀ s t, Links table s t → live table s = true := by
    intro s t hlink
    by_contra hfree
    rw [Links, htable.free_link s (by simpa using hfree)] at hlink
    cases hlink
  have htime : ∀ s t, Relation.TransGen (Links table) s t →
      live table t = true → time s < time t := by
    intro s t hpath
    induction hpath with
    | single hlink => exact htable.link_time s _ (hlive s _ hlink) hlink
    | tail _ hlink ih =>
        intro ht
        have hmid := hlive _ _ hlink
        exact (ih hmid).trans (htable.link_time _ _ hmid hlink ht)
  intro hcycle
  obtain ⟨next, hlink, -⟩ := Relation.TransGen.head'_iff.mp hcycle
  exact lt_irrefl _ (htime slot slot hcycle (hlive slot next hlink))

/-! ## Insertion -/

variable {prevSlot : Option ℕ} {valOffset valLen : ℕ}

theorem Chosen.prev_ne (hchosen : Chosen cfg table key slot prevSlot) {prev : ℕ}
    (hprev : prev ∈ prevSlot) : prev ≠ slot := by
  rintro rfl
  have hlive := mem_slotChain_live
    (List.mem_of_getLast? (hchosen.from_tail prev hprev))
  rw [hchosen.free] at hlive
  cases hlive

theorem putEntry_slot (hchosen : Chosen cfg table key slot prevSlot) :
    putEntry table slot prevSlot key valOffset valLen slot =
      (table slot).fill key valOffset valLen := by
  unfold putEntry
  cases hprev : prevSlot with
  | none => exact Function.update_self _ _ _
  | some prev =>
      have hne := hchosen.prev_ne hprev
      dsimp only
      rw [chainMapping, Function.update_of_ne hne.symm, Function.update_self]

/-- The other entries are as before, apart from one link. -/
theorem putEntry_other {s : ℕ} (hs : s ≠ slot) :
    putEntry table slot prevSlot key valOffset valLen s =
      if s ∈ prevSlot then { table s with nextSlot := some slot }
      else table s := by
  unfold putEntry
  cases prevSlot with
  | none =>
      rw [if_neg (by simp)]
      exact Function.update_of_ne hs _ _
  | some prev =>
      dsimp only
      rw [chainMapping]
      by_cases hprev : s = prev
      · subst hprev
        have hself : s ∈ some s := rfl
        rw [Function.update_self, Function.update_of_ne hs, if_pos hself]
      · have hno : s ∉ some prev := by simpa [eq_comm] using hprev
        rw [Function.update_of_ne hprev, Function.update_of_ne hs, if_neg hno]

theorem putEntry_key {s : ℕ} (hs : s ≠ slot) :
    (putEntry table slot prevSlot key valOffset valLen s).key =
      (table s).key := by
  rw [putEntry_other hs]
  split <;> rfl

theorem putEntry_memOffset {s : ℕ} (hs : s ≠ slot) :
    (putEntry table slot prevSlot key valOffset valLen s).memOffset =
      (table s).memOffset := by
  rw [putEntry_other hs]
  split <;> rfl

theorem putEntry_length {s : ℕ} (hs : s ≠ slot) :
    (putEntry table slot prevSlot key valOffset valLen s).length =
      (table s).length := by
  rw [putEntry_other hs]
  split <;> rfl

theorem live_putEntry {s : ℕ} (hs : s ≠ slot) :
    live (putEntry table slot prevSlot key valOffset valLen) s =
      live table s := by
  rw [live, MappingEntry.occupied, putEntry_memOffset hs]
  rfl

theorem Chained.grows (htable : Chained cfg table time clock)
    (hchosen : Chosen cfg table key slot prevSlot) :
    Grows (live table)
      (live (putEntry table slot prevSlot key valOffset valLen)) (link table)
      (link (putEntry table slot prevSlot key valOffset valLen)) slot where
  dead := hchosen.free
  live_eq := by
    intro s
    by_cases hs : s = slot
    · subst hs
      rw [live, putEntry_slot hchosen]
      simp [MappingEntry.fill, MappingEntry.occupied]
    · rw [live_putEntry hs, decide_eq_false hs, Bool.or_false]
  unlinked := by
    rw [link, putEntry_slot hchosen]
    exact htable.free_link slot hchosen.free
  link_eq := by
    intro s hlive
    have hs : s ≠ slot := by
      rintro rfl
      rw [hchosen.free] at hlive
      cases hlive
    rw [link, putEntry_other hs]
    split
    next hprev =>
      refine .inr ⟨rfl, ?_⟩
      exact getLast?_chain htable.ranked (htable.rank_lt _)
        (hchosen.from_tail s hprev)
    next => exact .inl rfl

theorem Chained.putEntry (htable : Chained cfg table time clock)
    (hchosen : Chosen cfg table key slot prevSlot) :
    Chained cfg (putEntry table slot prevSlot key valOffset valLen)
      (Function.update time slot clock) (clock + 1) := by
  have hgrows : Grows (live table)
      (live (Kv.putEntry table slot prevSlot key valOffset valLen)) (link table)
      (link (Kv.putEntry table slot prevSlot key valOffset valLen)) slot :=
    htable.grows hchosen
  refine ⟨?_, ?_, ?_, ?_, ?_⟩
  · intro s hlive
    by_cases hs : s = slot
    · exact hs ▸ hchosen.slot_lt
    · rw [live_putEntry hs] at hlive
      exact htable.live_lt s hlive
  · intro s t hlink
    by_cases hs : s = slot
    · subst hs
      rw [hgrows.unlinked] at hlink
      cases hlink
    · rw [link, putEntry_other hs] at hlink
      split at hlink
      · cases hlink
        exact hchosen.slot_lt
      · exact htable.link_lt s t hlink
  · intro s t hlive hlink ht
    have hs : s ≠ slot := by
      rintro rfl
      rw [hgrows.unlinked] at hlink
      cases hlink
    rw [live_putEntry hs] at hlive
    rw [Function.update_of_ne hs]
    by_cases htslot : t = slot
    · subst htslot
      rw [Function.update_self]
      exact htable.time_lt s hlive
    · rw [live_putEntry htslot] at ht
      rw [Function.update_of_ne htslot]
      rcases hgrows.link_eq s hlive with hsame | ⟨hjoins, -⟩
      · exact htable.link_time s t hlive (hsame ▸ hlink) ht
      · cases hjoins.symm.trans hlink
        exact absurd rfl htslot
  · intro s hfree
    rw [hgrows.live_eq, Bool.or_eq_false_iff, decide_eq_false_iff_not] at hfree
    rw [link, putEntry_other hfree.2, if_neg]
    · exact htable.free_link s hfree.1
    · intro hprev
      have hlive := mem_slotChain_live
        (List.mem_of_getLast? (hchosen.from_tail s hprev))
      rw [hfree.1] at hlive
      cases hlive
  · intro s hlive
    by_cases hs : s = slot
    · subst hs
      rw [Function.update_self]
      exact Nat.lt_succ_self clock
    · rw [live_putEntry hs] at hlive
      rw [Function.update_of_ne hs]
      exact Nat.lt_succ_of_lt (htable.time_lt s hlive)

/-- A new entry is added at the end of a chain or not at all. -/
theorem Chained.slotChain_putEntry (htable : Chained cfg table time clock)
    (hchosen : Chosen cfg table key slot prevSlot) (a : ℕ) :
    slotChain cfg (Kv.putEntry table slot prevSlot key valOffset valLen) a =
        slotChain cfg table a ∨
      slotChain cfg (Kv.putEntry table slot prevSlot key valOffset valLen) a =
        slotChain cfg table a ++ [slot] := by
  have htable' : Chained cfg (Kv.putEntry table slot prevSlot key valOffset
      valLen) _ _ := htable.putEntry hchosen
  have hmore := chain_succ_fuel htable'.ranked (htable'.rank_lt a)
  rw [slotChain, ← hmore]
  exact chain_grows (htable.grows hchosen) htable.ranked (htable.rank_lt a)

/-- The chain of the key ends with the new entry. -/
theorem Chained.slotChain_putEntry_hash (htable : Chained cfg table time clock)
    (hchosen : Chosen cfg table key slot prevSlot) :
    slotChain cfg (Kv.putEntry table slot prevSlot key valOffset valLen)
        (getHashSlot cfg key) =
      slotChain cfg table (getHashSlot cfg key) ++ [slot] := by
  have hgrows : Grows (live table)
      (live (Kv.putEntry table slot prevSlot key valOffset valLen)) (link table)
      (link (Kv.putEntry table slot prevSlot key valOffset valLen)) slot :=
    htable.grows hchosen
  have htable' : Chained cfg (Kv.putEntry table slot prevSlot key valOffset
      valLen) _ _ := htable.putEntry hchosen
  have hlive : live (Kv.putEntry table slot prevSlot key valOffset valLen) slot =
      true := by
    rw [hgrows.live_eq]
    simp
  have hnot : slot ∉ slotChain cfg table (getHashSlot cfg key) := by
    intro hmem
    have hmem' := mem_slotChain_live hmem
    rw [hchosen.free] at hmem'
    cases hmem'
  have hcases : slotChain cfg
        (Kv.putEntry table slot prevSlot key valOffset valLen) _ = _ ∨ _ :=
    htable.slotChain_putEntry hchosen (getHashSlot cfg key)
  rcases hcases with hsame | hmore
  · exfalso
    apply hnot
    rw [← hsame]
    cases hprev : prevSlot with
    | none =>
        -- The slot is the head of its own chain.
        obtain ⟨n, hn⟩ := Nat.exists_eq_succ_of_ne_zero cfg.hashSlots_pos.ne'
        rw [← hchosen.from_hash hprev, slotChain, hn, chain, ← hprev,
          if_pos hlive]
        exact List.mem_cons_self
    | some prev =>
        have hmemPrev : prev ∈ prevSlot := hprev
        have hlast := hchosen.from_tail prev hmemPrev
        have hmem : prev ∈ slotChain cfg
            (Kv.putEntry table slot prevSlot key valOffset valLen)
            (getHashSlot cfg key) := by
          rw [hsame]
          exact List.mem_of_getLast? hlast
        have hlink : link (Kv.putEntry table slot prevSlot key valOffset valLen)
            prev = some slot := by
          rw [link, putEntry_other (hchosen.prev_ne hmemPrev), if_pos hmemPrev]
        rw [← hprev]
        exact mem_chain_of_link htable'.ranked (htable'.rank_lt _) hmem hlink
          hlive
  · exact hmore

/-- A key that was found is found in the same slot. -/
theorem Chained.lookup_putEntry (htable : Chained cfg table time clock)
    (hchosen : Chosen cfg table key slot prevSlot) (key' : List UInt8) :
    lookup cfg (Kv.putEntry table slot prevSlot key valOffset valLen) key' =
        lookup cfg table key' ∨
      lookup cfg table key' = none ∧
        lookup cfg (Kv.putEntry table slot prevSlot key valOffset valLen) key' =
          some slot := by
  have hsame : (slotChain cfg table (getHashSlot cfg key')).find? (fun s =>
      (Kv.putEntry table slot prevSlot key valOffset valLen s).matchesKey
        key') = lookup cfg table key' := by
    apply find?_congr_mem
    intro s hs
    have hne : s ≠ slot := by
      rintro rfl
      have hlive := mem_slotChain_live hs
      rw [hchosen.free] at hlive
      cases hlive
    rw [MappingEntry.matchesKey, putEntry_key hne, MappingEntry.matchesKey]
  have hcases : slotChain cfg
        (Kv.putEntry table slot prevSlot key valOffset valLen) _ = _ ∨ _ :=
    htable.slotChain_putEntry hchosen (getHashSlot cfg key')
  rcases hcases with hchain | hchain
  · left
    rw [lookup, hchain, hsame]
  · rw [lookup, hchain, List.find?_append, hsame]
    cases lookup cfg table key' with
    | some found => exact .inl rfl
    | none =>
        rw [Option.none_or, List.find?_cons]
        split
        · exact .inr ⟨rfl, rfl⟩
        · exact .inl rfl

/-- The new key is found in its slot. -/
theorem Chained.lookup_putEntry_self (htable : Chained cfg table time clock)
    (hchosen : Chosen cfg table key slot prevSlot)
    (hmissing : lookup cfg table key = none) :
    lookup cfg (Kv.putEntry table slot prevSlot key valOffset valLen) key =
      some slot := by
  have hmatch : (Kv.putEntry table slot prevSlot key valOffset valLen
      slot).matchesKey key = true := by
    rw [putEntry_slot hchosen]
    simp [MappingEntry.matchesKey, MappingEntry.fill]
  have hnew : slot ∈ slotChain cfg
      (Kv.putEntry table slot prevSlot key valOffset valLen)
      (getHashSlot cfg key) := by
    rw [htable.slotChain_putEntry_hash hchosen]
    simp
  have hcases : lookup cfg
      (Kv.putEntry table slot prevSlot key valOffset valLen) key = _ ∨ _ :=
    htable.lookup_putEntry hchosen key
  rcases hcases with hsame | ⟨-, hfound⟩
  · rw [hmissing, lookup, List.find?_eq_none] at hsame
    exact absurd hmatch (hsame slot hnew)
  · exact hfound

/-! ## Deletion -/

theorem live_erase (gone s : ℕ) :
    live (Function.update table gone .erased) s =
      (live table s && decide (s ≠ gone)) := by
  unfold live
  by_cases hs : s = gone
  · subst hs
    simp [MappingEntry.erased, MappingEntry.occupied]
  · rw [Function.update_of_ne hs]
    simp [hs]

theorem link_erase {gone s : ℕ} (hs : s ≠ gone) :
    link (Function.update table gone .erased) s = link table s := by
  rw [link, Function.update_of_ne hs]
  rfl

theorem Chained.erase (htable : Chained cfg table time clock) (gone : ℕ) :
    Chained cfg (Function.update table gone .erased) time clock := by
  have hlive : ∀ s, live (Function.update table gone .erased) s = true →
      s ≠ gone ∧ live table s = true := by
    intro s hs
    rw [live_erase, Bool.and_eq_true, decide_eq_true_iff] at hs
    exact ⟨hs.2, hs.1⟩
  have hgone : link (Function.update table gone .erased) gone = none := by
    rw [link, Function.update_self]
    rfl
  refine ⟨?_, ?_, ?_, ?_, ?_⟩
  · exact fun s hs => htable.live_lt s (hlive s hs).2
  · intro s t hlink
    by_cases hs : s = gone
    · rw [hs, hgone] at hlink
      cases hlink
    · exact htable.link_lt s t (link_erase hs ▸ hlink)
  · intro s t hs hlink ht
    exact htable.link_time s t (hlive s hs).2
      (link_erase (hlive s hs).1 ▸ hlink) (hlive t ht).2
  · intro s hs
    by_cases heq : s = gone
    · rw [heq, hgone]
    · rw [live_erase, Bool.and_eq_false_iff] at hs
      rw [link_erase heq]
      exact htable.free_link s (hs.resolve_right (by simp [heq]))
  · exact fun s hs => htable.time_lt s (hlive s hs).2

/-- The chains through an erased slot end before it. -/
theorem slotChain_erase (gone a : ℕ) :
    slotChain cfg (Function.update table gone .erased) a =
      (slotChain cfg table a).takeWhile fun s => decide (s ≠ gone) :=
  chain_dies (live_erase gone) fun _ hs => link_erase hs

end NvmeVirt.Kv
