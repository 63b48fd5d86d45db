import NvmeVirt.Kv.Commands

/-!
# What a lookup finds

A lookup compares the entries of a chain, over the length of the key that is
looked up, and stops at the first slot that is free.  A deletion frees a slot
without closing the chain, and cuts off the keys behind it.  An entry does not
record the length of its key, so that a key is also found as the beginning of a
longer one that lies on its chain.
-/

namespace NvmeVirt.Kv

variable {cfg : KvConfig} {ftl : KvFtl}

/-! ## Deletion -/

/-- The search of a list that is cut off at an element that does not match. -/
theorem find?_takeWhile_ne {α : Type*} [DecidableEq α] {l : List α}
    {p : α → Bool} {gone : α} (hgone : p gone = false) :
    (l.takeWhile fun x => decide (x ≠ gone)).find? p =
      if gone ∈ l.takeWhile (fun x => !p x) then none else l.find? p := by
  induction l with
  | nil => rfl
  | cons x xs ih =>
      cases hx : p x with
      | true =>
          have hne : x ≠ gone := by
            rintro rfl
            rw [hgone] at hx
            cases hx
          simp [hne, hx]
      | false =>
          by_cases heq : x = gone
          · subst heq
            simp [hx]
          · have heq' : gone ≠ x := Ne.symm heq
            simp only [List.takeWhile_cons, heq, hx, List.find?_cons,
              List.mem_cons, heq', ne_eq, not_false_eq_true, decide_true,
              if_true, Bool.not_false, false_or]
            exact ih

/-- The slots whose entries are compared before the one that is found. -/
def comparedBefore (cfg : KvConfig) (table : ℕ → MappingEntry)
    (key : List UInt8) : List ℕ :=
  (slotChain cfg table (getHashSlot cfg key)).takeWhile fun slot =>
    !(table slot).matchesKey key

theorem matchesKey_iff {key : List UInt8} {entry : MappingEntry} :
    entry.matchesKey key = true ↔ entry.key.take key.length = key :=
  decide_eq_true_iff

/-- An entry matches one key of each length. -/
theorem matchesKey_inj {key key' : List UInt8} {entry : MappingEntry}
    (hmatch : entry.matchesKey key = true)
    (hmatch' : entry.matchesKey key' = true)
    (hlength : key.length = key'.length) : key = key' := by
  rw [matchesKey_iff] at hmatch hmatch'
  rw [← hmatch, ← hmatch', hlength]

theorem lookup_erase {table : ℕ → MappingEntry} {key : List UInt8} {gone : ℕ}
    (hgone : (table gone).matchesKey key = false) :
    lookup cfg (Function.update table gone .erased) key =
      if gone ∈ comparedBefore cfg table key then none
      else lookup cfg table key := by
  rw [lookup, slotChain_erase, comparedBefore, lookup,
    ← find?_takeWhile_ne (p := fun slot => (table slot).matchesKey key) hgone]
  apply find?_congr_mem
  intro slot hslot
  have hne : slot ≠ gone := by simpa using List.mem_takeWhile_imp hslot
  rw [Function.update_of_ne hne]

/-- For keys of one length, the deletion of a key leaves what another key
retrieves exactly if its entry does not lie before the entry of the other on the
chain of the other. -/
theorem delete_keeps_other_iff (cfg : KvConfig) (storage : ℕ → UInt8)
    (commands : List KvCommand) (ftl ftl' : KvFtl) (key key' : KvKey)
    (hrun : kvRun cfg (.init storage) commands = some ftl)
    (hne : key ≠ key') (hlength : key.bytes.length = key'.bytes.length)
    (hdelete : kvDelete cfg ftl key = some ftl') :
    ((∀ bufferLength, kvRetrieve cfg ftl' key' bufferLength =
          kvRetrieve cfg ftl key' bufferLength) ∧
        kvExist cfg ftl' key' = kvExist cfg ftl key') ↔
      ∀ slot slot', lookup cfg ftl.table key.bytes = some slot →
        lookup cfg ftl.table key'.bytes = some slot' →
        slot ∉ comparedBefore cfg ftl.table key'.bytes := by
  obtain ⟨time, clock, htable⟩ := wellChained_run hrun
  cases hfound : lookup cfg ftl.table key.bytes with
  | none =>
      rw [htable.kvDelete_missing hfound] at hdelete
      cases hdelete
      simp
  | some slot =>
      rw [htable.kvDelete_found hfound] at hdelete
      cases hdelete
      have htable' := htable.erase slot
      have hother : (ftl.table slot).matchesKey key'.bytes = false := by
        by_contra hmatch
        have hbytes := matchesKey_inj (lookup_matches hfound)
          (Bool.of_not_eq_false hmatch) hlength
        exact hne (KvKey.ext hbytes)
      have hlookup := @lookup_erase cfg _ _ _ hother
      constructor
      · rintro ⟨-, hexist⟩ _ slot' ⟨⟩ hslot' hbefore
        rw [if_pos hbefore] at hlookup
        rw [htable.kvExist_eq, htable'.kvExist_eq, hlookup, hslot'] at hexist
        cases hexist
      · intro hnot
        have hsame : lookup cfg (Function.update ftl.table slot .erased)
            key'.bytes = lookup cfg ftl.table key'.bytes := by
          rw [hlookup]
          split
          next hbefore =>
            cases hslot' : lookup cfg ftl.table key'.bytes with
            | none => rfl
            | some slot' => exact absurd hbefore (hnot slot slot' rfl hslot')
          next => rfl
        refine ⟨fun bufferLength => ?_, ?_⟩
        · cases hslot' : lookup cfg ftl.table key'.bytes with
          | none =>
              rw [hslot'] at hsame
              rw [htable.kvRetrieve_missing hslot',
                htable'.kvRetrieve_missing hsame]
          | some slot' =>
              rw [hslot'] at hsame
              have hslotNe : slot' ≠ slot := by
                rintro rfl
                rw [lookup_matches hslot'] at hother
                cases hother
              obtain ⟨offset, hoffset⟩ := live_iff.mp (lookup_live hslot')
              have hentry : Function.update ftl.table slot .erased slot' =
                  ftl.table slot' := Function.update_of_ne hslotNe _ _
              rw [htable.kvRetrieve_found hslot' hoffset,
                htable'.kvRetrieve_found hsame (hentry ▸ hoffset)]
              dsimp only
              rw [hentry]
              rfl
        · rw [htable.kvExist_eq, htable'.kvExist_eq, hsame]

theorem fourBytes_pos (a b c d : UInt8) : 0 < [a, b, c, d].length :=
  Nat.zero_lt_succ 3

theorem fourBytes_le (a b c d : UInt8) : [a, b, c, d].length ≤ 16 :=
  Nat.le_add_right 4 12

def fourBytes (a b c d : UInt8) : KvKey :=
  ⟨[a, b, c, d], fourBytes_pos a b c d, fourBytes_le a b c d⟩

/-- The key `akcl`. -/
def keyAkcl : KvKey := fourBytes 0x61 0x6b 0x63 0x6c

/-- The key `imxa`, with the hash slot of `akcl`. -/
def keyImxa : KvKey := fourBytes 0x69 0x6d 0x78 0x61

/-- The commands that store a value under each of the two keys. -/
def storeBoth : List KvCommand :=
  [.store keyAkcl [1, 2, 3, 4], .store keyImxa [5, 6, 7, 8]]

def bothStored : KvFtl :=
  (kvRun kvPrototype (.init fun _ => 0) storeBoth).getD (.init fun _ => 0)

theorem bothStored_run :
    kvRun kvPrototype (.init fun _ => 0) storeBoth = some bothStored :=
  Option.eq_some_of_isSome (by decide +kernel)

/-- The key that was stored second can be deleted. -/
theorem delete_keeps_other_iff_second :
    ∃ ftl', kvDelete kvPrototype bothStored keyImxa = some ftl' ∧
      kvExist kvPrototype ftl' keyAkcl =
        kvExist kvPrototype bothStored keyAkcl := by
  obtain ⟨ftl', hdelete⟩ : ∃ ftl', kvDelete kvPrototype bothStored keyImxa =
      some ftl' := Option.isSome_iff_exists.mp (by decide +kernel)
  have hkeeps := (delete_keeps_other_iff kvPrototype (fun _ => 0) storeBoth
    bothStored ftl' keyImxa keyAkcl bothStored_run (by decide) rfl
    hdelete).mpr (by
      intro slot slot' _ _
      have hfirst : comparedBefore kvPrototype bothStored.table keyAkcl.bytes =
          [] := by decide +kernel
      rw [hfirst]
      exact List.not_mem_nil)
  exact ⟨ftl', hdelete, hkeeps.2⟩

/-- The deletion of the key that was stored first loses the other one. -/
theorem delete_loses_other :
    kvRun kvPrototype (.init fun _ => 0) storeBoth = some bothStored ∧
      kvExist kvPrototype bothStored keyImxa = some true ∧
      (do let ftl ← kvDelete kvPrototype bothStored keyAkcl
          kvExist kvPrototype ftl keyImxa) = some false :=
  ⟨bothStored_run, by decide +kernel, by decide +kernel⟩

/-! ## Keys of different lengths -/

/-- The bytes of a key in a table without deletions: the rest of the 18 bytes is
zero. -/
def padKey (key : KvKey) : List UInt8 :=
  key.bytes ++ List.replicate (18 - key.bytes.length) 0

/-- The keys that the commands store. -/
def storedKeys (commands : List KvCommand) : List KvKey :=
  commands.filterMap fun command => command.stored.map Prod.fst

/-- Every entry holds one of the keys, and the free slots are as they were. -/
structure HoldsKeys (keys : List KvKey) (table : ℕ → MappingEntry) : Prop where
  key_eq : ∀ slot, live table slot = true →
    ∃ key ∈ keys, (table slot).key = padKey key
  free_eq : ∀ slot, live table slot = false →
    (table slot).key = List.replicate 18 0

theorem HoldsKeys.mono {keys keys' : List KvKey} {table : ℕ → MappingEntry}
    (hholds : HoldsKeys keys table) (hsubset : keys ⊆ keys') :
    HoldsKeys keys' table where
  key_eq slot hlive := by
    obtain ⟨key, hmem, hkey⟩ := hholds.key_eq slot hlive
    exact ⟨key, hsubset hmem, hkey⟩
  free_eq := hholds.free_eq

theorem HoldsKeys.kvInsert {keys : List KvKey} {key : KvKey}
    {value : List UInt8} {ftl' : KvFtl} (hftl : ftl.WellChained cfg)
    (hholds : HoldsKeys keys ftl.table)
    (hinsert : kvInsert cfg ftl key value = some ftl') :
    HoldsKeys (keys ++ [key]) ftl'.table := by
  obtain ⟨time, clock, htable⟩ := hftl
  obtain ⟨slot, prevSlot, hchoose, -, -, rfl⟩ := kvInsert_inv hinsert
  have hchosen := htable.chooseSlot_chosen hchoose
  change HoldsKeys (keys ++ [key])
    (putEntry ftl.table slot prevSlot key.bytes _ value.length)
  constructor
  · intro s hlive
    by_cases hs : s = slot
    · subst hs
      refine ⟨key, by simp, ?_⟩
      rw [putEntry_slot hchosen, MappingEntry.fill,
        hholds.free_eq s hchosen.free, List.drop_replicate]
      rfl
    · rw [live_putEntry hs] at hlive
      obtain ⟨key', hmem, hkey⟩ := hholds.key_eq s hlive
      exact ⟨key', List.mem_append_left _ hmem, by rw [putEntry_key hs, hkey]⟩
  · intro s hfree
    have hs : s ≠ slot := by
      rintro rfl
      rw [live, putEntry_slot hchosen] at hfree
      cases hfree
    rw [live_putEntry hs] at hfree
    rw [putEntry_key hs]
    exact hholds.free_eq s hfree

theorem HoldsKeys.congr {keys : List KvKey} {table table' : ℕ → MappingEntry}
    (hholds : HoldsKeys keys table) (hlive : live table' = live table)
    (hkey : ∀ slot, (table' slot).key = (table slot).key) :
    HoldsKeys keys table' where
  key_eq slot := by
    rw [hlive, hkey]
    exact hholds.key_eq slot
  free_eq slot := by
    rw [hlive, hkey]
    exact hholds.free_eq slot

theorem holdsKeys_init {storage : ℕ → UInt8} :
    HoldsKeys [] (KvFtl.init storage).table where
  key_eq := by
    simp [KvFtl.init, live, MappingEntry.fresh, MappingEntry.occupied]
  free_eq _ _ := rfl

/-- A command that deletes nothing. -/
def KvCommand.Keeps : KvCommand → Prop
  | .delete _ => False
  | _ => True

theorem key_setLength (table : ℕ → MappingEntry) (slot length s : ℕ) :
    (setLength table slot length s).key = (table s).key := by
  unfold setLength
  by_cases hs : s = slot
  · subst hs
    rw [Function.update_self]
  · rw [Function.update_of_ne hs]

theorem HoldsKeys.step {keys : List KvKey} {command : KvCommand} {ftl' : KvFtl}
    (hftl : ftl.WellChained cfg) (hholds : HoldsKeys keys ftl.table)
    (hcommand : command.Keeps) (hstep : kvStep cfg ftl command = some ftl') :
    HoldsKeys (keys ++ storedKeys [command]) ftl'.table := by
  have hsame := hholds.mono (List.subset_append_left keys (storedKeys [command]))
  have hchained := hftl
  obtain ⟨time, clock, htable⟩ := hftl
  cases htable.kvStep_effect hstep with
  | none => exact hsame
  | @insert key _ _ hstored _ hinsert =>
      have hkeys : storedKeys [command] = [key] := by
        simp [storedKeys, hstored]
      rw [hkeys]
      exact hholds.kvInsert hchained hinsert
  | overwrite => exact hsame.congr (live_setLength _ _ _) (key_setLength _ _ _)
  | erase hdelete =>
      subst hdelete
      exact hcommand.elim

theorem holdsKeys_run {keys : List KvKey} {commands : List KvCommand}
    {ftl' : KvFtl} (hftl : ftl.WellChained cfg)
    (hholds : HoldsKeys keys ftl.table)
    (hcommands : ∀ command ∈ commands, command.Keeps)
    (hrun : kvRun cfg ftl commands = some ftl') :
    HoldsKeys (keys ++ storedKeys commands) ftl'.table := by
  induction commands generalizing ftl keys with
  | nil =>
      cases hrun
      simpa [storedKeys] using hholds
  | cons command rest ih =>
      obtain ⟨hcommand, hrest⟩ := List.forall_mem_cons.mp hcommands
      rw [kvRun, List.foldlM_cons] at hrun
      obtain ⟨mid, hstep, hrun⟩ := Option.bind_eq_some_iff.mp hrun
      have hmid := ih (hftl.step hstep) (hholds.step hftl hcommand hstep) hrest
        hrun
      rwa [List.append_assoc, storedKeys, storedKeys,
        ← List.filterMap_append] at hmid

/-- Without deletions, a key is found only if it was stored exactly if it was
stored, or no stored key on its chain begins with it, filled up with zeros. -/
theorem lookup_exact_iff (cfg : KvConfig) (storage : ℕ → UInt8)
    (commands : List KvCommand) (ftl : KvFtl) (key : KvKey)
    (hcommands : ∀ command ∈ commands, command.Keeps)
    (hrun : kvRun cfg (.init storage) commands = some ftl) :
    ((kvExist cfg ftl key = some true → key ∈ storedKeys commands) ∧
        ∀ bufferLength value,
          kvRetrieve cfg ftl key bufferLength = some (some value) →
            key ∈ storedKeys commands) ↔
      key ∈ storedKeys commands ∨
        ∀ slot ∈ slotChain cfg ftl.table (getHashSlot cfg key.bytes),
          ∀ other ∈ storedKeys commands, (ftl.table slot).key = padKey other →
            ¬key.bytes <+: padKey other := by
  obtain ⟨time, clock, htable⟩ := wellChained_run hrun
  have hholds := holdsKeys_run ⟨_, _, chained_fresh⟩ holdsKeys_init hcommands
    hrun
  rw [List.nil_append] at hholds
  constructor
  · rintro ⟨hexist, -⟩
    by_contra hneither
    obtain ⟨hnot, hchain⟩ := not_or.mp hneither
    apply hchain
    intro slot hslot other _ hkey hbegins
    rw [htable.kvExist_eq] at hexist
    apply hnot
    apply hexist
    rw [Option.some.injEq, lookup, List.find?_isSome]
    refine ⟨slot, hslot, ?_⟩
    rw [matchesKey_iff, hkey]
    exact (List.prefix_iff_eq_take.mp hbegins).symm
  · rintro (hstored | hchain)
    · exact ⟨fun _ => hstored, fun _ _ _ => hstored⟩
    · have hmissing : lookup cfg ftl.table key.bytes = none := by
        rw [lookup, List.find?_eq_none]
        intro slot hslot hmatch
        obtain ⟨other, hother, hkey⟩ :=
          hholds.key_eq slot (mem_slotChain_live hslot)
        apply hchain slot hslot other hother hkey
        rw [matchesKey_iff, hkey] at hmatch
        exact List.prefix_iff_eq_take.mpr hmatch.symm
      rw [htable.kvExist_eq, hmissing]
      refine ⟨by simp, fun bufferLength value hvalue => ?_⟩
      rw [htable.kvRetrieve_missing hmissing] at hvalue
      cases hvalue

theorem lookup_exact_iff_other_chain :
    kvRun kvPrototype (.init fun _ => 0) storeBoth = some bothStored ∧
      (kvExist kvPrototype bothStored keyA = some true →
        keyA ∈ storedKeys storeBoth) :=
  ⟨bothStored_run,
    ((lookup_exact_iff kvPrototype (fun _ => 0) storeBoth bothStored keyA
      (by simp [storeBoth, KvCommand.Keeps]) bothStored_run).mpr
      (.inr (by decide +kernel))).1⟩

theorem keyC_pos : 0 < [(0x63 : UInt8)].length := by decide

theorem keyC_le : [(0x63 : UInt8)].length ≤ 16 := by decide

/-- The key `c`. -/
def keyC : KvKey := ⟨[0x63], keyC_pos, keyC_le⟩

theorem keyCefzxv_pos :
    0 < [(0x63 : UInt8), 0x65, 0x66, 0x7a, 0x78, 0x76].length := by decide

theorem keyCefzxv_le :
    [(0x63 : UInt8), 0x65, 0x66, 0x7a, 0x78, 0x76].length ≤ 16 := by decide

/-- The key `cefzxv`, with the hash slot of `c`. -/
def keyCefzxv : KvKey :=
  ⟨[0x63, 0x65, 0x66, 0x7a, 0x78, 0x76], keyCefzxv_pos, keyCefzxv_le⟩

/-- Only the longer key is stored, and the shorter one is found. -/
theorem shorter_key_found :
    keyC ∉ storedKeys [.store keyCefzxv [1, 2, 3, 4]] ∧
      (do let ftl ← kvRun kvPrototype (.init fun _ => 0)
            [.store keyCefzxv [1, 2, 3, 4]]
          kvExist kvPrototype ftl keyC) = some true ∧
      (do let ftl ← kvRun kvPrototype (.init fun _ => 0)
            [.store keyCefzxv [1, 2, 3, 4]]
          kvRetrieve kvPrototype ftl keyC 64) = some (some [1, 2, 3, 4]) :=
  ⟨by decide, by decide +kernel, by decide +kernel⟩

end NvmeVirt.Kv
