import NvmeVirt.Kv.Chains

/-!
# Commands on a chained table

What the commands do, said through the slot in which a key is found.  The two
kinds of store differ in one case: a value of another length for a key that is
there, where both lengths are small.  The single store then records the new
length, the batched one leaves the old one.
-/

namespace NvmeVirt.Kv

variable {cfg : KvConfig} {ftl ftl' : KvFtl} {time : ℕ → ℕ} {clock : ℕ}
  {key : KvKey} {value : List UInt8} {slot offset : ℕ}

theorem live_iff {table : ℕ → MappingEntry} {slot : ℕ} :
    live table slot = true ↔ ∃ offset, (table slot).memOffset = some offset :=
  Option.isSome_iff_exists

namespace Chained

theorem getMappingEntry_missing (htable : Chained cfg ftl.table time clock)
    (hmissing : lookup cfg ftl.table key.bytes = none) :
    getMappingEntry cfg ftl.table key.bytes = some .erased := by
  rw [getMappingEntry, htable.search_eq, hmissing]
  rfl

theorem getMappingEntry_found (htable : Chained cfg ftl.table time clock)
    (hfound : lookup cfg ftl.table key.bytes = some slot)
    (hoffset : (ftl.table slot).memOffset = some offset) :
    ∃ bytes nextSlot, getMappingEntry cfg ftl.table key.bytes =
      some ⟨bytes, some offset, (ftl.table slot).length, nextSlot⟩ := by
  rw [getMappingEntry, htable.search_eq, hfound, ← hoffset]
  exact ⟨_, _, rfl⟩

theorem kvRetrieve_missing (htable : Chained cfg ftl.table time clock)
    (hmissing : lookup cfg ftl.table key.bytes = none) (bufferLength : ℕ) :
    kvRetrieve cfg ftl key bufferLength = some none := by
  rw [kvRetrieve, htable.getMappingEntry_missing hmissing]
  rfl

theorem kvRetrieve_found (htable : Chained cfg ftl.table time clock)
    (hfound : lookup cfg ftl.table key.bytes = some slot)
    (hoffset : (ftl.table slot).memOffset = some offset) (bufferLength : ℕ) :
    kvRetrieve cfg ftl key bufferLength =
      (copyOut cfg ftl offset
        (min (ftl.table slot).length bufferLength)).map some := by
  obtain ⟨bytes, nextSlot, hentry⟩ :=
    htable.getMappingEntry_found hfound hoffset
  rw [kvRetrieve, hentry]
  change (copyOut cfg ftl offset
    (min (ftl.table slot).length bufferLength)).bind (some ∘ some) = _
  exact (Option.map_eq_bind).symm

theorem kvExist_eq (htable : Chained cfg ftl.table time clock) (key : KvKey) :
    kvExist cfg ftl key = some (lookup cfg ftl.table key.bytes).isSome := by
  cases hfound : lookup cfg ftl.table key.bytes with
  | none =>
      rw [kvExist, htable.getMappingEntry_missing hfound]
      rfl
  | some slot =>
      obtain ⟨offset, hoffset⟩ := live_iff.mp (lookup_live hfound)
      obtain ⟨bytes, nextSlot, hentry⟩ :=
        htable.getMappingEntry_found hfound hoffset
      rw [kvExist, hentry]
      rfl

theorem kvDelete_missing (htable : Chained cfg ftl.table time clock)
    (hmissing : lookup cfg ftl.table key.bytes = none) :
    kvDelete cfg ftl key = some ftl := by
  rw [kvDelete, htable.getMappingEntry_missing hmissing]
  rfl

theorem kvDelete_found (htable : Chained cfg ftl.table time clock)
    (hfound : lookup cfg ftl.table key.bytes = some slot) :
    kvDelete cfg ftl key = some { ftl with
      table := Function.update ftl.table slot .erased } := by
  obtain ⟨offset, hoffset⟩ := live_iff.mp (lookup_live hfound)
  obtain ⟨bytes, nextSlot, hentry⟩ :=
    htable.getMappingEntry_found hfound hoffset
  rw [kvDelete, hentry]
  change deleteMappingEntry cfg ftl key.bytes = _
  rw [deleteMappingEntry, htable.search_eq, hfound]
  rfl

theorem kvStore_missing (htable : Chained cfg ftl.table time clock)
    (hmissing : lookup cfg ftl.table key.bytes = none) (value : List UInt8) :
    kvStore cfg ftl key value = kvInsert cfg ftl key value := by
  rw [kvStore, htable.getMappingEntry_missing hmissing]
  rfl

theorem kvBatchedStore_missing (htable : Chained cfg ftl.table time clock)
    (hmissing : lookup cfg ftl.table key.bytes = none) (value : List UInt8) :
    kvBatchedStore cfg ftl key value = kvInsert cfg ftl key value := by
  rw [kvBatchedStore, htable.getMappingEntry_missing hmissing]
  rfl

theorem kvBatchedStore_found (htable : Chained cfg ftl.table time clock)
    (hfound : lookup cfg ftl.table key.bytes = some slot)
    (hoffset : (ftl.table slot).memOffset = some offset) (value : List UInt8) :
    kvBatchedStore cfg ftl key value = copyIn cfg ftl offset value := by
  obtain ⟨bytes, nextSlot, hentry⟩ :=
    htable.getMappingEntry_found hfound hoffset
  rw [kvBatchedStore, hentry]
  rfl

end Chained

/-- The entry of a slot gets another length. -/
def setLength (table : ℕ → MappingEntry) (slot length : ℕ) : ℕ → MappingEntry :=
  Function.update table slot { table slot with length }

/-- The new length is one that the single store records. -/
def Resizes (table : ℕ → MappingEntry) (slot length : ℕ) : Prop :=
  length ≠ (table slot).length ∧ length ≤ smallLength ∧
    (table slot).length ≤ smallLength

instance (table : ℕ → MappingEntry) (slot length : ℕ) :
    Decidable (Resizes table slot length) :=
  inferInstanceAs (Decidable (_ ∧ _))

theorem Chained.kvStore_found (htable : Chained cfg ftl.table time clock)
    (hfound : lookup cfg ftl.table key.bytes = some slot)
    (hoffset : (ftl.table slot).memOffset = some offset) (value : List UInt8) :
    kvStore cfg ftl key value = (copyIn cfg ftl offset value).map fun ftl' =>
      if Resizes ftl.table slot value.length then
        { ftl' with table := setLength ftl.table slot value.length }
      else ftl' := by
  obtain ⟨bytes, nextSlot, hentry⟩ :=
    htable.getMappingEntry_found hfound hoffset
  rw [kvStore, hentry]
  change (copyIn cfg ftl offset value).bind _ = _
  unfold copyIn
  split
  · change (if Resizes ftl.table slot value.length then
      updateMappingEntry cfg _ key.bytes value.length else some _) = some _
    split
    · rw [updateMappingEntry]
      change ((search cfg ftl.table key.bytes).bind _) = _
      rw [htable.search_eq, hfound]
      rfl
    · rfl
  · rfl

/-- The key and the value of a store. -/
def KvCommand.stored : KvCommand → Option (KvKey × List UInt8)
  | .store key value | .batchedStore key value => some (key, value)
  | .retrieve _ _ | .exist _ | .delete _ => none

/-- The length recorded for a key that is there, after a value of a certain
length has been stored. -/
def KvCommand.lengthAfter (command : KvCommand) (table : ℕ → MappingEntry)
    (slot length : ℕ) : ℕ :=
  match command with
  | .store _ _ =>
      if Resizes table slot length then length else (table slot).length
  | .batchedStore _ _ | .retrieve _ _ | .exist _ | .delete _ =>
      (table slot).length

theorem setLength_self (table : ℕ → MappingEntry) (slot : ℕ) :
    setLength table slot (table slot).length = table :=
  Function.update_eq_self slot table

/-! ## Insertion -/

theorem copyIn_inv (hcopy : copyIn cfg ftl offset value = some ftl') :
    offset + value.length ≤ cfg.storageSize ∧
      ftl' = { ftl with storage := writeBytes ftl.storage offset value } := by
  unfold copyIn at hcopy
  by_cases hroom : offset + value.length ≤ cfg.storageSize
  · rw [if_pos hroom] at hcopy
    exact ⟨hroom, (Option.some.inj hcopy).symm⟩
  · rw [if_neg hroom] at hcopy
    cases hcopy

theorem newMappingEntry_inv {bytes : List UInt8} {valLen : ℕ}
    (hnew : newMappingEntry cfg ftl bytes valLen offset = some ftl') :
    offset < cfg.storageSize ∧
      ∃ slot prevSlot, chooseSlot cfg ftl.table bytes = some (slot, prevSlot) ∧
        ftl' = { ftl with
          table := putEntry ftl.table slot prevSlot bytes offset valLen } := by
  unfold newMappingEntry at hnew
  by_cases hoffset : cfg.storageSize ≤ offset
  · rw [if_pos hoffset] at hnew
    cases hnew
  · rw [if_neg hoffset] at hnew
    obtain ⟨⟨slot, prevSlot⟩, hchoose, heq⟩ := Option.bind_eq_some_iff.mp hnew
    cases heq
    exact ⟨not_le.mp hoffset, slot, prevSlot, hchoose, rfl⟩

theorem kvInsert_inv (hinsert : kvInsert cfg ftl key value = some ftl') :
    ∃ slot prevSlot, chooseSlot cfg ftl.table key.bytes =
        some (slot, prevSlot) ∧
      allocatedOffset ftl.latest + value.length ≤ cfg.storageSize ∧
      allocatedOffset ftl.latest < cfg.storageSize ∧
      ftl' =
        { table := putEntry ftl.table slot prevSlot key.bytes
            (allocatedOffset ftl.latest) value.length
          latest := (ftl.latest + value.length) % 2 ^ 64
          storage :=
            writeBytes ftl.storage (allocatedOffset ftl.latest) value } := by
  unfold kvInsert at hinsert
  obtain ⟨mid, hcopy, hnew⟩ := Option.bind_eq_some_iff.mp hinsert
  obtain ⟨hroom, hmid⟩ := copyIn_inv hcopy
  subst hmid
  obtain ⟨hlt, slot, prevSlot, hchoose, hftl'⟩ := newMappingEntry_inv hnew
  exact ⟨slot, prevSlot, hchoose, hroom, hlt, hftl'⟩

/-! ## Runs -/

/-- The links of the table go forward in time. -/
def KvFtl.WellChained (cfg : KvConfig) (ftl : KvFtl) : Prop :=
  ∃ time clock, Chained cfg ftl.table time clock

theorem live_setLength (table : ℕ → MappingEntry) (slot length : ℕ) :
    live (setLength table slot length) = live table := by
  funext s
  unfold live setLength
  by_cases hs : s = slot
  · subst hs
    rw [Function.update_self]
    rfl
  · rw [Function.update_of_ne hs]

theorem link_setLength (table : ℕ → MappingEntry) (slot length : ℕ) :
    link (setLength table slot length) = link table := by
  funext s
  unfold link setLength
  by_cases hs : s = slot
  · subst hs
    rw [Function.update_self]
  · rw [Function.update_of_ne hs]

theorem KvFtl.WellChained.kvInsert (hftl : ftl.WellChained cfg)
    (hinsert : kvInsert cfg ftl key value = some ftl') :
    ftl'.WellChained cfg := by
  obtain ⟨time, clock, htable⟩ := hftl
  obtain ⟨slot, prevSlot, hchoose, -, -, rfl⟩ := kvInsert_inv hinsert
  exact ⟨_, _, htable.putEntry (htable.chooseSlot_chosen hchoose)⟩

/-- What a command can do to a chained table. -/
inductive KvEffect (cfg : KvConfig) (ftl : KvFtl) (command : KvCommand) :
    KvFtl → Prop
  | none (hstored : command.stored = none) : KvEffect cfg ftl command ftl
  | insert {key : KvKey} {value : List UInt8} {ftl' : KvFtl}
      (hstored : command.stored = some (key, value))
      (hmissing : lookup cfg ftl.table key.bytes = Option.none)
      (hinsert : kvInsert cfg ftl key value = some ftl') :
      KvEffect cfg ftl command ftl'
  | overwrite {key : KvKey} {value : List UInt8} {slot offset : ℕ}
      (hstored : command.stored = some (key, value))
      (hfound : lookup cfg ftl.table key.bytes = some slot)
      (hoffset : (ftl.table slot).memOffset = some offset)
      (hroom : offset + value.length ≤ cfg.storageSize) :
      KvEffect cfg ftl command { ftl with
        table := setLength ftl.table slot
          (command.lengthAfter ftl.table slot value.length)
        storage := writeBytes ftl.storage offset value }
  | erase {key : KvKey} {slot : ℕ} (hdelete : command = .delete key)
      (hfound : lookup cfg ftl.table key.bytes = some slot) :
      KvEffect cfg ftl command { ftl with
        table := Function.update ftl.table slot .erased }

theorem Chained.kvStep_effect (htable : Chained cfg ftl.table time clock)
    {command : KvCommand} (hstep : kvStep cfg ftl command = some ftl') :
    KvEffect cfg ftl command ftl' := by
  cases command with
  | store key value =>
      rw [kvStep] at hstep
      cases hfound : lookup cfg ftl.table key.bytes with
      | none =>
          rw [htable.kvStore_missing hfound] at hstep
          exact .insert rfl hfound hstep
      | some slot =>
          obtain ⟨offset, hoffset⟩ := live_iff.mp (lookup_live hfound)
          rw [htable.kvStore_found hfound hoffset] at hstep
          obtain ⟨mid, hcopy, rfl⟩ := Option.map_eq_some_iff.mp hstep
          obtain ⟨hroom, rfl⟩ := copyIn_inv hcopy
          have heffect : KvEffect cfg ftl (.store key value) _ :=
            .overwrite rfl hfound hoffset hroom
          rw [KvCommand.lengthAfter] at heffect
          split at heffect
          next hresizes =>
            rw [if_pos hresizes]
            exact heffect
          next hresizes =>
            rw [if_neg hresizes]
            rwa [setLength_self] at heffect
  | batchedStore key value =>
      rw [kvStep] at hstep
      cases hfound : lookup cfg ftl.table key.bytes with
      | none =>
          rw [htable.kvBatchedStore_missing hfound] at hstep
          exact .insert rfl hfound hstep
      | some slot =>
          obtain ⟨offset, hoffset⟩ := live_iff.mp (lookup_live hfound)
          rw [htable.kvBatchedStore_found hfound hoffset] at hstep
          obtain ⟨hroom, rfl⟩ := copyIn_inv hstep
          have heffect : KvEffect cfg ftl (.batchedStore key value) _ :=
            .overwrite rfl hfound hoffset hroom
          rwa [KvCommand.lengthAfter, setLength_self] at heffect
  | retrieve key bufferLength =>
      obtain ⟨-, -, rfl⟩ := Option.map_eq_some_iff.mp hstep
      exact .none rfl
  | exist key =>
      obtain ⟨-, -, rfl⟩ := Option.map_eq_some_iff.mp hstep
      exact .none rfl
  | delete key =>
      rw [kvStep] at hstep
      cases hfound : lookup cfg ftl.table key.bytes with
      | none =>
          rw [htable.kvDelete_missing hfound] at hstep
          cases hstep
          exact .none rfl
      | some slot =>
          rw [htable.kvDelete_found hfound] at hstep
          cases hstep
          exact .erase rfl hfound

theorem KvFtl.WellChained.step (hftl : ftl.WellChained cfg)
    {command : KvCommand} (hstep : kvStep cfg ftl command = some ftl') :
    ftl'.WellChained cfg := by
  have hchained := hftl
  obtain ⟨time, clock, htable⟩ := hftl
  cases htable.kvStep_effect hstep with
  | none => exact hchained
  | insert _ _ hinsert => exact hchained.kvInsert hinsert
  | overwrite =>
      exact ⟨time, clock,
        htable.congr (live_setLength _ _ _) (link_setLength _ _ _)⟩
  | @erase _ slot => exact ⟨time, clock, htable.erase slot⟩

/-- An invariant of the steps is one of the runs. -/
theorem kvRun_invariant {invariant : KvFtl → Prop} {commands : List KvCommand}
    (hstep : ∀ ftl, ∀ command ∈ commands, ∀ ftl', invariant ftl →
      kvStep cfg ftl command = some ftl' → invariant ftl')
    (hftl : invariant ftl) (hrun : kvRun cfg ftl commands = some ftl') :
    invariant ftl' := by
  induction commands generalizing ftl with
  | nil =>
      cases hrun
      exact hftl
  | cons command rest ih =>
      rw [kvRun, List.foldlM_cons] at hrun
      obtain ⟨mid, hmid, hrun⟩ := Option.bind_eq_some_iff.mp hrun
      have hfirst := hstep ftl command List.mem_cons_self mid hftl hmid
      refine ih ?_ hfirst hrun
      intro ftl command hmem
      exact hstep ftl command (List.mem_cons_of_mem _ hmem)

theorem wellChained_run {storage : ℕ → UInt8} {commands : List KvCommand}
    (hrun : kvRun cfg (.init storage) commands = some ftl) :
    ftl.WellChained cfg :=
  kvRun_invariant (fun _ _ _ _ hftl hstep => hftl.step hstep)
    ⟨_, _, chained_fresh⟩ hrun

/-! ## Batched stores -/

/-- In every state, a batched store leaves what a single store leaves, exactly
if it does not change the recorded length of a key that is there. -/
theorem batched_store_agrees_iff (cfg : KvConfig) (storage : ℕ → UInt8)
    (commands : List KvCommand) (ftl single : KvFtl) (key : KvKey)
    (value : List UInt8)
    (hrun : kvRun cfg (.init storage) commands = some ftl)
    (hsingle : kvStore cfg ftl key value = some single) :
    kvBatchedStore cfg ftl key value = some single ↔
      ∀ slot, lookup cfg ftl.table key.bytes = some slot →
        ¬Resizes ftl.table slot value.length := by
  obtain ⟨time, clock, htable⟩ := wellChained_run hrun
  cases hfound : lookup cfg ftl.table key.bytes with
  | none =>
      rw [htable.kvStore_missing hfound] at hsingle
      rw [htable.kvBatchedStore_missing hfound, hsingle]
      simp
  | some slot =>
      obtain ⟨offset, hoffset⟩ := live_iff.mp (lookup_live hfound)
      rw [htable.kvStore_found hfound hoffset] at hsingle
      rw [htable.kvBatchedStore_found hfound hoffset]
      obtain ⟨mid, hcopy, rfl⟩ := Option.map_eq_some_iff.mp hsingle
      obtain ⟨-, rfl⟩ := copyIn_inv hcopy
      rw [hcopy]
      constructor
      · rintro hsame _ ⟨⟩ hresizes
        rw [if_pos hresizes, Option.some.injEq, KvFtl.mk.injEq] at hsame
        have hlength := congrArg MappingEntry.length (congrFun hsame.1 slot)
        rw [setLength, Function.update_self] at hlength
        exact hresizes.1 hlength.symm
      · intro hkeeps
        rw [if_neg (hkeeps slot rfl)]

theorem keyA_pos : 0 < [(0x61 : UInt8)].length := by decide

theorem keyA_le : [(0x61 : UInt8)].length ≤ 16 := by decide

/-- The key `a`. -/
def keyA : KvKey := ⟨[0x61], keyA_pos, keyA_le⟩

/-- A device that holds eight bytes under one key. -/
def eightBytes : KvFtl :=
  (kvRun kvPrototype (.init fun _ => 0)
    [.store keyA [1, 2, 3, 4, 5, 6, 7, 8]]).getD (.init fun _ => 0)

theorem eightBytes_run : kvRun kvPrototype (.init fun _ => 0)
    [.store keyA [1, 2, 3, 4, 5, 6, 7, 8]] = some eightBytes :=
  Option.eq_some_of_isSome (by decide +kernel)

theorem batched_store_agrees_iff_same_length :
    ∃ single, kvStore kvPrototype eightBytes keyA [8, 7, 6, 5, 4, 3, 2, 1] =
        some single ∧
      kvBatchedStore kvPrototype eightBytes keyA [8, 7, 6, 5, 4, 3, 2, 1] =
        some single := by
  obtain ⟨single, hsingle⟩ : ∃ single, kvStore kvPrototype eightBytes keyA
      [8, 7, 6, 5, 4, 3, 2, 1] = some single :=
    Option.isSome_iff_exists.mp (by decide +kernel)
  refine ⟨single, hsingle, (batched_store_agrees_iff kvPrototype (fun _ => 0)
    [.store keyA [1, 2, 3, 4, 5, 6, 7, 8]] eightBytes single keyA _
    eightBytes_run hsingle).mpr ?_⟩
  intro slot hfound hresizes
  have hslot : lookup kvPrototype eightBytes.table keyA.bytes =
      some (getHashSlot kvPrototype keyA.bytes) := by decide +kernel
  cases hslot.symm.trans hfound
  exact absurd hresizes (by decide +kernel)

/-- Four bytes are stored over eight: the single store cuts the value, after the
batched store the old bytes follow the new ones. -/
theorem batched_store_keeps_length :
    kvRun kvPrototype (.init fun _ => 0)
        [.store keyA [1, 2, 3, 4, 5, 6, 7, 8]] = some eightBytes ∧
      (do let ftl ← kvStore kvPrototype eightBytes keyA [9, 10, 11, 12]
          kvRetrieve kvPrototype ftl keyA 64) =
        some (some [9, 10, 11, 12]) ∧
      (do let ftl ← kvBatchedStore kvPrototype eightBytes keyA [9, 10, 11, 12]
          kvRetrieve kvPrototype ftl keyA 64) =
        some (some [9, 10, 11, 12, 5, 6, 7, 8]) :=
  ⟨eightBytes_run, by decide +kernel, by decide +kernel⟩

end NvmeVirt.Kv
