import NvmeVirt.Kv.Lookups

/-!
# Extents of the values

The allocator gives each new key the bytes after all those given out before.  An
update writes at the old offset, whatever the length of the new value, and the
length is recorded only if both lengths belong to the small size class of the
other allocator.  The values stay apart as long as no update is longer than the
value its entry was made for.
-/

namespace NvmeVirt.Kv

variable {cfg : KvConfig}

/-! ## Bytes -/

theorem readBytes_congr {storage storage' : ℕ → UInt8} {offset length : ℕ}
    (hsame : ∀ address, offset ≤ address → address < offset + length →
      storage' address = storage address) :
    readBytes storage' offset length = readBytes storage offset length := by
  apply List.map_congr_left
  intro i hi
  have hlt := List.mem_range.mp hi
  exact hsame _ (by omega) (by omega)

/-- A copy leaves the bytes outside of it as they are. -/
theorem writeBytes_outside {storage : ℕ → UInt8} {offset address : ℕ}
    {value : List UInt8}
    (houtside : address < offset ∨ offset + value.length ≤ address) :
    writeBytes storage offset value address = storage address := by
  unfold writeBytes
  split
  · rw [List.getD_eq_getElem?_getD, List.getElem?_eq_none (by omega)]
    rfl
  · rfl

theorem readBytes_writeBytes (storage : ℕ → UInt8) (offset length : ℕ)
    (value : List UInt8) :
    readBytes (writeBytes storage offset value) offset
      (min value.length length) = value.take length := by
  apply List.ext_getElem
  · simp [readBytes, Nat.min_comm]
  · intro i hi hi'
    simp only [readBytes, List.length_map, List.length_range] at hi
    have hlt : i < value.length := by omega
    simp [readBytes, writeBytes, hlt]

/-! ## The entries and what was allocated for them -/

/-- The state, with the key that each slot was last filled for, and the bytes
allocated then. -/
structure Tracked where
  ftl : KvFtl
  owner : ℕ → Option KvKey
  room : ℕ → ℕ

def Tracked.init (storage : ℕ → UInt8) : Tracked :=
  ⟨.init storage, fun _ => none, fun _ => 0⟩

/-- The record of an insertion. -/
def Tracked.record (cfg : KvConfig) (st : Tracked) (key : KvKey)
    (length : ℕ) (ftl : KvFtl) : Tracked :=
  match chooseSlot cfg st.ftl.table key.bytes with
  | none => { st with ftl }
  | some (slot, _) =>
      { ftl
        owner := Function.update st.owner slot (some key)
        room := Function.update st.room slot length }

/-- The record after a command that leaves a state. -/
def Tracked.after (cfg : KvConfig) (st : Tracked) (command : KvCommand)
    (ftl : KvFtl) : Tracked :=
  match command.stored with
  | none => { st with ftl }
  | some (key, value) =>
      if lookup cfg st.ftl.table key.bytes = none then
        st.record cfg key value.length ftl
      else { st with ftl }

def Tracked.step (cfg : KvConfig) (st : Tracked) (command : KvCommand) :
    Option Tracked :=
  (kvStep cfg st.ftl command).map (st.after cfg command)

def Tracked.run (cfg : KvConfig) (st : Tracked) (commands : List KvCommand) :
    Option Tracked :=
  commands.foldlM (Tracked.step cfg) st

theorem Tracked.after_ftl (st : Tracked) (command : KvCommand) (ftl : KvFtl) :
    (st.after cfg command ftl).ftl = ftl := by
  unfold Tracked.after Tracked.record
  repeat' split
  all_goals rfl

/-- The record does not change what the commands do. -/
theorem Tracked.run_ftl (st : Tracked) (commands : List KvCommand) :
    (st.run cfg commands).map Tracked.ftl = kvRun cfg st.ftl commands := by
  induction commands generalizing st with
  | nil => rfl
  | cons command rest ih =>
      rw [Tracked.run, List.foldlM_cons, kvRun, List.foldlM_cons, Tracked.step]
      cases kvStep cfg st.ftl command with
      | none => rfl
      | some ftl =>
          have hrest := ih (st.after cfg command ftl)
          rw [Tracked.after_ftl] at hrest
          exact hrest

/-- The extents of two slots have no byte in common. -/
def Apart (offset length offset' length' : ℕ) : Prop :=
  offset + length ≤ offset' ∨ offset' + length' ≤ offset

/-- Every entry has its extent in the allocated part of the storage, and no two
entries share a byte. -/
structure Tracked.Inv (cfg : KvConfig) (st : Tracked) : Prop where
  chained : st.ftl.WellChained cfg
  latest_le : st.ftl.latest ≤ cfg.storageSize
  extent : ∀ slot offset, (st.ftl.table slot).memOffset = some offset →
    offset + st.room slot ≤ st.ftl.latest ∧
      (st.ftl.table slot).length ≤ st.room slot
  apart : ∀ slot slot' offset offset', slot ≠ slot' →
    (st.ftl.table slot).memOffset = some offset →
    (st.ftl.table slot').memOffset = some offset' →
      Apart offset (st.room slot) offset' (st.room slot')

theorem Tracked.inv_init (storage : ℕ → UInt8) :
    (Tracked.init storage).Inv cfg where
  chained := ⟨_, _, chained_fresh⟩
  latest_le := Nat.zero_le _
  extent _ _ hoffset := by cases hoffset
  apart _ _ _ _ _ hoffset := by cases hoffset

/-- The store finds the entry that was made for its key, or none; the value has
the size of what was allocated for it at most, and a length that is recorded. -/
def Tracked.Fits (cfg : KvConfig) (st : Tracked) (command : KvCommand) :
    Prop :=
  ∀ key value, command.stored = some (key, value) →
    ∀ slot, lookup cfg st.ftl.table key.bytes = some slot →
      st.owner slot = some key ∧ value.length ≤ st.room slot ∧
        (command = .store key value →
          value.length = (st.ftl.table slot).length ∨
            value.length ≤ smallLength ∧
              (st.ftl.table slot).length ≤ smallLength)

/-- Every command of the list fits in the state in which it is executed. -/
def Tracked.AllFit (cfg : KvConfig) : List KvCommand → Tracked → Prop
  | [], _ => True
  | command :: rest, st => st.Fits cfg command ∧
      ∀ st', st.step cfg command = some st' → AllFit cfg rest st'

/-! ## One command -/

namespace Tracked

variable {st st' : Tracked} {command : KvCommand} {key : KvKey}
  {value : List UInt8}

/-- What an insertion leaves. -/
structure Inserted (cfg : KvConfig) (st : Tracked) (key : KvKey)
    (value : List UInt8) (slot : ℕ) (prevSlot : Option ℕ) (st' : Tracked) :
    Prop where
  chosen : Chosen cfg st.ftl.table key.bytes slot prevSlot
  table_eq : st'.ftl.table = putEntry st.ftl.table slot prevSlot key.bytes
    st.ftl.latest value.length
  latest_eq : st'.ftl.latest = st.ftl.latest + value.length
  latest_le : st'.ftl.latest ≤ cfg.storageSize
  storage_eq : st'.ftl.storage =
    writeBytes st.ftl.storage st.ftl.latest value
  owner_eq : st'.owner = Function.update st.owner slot (some key)
  room_eq : st'.room = Function.update st.room slot value.length

theorem Inv.inserted (hst : st.Inv cfg) {ftl' : KvFtl}
    (hstored : command.stored = some (key, value))
    (hmissing : lookup cfg st.ftl.table key.bytes = none)
    (hinsert : kvInsert cfg st.ftl key value = some ftl') :
    ∃ slot prevSlot,
      Inserted cfg st key value slot prevSlot (st.after cfg command ftl') := by
  obtain ⟨time, clock, htable⟩ := hst.chained
  obtain ⟨slot, prevSlot, hchoose, hroom, -, rfl⟩ := kvInsert_inv hinsert
  have hbig := cfg.storageSize_lt
  have hlatest := hst.latest_le
  have hoffset : allocatedOffset st.ftl.latest = st.ftl.latest :=
    if_neg (by omega)
  rw [hoffset] at hroom ⊢
  have hsum : (st.ftl.latest + value.length) % 2 ^ 64 =
      st.ftl.latest + value.length := Nat.mod_eq_of_lt (by omega)
  rw [hsum]
  refine ⟨slot, prevSlot, htable.chooseSlot_chosen hchoose, ?_, ?_, ?_, ?_, ?_,
    ?_⟩
  all_goals simp only [after, hstored, hmissing, if_true, record, hchoose]
  exact hroom

theorem Inserted.live_slot {slot : ℕ} {prevSlot : Option ℕ}
    (hins : Inserted cfg st key value slot prevSlot st') :
    (st'.ftl.table slot).memOffset = some st.ftl.latest ∧
      (st'.ftl.table slot).length = value.length := by
  rw [hins.table_eq, putEntry_slot hins.chosen]
  exact ⟨rfl, rfl⟩

theorem Inserted.other_slot {slot : ℕ} {prevSlot : Option ℕ}
    (hins : Inserted cfg st key value slot prevSlot st') {s : ℕ}
    (hs : s ≠ slot) :
    (st'.ftl.table s).memOffset = (st.ftl.table s).memOffset ∧
      (st'.ftl.table s).length = (st.ftl.table s).length ∧
      st'.room s = st.room s ∧ st'.owner s = st.owner s := by
  rw [hins.table_eq, hins.room_eq, hins.owner_eq]
  exact ⟨putEntry_memOffset hs, putEntry_length hs,
    Function.update_of_ne hs _ _, Function.update_of_ne hs _ _⟩

theorem Inserted.inv (hst : st.Inv cfg) {slot : ℕ} {prevSlot : Option ℕ}
    (hins : Inserted cfg st key value slot prevSlot st') : st'.Inv cfg := by
  obtain ⟨time, clock, htable⟩ := hst.chained
  obtain ⟨hnew, hlength⟩ := hins.live_slot
  have hroom : st'.room slot = value.length := by
    rw [hins.room_eq, Function.update_self]
  have hlatest := hins.latest_eq
  have hchained : st'.ftl.WellChained cfg := by
    refine ⟨Function.update time slot clock, clock + 1, ?_⟩
    rw [hins.table_eq]
    exact htable.putEntry hins.chosen
  refine ⟨hchained, hins.latest_le, ?_, ?_⟩
  · intro s offset hoffset
    by_cases hs : s = slot
    · subst hs
      cases hnew.symm.trans hoffset
      rw [hroom, hlength]
      exact ⟨hlatest.ge, le_rfl⟩
    · obtain ⟨h1, h2, h3, -⟩ := hins.other_slot hs
      rw [h1] at hoffset
      obtain ⟨hle, hfit⟩ := hst.extent s offset hoffset
      rw [h2, h3]
      exact ⟨by omega, hfit⟩
  · -- The new extent begins where the last one ends.
    have hafter : ∀ s offset, s ≠ slot →
        (st'.ftl.table s).memOffset = some offset →
          offset + st'.room s ≤ st.ftl.latest := by
      intro s offset hs hoffset
      obtain ⟨h1, -, h3, -⟩ := hins.other_slot hs
      rw [h1] at hoffset
      rw [h3]
      exact (hst.extent s offset hoffset).1
    intro s s' offset offset' hne hoffset hoffset'
    by_cases hs : s = slot
    · subst hs
      cases hnew.symm.trans hoffset
      exact .inr (hafter s' offset' hne.symm hoffset')
    · by_cases hs' : s' = slot
      · subst hs'
        cases hnew.symm.trans hoffset'
        exact .inl (hafter s offset hs hoffset)
      · obtain ⟨h1, -, h3, -⟩ := hins.other_slot hs
        obtain ⟨h1', -, h3', -⟩ := hins.other_slot hs'
        rw [h1] at hoffset
        rw [h1'] at hoffset'
        rw [h3, h3']
        exact hst.apart s s' offset offset' hne hoffset hoffset'

/-- What a store to an entry that is there leaves. -/
structure Overwritten (cfg : KvConfig) (st : Tracked) (slot offset : ℕ)
    (value : List UInt8) (length : ℕ) (st' : Tracked) : Prop where
  offset_eq : (st.ftl.table slot).memOffset = some offset
  table_eq : st'.ftl.table = setLength st.ftl.table slot length
  latest_eq : st'.ftl.latest = st.ftl.latest
  storage_eq : st'.ftl.storage = writeBytes st.ftl.storage offset value
  owner_eq : st'.owner = st.owner
  room_eq : st'.room = st.room

theorem memOffset_setLength (table : ℕ → MappingEntry) (slot length s : ℕ) :
    (setLength table slot length s).memOffset = (table s).memOffset := by
  unfold setLength
  by_cases hs : s = slot
  · subst hs
    rw [Function.update_self]
  · rw [Function.update_of_ne hs]

theorem Overwritten.inv (hst : st.Inv cfg) {slot offset length : ℕ}
    (hover : Overwritten cfg st slot offset value length st')
    (hlength : length ≤ st.room slot) : st'.Inv cfg := by
  obtain ⟨time, clock, htable⟩ := hst.chained
  have hoffset : ∀ s, (st'.ftl.table s).memOffset =
      (st.ftl.table s).memOffset := by
    intro s
    rw [hover.table_eq]
    exact memOffset_setLength _ _ _ _
  refine ⟨⟨time, clock, ?_⟩, ?_, ?_, ?_⟩
  · rw [hover.table_eq]
    exact htable.congr (live_setLength _ _ _) (link_setLength _ _ _)
  · rw [hover.latest_eq]
    exact hst.latest_le
  · intro s offset' hs
    rw [hoffset] at hs
    obtain ⟨hle, hfit⟩ := hst.extent s offset' hs
    rw [hover.latest_eq, hover.room_eq, hover.table_eq, setLength]
    refine ⟨hle, ?_⟩
    by_cases heq : s = slot
    · subst heq
      rw [Function.update_self]
      exact hlength
    · rwa [Function.update_of_ne heq]
  · intro s s' offset₁ offset₂ hne hs hs'
    rw [hoffset] at hs hs'
    rw [hover.room_eq]
    exact hst.apart s s' offset₁ offset₂ hne hs hs'

theorem overwritten_after {slot offset : ℕ}
    (hfound : lookup cfg st.ftl.table key.bytes = some slot)
    (hstored : command.stored = some (key, value))
    (hoffset : (st.ftl.table slot).memOffset = some offset) :
    Overwritten cfg st slot offset value
      (command.lengthAfter st.ftl.table slot value.length)
      (st.after cfg command { st.ftl with
        table := setLength st.ftl.table slot
          (command.lengthAfter st.ftl.table slot value.length)
        storage := writeBytes st.ftl.storage offset value }) := by
  refine ⟨hoffset, ?_, ?_, ?_, ?_, ?_⟩
  all_goals simp [after, hstored, hfound]

theorem Inv.step (hst : st.Inv cfg) (hfits : st.Fits cfg command)
    (hstep : st.step cfg command = some st') : st'.Inv cfg := by
  obtain ⟨ftl', hftl', rfl⟩ := Option.map_eq_some_iff.mp hstep
  obtain ⟨time, clock, htable⟩ := hst.chained
  cases htable.kvStep_effect hftl' with
  | none hstored =>
      have hafter : st.after cfg command st.ftl = st := by
        rw [after, hstored]
      rwa [hafter]
  | insert hstored hmissing hinsert =>
      obtain ⟨slot, prevSlot, hins⟩ := hst.inserted hstored hmissing hinsert
      exact hins.inv hst
  | @overwrite key value slot offset hstored hfound hoffset =>
      obtain ⟨-, hroom, -⟩ := hfits key value hstored slot hfound
      obtain ⟨-, hfit⟩ := hst.extent slot offset hoffset
      refine (overwritten_after hfound hstored hoffset).inv hst ?_
      unfold KvCommand.lengthAfter
      repeat' split
      all_goals first | exact hroom | exact hfit
  | @erase key slot hdelete hfound =>
      subst hdelete
      have hafter : ∀ ftl, st.after cfg (.delete key) ftl = { st with ftl } :=
        fun _ => rfl
      rw [hafter]
      have hkept : ∀ s offset, (Function.update st.ftl.table slot .erased
          s).memOffset = some offset → s ≠ slot ∧
            (st.ftl.table s).memOffset = some offset := by
        intro s offset hs
        by_cases heq : s = slot
        · subst heq
          rw [Function.update_self] at hs
          cases hs
        · rw [Function.update_of_ne heq] at hs
          exact ⟨heq, hs⟩
      refine ⟨⟨time, clock, htable.erase slot⟩, hst.latest_le, ?_, ?_⟩
      · intro s offset hs
        obtain ⟨hne, hs⟩ := hkept s offset hs
        dsimp only
        rw [Function.update_of_ne hne]
        exact hst.extent s offset hs
      · intro s s' offset offset' hne hs hs'
        exact hst.apart s s' offset offset' hne (hkept s offset hs).2
          (hkept s' offset' hs').2

theorem Inv.run (hst : st.Inv cfg) {commands : List KvCommand}
    (hfits : AllFit cfg commands st) (hrun : st.run cfg commands = some st') :
    st'.Inv cfg := by
  induction commands generalizing st with
  | nil =>
      cases hrun
      exact hst
  | cons command rest ih =>
      rw [Tracked.run, List.foldlM_cons] at hrun
      obtain ⟨mid, hstep, hrun⟩ := Option.bind_eq_some_iff.mp hrun
      exact ih (hst.step hfits.1 hstep) (hfits.2 mid hstep) hrun

/-! ## What the keys retrieve -/

/-- The key is found in the entry that was made for it. -/
def Holds (cfg : KvConfig) (st : Tracked) (key : KvKey) : Prop :=
  ∃ slot, lookup cfg st.ftl.table key.bytes = some slot ∧
    st.owner slot = some key

/-- The same entry and the same bytes give the same answer. -/
theorem kvRetrieve_congr {ftl ftl' : KvFtl} {slot offset : ℕ}
    (hftl : ftl.WellChained cfg) (hftl' : ftl'.WellChained cfg)
    (hfound : lookup cfg ftl.table key.bytes = some slot)
    (hfound' : lookup cfg ftl'.table key.bytes = some slot)
    (hoffset : (ftl.table slot).memOffset = some offset)
    (hoffset' : (ftl'.table slot).memOffset = some offset)
    (hlength : (ftl'.table slot).length = (ftl.table slot).length)
    (hbytes : ∀ address, offset ≤ address →
      address < offset + (ftl.table slot).length →
        ftl'.storage address = ftl.storage address)
    (bufferLength : ℕ) :
    kvRetrieve cfg ftl' key bufferLength =
      kvRetrieve cfg ftl key bufferLength := by
  obtain ⟨_, _, htable⟩ := hftl
  obtain ⟨_, _, htable'⟩ := hftl'
  rw [htable.kvRetrieve_found hfound hoffset,
    htable'.kvRetrieve_found hfound' hoffset', hlength, copyOut, copyOut]
  congr 2
  rw [Option.some.injEq]
  apply readBytes_congr
  intro address hle hlt
  exact hbytes address hle (by omega)

/-- An entry that ends in the storage and holds a value gives the value. -/
theorem kvRetrieve_value {ftl : KvFtl} {slot offset : ℕ}
    (hftl : ftl.WellChained cfg)
    (hfound : lookup cfg ftl.table key.bytes = some slot)
    (hoffset : (ftl.table slot).memOffset = some offset)
    (hlength : (ftl.table slot).length = value.length)
    (hroom : offset + value.length ≤ cfg.storageSize)
    (hbytes : readBytes ftl.storage offset value.length = value)
    (bufferLength : ℕ) :
    kvRetrieve cfg ftl key bufferLength =
      some (some (value.take bufferLength)) := by
  obtain ⟨_, _, htable⟩ := hftl
  have htake : readBytes ftl.storage offset (min value.length bufferLength) =
      value.take bufferLength := by
    nth_rewrite 2 [← hbytes]
    rw [readBytes, readBytes, ← List.map_take, List.take_range, Nat.min_comm]
  rw [htable.kvRetrieve_found hfound hoffset, hlength, copyOut,
    if_pos (by omega), htake]
  rfl

theorem lookup_setLength (table : ℕ → MappingEntry) (slot length : ℕ)
    (bytes : List UInt8) :
    lookup cfg (setLength table slot length) bytes = lookup cfg table bytes := by
  rw [lookup, slotChain, live_setLength, link_setLength]
  apply find?_congr_mem
  intro s _
  rw [MappingEntry.matchesKey, key_setLength, MappingEntry.matchesKey]

theorem readBytes_writeBytes_self (storage : ℕ → UInt8) (offset : ℕ)
    (value : List UInt8) :
    readBytes (writeBytes storage offset value) offset value.length =
      value := by
  have hread := readBytes_writeBytes storage offset value.length value
  rwa [Nat.min_self, List.take_length] at hread

/-- A key that is found stays where it is when a key is inserted. -/
theorem Inserted.lookup_found (hst : st.Inv cfg) {slot : ℕ}
    {prevSlot : Option ℕ} (hins : Inserted cfg st key value slot prevSlot st')
    {other : KvKey} {s : ℕ}
    (hfound : lookup cfg st.ftl.table other.bytes = some s) :
    s ≠ slot ∧ lookup cfg st'.ftl.table other.bytes = some s := by
  obtain ⟨_, _, htable⟩ := hst.chained
  constructor
  · rintro rfl
    have hlive := lookup_live hfound
    rw [hins.chosen.free] at hlive
    cases hlive
  · have hcases : lookup cfg (putEntry st.ftl.table slot prevSlot key.bytes
        st.ftl.latest value.length) other.bytes = _ ∨ _ :=
      htable.lookup_putEntry hins.chosen other.bytes
    rw [hins.table_eq]
    rcases hcases with hsame | ⟨hmissing, -⟩
    · exact hsame.trans hfound
    · cases hmissing.symm.trans hfound

/-- Another key keeps its value when a key is inserted. -/
theorem Inserted.keeps (hst : st.Inv cfg) {slot : ℕ} {prevSlot : Option ℕ}
    (hins : Inserted cfg st key value slot prevSlot st') {other : KvKey}
    (hother : st.Holds cfg other) (bufferLength : ℕ) :
    kvRetrieve cfg st'.ftl other bufferLength =
      kvRetrieve cfg st.ftl other bufferLength := by
  obtain ⟨s, hfound, -⟩ := hother
  obtain ⟨hs, hfound'⟩ := hins.lookup_found hst hfound
  obtain ⟨offset, hoffset⟩ := live_iff.mp (lookup_live hfound)
  obtain ⟨h1, h2, -, -⟩ := hins.other_slot hs
  obtain ⟨hend, hfit⟩ := hst.extent s offset hoffset
  refine kvRetrieve_congr hst.chained (hins.inv hst).chained hfound hfound'
    hoffset (h1.trans hoffset) h2 ?_ bufferLength
  intro address hle hlt
  rw [hins.storage_eq]
  exact writeBytes_outside (by omega)

/-- The inserted key is found in its slot and retrieves its value. -/
theorem Inserted.retrieves (hst : st.Inv cfg) {slot : ℕ}
    {prevSlot : Option ℕ} (hins : Inserted cfg st key value slot prevSlot st')
    (hmissing : lookup cfg st.ftl.table key.bytes = none) :
    lookup cfg st'.ftl.table key.bytes = some slot ∧
      ∀ bufferLength, kvRetrieve cfg st'.ftl key bufferLength =
        some (some (value.take bufferLength)) := by
  obtain ⟨_, _, htable⟩ := hst.chained
  obtain ⟨hoffset, hlength⟩ := hins.live_slot
  have hfound : lookup cfg st'.ftl.table key.bytes = some slot := by
    rw [hins.table_eq]
    exact htable.lookup_putEntry_self hins.chosen hmissing
  have hbytes : readBytes st'.ftl.storage st.ftl.latest value.length =
      value := by
    rw [hins.storage_eq, readBytes_writeBytes_self]
  have hend := hins.latest_le
  rw [hins.latest_eq] at hend
  exact ⟨hfound, kvRetrieve_value (hins.inv hst).chained hfound hoffset hlength
    hend hbytes⟩

/-- The overwritten key is found in its slot and retrieves its new value. -/
theorem Overwritten.retrieves (hst : st.Inv cfg) {slot offset : ℕ}
    (hover : Overwritten cfg st slot offset value value.length st')
    (hroom : value.length ≤ st.room slot)
    (hfound : lookup cfg st.ftl.table key.bytes = some slot) :
    lookup cfg st'.ftl.table key.bytes = some slot ∧
      ∀ bufferLength, kvRetrieve cfg st'.ftl key bufferLength =
        some (some (value.take bufferLength)) := by
  have hfound' : lookup cfg st'.ftl.table key.bytes = some slot := by
    rw [hover.table_eq, lookup_setLength]
    exact hfound
  have hoffset : (st'.ftl.table slot).memOffset = some offset := by
    rw [hover.table_eq, memOffset_setLength]
    exact hover.offset_eq
  have hlength : (st'.ftl.table slot).length = value.length := by
    rw [hover.table_eq, setLength, Function.update_self]
  have hbytes : readBytes st'.ftl.storage offset value.length = value := by
    rw [hover.storage_eq, readBytes_writeBytes_self]
  have hend := (hst.extent slot offset hover.offset_eq).1
  have hlatest := hst.latest_le
  exact ⟨hfound', kvRetrieve_value (hover.inv hst hroom).chained hfound' hoffset
    hlength (by omega) hbytes⟩

/-- Another key keeps its value when a value is overwritten that fits. -/
theorem Overwritten.keeps (hst : st.Inv cfg) {slot offset length : ℕ}
    (hover : Overwritten cfg st slot offset value length st')
    (hst' : st'.Inv cfg) (hroom : value.length ≤ st.room slot)
    {other : KvKey} {s : ℕ} (hs : s ≠ slot)
    (hfound : lookup cfg st.ftl.table other.bytes = some s)
    (bufferLength : ℕ) :
    kvRetrieve cfg st'.ftl other bufferLength =
      kvRetrieve cfg st.ftl other bufferLength := by
  obtain ⟨offset', hoffset'⟩ := live_iff.mp (lookup_live hfound)
  have hentry : st'.ftl.table s = st.ftl.table s := by
    rw [hover.table_eq]
    exact Function.update_of_ne hs _ _
  have hfound' : lookup cfg st'.ftl.table other.bytes = some s := by
    rw [hover.table_eq, lookup_setLength]
    exact hfound
  have hapart := hst.apart slot s offset offset' hs.symm hover.offset_eq
    hoffset'
  obtain ⟨-, hfit⟩ := hst.extent s offset' hoffset'
  refine kvRetrieve_congr hst.chained hst'.chained hfound hfound' hoffset'
    (hentry ▸ hoffset') (by rw [hentry]) ?_ bufferLength
  intro address hle hlt
  rw [hover.storage_eq]
  refine writeBytes_outside ?_
  unfold Apart at hapart
  omega

end Tracked

/-- A key of the same length that is not found stays so. -/
theorem Tracked.Inserted.missing {st st' : Tracked} {key other : KvKey}
    {value : List UInt8} (hst : st.Inv cfg) {slot : ℕ} {prevSlot : Option ℕ}
    (hins : Inserted cfg st key value slot prevSlot st') (hne : other ≠ key)
    (hlength : other.bytes.length = key.bytes.length)
    (hmissing : lookup cfg st.ftl.table other.bytes = none) :
    lookup cfg st'.ftl.table other.bytes = none := by
  obtain ⟨_, _, htable⟩ := hst.chained
  have hcases : lookup cfg (putEntry st.ftl.table slot prevSlot key.bytes
      st.ftl.latest value.length) other.bytes = _ ∨ _ :=
    htable.lookup_putEntry hins.chosen other.bytes
  rw [hins.table_eq]
  rcases hcases with hsame | ⟨-, hfound⟩
  · exact hsame.trans hmissing
  · exfalso
    have hmatch := lookup_matches hfound
    rw [putEntry_slot hins.chosen] at hmatch
    have hself : ((st.ftl.table slot).fill key.bytes st.ftl.latest
        value.length).matchesKey key.bytes = true := by
      simp [MappingEntry.matchesKey, MappingEntry.fill]
    exact hne (KvKey.ext (matchesKey_inj hmatch hself hlength))

/-- The length recorded after a store that fits is that of the value. -/
theorem lengthAfter_store {table : ℕ → MappingEntry} {slot : ℕ} {key : KvKey}
    {value : List UInt8}
    (hrecorded : value.length = (table slot).length ∨
      value.length ≤ smallLength ∧ (table slot).length ≤ smallLength) :
    (KvCommand.store key value).lengthAfter table slot value.length =
      value.length := by
  rw [KvCommand.lengthAfter]
  split
  next => rfl
  next hkept =>
    by_contra hne
    rcases hrecorded with heq | hsmall
    · exact hne heq.symm
    · exact hkept ⟨fun heq => hne heq.symm, hsmall⟩

/-- What a single store that fits does. -/
theorem Tracked.Inv.store_cases {st : Tracked} {key : KvKey}
    {value : List UInt8} {ftl' : KvFtl} (hst : st.Inv cfg)
    (hfits : st.Fits cfg (.store key value))
    (hstore : kvStore cfg st.ftl key value = some ftl') :
    (∃ slot prevSlot, lookup cfg st.ftl.table key.bytes = none ∧
        Inserted cfg st key value slot prevSlot
          (st.after cfg (.store key value) ftl')) ∨
      ∃ slot offset, lookup cfg st.ftl.table key.bytes = some slot ∧
        st.owner slot = some key ∧ value.length ≤ st.room slot ∧
        Overwritten cfg st slot offset value value.length
          (st.after cfg (.store key value) ftl') := by
  obtain ⟨time, clock, htable⟩ := hst.chained
  have hstep : kvStep cfg st.ftl (.store key value) = some ftl' := hstore
  cases htable.kvStep_effect hstep with
  | none hstored => cases hstored
  | insert hstored hmissing hinsert =>
      cases hstored
      have hkey : (KvCommand.store key value).stored = some (key, value) := rfl
      obtain ⟨slot, prevSlot, hins⟩ := hst.inserted hkey hmissing hinsert
      exact .inl ⟨slot, prevSlot, hmissing, hins⟩
  | @overwrite _ _ slot offset hstored hfound hoffset =>
      cases hstored
      obtain ⟨howner, hroom, hrecorded⟩ := hfits key value rfl slot hfound
      have hlength : (KvCommand.store key value).lengthAfter st.ftl.table slot
          value.length = value.length := lengthAfter_store (hrecorded rfl)
      have hkey : (KvCommand.store key value).stored = some (key, value) := rfl
      have hover := overwritten_after hfound hkey hoffset
      rw [hlength] at hover ⊢
      exact .inr ⟨slot, offset, hfound, howner, hroom, hover⟩
  | erase hdelete => cases hdelete

/-! ## The stored keys -/

/-- The keys that are stored after a command. -/
def keysAfter (keys : List KvKey) : KvCommand → List KvKey
  | .store key _ | .batchedStore key _ => key :: keys
  | .delete key => keys.filter fun other => decide (other ≠ key)
  | .retrieve _ _ | .exist _ => keys

/-- The keys that were stored by the commands and not deleted since. -/
def keysStored (commands : List KvCommand) : List KvKey :=
  commands.foldl keysAfter []

/-- Every other key of the list is found in the entry that was made for it, or
it is not found and has the length of the key. -/
def Tracked.Separate (cfg : KvConfig) (st : Tracked) (keys : List KvKey)
    (key : KvKey) : Prop :=
  ∀ other ∈ keys, other ≠ key → st.Holds cfg other ∨
    lookup cfg st.ftl.table other.bytes = none ∧
      other.bytes.length = key.bytes.length

/-- A store that fits changes what its own key retrieves; the keys from which it
is separate retrieve the same bytes. -/
theorem Tracked.Inv.store_keeps {st : Tracked} {key : KvKey}
    {value : List UInt8} {ftl' : KvFtl} {keys : List KvKey}
    (hst : st.Inv cfg) (hfits : st.Fits cfg (.store key value))
    (hkeys : st.Separate cfg keys key)
    (hstore : kvStore cfg st.ftl key value = some ftl')
    (hst' : (st.after cfg (.store key value) ftl').Inv cfg) {other : KvKey}
    (hmem : other ∈ keys) (hne : other ≠ key) (bufferLength : ℕ) :
    kvRetrieve cfg (st.after cfg (.store key value) ftl').ftl other
        bufferLength = kvRetrieve cfg st.ftl other bufferLength := by
  obtain ⟨_, _, htable⟩ := hst.chained
  obtain ⟨_, _, htable'⟩ := hst'.chained
  rcases hst.store_cases hfits hstore with
    ⟨slot, prevSlot, -, hins⟩ | ⟨slot, offset, hfound, howner, hroom, hover⟩
  · rcases hkeys other hmem hne with hholds | ⟨hmissing, hlength⟩
    · exact hins.keeps hst hholds bufferLength
    · have hmissing' := hins.missing hst hne hlength hmissing
      rw [htable.kvRetrieve_missing hmissing,
        htable'.kvRetrieve_missing hmissing']
  · rcases hkeys other hmem hne with ⟨s, hs, howner'⟩ | ⟨hmissing, -⟩
    · have hslots : s ≠ slot := by
        rintro rfl
        exact hne (Option.some.inj (howner'.symm.trans howner))
      exact hover.keeps hst hst' hroom hslots hs bufferLength
    · have hmissing' : lookup cfg
          (st.after cfg (.store key value) ftl').ftl.table other.bytes =
            none := by
        rw [hover.table_eq, Tracked.lookup_setLength]
        exact hmissing
      rw [htable.kvRetrieve_missing hmissing,
        htable'.kvRetrieve_missing hmissing']

/-- The recorded extents lie in the allocated ones. -/
theorem Tracked.Inv.recorded_apart {st : Tracked} (hst : st.Inv cfg)
    {slot slot' offset offset' : ℕ} (hne : slot ≠ slot')
    (hs : (st.ftl.table slot).memOffset = some offset)
    (hs' : (st.ftl.table slot').memOffset = some offset') :
    Apart offset (st.ftl.table slot).length offset'
      (st.ftl.table slot').length := by
  have hrooms := hst.apart slot slot' offset offset' hne hs hs'
  have hfit := (hst.extent slot offset hs).2
  have hfit' := (hst.extent slot' offset' hs').2
  unfold Apart at hrooms ⊢
  omega

/-- In every run whose stores fit, a store changes only what its own key
retrieves: every other stored key retrieves the same bytes, the key itself
retrieves the value, and no two entries share a byte. -/
theorem store_affects_one_key (cfg : KvConfig) (storage : ℕ → UInt8)
    (commands : List KvCommand) (st : Tracked) (key : KvKey)
    (value : List UInt8) (ftl' : KvFtl)
    (hrun : (Tracked.init storage).run cfg commands = some st)
    (hfits : Tracked.AllFit cfg commands (.init storage))
    (hlast : st.Fits cfg (.store key value))
    (hkeys : st.Separate cfg (keysStored commands) key)
    (hstore : kvStore cfg st.ftl key value = some ftl') :
    (∀ other ∈ keysStored commands, other ≠ key → ∀ bufferLength,
        kvRetrieve cfg ftl' other bufferLength =
          kvRetrieve cfg st.ftl other bufferLength) ∧
      (∀ bufferLength, kvRetrieve cfg ftl' key bufferLength =
        some (some (value.take bufferLength))) ∧
      ∀ slot slot' offset offset', slot ≠ slot' →
        (ftl'.table slot).memOffset = some offset →
        (ftl'.table slot').memOffset = some offset' →
        Apart offset (ftl'.table slot).length offset'
          (ftl'.table slot').length := by
  have hst : st.Inv cfg := (Tracked.inv_init storage).run hfits hrun
  have hst' : (st.after cfg (.store key value) ftl').Inv cfg := by
    refine hst.step hlast ?_
    rw [Tracked.step, kvStep, hstore]
    rfl
  have hftl' : (st.after cfg (.store key value) ftl').ftl = ftl' :=
    st.after_ftl _ _
  rw [← hftl']
  refine ⟨fun other hmem hne bufferLength =>
    hst.store_keeps hlast hkeys hstore hst' hmem hne bufferLength, ?_,
    fun slot slot' offset offset' => hst'.recorded_apart⟩
  rcases hst.store_cases hlast hstore with
    ⟨slot, prevSlot, hmissing, hins⟩ | ⟨slot, offset, hfound, -, hroom, hover⟩
  · exact (hins.retrieves hst hmissing).2
  · exact (hover.retrieves hst hroom hfound).2

/-! ## Keys of one length -/

/-- The keys that a command stores have `n` bytes. -/
def KvCommand.OfLength (n : ℕ) (command : KvCommand) : Prop :=
  ∀ key value, command.stored = some (key, value) → key.bytes.length = n

namespace Tracked

variable {st st' : Tracked} {command : KvCommand} {key : KvKey}
  {keys : List KvKey} {n : ℕ}

/-- Every entry matches the key of `n` bytes that it was made for, and the keys
of the list have `n` bytes. -/
structure OwnersMatch (n : ℕ) (keys : List KvKey) (st : Tracked) : Prop where
  owner : ∀ slot, live st.ftl.table slot = true →
    ∃ key, st.owner slot = some key ∧ key.bytes.length = n ∧
      (st.ftl.table slot).matchesKey key.bytes = true
  length_eq : ∀ key ∈ keys, key.bytes.length = n

theorem ownersMatch_init (n : ℕ) (storage : ℕ → UInt8) :
    OwnersMatch n [] (Tracked.init storage) where
  owner _ hlive := by cases hlive
  length_eq _ hkey := by cases hkey

/-- A key of this length is found in no entry but its own. -/
theorem OwnersMatch.lookup_owner (hst : OwnersMatch n keys st)
    (hkey : key.bytes.length = n) {slot : ℕ}
    (hfound : lookup cfg st.ftl.table key.bytes = some slot) :
    st.owner slot = some key := by
  obtain ⟨owner, howner, hlength, hmatch⟩ := hst.owner slot (lookup_live hfound)
  have hbytes := matchesKey_inj (lookup_matches hfound) hmatch
    (hkey.trans hlength.symm)
  rw [howner, KvKey.ext hbytes]

/-- With keys of one length, the stored keys are separate. -/
theorem OwnersMatch.separate (hst : OwnersMatch n keys st)
    (hkey : key.bytes.length = n) : st.Separate cfg keys key := by
  intro other hmem _
  have hother := hst.length_eq other hmem
  cases hfound : lookup cfg st.ftl.table other.bytes with
  | none => exact .inr ⟨rfl, hother.trans hkey.symm⟩
  | some slot => exact .inl ⟨slot, hfound, hst.lookup_owner hother hfound⟩

theorem length_keysAfter (hkeys : ∀ key ∈ keys, key.bytes.length = n)
    (hcommand : command.OfLength n) :
    ∀ key ∈ keysAfter keys command, key.bytes.length = n := by
  intro key hkey
  cases command with
  | store stored value | batchedStore stored value =>
      rcases List.mem_cons.mp hkey with rfl | hkey
      · exact hcommand key value rfl
      · exact hkeys key hkey
  | delete _ => exact hkeys key (List.mem_of_mem_filter hkey)
  | retrieve _ _ | exist _ => exact hkeys key hkey

/-- An insertion makes an entry that matches its key. -/
theorem OwnersMatch.inserted {value : List UInt8} {ftl' : KvFtl}
    (hftl : st.ftl.WellChained cfg) (hst : OwnersMatch n keys st)
    (hkey : key.bytes.length = n)
    (hinsert : kvInsert cfg st.ftl key value = some ftl') {s : ℕ}
    (hlive : live ftl'.table s = true) :
    ∃ owner, (st.record cfg key value.length ftl').owner s = some owner ∧
      owner.bytes.length = n ∧
        (ftl'.table s).matchesKey owner.bytes = true := by
  obtain ⟨time, clock, htable⟩ := hftl
  obtain ⟨slot, prevSlot, hchoose, -, -, rfl⟩ := kvInsert_inv hinsert
  have hchosen := htable.chooseSlot_chosen hchoose
  simp only [record, hchoose]
  by_cases hs : s = slot
  · subst hs
    refine ⟨key, Function.update_self _ _ _, hkey, ?_⟩
    rw [putEntry_slot hchosen]
    simp [MappingEntry.matchesKey, MappingEntry.fill]
  · rw [live_putEntry hs] at hlive
    obtain ⟨owner, howner, hlength, hmatch⟩ := hst.owner s hlive
    refine ⟨owner, (Function.update_of_ne hs _ _).trans howner, hlength, ?_⟩
    rw [MappingEntry.matchesKey, putEntry_key hs]
    exact hmatch

theorem OwnersMatch.step (hftl : st.ftl.WellChained cfg)
    (hst : OwnersMatch n keys st) (hcommand : command.OfLength n)
    (hstep : st.step cfg command = some st') :
    OwnersMatch n (keysAfter keys command) st' := by
  refine ⟨?_, length_keysAfter hst.length_eq hcommand⟩
  obtain ⟨ftl', hftl', rfl⟩ := Option.map_eq_some_iff.mp hstep
  have hchained := hftl
  obtain ⟨time, clock, htable⟩ := hftl
  cases htable.kvStep_effect hftl' with
  | none hstored =>
      simp only [after, hstored]
      exact hst.owner
  | @insert key value _ hstored hmissing hinsert =>
      intro s hlive
      rw [after_ftl] at hlive ⊢
      simp only [after, hstored, hmissing, if_true]
      exact hst.inserted hchained (hcommand key value hstored) hinsert hlive
  | @overwrite key value slot offset hstored hfound _ _ =>
      intro s hlive
      rw [after_ftl] at hlive ⊢
      rw [live_setLength] at hlive
      have howner := hst.owner s hlive
      simp only [after, hstored, hfound, reduceCtorEq, if_false]
      simpa only [MappingEntry.matchesKey, key_setLength] using howner
  | @erase key slot hdelete hfound =>
      subst hdelete
      intro s hlive
      rw [after_ftl] at hlive ⊢
      rw [live_erase, Bool.and_eq_true, decide_eq_true_iff] at hlive
      obtain ⟨hlive, hs⟩ := hlive
      dsimp only
      rw [Function.update_of_ne hs]
      exact hst.owner s hlive

theorem OwnersMatch.run {commands : List KvCommand}
    (hftl : st.ftl.WellChained cfg) (hst : OwnersMatch n keys st)
    (hcommands : ∀ command ∈ commands, command.OfLength n)
    (hrun : st.run cfg commands = some st') :
    OwnersMatch n (commands.foldl keysAfter keys) st' := by
  induction commands generalizing st keys with
  | nil =>
      cases hrun
      exact hst
  | cons command rest ih =>
      obtain ⟨hcommand, hrest⟩ := List.forall_mem_cons.mp hcommands
      rw [Tracked.run, List.foldlM_cons] at hrun
      obtain ⟨mid, hstep, hrun⟩ := Option.bind_eq_some_iff.mp hrun
      have hmid : mid.ftl.WellChained cfg := by
        obtain ⟨ftl', hftl', rfl⟩ := Option.map_eq_some_iff.mp hstep
        rw [after_ftl]
        exact hftl.step hftl'
      exact ih hmid (hst.step hftl hcommand hstep) hrest hrun

end Tracked

/-- In every run whose stored keys have one length, a key of that length is
found in its own entry or in none, and the stored keys are separate from it. -/
theorem separate_of_length (cfg : KvConfig) (storage : ℕ → UInt8)
    (commands : List KvCommand) (st : Tracked) (key : KvKey) (n : ℕ)
    (hrun : (Tracked.init storage).run cfg commands = some st)
    (hcommands : ∀ command ∈ commands, command.OfLength n)
    (hkey : key.bytes.length = n) :
    st.Separate cfg (keysStored commands) key ∧
      ∀ slot, lookup cfg st.ftl.table key.bytes = some slot →
        st.owner slot = some key := by
  have hst : Tracked.OwnersMatch n (keysStored commands) st :=
    (Tracked.ownersMatch_init n storage).run ⟨_, _, chained_fresh⟩ hcommands
      hrun
  exact ⟨hst.separate hkey, fun slot => hst.lookup_owner hkey⟩

/-- Eight bytes under one key and four under another, with one hash slot. -/
def storeNeighbours : List KvCommand :=
  [.store keyAkcl [1, 2, 3, 4, 5, 6, 7, 8], .store keyImxa [5, 6, 7, 8]]

def neighbours : Tracked :=
  ((Tracked.init fun _ => 0).run kvPrototype storeNeighbours).getD
    (.init fun _ => 0)

theorem neighbours_run : (Tracked.init fun _ => 0).run kvPrototype
    storeNeighbours = some neighbours :=
  Option.eq_some_of_isSome (by decide +kernel)

theorem storeNeighbours_length :
    ∀ command ∈ storeNeighbours, command.OfLength 4 := by
  intro command hcommand key value hstored
  simp only [storeNeighbours, List.mem_cons, List.not_mem_nil, or_false]
    at hcommand
  rcases hcommand with rfl | rfl <;> cases hstored <;> rfl

/-- A store of a key that is not found fits. -/
theorem Tracked.fits_of_missing {st : Tracked} {key : KvKey}
    {value : List UInt8}
    (hmissing : lookup cfg st.ftl.table key.bytes = none) :
    st.Fits cfg (.store key value) := by
  intro key' value' hstored slot hfound
  cases hstored
  cases hmissing.symm.trans hfound

/-- The first value is replaced by a shorter one. -/
theorem store_affects_one_key_shorter :
    ∃ ftl', kvStore kvPrototype neighbours.ftl keyAkcl [9, 10, 11, 12] =
        some ftl' ∧
      (∀ bufferLength, kvRetrieve kvPrototype ftl' keyImxa bufferLength =
        kvRetrieve kvPrototype neighbours.ftl keyImxa bufferLength) ∧
      kvRetrieve kvPrototype ftl' keyAkcl 64 = some (some [9, 10, 11, 12]) := by
  obtain ⟨ftl', hstore⟩ : ∃ ftl', kvStore kvPrototype neighbours.ftl keyAkcl
      [9, 10, 11, 12] = some ftl' :=
    Option.isSome_iff_exists.mp (by decide +kernel)
  obtain ⟨hkeys, howner⟩ := separate_of_length kvPrototype (fun _ => 0)
    storeNeighbours neighbours keyAkcl 4 neighbours_run storeNeighbours_length
    rfl
  have hslot : lookup kvPrototype neighbours.ftl.table keyAkcl.bytes =
      some (getHashSlot kvPrototype keyAkcl.bytes) := by decide +kernel
  have hfits : neighbours.Fits kvPrototype
      (.store keyAkcl [9, 10, 11, 12]) := by
    intro key value hstored slot hfound
    cases hstored
    refine ⟨howner slot hfound, ?_⟩
    cases hslot.symm.trans hfound
    exact ⟨by decide +kernel, fun _ => .inr (by decide +kernel)⟩
  have hall : Tracked.AllFit kvPrototype storeNeighbours (.init fun _ => 0) := by
    refine ⟨Tracked.fits_of_missing (by decide +kernel), fun st hst =>
      ⟨Tracked.fits_of_missing ?_, fun _ _ => trivial⟩⟩
    have hfirst : ∃ first, (Tracked.init fun _ => 0).step kvPrototype
        (.store keyAkcl [1, 2, 3, 4, 5, 6, 7, 8]) = some first ∧
          lookup kvPrototype first.ftl.table keyImxa.bytes = none :=
      ⟨_, Option.eq_some_of_isSome (by decide +kernel), by decide +kernel⟩
    obtain ⟨first, hstep, hmissing⟩ := hfirst
    cases hstep.symm.trans hst
    exact hmissing
  obtain ⟨hothers, hself, -⟩ := store_affects_one_key kvPrototype (fun _ => 0)
    storeNeighbours neighbours keyAkcl [9, 10, 11, 12] ftl' neighbours_run hall
    hfits hkeys hstore
  exact ⟨ftl', hstore, hothers keyImxa (by decide) (by decide), hself 64⟩

/-- The first value is replaced by a longer one, over the bytes of the
second. -/
theorem longer_value_overwrites :
    (do let ftl ← kvRun kvPrototype (.init fun _ => 0) storeBoth
        kvRetrieve kvPrototype ftl keyImxa 64) = some (some [5, 6, 7, 8]) ∧
      (do let ftl ← kvRun kvPrototype (.init fun _ => 0) storeBoth
          let ftl ← kvStore kvPrototype ftl keyAkcl [9, 10, 11, 12, 13, 14, 15,
            16]
          kvRetrieve kvPrototype ftl keyImxa 64) =
        some (some [13, 14, 15, 16]) :=
  ⟨by decide +kernel, by decide +kernel⟩

end NvmeVirt.Kv
