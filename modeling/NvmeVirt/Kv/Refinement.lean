import NvmeVirt.Kv.Extents

/-!
# The store as a finite map

Without deletions, with keys of one length and values whose length is fixed by
their key, the table is a finite map.  There is a free slot for every new key
and room for its value as long as the keys are fewer than the slots and their
values smaller than the storage, so that every command completes.
-/

namespace NvmeVirt.Kv

variable {cfg : KvConfig}

/-- What the store is for: the value that was stored last under each key. -/
abbrev KvMap : Type := KvKey → Option (List UInt8)

def KvMap.empty : KvMap := fun _ => none

def KvMap.step (map : KvMap) (command : KvCommand) : KvMap :=
  match command.stored with
  | none => map
  | some (key, value) => Function.update map key (some value)

def KvMap.after (commands : List KvCommand) : KvMap :=
  commands.foldl KvMap.step .empty

/-- A single store, a retrieval or a test, with keys of `n` bytes and values of
the length that belongs to the key. -/
def KvCommand.Uniform (n : ℕ) (lengthOf : KvKey → ℕ) : KvCommand → Prop
  | .store key value => key.bytes.length = n ∧ value.length = lengthOf key
  | .retrieve key _ | .exist key => key.bytes.length = n
  | .batchedStore _ _ | .delete _ => False

/-- A key of the map has an entry of its own, with the value. -/
structure Tracked.Stores (cfg : KvConfig) (st : Tracked) (key : KvKey)
    (value : List UInt8) : Prop where
  entry : ∃ slot, lookup cfg st.ftl.table key.bytes = some slot ∧
    st.owner slot = some key ∧ st.room slot = value.length ∧
    (st.ftl.table slot).length = value.length
  retrieves : ∀ bufferLength, kvRetrieve cfg st.ftl key bufferLength =
    some (some (value.take bufferLength))

/-- The slots that are taken. -/
def takenSlots (cfg : KvConfig) (table : ℕ → MappingEntry) : Finset ℕ :=
  (Finset.range cfg.hashSlots).filter fun slot => live table slot = true

/-- The state holds a map whose keys are given. -/
structure Tracked.Represents (cfg : KvConfig) (n : ℕ) (lengthOf : KvKey → ℕ)
    (keys : Finset KvKey) (map : KvMap) (st : Tracked) : Prop where
  inv : st.Inv cfg
  missing : ∀ key : KvKey, key.bytes.length = n → map key = none →
    lookup cfg st.ftl.table key.bytes = none
  stores : ∀ key value, map key = some value →
    key.bytes.length = n ∧ value.length = lengthOf key ∧
      st.Stores cfg key value
  mem_keys : ∀ key, key ∈ keys ↔ map key ≠ none
  taken : (takenSlots cfg st.ftl.table).card = keys.card
  latest_eq : st.ftl.latest = ∑ key ∈ keys, lengthOf key

namespace Tracked

variable {st st' : Tracked} {key : KvKey} {value : List UInt8} {n : ℕ}
  {lengthOf : KvKey → ℕ} {keys : Finset KvKey} {map : KvMap}

theorem represents_init (cfg : KvConfig) (storage : ℕ → UInt8) (n : ℕ)
    (lengthOf : KvKey → ℕ) :
    Represents cfg n lengthOf ∅ .empty (Tracked.init storage) where
  inv := inv_init storage
  missing key _ _ := by
    have hfree : live (fun _ => MappingEntry.fresh)
        (getHashSlot cfg key.bytes) = false := rfl
    rw [lookup, slotChain]
    change (Chain.chain (live fun _ => .fresh) (link fun _ => .fresh)
      cfg.hashSlots (getHashSlot cfg key.bytes)).find? _ = none
    rw [Chain.chain_of_dead hfree, List.find?_nil]
  stores _ _ hmap := by cases hmap
  mem_keys key := by simp [KvMap.empty]
  taken := by
    rw [Finset.card_empty, Finset.card_eq_zero, takenSlots,
      Finset.filter_eq_empty_iff]
    intro slot _
    simp [Tracked.init, KvFtl.init, live, MappingEntry.fresh,
      MappingEntry.occupied]
  latest_eq := rfl

/-! ## Every command completes -/

theorem kvInsert_completes {ftl : KvFtl} {slot : ℕ} {prevSlot : Option ℕ}
    (hchoose : chooseSlot cfg ftl.table key.bytes = some (slot, prevSlot))
    (hlatest : ftl.latest < cfg.storageSize)
    (hroom : ftl.latest + value.length ≤ cfg.storageSize) :
    ∃ ftl', kvInsert cfg ftl key value = some ftl' := by
  have hbig := cfg.storageSize_lt
  have hoffset : allocatedOffset ftl.latest = ftl.latest := if_neg (by omega)
  unfold kvInsert
  simp only [appendOnlyAllocate, hoffset, copyIn, hroom, if_true]
  change ∃ ftl', newMappingEntry cfg _ key.bytes value.length ftl.latest =
    some ftl'
  rw [newMappingEntry, if_neg (by omega)]
  change ∃ ftl', (chooseSlot cfg ftl.table key.bytes).bind _ = some ftl'
  rw [hchoose]
  exact ⟨_, rfl⟩

/-- There is a free slot if fewer slots are taken than there are. -/
theorem exists_free {table : ℕ → MappingEntry}
    (hcard : (takenSlots cfg table).card < cfg.hashSlots) :
    ∃ free < cfg.hashSlots, live table free = false := by
  by_contra hnone
  have hall : takenSlots cfg table = Finset.range cfg.hashSlots := by
    apply Finset.filter_true_of_mem
    intro slot hslot
    by_contra hfree
    exact hnone ⟨slot, Finset.mem_range.mp hslot, by simpa using hfree⟩
  rw [hall, Finset.card_range] at hcard
  exact lt_irrefl _ hcard

theorem Represents.fits_found (hst : Represents cfg n lengthOf keys map st)
    {old : List UInt8} (hmap : map key = some old)
    (hlength : value.length = lengthOf key) :
    st.Fits cfg (.store key value) ∧
      ∃ ftl', kvStore cfg st.ftl key value = some ftl' := by
  obtain ⟨-, hold, ⟨slot, hfound, howner, hroom, hrecorded⟩, -⟩ :=
    hst.stores key old hmap
  obtain ⟨_, _, htable⟩ := hst.inv.chained
  obtain ⟨offset, hoffset⟩ := live_iff.mp (lookup_live hfound)
  have hsame : value.length = old.length := hlength.trans hold.symm
  constructor
  · intro key' value' hstored slot' hfound'
    cases hstored
    cases hfound.symm.trans hfound'
    exact ⟨howner, by omega, fun _ => .inl (by omega)⟩
  · have hend := (hst.inv.extent slot offset hoffset).1
    have hlatest := hst.inv.latest_le
    rw [htable.kvStore_found hfound hoffset, copyIn, if_pos (by omega)]
    exact ⟨_, rfl⟩

/-- A new key: the slots and the storage suffice for it. -/
theorem Represents.fits_missing (hst : Represents cfg n lengthOf keys map st)
    (hkey : key.bytes.length = n) (hmap : map key = none)
    (hlength : value.length = lengthOf key)
    (hcard : (insert key keys).card < cfg.hashSlots)
    (hbytes : ∑ k ∈ insert key keys, lengthOf k < cfg.storageSize) :
    st.Fits cfg (.store key value) ∧
      ∃ ftl', kvStore cfg st.ftl key value = some ftl' := by
  have hmissing := hst.missing key hkey hmap
  have hnew : key ∉ keys := by
    rw [hst.mem_keys, hmap]
    simp
  rw [Finset.card_insert_of_notMem hnew] at hcard
  rw [Finset.sum_insert hnew, ← hst.latest_eq] at hbytes
  obtain ⟨_, _, htable⟩ := hst.inv.chained
  have htaken : (takenSlots cfg st.ftl.table).card < cfg.hashSlots := by
    rw [hst.taken]
    omega
  obtain ⟨free, hfree, hdead⟩ := exists_free htaken
  obtain ⟨slot, prevSlot, hchoose⟩ :=
    htable.chooseSlot_ends hfree hdead key.bytes
  refine ⟨fits_of_missing hmissing, ?_⟩
  rw [htable.kvStore_missing hmissing]
  exact kvInsert_completes hchoose (by omega) (by omega)

/-! ## A store keeps the refinement -/

theorem takenSlots_insert {slot : ℕ} {prevSlot : Option ℕ}
    (hins : Inserted cfg st key value slot prevSlot st') :
    takenSlots cfg st'.ftl.table =
      insert slot (takenSlots cfg st.ftl.table) := by
  ext s
  rw [hins.table_eq]
  by_cases hs : s = slot
  · subst hs
    have hlive : live (putEntry st.ftl.table s prevSlot key.bytes st.ftl.latest
        value.length) s = true := by
      rw [live, putEntry_slot hins.chosen]
      rfl
    simp [takenSlots, hlive, hins.chosen.slot_lt]
  · simp [takenSlots, live_putEntry hs, hs]

theorem Represents.inserted (hst : Represents cfg n lengthOf keys map st)
    (hkey : key.bytes.length = n) (hlength : value.length = lengthOf key)
    {slot : ℕ} {prevSlot : Option ℕ}
    (hmissing : lookup cfg st.ftl.table key.bytes = none)
    (hins : Inserted cfg st key value slot prevSlot st') :
    Represents cfg n lengthOf (insert key keys)
      (Function.update map key (some value)) st' := by
  have hmap : map key = none := by
    by_contra hsome
    obtain ⟨old, hold⟩ := Option.ne_none_iff_exists'.mp hsome
    obtain ⟨-, -, ⟨found, hfound, -⟩, -⟩ := hst.stores key old hold
    cases hmissing.symm.trans hfound
  have hnew : key ∉ keys := by
    rw [hst.mem_keys, hmap]
    simp
  obtain ⟨hfound, hretrieves⟩ := hins.retrieves hst.inv hmissing
  refine ⟨hins.inv hst.inv, ?_, ?_, ?_, ?_, ?_⟩
  · intro other hother hnone
    have hne : other ≠ key := by
      rintro rfl
      rw [Function.update_self] at hnone
      cases hnone
    rw [Function.update_of_ne hne] at hnone
    exact hins.missing hst.inv hne (hother.trans hkey.symm)
      (hst.missing other hother hnone)
  · intro other stored hstored
    by_cases hne : other = key
    · subst hne
      rw [Function.update_self] at hstored
      cases hstored
      refine ⟨hkey, hlength, ⟨slot, hfound, ?_, ?_, hins.live_slot.2⟩,
        hretrieves⟩
      · rw [hins.owner_eq, Function.update_self]
      · rw [hins.room_eq, Function.update_self]
    · rw [Function.update_of_ne hne] at hstored
      obtain ⟨h1, h2, ⟨s, hs, howner, hroom, hrecorded⟩, hvalue⟩ :=
        hst.stores other stored hstored
      obtain ⟨hslots, hs'⟩ := hins.lookup_found hst.inv hs
      obtain ⟨-, h4, h5, h6⟩ := hins.other_slot hslots
      refine ⟨h1, h2, ⟨s, hs', h6.trans howner, h5.trans hroom,
        h4.trans hrecorded⟩, fun bufferLength => ?_⟩
      rw [hins.keeps hst.inv ⟨s, hs, howner⟩]
      exact hvalue bufferLength
  · intro other
    rw [Finset.mem_insert, hst.mem_keys]
    by_cases hne : other = key
    · simp [hne]
    · simp [hne]
  · rw [takenSlots_insert hins, Finset.card_insert_of_notMem,
      Finset.card_insert_of_notMem hnew, hst.taken]
    simp [takenSlots, hins.chosen.free]
  · rw [hins.latest_eq, hst.latest_eq, Finset.sum_insert hnew, hlength,
      Nat.add_comm]

theorem Represents.overwritten (hst : Represents cfg n lengthOf keys map st)
    (hkey : key.bytes.length = n) (hlength : value.length = lengthOf key)
    {slot offset : ℕ} (hfound : lookup cfg st.ftl.table key.bytes = some slot)
    (howner : st.owner slot = some key) (hroom : value.length ≤ st.room slot)
    (hover : Overwritten cfg st slot offset value value.length st') :
    Represents cfg n lengthOf (insert key keys)
      (Function.update map key (some value)) st' := by
  obtain ⟨old, hold⟩ : ∃ old, map key = some old := by
    apply Option.ne_none_iff_exists'.mp
    intro hmap
    cases hfound.symm.trans (hst.missing key hkey hmap)
  have hmem : key ∈ keys := by
    rw [hst.mem_keys, hold]
    simp
  have hinv := hover.inv hst.inv hroom
  obtain ⟨hfound', hretrieves⟩ := hover.retrieves hst.inv hroom hfound
  rw [Finset.insert_eq_of_mem hmem]
  refine ⟨hinv, ?_, ?_, ?_, ?_, ?_⟩
  · intro other hother hnone
    have hne : other ≠ key := by
      rintro rfl
      rw [Function.update_self] at hnone
      cases hnone
    rw [Function.update_of_ne hne] at hnone
    rw [hover.table_eq, lookup_setLength]
    exact hst.missing other hother hnone
  · intro other stored hstored
    by_cases hne : other = key
    · subst hne
      rw [Function.update_self] at hstored
      cases hstored
      obtain ⟨-, hlen, ⟨found, hf, -, hfits, -⟩, -⟩ := hst.stores other old hold
      cases hfound.symm.trans hf
      refine ⟨hkey, hlength, ⟨slot, hfound', ?_, ?_, ?_⟩, hretrieves⟩
      · rw [hover.owner_eq]
        exact howner
      · rw [hover.room_eq, hfits]
        omega
      · rw [hover.table_eq, setLength, Function.update_self]
    · rw [Function.update_of_ne hne] at hstored
      obtain ⟨h1, h2, ⟨s, hs, howner', hroom', hrecorded⟩, hvalue⟩ :=
        hst.stores other stored hstored
      have hslots : s ≠ slot := by
        rintro rfl
        exact hne (Option.some.inj (howner'.symm.trans howner))
      refine ⟨h1, h2, ⟨s, ?_, ?_, ?_, ?_⟩, fun bufferLength => ?_⟩
      · rw [hover.table_eq, lookup_setLength]
        exact hs
      · rw [hover.owner_eq]
        exact howner'
      · rw [hover.room_eq]
        exact hroom'
      · rw [hover.table_eq, setLength, Function.update_of_ne hslots]
        exact hrecorded
      · rw [hover.keeps hst.inv hinv hroom hslots hs]
        exact hvalue bufferLength
  · intro other
    by_cases hne : other = key
    · simp [hne, hmem]
    · rw [Function.update_of_ne hne]
      exact hst.mem_keys other
  · rw [takenSlots, hover.table_eq, live_setLength]
    exact hst.taken
  · rw [hover.latest_eq]
    exact hst.latest_eq

/-- A store completes and leaves the map with its value. -/
theorem Represents.store (hst : Represents cfg n lengthOf keys map st)
    (hkey : key.bytes.length = n) (hlength : value.length = lengthOf key)
    (hcard : (insert key keys).card < cfg.hashSlots)
    (hbytes : ∑ k ∈ insert key keys, lengthOf k < cfg.storageSize) :
    ∃ st', st.step cfg (.store key value) = some st' ∧
      Represents cfg n lengthOf (insert key keys)
        (Function.update map key (some value)) st' := by
  obtain ⟨hfits, ftl', hstore⟩ : st.Fits cfg (.store key value) ∧
      ∃ ftl', kvStore cfg st.ftl key value = some ftl' := by
    cases hmap : map key with
    | none => exact hst.fits_missing hkey hmap hlength hcard hbytes
    | some old => exact hst.fits_found hmap hlength
  refine ⟨st.after cfg (.store key value) ftl', ?_, ?_⟩
  · rw [step, kvStep, hstore]
    rfl
  · rcases hst.inv.store_cases hfits hstore with
      ⟨slot, prevSlot, hmissing, hins⟩ |
        ⟨slot, offset, hfound, howner, hroom, hover⟩
    · exact hst.inserted hkey hlength hmissing hins
    · exact hst.overwritten hkey hlength hfound howner hroom hover

/-- What the map says is what the keys retrieve. -/
theorem Represents.retrieve (hst : Represents cfg n lengthOf keys map st)
    (hkey : key.bytes.length = n) (bufferLength : ℕ) :
    kvRetrieve cfg st.ftl key bufferLength =
        some ((map key).map (List.take bufferLength)) ∧
      kvExist cfg st.ftl key = some (map key).isSome := by
  obtain ⟨_, _, htable⟩ := hst.inv.chained
  rw [htable.kvExist_eq]
  cases hmap : map key with
  | none =>
      have hmissing := hst.missing key hkey hmap
      rw [htable.kvRetrieve_missing hmissing, hmissing]
      exact ⟨rfl, rfl⟩
  | some value =>
      obtain ⟨-, -, ⟨slot, hfound, -⟩, hretrieves⟩ := hst.stores key value hmap
      rw [hretrieves, hfound]
      exact ⟨rfl, rfl⟩

theorem Represents.step (hst : Represents cfg n lengthOf keys map st)
    {command : KvCommand} (hcommand : command.Uniform n lengthOf)
    (hcard : (keys ∪ (storedKeys [command]).toFinset).card < cfg.hashSlots)
    (hbytes : ∑ k ∈ keys ∪ (storedKeys [command]).toFinset, lengthOf k <
      cfg.storageSize) :
    ∃ st', st.step cfg command = some st' ∧
      Represents cfg n lengthOf (keys ∪ (storedKeys [command]).toFinset)
        (map.step command) st' := by
  cases command with
  | store key value =>
      have hkeys : keys ∪ (storedKeys [.store key value]).toFinset =
          insert key keys := by
        rw [Finset.union_comm]
        rfl
      rw [hkeys] at hcard hbytes ⊢
      exact hst.store hcommand.1 hcommand.2 hcard hbytes
  | retrieve key bufferLength =>
      refine ⟨st, ?_, ?_⟩
      · rw [Tracked.step, kvStep, (hst.retrieve hcommand bufferLength).1]
        rfl
      · simpa [storedKeys, KvMap.step, KvCommand.stored] using hst
  | exist key =>
      refine ⟨st, ?_, ?_⟩
      · rw [Tracked.step, kvStep, (hst.retrieve hcommand 0).2]
        rfl
      · simpa [storedKeys, KvMap.step, KvCommand.stored] using hst
  | batchedStore key value => exact hcommand.elim
  | delete key => exact hcommand.elim

theorem Represents.run (hst : Represents cfg n lengthOf keys map st)
    {commands : List KvCommand}
    (huniform : ∀ command ∈ commands, command.Uniform n lengthOf)
    (hcard : (keys ∪ (storedKeys commands).toFinset).card < cfg.hashSlots)
    (hbytes : ∑ k ∈ keys ∪ (storedKeys commands).toFinset, lengthOf k <
      cfg.storageSize) :
    ∃ st', st.run cfg commands = some st' ∧
      Represents cfg n lengthOf (keys ∪ (storedKeys commands).toFinset)
        (commands.foldl KvMap.step map) st' := by
  induction commands generalizing st keys map with
  | nil =>
      refine ⟨st, rfl, ?_⟩
      simpa [storedKeys] using hst
  | cons command rest ih =>
      obtain ⟨hcommand, hrest⟩ := List.forall_mem_cons.mp huniform
      have hkeys : keys ∪ (storedKeys (command :: rest)).toFinset =
          keys ∪ (storedKeys [command]).toFinset ∪
            (storedKeys rest).toFinset := by
        have hcons : storedKeys (command :: rest) =
            storedKeys [command] ++ storedKeys rest := by
          rw [storedKeys, storedKeys, storedKeys, ← List.filterMap_append,
            List.singleton_append]
        rw [hcons, List.toFinset_append, Finset.union_assoc]
      rw [hkeys] at hcard hbytes ⊢
      have hsubset : keys ∪ (storedKeys [command]).toFinset ⊆
          keys ∪ (storedKeys [command]).toFinset ∪ (storedKeys rest).toFinset :=
        Finset.subset_union_left
      obtain ⟨mid, hstep, hmid⟩ := hst.step hcommand
        ((Finset.card_le_card hsubset).trans_lt hcard)
        ((Finset.sum_le_sum_of_subset hsubset).trans_lt hbytes)
      obtain ⟨st', hrun, hst'⟩ := ih hmid hrest hcard hbytes
      refine ⟨st', ?_, hst'⟩
      rw [Tracked.run, List.foldlM_cons, hstep]
      exact hrun

end Tracked

/-- Every sequence of stores, retrievals and tests with keys of one length and a
fixed length of the value for each key completes, if the keys are fewer than the
slots and their values smaller than the storage.  The table is then the finite
map of the values stored last, every stored key is reached from the slot of its
hash value, and no chain is cyclic. -/
theorem kv_refines_map (cfg : KvConfig) (storage : ℕ → UInt8) (n : ℕ)
    (lengthOf : KvKey → ℕ) (commands : List KvCommand)
    (huniform : ∀ command ∈ commands, command.Uniform n lengthOf)
    (hkeys : (storedKeys commands).toFinset.card < cfg.hashSlots)
    (hbytes : ∑ key ∈ (storedKeys commands).toFinset, lengthOf key <
      cfg.storageSize) :
    ∃ ftl, kvRun cfg (.init storage) commands = some ftl ∧
      (∀ key : KvKey, key.bytes.length = n → ∀ bufferLength,
        kvRetrieve cfg ftl key bufferLength =
            some ((KvMap.after commands key).map (List.take bufferLength)) ∧
          kvExist cfg ftl key = some (KvMap.after commands key).isSome) ∧
      (∀ key, KvMap.after commands key = none ↔ key ∉ storedKeys commands) ∧
      (∀ key ∈ storedKeys commands, ∃ slot,
        Relation.ReflTransGen (Links ftl.table) (getHashSlot cfg key.bytes)
            slot ∧
          (ftl.table slot).matchesKey key.bytes = true) ∧
      ∀ slot, ¬Relation.TransGen (Links ftl.table) slot slot := by
  obtain ⟨st, hrun, hst⟩ :=
    (Tracked.represents_init cfg storage n lengthOf).run huniform
      (by simpa using hkeys) (by simpa using hbytes)
  have hftl : ((Tracked.init storage).run cfg commands).map Tracked.ftl =
      kvRun cfg (.init storage) commands := Tracked.run_ftl _ _
  rw [hrun] at hftl
  obtain ⟨_, _, htable⟩ := hst.inv.chained
  have hmem : ∀ key, KvMap.after commands key = none ↔
      key ∉ storedKeys commands := by
    intro key
    have hiff := hst.mem_keys key
    rw [Finset.empty_union, List.mem_toFinset] at hiff
    exact (not_iff_comm.mp hiff.symm).symm
  refine ⟨st.ftl, hftl.symm, fun key hkey => hst.retrieve hkey, hmem, ?_,
    htable.acyclic⟩
  intro key hstored
  obtain ⟨value, hvalue⟩ := Option.ne_none_iff_exists'.mp
    (mt (hmem key).mp (not_not.mpr hstored))
  obtain ⟨-, -, ⟨slot, hfound, -⟩, -⟩ := hst.stores key value hvalue
  exact ⟨slot, lookup_reaches hfound, lookup_matches hfound⟩

theorem kv_refines_map_colliding :
    ∃ ftl, kvRun kvPrototype (.init fun _ => 0) storeBoth = some ftl ∧
      kvRetrieve kvPrototype ftl keyImxa 2 = some (some [5, 6]) := by
  obtain ⟨ftl, hrun, hretrieve, -⟩ := kv_refines_map kvPrototype (fun _ => 0) 4
    (fun _ => 4) storeBoth
    (by simp [storeBoth, KvCommand.Uniform, keyAkcl, keyImxa, fourBytes])
    (by decide +kernel) (by decide +kernel)
  exact ⟨ftl, hrun, (hretrieve keyImxa rfl 2).1⟩

end NvmeVirt.Kv
