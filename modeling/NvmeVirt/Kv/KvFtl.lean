import Mathlib

/-!
# The key-value store

The mapping table is an array of slots.  A key goes into the slot of its hash
value, or, if that slot is taken, into the next free slot after the end of the
chain that starts there, to which it is then linked.  Values are allocated one
after the other and written at the offset of their entry.  The loops over the
table have no bound in the code; here they have one more round than there are
slots, and a loop that does not end in them never ends.
-/

namespace NvmeVirt.Kv

/-- `struct mapping_entry`; `none` stands for the value -1. -/
structure MappingEntry where
  key : List UInt8
  memOffset : Option ℕ
  length : ℕ
  nextSlot : Option ℕ
  deriving DecidableEq

/-- An entry of the table as `kv_init_namespace` leaves it. -/
def MappingEntry.fresh : MappingEntry :=
  ⟨List.replicate 18 0, none, 2 ^ 64 - 1, none⟩

/-- An entry filled with -1 by `delete_mapping_entry`. -/
def MappingEntry.erased : MappingEntry :=
  ⟨List.replicate 18 0xff, none, 2 ^ 64 - 1, none⟩

def MappingEntry.occupied (entry : MappingEntry) : Bool :=
  entry.memOffset.isSome

/-- The size of the table and of the storage, and the hash function. -/
structure KvConfig where
  hashSlots : ℕ
  storageSize : ℕ
  hashFunction : List UInt8 → UInt32
  hashSlots_pos : 0 < hashSlots
  hashSlots_lt : hashSlots < 2 ^ 32
  storageSize_lt : storageSize < 2 ^ 63

/-- `struct kv_ftl`, with `latest` of the append-only allocator and the bytes of
the storage. -/
structure KvFtl where
  table : ℕ → MappingEntry
  latest : ℕ
  storage : ℕ → UInt8

def KvFtl.init (storage : ℕ → UInt8) : KvFtl := ⟨fun _ => .fresh, 0, storage⟩

variable (cfg : KvConfig)

/-! ## The mapping table -/

def getHashSlot (key : List UInt8) : ℕ :=
  (cfg.hashFunction key).toNat % cfg.hashSlots

/-- `memcmp(key, entry.key, key_len) == 0`. -/
def MappingEntry.matchesKey (key : List UInt8) (entry : MappingEntry) : Bool :=
  entry.key.take key.length = key

/-- The loop over the chain of a key: the slot that it finds, if any. -/
def searchLoop (table : ℕ → MappingEntry) (key : List UInt8) :
    ℕ → ℕ → Option (Option ℕ)
  | 0, _ => none
  | fuel + 1, slot =>
      if (table slot).occupied then
        if (table slot).matchesKey key then some (some slot)
        else
          match (table slot).nextSlot with
          | none => some none
          | some next => searchLoop table key fuel next
      else some none

/-- The search of `get_mapping_entry`, `get_mapping_entry_by_key`,
`update_mapping_entry` and `delete_mapping_entry`. -/
def search (table : ℕ → MappingEntry) (key : List UInt8) :
    Option (Option ℕ) :=
  searchLoop table key (cfg.hashSlots + 1) (getHashSlot cfg key)

/-- `get_mapping_entry` and `get_mapping_entry_by_key`: a copy of the entry, or
one filled with -1. -/
def getMappingEntry (table : ℕ → MappingEntry) (key : List UInt8) :
    Option MappingEntry := do
  match ← search cfg table key with
  | none => return .erased
  | some slot => return { table slot with
      key := (table slot).key.take key.length ++
        MappingEntry.erased.key.drop key.length }

/-- The first loop of `find_next_slot`, from an occupied slot. -/
def findTail (table : ℕ → MappingEntry) : ℕ → ℕ → ℕ → Option ℕ
  | 0, _, _ => none
  | fuel + 1, tail, prevs =>
      if (table tail).occupied then
        match (table tail).nextSlot with
        | none => some tail
        | some next => findTail table fuel next tail
      else some prevs

/-- The second loop of `find_next_slot`. -/
def probe (table : ℕ → MappingEntry) : ℕ → ℕ → Option ℕ
  | 0, _ => none
  | fuel + 1, slot =>
      if (table slot).occupied then
        probe table fuel
          (if cfg.hashSlots ≤ slot + 1 then 0 else slot + 1)
      else some slot

/-- `find_next_slot`: the free slot and the end of the chain. -/
def findNextSlot (table : ℕ → MappingEntry) (originalSlot : ℕ) :
    Option (ℕ × ℕ) := do
  let prevSlot ← findTail table (cfg.hashSlots + 1) originalSlot originalSlot
  let slot ← probe cfg table (cfg.hashSlots + 1) prevSlot
  return (slot, prevSlot)

/-- The slot for a new key, and the slot to be linked to it. -/
def chooseSlot (table : ℕ → MappingEntry) (key : List UInt8) :
    Option (ℕ × Option ℕ) :=
  let slot := getHashSlot cfg key
  if (table slot).occupied then
    (findNextSlot cfg table slot).map fun (slot, prevSlot) =>
      (slot, some prevSlot)
  else some (slot, none)

/-- The entry with a key written over the bytes that were there. -/
def MappingEntry.fill (entry : MappingEntry) (key : List UInt8)
    (valOffset valLen : ℕ) : MappingEntry :=
  { entry with
    key := key ++ entry.key.drop key.length
    memOffset := some valOffset
    length := valLen }

def chainMapping (table : ℕ → MappingEntry) (prev slot : ℕ) :
    ℕ → MappingEntry :=
  Function.update table prev { table prev with nextSlot := some slot }

/-- The table with an entry in a slot, linked from another one. -/
def putEntry (table : ℕ → MappingEntry) (slot : ℕ) (prevSlot : Option ℕ)
    (key : List UInt8) (valOffset valLen : ℕ) : ℕ → MappingEntry :=
  let table := Function.update table slot
    ((table slot).fill key valOffset valLen)
  match prevSlot with
  | none => table
  | some prev => chainMapping table prev slot

/-- `new_mapping_entry` and `new_mapping_entry_by_key`, which have the same
body. -/
def newMappingEntry (ftl : KvFtl) (key : List UInt8) (valLen valOffset : ℕ) :
    Option KvFtl :=
  if cfg.storageSize ≤ valOffset then none
  else do
    let (slot, prevSlot) ← chooseSlot cfg ftl.table key
    return { ftl with
      table := putEntry ftl.table slot prevSlot key valOffset valLen }

/-- `update_mapping_entry`. -/
def updateMappingEntry (ftl : KvFtl) (key : List UInt8) (valLen : ℕ) :
    Option KvFtl := do
  match ← search cfg ftl.table key with
  | none => return ftl
  | some slot => return { ftl with
      table := Function.update ftl.table slot
        { ftl.table slot with length := valLen } }

/-- `delete_mapping_entry`. -/
def deleteMappingEntry (ftl : KvFtl) (key : List UInt8) : Option KvFtl := do
  match ← search cfg ftl.table key with
  | none => return ftl
  | some slot => return { ftl with
      table := Function.update ftl.table slot .erased }

/-! ## Storage -/

/-- `append_only_allocate`; it returns `latest` as it was. -/
def appendOnlyAllocate (ftl : KvFtl) (length : ℕ) : ℕ × KvFtl :=
  (ftl.latest, { ftl with latest := (ftl.latest + length) % 2 ^ 64 })

/-- The offset that `allocate_mem_offset` and `allocate_mem_offset_by_length`
return; an offset of -1 is a failed allocation. -/
def allocatedOffset (offset : ℕ) : ℕ :=
  if offset = 2 ^ 64 - 1 then 0 else offset

/-- The bytes of the storage from an offset on. -/
def readBytes (storage : ℕ → UInt8) (offset length : ℕ) : List UInt8 :=
  (List.range length).map fun i => storage (offset + i)

def writeBytes (storage : ℕ → UInt8) (offset : ℕ) (value : List UInt8) :
    ℕ → UInt8 := fun address =>
  if offset ≤ address then value.getD (address - offset) (storage address)
  else storage address

/-- The copy of a value into the storage; beyond its end there is a fault. -/
def copyIn (ftl : KvFtl) (offset : ℕ) (value : List UInt8) : Option KvFtl :=
  if offset + value.length ≤ cfg.storageSize then
    some { ftl with storage := writeBytes ftl.storage offset value }
  else none

def copyOut (ftl : KvFtl) (offset length : ℕ) : Option (List UInt8) :=
  if offset + length ≤ cfg.storageSize then
    some (readBytes ftl.storage offset length)
  else none

def smallLength : ℕ := 1024

/-! ## Commands -/

/-- The bytes of a key, `key_len + 1` of them. -/
@[ext]
structure KvKey where
  bytes : List UInt8
  length_pos : 0 < bytes.length
  length_le : bytes.length ≤ 16
  deriving DecidableEq

/-- The value of a new key: allocated, copied and entered into the table. -/
def kvInsert (ftl : KvFtl) (key : KvKey) (value : List UInt8) :
    Option KvFtl := do
  let allocation := appendOnlyAllocate ftl value.length
  let offset := allocatedOffset allocation.1
  let ftl ← copyIn cfg allocation.2 offset value
  newMappingEntry cfg ftl key.bytes value.length offset

/-- `kv_store` of `__do_perform_kv_io`. -/
def kvStore (ftl : KvFtl) (key : KvKey) (value : List UInt8) :
    Option KvFtl := do
  let entry ← getMappingEntry cfg ftl.table key.bytes
  match entry.memOffset with
  | none => kvInsert cfg ftl key value
  | some offset =>
      let ftl ← copyIn cfg ftl offset value
      if value.length ≠ entry.length ∧ value.length ≤ smallLength ∧
          entry.length ≤ smallLength then
        updateMappingEntry cfg ftl key.bytes value.length
      else return ftl

/-- `__do_perform_kv_batched_io`.  It finds out in the same way whether the
length is to be updated; the update itself is commented out. -/
def kvBatchedStore (ftl : KvFtl) (key : KvKey) (value : List UInt8) :
    Option KvFtl := do
  let entry ← getMappingEntry cfg ftl.table key.bytes
  match entry.memOffset with
  | none => kvInsert cfg ftl key value
  | some offset => copyIn cfg ftl offset value

/-- `kv_retrieve` with the length of the host's buffer: `none` stands for
`KV_ERR_KEY_NOT_EXIST`. -/
def kvRetrieve (ftl : KvFtl) (key : KvKey) (bufferLength : ℕ) :
    Option (Option (List UInt8)) := do
  let entry ← getMappingEntry cfg ftl.table key.bytes
  match entry.memOffset with
  | none => return none
  | some offset =>
      return some (← copyOut cfg ftl offset (min entry.length bufferLength))

/-- `kv_exist`; false stands for `KV_ERR_KEY_NOT_EXIST`. -/
def kvExist (ftl : KvFtl) (key : KvKey) : Option Bool := do
  let entry ← getMappingEntry cfg ftl.table key.bytes
  return entry.occupied

/-- `kv_delete`; a key that does not exist is an error without effect. -/
def kvDelete (ftl : KvFtl) (key : KvKey) : Option KvFtl := do
  let entry ← getMappingEntry cfg ftl.table key.bytes
  match entry.memOffset with
  | none => return ftl
  | some _ => deleteMappingEntry cfg ftl key.bytes

inductive KvCommand where
  | store (key : KvKey) (value : List UInt8)
  | batchedStore (key : KvKey) (value : List UInt8)
  | retrieve (key : KvKey) (bufferLength : ℕ)
  | exist (key : KvKey)
  | delete (key : KvKey)

/-- The state after a command. -/
def kvStep (ftl : KvFtl) : KvCommand → Option KvFtl
  | .store key value => kvStore cfg ftl key value
  | .batchedStore key value => kvBatchedStore cfg ftl key value
  | .retrieve key bufferLength =>
      (kvRetrieve cfg ftl key bufferLength).map fun _ => ftl
  | .exist key => (kvExist cfg ftl key).map fun _ => ftl
  | .delete key => kvDelete cfg ftl key

/-- The state after a list of commands; there is none if one of them does not
complete. -/
def kvRun (ftl : KvFtl) (commands : List KvCommand) : Option KvFtl :=
  commands.foldlM (kvStep cfg) ftl

/-! ## The configuration of the device -/

/-- `hash_function`. -/
def fnvHash (key : List UInt8) : UInt32 :=
  key.foldl (fun h byte => (h * 16777619) ^^^ byte.toUInt32) 2166136261

/-- `KV_MAPPING_TABLE_SIZE / KV_MAPPING_ENTRY_SIZE`. -/
def kvHashSlots : ℕ := 2 ^ 30 / 48

theorem kvHashSlots_pos : 0 < kvHashSlots := by decide

theorem kvHashSlots_lt : kvHashSlots < 2 ^ 32 := by decide

/-- The device with a storage of 1 MiB. -/
def kvPrototype : KvConfig where
  hashSlots := kvHashSlots
  storageSize := 2 ^ 20
  hashFunction := fnvHash
  hashSlots_pos := kvHashSlots_pos
  hashSlots_lt := kvHashSlots_lt
  storageSize_lt := by decide

end NvmeVirt.Kv
