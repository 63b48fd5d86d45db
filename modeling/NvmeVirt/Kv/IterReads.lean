import NvmeVirt.Kv.IterHandles

/-!
# Reading the keys of an iterator

`kv_iter_read` goes through the slots of the mapping table from where the last
read stopped, and fills a buffer of 1024 bytes with the keys that match.  It
stops before a key for which there is no room, or behind the last slot, and says
so in its status.  Successive reads return every matching key once, in the order
of the slots.  The copy of the buffer into the pages of the host is left out.
-/

namespace NvmeVirt.Kv

/-! ## The code -/

/-- The four bytes of an `int`, the lowest first. -/
def intBytes (value : ℕ) : List UInt8 :=
  [UInt8.ofNat value, UInt8.ofNat (value / 2 ^ 8),
    UInt8.ofNat (value / 2 ^ 16), UInt8.ofNat (value / 2 ^ 24)]

/-- The first four bytes of a key as an `unsigned int`. -/
def keyWord (key : List UInt8) : UInt32 :=
  (key.getD 0 0).toUInt32 ||| (key.getD 1 0).toUInt32 <<< 8 |||
    (key.getD 2 0).toUInt32 <<< 16 ||| (key.getD 3 0).toUInt32 <<< 24

/-- Whether the iterator returns the key of an entry. -/
def MappingEntry.selected (ctx : KvIterContext) (entry : MappingEntry) : Bool :=
  entry.occupied &&
    (keyWord entry.key &&& ctx.bitmask) == (ctx.keyBits &&& ctx.bitmask)

/-- `keylen` of `kv_iter_read`. -/
def iterKeylen : ℕ := 16

/-- The variables of the loop of `kv_iter_read`; `written` are the bytes behind
the count. -/
structure IterLoop where
  pos : ℕ
  bufOffset : ℕ
  nrKeys : ℕ
  written : List UInt8
  endReached : Bool
  deriving DecidableEq

def IterLoop.start (pos : ℕ) : IterLoop := ⟨pos, 4, 0, [], false⟩

/-- The two `memcpy` calls for a key. -/
def IterLoop.addKey (loop : IterLoop) (key : List UInt8) : IterLoop :=
  { loop with
    bufOffset := loop.bufOffset + 4 + (iterKeylen + 3) / 4 * 4
    nrKeys := loop.nrKeys + 1
    written := loop.written ++ intBytes iterKeylen ++ key.take iterKeylen }

/-- A device whose slots can be counted with the `int pos` of `kv_iter_read`. -/
structure IterConfig extends KvConfig where
  hashSlots_lt_int : hashSlots < 2 ^ 31

/-- The loop of `kv_iter_read`, with a bound on its rounds. -/
def iterReadLoop (hashSlots : ℕ) (table : ℕ → MappingEntry)
    (ctx : KvIterContext) : ℕ → IterLoop → IterLoop
  | 0, loop => loop
  | rounds + 1, loop =>
      if loop.pos < hashSlots then
        let found := (table loop.pos).selected ctx
        if found ∧ 1024 < loop.bufOffset + 4 + iterKeylen then loop
        else
          let loop := if found then loop.addKey (table loop.pos).key else loop
          let loop := { loop with pos := loop.pos + 1 }
          if loop.pos = hashSlots then { loop with endReached := true }
          else iterReadLoop hashSlots table ctx rounds loop
      else loop

/-- What the host gets from a read: the status, the value returned, which is the
number of bytes, and the bytes. -/
structure IterRead where
  status : ℕ
  result : ℕ
  buffer : List UInt8
  deriving DecidableEq

/-- `kv_iter_read`, with the status that it finds; there is a fault if the
handle is no index of the array, or garbage. -/
def kvIterRead (hashSlots : ℕ) (table : ℕ → MappingEntry)
    (handles : ℕ → IterHandle) (iter status : ℕ) :
    Option (IterRead × (ℕ → IterHandle)) :=
  if iter < iterHandles then
    match handles iter with
    | .garbage => none
    | .null => some (⟨status, 0, []⟩, handles)
    | .context ctx =>
        let loop := iterReadLoop hashSlots table ctx hashSlots
          (.start ctx.currentPos)
        some (⟨if loop.endReached then 0x393 else 0, loop.bufOffset,
            intBytes loop.nrKeys ++ loop.written⟩,
          Function.update handles iter
            (.context { ctx with currentPos := loop.pos }))
  else none

/-- Reads in a row, with the same handle. -/
def kvIterReads (hashSlots : ℕ) (table : ℕ → MappingEntry) (iter : ℕ) :
    ℕ → (ℕ → IterHandle) → Option (List IterRead)
  | 0, _ => some []
  | count + 1, handles => do
      let (read, handles) ←
        kvIterRead hashSlots table handles iter nvmeScSuccess
      return read :: (← kvIterReads hashSlots table iter count handles)

/-! ## What is read -/

variable {hashSlots : ℕ} {table : ℕ → MappingEntry} {ctx : KvIterContext}

/-- The slots from `pos` on whose keys are returned. -/
def selectedFrom (hashSlots : ℕ) (table : ℕ → MappingEntry)
    (ctx : KvIterContext) (pos : ℕ) : List ℕ :=
  (List.range' pos (hashSlots - pos)).filter fun slot =>
    (table slot).selected ctx

/-- The slot of one round of the loop, if its key is returned. -/
def roundSlots (table : ℕ → MappingEntry) (ctx : KvIterContext) (pos : ℕ) :
    List ℕ :=
  if (table pos).selected ctx then [pos] else []

/-- The keys of slots, as far as they are returned. -/
def slotKeys (table : ℕ → MappingEntry) (slots : List ℕ) :
    List (List UInt8) :=
  slots.map fun slot => (table slot).key.take 16

/-- The buffer for a list of keys: their number, and 20 bytes for each. -/
def keyBuffer (keys : List (List UInt8)) : List UInt8 :=
  intBytes keys.length ++ keys.flatMap fun key => intBytes 16 ++ key

theorem selectedFrom_step {pos : ℕ} (hpos : pos < hashSlots) :
    selectedFrom hashSlots table ctx pos = roundSlots table ctx pos ++
      selectedFrom hashSlots table ctx (pos + 1) := by
  obtain ⟨more, hmore⟩ := Nat.exists_eq_add_of_lt hpos
  rw [selectedFrom, selectedFrom, show hashSlots - pos = more + 1 by omega,
    show hashSlots - (pos + 1) = more by omega, List.range'_succ,
    List.filter_cons, roundSlots]
  split <;> rfl

theorem selectedFrom_end : selectedFrom hashSlots table ctx hashSlots = [] := by
  simp [selectedFrom]

/-- The loop has written the keys of `slots`. -/
structure Holds (table : ℕ → MappingEntry) (slots : List ℕ)
    (loop : IterLoop) : Prop where
  bufOffset_eq : loop.bufOffset = 4 + 20 * slots.length
  nrKeys_eq : loop.nrKeys = slots.length
  written_eq : loop.written =
    (slotKeys table slots).flatMap fun key => intBytes 16 ++ key

theorem Holds.start (pos : ℕ) : Holds table [] (.start pos) := ⟨rfl, rfl, rfl⟩

theorem Holds.move {slots : List ℕ} {loop : IterLoop}
    (hholds : Holds table slots loop) (pos : ℕ) (endReached : Bool) :
    Holds table slots { loop with pos, endReached } :=
  ⟨hholds.bufOffset_eq, hholds.nrKeys_eq, hholds.written_eq⟩

theorem Holds.addKey {slots : List ℕ} {loop : IterLoop}
    (hholds : Holds table slots loop) :
    Holds table (slots ++ [loop.pos]) (loop.addKey (table loop.pos).key) := by
  refine ⟨?_, ?_, ?_⟩
  · rw [IterLoop.addKey, hholds.bufOffset_eq, List.length_append, iterKeylen]
    simp only [List.length_singleton]
    omega
  · rw [IterLoop.addKey, hholds.nrKeys_eq, List.length_append]
    rfl
  · rw [IterLoop.addKey, hholds.written_eq, slotKeys, slotKeys]
    simp [iterKeylen]

/-- One round that does not stop for want of room. -/
theorem Holds.round (ctx : KvIterContext) {slots : List ℕ}
    {loop : IterLoop} (hholds : Holds table slots loop) :
    Holds table (slots ++ roundSlots table ctx loop.pos)
      (if (table loop.pos).selected ctx then
        loop.addKey (table loop.pos).key else loop) := by
  rw [roundSlots]
  by_cases hfound : (table loop.pos).selected ctx = true
  · rw [if_pos hfound, if_pos hfound]
    exact hholds.addKey
  · rw [if_neg hfound, if_neg hfound, List.append_nil]
    exact hholds

/-- Where a loop that has written the keys of `slots` may end: behind the last
slot, with all keys written, or with a full buffer, before a slot from which on
the keys are still to be read. -/
def LoopEnds (hashSlots : ℕ) (table : ℕ → MappingEntry)
    (ctx : KvIterContext) (pos : ℕ) (slots : List ℕ) (loop : IterLoop) :
    Prop :=
  ∃ more, Holds table (slots ++ more) loop ∧
    (slots ++ more).length ≤ 51 ∧
    (loop.endReached = true ∧ selectedFrom hashSlots table ctx pos = more ∨
      loop.endReached = false ∧ loop.pos < hashSlots ∧
        (slots ++ more).length = 51 ∧
        selectedFrom hashSlots table ctx pos =
          more ++ selectedFrom hashSlots table ctx loop.pos)

theorem LoopEnds.cons {pos : ℕ} {slots : List ℕ} {loop : IterLoop}
    (hpos : pos < hashSlots)
    (hends : LoopEnds hashSlots table ctx (pos + 1)
      (slots ++ roundSlots table ctx pos) loop) :
    LoopEnds hashSlots table ctx pos slots loop := by
  obtain ⟨more, hholds, hlength, hcases⟩ := hends
  rw [List.append_assoc] at hholds hlength hcases
  refine ⟨roundSlots table ctx pos ++ more, hholds, hlength, ?_⟩
  rw [selectedFrom_step hpos, List.append_assoc]
  rcases hcases with ⟨hend, heq⟩ | ⟨hend, hlt, hfull, heq⟩
  · exact .inl ⟨hend, by rw [heq]⟩
  · exact .inr ⟨hend, hlt, hfull, by rw [heq]⟩

theorem iterReadLoop_ends {rounds : ℕ} {slots : List ℕ} {loop : IterLoop}
    (hholds : Holds table slots loop) (hlength : slots.length ≤ 51)
    (hend : loop.endReached = false) (hpos : loop.pos < hashSlots)
    (hrounds : hashSlots - loop.pos ≤ rounds) :
    LoopEnds hashSlots table ctx loop.pos slots
      (iterReadLoop hashSlots table ctx rounds loop) := by
  induction rounds generalizing slots loop with
  | zero => omega
  | succ rounds ih =>
      rw [iterReadLoop, if_pos hpos]
      have hroom := hholds.bufOffset_eq
      by_cases hfull : (table loop.pos).selected ctx = true ∧
          1024 < loop.bufOffset + 4 + iterKeylen
      · -- no room for this key
        rw [if_pos hfull]
        have hcount : slots.length = 51 := by
          have := hfull.2
          rw [iterKeylen] at this
          omega
        exact ⟨[], by rwa [List.append_nil], by rwa [List.append_nil],
          .inr ⟨hend, hpos, by rwa [List.append_nil], rfl⟩⟩
      · rw [if_neg hfull]
        refine LoopEnds.cons hpos ?_
        have hnext := hholds.round ctx
        have hcount : (slots ++ roundSlots table ctx loop.pos).length ≤ 51 := by
          rw [roundSlots, List.length_append]
          by_cases hfound : (table loop.pos).selected ctx = true
          · have hfits : ¬ 1024 < loop.bufOffset + 4 + iterKeylen :=
              fun hlt => hfull ⟨hfound, hlt⟩
            rw [iterKeylen] at hfits
            rw [if_pos hfound, List.length_singleton]
            omega
          · rw [if_neg hfound]
            exact hlength
        have hsame : (if (table loop.pos).selected ctx then
            loop.addKey (table loop.pos).key else loop).pos = loop.pos ∧
            (if (table loop.pos).selected ctx then
              loop.addKey (table loop.pos).key else loop).endReached =
                false := by
          split
          · exact ⟨rfl, hend⟩
          · exact ⟨rfl, hend⟩
        simp only [hsame.1]
        by_cases hlast : loop.pos + 1 = hashSlots
        · rw [if_pos hlast, hlast]
          refine ⟨[], ?_, ?_, .inl ⟨rfl, selectedFrom_end⟩⟩
          · rw [List.append_nil]
            exact hnext.move _ _
          · rwa [List.append_nil]
        · rw [if_neg hlast]
          exact ih (hnext.move (loop.pos + 1) _) hcount hsame.2
            (by simp only; omega) (by simp only; omega)

/-! ## Reads in a row -/

/-- What the host gets for a list of keys. -/
def keyRead (status : ℕ) (keys : List (List UInt8)) : IterRead :=
  ⟨status, 4 + 20 * keys.length, keyBuffer keys⟩

section Reads

variable {handles : ℕ → IterHandle} {iter : ℕ}

/-- One read: all keys that are left, or as many as fit. -/
theorem kvIterRead_cases (table : ℕ → MappingEntry) (status : ℕ)
    (hiter : iter < iterHandles)
    (hhandle : handles iter = .context ctx)
    (hpos : ctx.currentPos < hashSlots) :
    ∃ slots pos, slots.length ≤ 51 ∧
      (kvIterRead hashSlots table handles iter status =
            some (keyRead 0x393 (slotKeys table slots),
              Function.update handles iter
                (.context { ctx with currentPos := pos })) ∧
          selectedFrom hashSlots table ctx ctx.currentPos = slots ∨
        kvIterRead hashSlots table handles iter status =
            some (keyRead 0 (slotKeys table slots),
              Function.update handles iter
                (.context { ctx with currentPos := pos })) ∧
          slots.length = 51 ∧ pos < hashSlots ∧
          selectedFrom hashSlots table ctx ctx.currentPos =
            slots ++ selectedFrom hashSlots table ctx pos) := by
  have hloop : LoopEnds hashSlots table ctx ctx.currentPos []
      (iterReadLoop hashSlots table ctx hashSlots (.start ctx.currentPos)) :=
    iterReadLoop_ends (Holds.start ctx.currentPos) (by simp) rfl hpos
      (Nat.sub_le _ _)
  obtain ⟨slots, hholds, hlength, hcases⟩ := hloop
  rw [List.nil_append] at hholds hlength hcases
  refine ⟨slots, (iterReadLoop hashSlots table ctx hashSlots
    (.start ctx.currentPos)).pos, hlength, ?_⟩
  simp only [kvIterRead, if_pos hiter, hhandle, keyRead, keyBuffer]
  rw [hholds.bufOffset_eq, hholds.nrKeys_eq, hholds.written_eq, slotKeys,
    List.length_map]
  rcases hcases with ⟨hend, heq⟩ | ⟨hend, hlt, hfull, heq⟩
  · rw [hend]
    exact .inl ⟨rfl, heq⟩
  · rw [hend]
    exact .inr ⟨rfl, hfull, hlt, heq⟩

/-- Reads in a row end with the status of the last slot, after all keys from the
position of the iterator on. -/
theorem kvIterReads_all (table : ℕ → MappingEntry)
    (hiter : iter < iterHandles)
    (hhandle : handles iter = .context ctx)
    (hpos : ctx.currentPos < hashSlots) :
    ∃ pages last, kvIterReads hashSlots table iter (pages.length + 1) handles =
        some (pages.map (fun slots => keyRead 0 (slotKeys table slots)) ++
          [keyRead 0x393 (slotKeys table last)]) ∧
      pages.flatten ++ last =
        selectedFrom hashSlots table ctx ctx.currentPos ∧
      ∀ slots ∈ pages ++ [last], slots.length ≤ 51 := by
  -- each read but the last takes keys away
  induction hleft : (selectedFrom hashSlots table ctx ctx.currentPos).length
    using Nat.strong_induction_on generalizing handles ctx with
  | _ left ih =>
      obtain ⟨slots, pos, hlength, hcases⟩ :=
        kvIterRead_cases table nvmeScSuccess hiter hhandle hpos
      rcases hcases with ⟨hread, heq⟩ | ⟨hread, hfull, hlt, heq⟩
      · refine ⟨[], slots, ?_, heq.symm, ?_⟩
        · simp only [List.length_nil, kvIterReads, hread]
          rfl
        · intro page hpage
          rw [List.nil_append, List.mem_singleton] at hpage
          rwa [hpage]
      · have hless : (selectedFrom hashSlots table
            { ctx with currentPos := pos } pos).length < left := by
          have hsplit := congrArg List.length heq
          rw [List.length_append, hleft, hfull] at hsplit
          have hsame : selectedFrom hashSlots table
            { ctx with currentPos := pos } pos =
              selectedFrom hashSlots table ctx pos := rfl
          rw [hsame]
          omega
        obtain ⟨pages, last, hreads, hall, hlengths⟩ := ih _ hless
          (Function.update_self iter _ handles) hlt rfl
        refine ⟨slots :: pages, last, ?_, ?_, ?_⟩
        · rw [List.length_cons, kvIterReads, hread]
          simp only [Option.bind_eq_bind, Option.bind_some, hreads]
          rfl
        · rw [List.flatten_cons, List.append_assoc, hall, heq]
          rfl
        · intro page hpage
          rcases List.mem_cons.mp hpage with rfl | hmem
          · exact hlength
          · exact hlengths page hmem

end Reads

/-- The bytes of a read: the number of keys and twenty bytes for each. -/
theorem length_keyBuffer {keys : List (List UInt8)}
    (hkeys : ∀ key ∈ keys, key.length = 16) :
    (keyBuffer keys).length = 4 + 20 * keys.length := by
  have hentries : (keys.map fun key => (intBytes 16 ++ key).length).sum =
      20 * keys.length := by
    induction keys with
    | nil => rfl
    | cons key keys ih =>
        rw [List.map_cons, List.sum_cons, List.length_append,
          hkeys key List.mem_cons_self,
          ih fun other hother => hkeys other (List.mem_cons_of_mem _ hother),
          List.length_cons]
        simp only [intBytes, List.length_cons, List.length_nil]
        omega
  rw [keyBuffer, List.length_append, List.length_flatMap, hentries]
  rfl

/-- For every table of 18-byte keys whose slots can be counted with an `int`, and
every iterator that is opened while a handle is free: reads in a row succeed
until one ends with status 0x393, they return the first 16 bytes of every key
that is selected, once and in the order of the slots, and each puts the number
of its keys and 20 bytes for each of them into a buffer of at most 1024
bytes. -/
theorem iteration_complete (cfg : IterConfig) (table : ℕ → MappingEntry)
    (hkeys : ∀ slot, (table slot).key.length = 18)
    (handles : ℕ → IterHandle) (iterVal iterBitmask : UInt32)
    (hfree : ∃ iter ∈ List.range' 1 16, handles iter = .null) :
    let opened := kvIterOpen handles iterVal iterBitmask nvmeScSuccess
    opened.status = 0 ∧ ∃ (pages : List (List (List UInt8)))
        (last : List (List UInt8)),
      kvIterReads cfg.hashSlots table opened.result (pages.length + 1)
          opened.handles =
        some (pages.map (keyRead 0) ++ [keyRead 0x393 last]) ∧
      pages.flatten ++ last =
        ((List.range cfg.hashSlots).filter fun slot =>
            (table slot).selected ⟨iterVal, iterBitmask, 0⟩).map
          (fun slot => (table slot).key.take 16) ∧
      ∀ keys ∈ pages ++ [last], (∀ key ∈ keys, key.length = 16) ∧
        (keyRead 0 keys).buffer.length = 4 + 20 * keys.length ∧
        4 + 20 * keys.length ≤ 1024 := by
  intro opened
  rcases kvIterOpen_cases handles iterVal iterBitmask nvmeScSuccess with
    ⟨hnone, -⟩ | ⟨iter, hmem, -, heq⟩
  · obtain ⟨iter, hmem, hnull⟩ := hfree
    exact absurd hnull (hnone iter hmem)
  · have hopened : opened = ⟨0, iter, Function.update handles iter
        (.context ⟨iterVal, iterBitmask, 0⟩)⟩ := heq
    have hiter : iter < iterHandles := (List.mem_range'_1.mp hmem).2
    have hpos : (⟨iterVal, iterBitmask, 0⟩ : KvIterContext).currentPos <
        cfg.hashSlots := cfg.hashSlots_pos
    obtain ⟨pages, last, hreads, hall, hlengths⟩ :=
      kvIterReads_all table hiter (Function.update_self iter _ handles) hpos
    rw [hopened]
    refine ⟨rfl, pages.map (slotKeys table), slotKeys table last, ?_, ?_, ?_⟩
    · rw [List.length_map, hreads, List.map_map]
      rfl
    · calc (pages.map (slotKeys table)).flatten ++ slotKeys table last
          = slotKeys table (pages.flatten ++ last) := by
            simp only [slotKeys, List.map_append, List.map_flatten]
            rfl
        _ = _ := by
            rw [hall, selectedFrom, Nat.sub_zero, ← List.range_eq_range']
            rfl
    · intro keys hkeysMem
      have hmap : pages.map (slotKeys table) ++ [slotKeys table last] =
          (pages ++ [last]).map (slotKeys table) := by
        rw [List.map_append]
        rfl
      rw [hmap] at hkeysMem
      obtain ⟨slots, hslots, rfl⟩ := List.mem_map.mp hkeysMem
      have hlength := hlengths slots hslots
      have hsixteen : ∀ key ∈ slotKeys table slots, key.length = 16 := by
        intro key hkey
        obtain ⟨slot, -, rfl⟩ := List.mem_map.mp hkey
        rw [List.length_take, hkeys]
        rfl
      refine ⟨hsixteen, length_keyBuffer hsixteen, ?_⟩
      rw [slotKeys, List.length_map]
      omega

/-- A table of 60 slots, each of which holds the same key. -/
def fullTable (_ : ℕ) : MappingEntry :=
  ⟨List.replicate 18 0x61, some 0, 4, none⟩

/-- The device with a table of 60 slots. -/
def sixtySlots : IterConfig where
  hashSlots := 60
  storageSize := kvPrototype.storageSize
  hashFunction := fnvHash
  hashSlots_pos := by decide
  hashSlots_lt := by decide
  storageSize_lt := kvPrototype.storageSize_lt
  hashSlots_lt_int := by decide

/-- The keys do not fit into one buffer, and there is more than one read. -/
theorem iteration_complete_sixtySlots :
    let opened := kvIterOpen (initIterHandles .null) 0x61 0xff nvmeScSuccess
    opened.status = 0 ∧ ∃ (pages : List (List (List UInt8)))
        (last : List (List UInt8)),
      kvIterReads 60 fullTable opened.result (pages.length + 1)
          opened.handles =
        some (pages.map (keyRead 0) ++ [keyRead 0x393 last]) ∧
      pages.flatten ++ last =
        List.replicate 60 (List.replicate 16 0x61) ∧ pages ≠ [] := by
  intro opened
  have hkeys : ∀ slot, (fullTable slot).key.length = 18 := fun _ => rfl
  obtain ⟨hstatus, pages, last, hreads, hall, hlengths⟩ :=
    iteration_complete sixtySlots fullTable hkeys (initIterHandles .null) 0x61
      0xff (by decide)
  have hkeysRead : pages.flatten ++ last =
      List.replicate 60 (List.replicate 16 0x61) :=
    hall.trans (by decide +kernel)
  refine ⟨hstatus, pages, last, hreads, hkeysRead, ?_⟩
  rintro rfl
  have hlast := (hlengths last (by simp)).2.2
  have hcount := congrArg List.length hkeysRead
  rw [List.flatten_nil, List.nil_append, List.length_replicate] at hcount
  omega

end NvmeVirt.Kv
