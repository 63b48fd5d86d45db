import NvmeVirt.DualQueue.DeviceSteps

/-!
# Invariant of the whole system

The invariants of the devices, the meaning of the shared flags and the place of
the host, and that every step keeps them.  The only thing a step is not shown
to do here is to leave the marker in the future queue; that depends on the way
`find_next_future_task` searches, and is asked for as `PicksBlock`.
-/

namespace NvmeVirt.DualQueue

open Function NvmeVirt.Csd

/-! ## The host's part -/

namespace HostPc

variable (s : Setup) (k : ℕ)

/-- The positions that the send loop of iteration `k` has still to visit. -/
def sends : HostPc → List (ℕ × ℕ × ℕ)
  | .send todo => todo
  | .release _ => sendTodo s k
  | .finished => sendTodo s k
  | _ => []

/-- The columns that have not been announced in iteration `k`. -/
def columns : HostPc → List ℕ
  | .send _ => columnOrder s k
  | .aggr columns => columns
  | .merge c rest _ => c :: rest
  | .damp c rest _ => c :: rest
  | .notify c rest => c :: rest
  | .wait => []
  | .release _ => columnOrder s k
  | .finished => columnOrder s k

/-- The devices that have not been released. -/
def held : HostPc → List ℕ
  | .release todo => todo
  | _ => []

/-- The host works on an iteration that exists. -/
def Timely : HostPc → Prop
  | .release _ => True
  | .finished => s.numIters ≤ k
  | _ => k < s.numIters

end HostPc

section Invariant

variable (s : Setup)

/-- The blocks that will still be sent to a device. -/
def unsent (csd k : ℕ) (sends : List (ℕ × ℕ × ℕ)) : List (ℕ × ℕ) :=
  (sends.filter fun position => position.2.2 = csd &&
    needed s csd k (position.1, position.2.1)).map
      fun position => (position.1, position.2.1)

/-- The flags of a device. -/
structure Flags (csd k : ℕ) (sends : List (ℕ × ℕ × ℕ)) (held : List ℕ)
    (mem : Hmb) (dev : Device) : Prop where
  done1_iff : ∀ r < s.numPartitions, ∀ c < s.numPartitions,
    (mem.done1 (blockId s.numPartitions csd r c) = true ↔
      (r, c) ∈ dev.ran false k ∨ carried s csd k (r, c) = true ∨
        (sendable s csd k (r, c) = false ∧ (r, c, csd) ∉ sends))
  done2_iff : ∀ r < s.numPartitions, ∀ c < s.numPartitions,
    (mem.done2 (blockId s.numPartitions csd r c) = true ↔
      (r, c) ∈ dev.ran true (k + 1))
  barrier_iff : mem.donePartition (barrierId s.numPartitions csd) = true ↔
    dev.worker = .barrier (marker s csd dev.copies) ∧
      (dev.copies = k ∨ csd ∈ held)
  held_copies : csd ∈ held → dev.copies + 1 = k ∧
    dev.worker = .barrier (marker s csd dev.copies)

structure Inv (st : State) : Prop where
  devices : ∀ csd < s.numCsds, DeviceInv s csd st.iter (st.devices csd)
    (unsent s csd st.iter (st.host.sends s st.iter))
  flags : ∀ csd < s.numCsds, Flags s csd st.iter (st.host.sends s st.iter)
    st.host.held st.mem (st.devices csd)
  columns_iff : ∀ c < s.numPartitions, st.mem.donePartition c = true ↔
    c ∉ st.host.columns s st.iter
  timely : st.host.Timely s st.iter
  iter_le : st.iter ≤ s.numIters
  columns_suffix : st.host.columns s st.iter <:+ columnOrder s st.iter
  sends_suffix : st.host.sends s st.iter <:+ sendTodo s st.iter
  held_sublist : st.host.held.Sublist (List.range s.numCsds)

end Invariant

section Lemmas

variable {s : Setup} {csd k : ℕ}

/-- At the start of the send loop the whole plan is to be sent. -/
theorem unsent_sendTodo (hcsd : csd < s.numCsds) :
    unsent s csd k (sendTodo s k) = normals s csd k := by
  have hrange : (List.range s.numCsds).filter (· = csd) = [csd] := by
    rw [List.filter_eq, List.nodup_range.count, if_pos (by simpa using hcsd)]
    rfl
  simp only [unsent, sendTodo, normals]
  induction sendOrder s k with
  | nil => rfl
  | cons block rest ih =>
      rw [List.flatMap_cons, List.filter_append, List.map_append, ih,
        List.filter_map, List.map_map]
      by_cases hneeded : needed s csd k block = true
      · rw [List.filter_cons_of_pos hneeded]
        have hone : (List.range s.numCsds).filter ((fun position :
            ℕ × ℕ × ℕ => decide (position.2.2 = csd) &&
              needed s csd k (position.1, position.2.1)) ∘
              fun csd => (block.1, block.2, csd)) = [csd] := by
          rw [← hrange]
          apply List.filter_congr
          intro other _
          simp [hneeded]
        rw [hone]
        rfl
      · rw [List.filter_cons_of_neg hneeded]
        have hnone : (List.range s.numCsds).filter ((fun position :
            ℕ × ℕ × ℕ => decide (position.2.2 = csd) &&
              needed s csd k (position.1, position.2.1)) ∘
              fun csd => (block.1, block.2, csd)) = [] := by
          rw [List.filter_eq_nil_iff]
          intro other _
          simp [hneeded]
        rw [hnone]
        rfl

/-- The flags of a device are the same in two states of the memory. -/
structure SameFlags (s : Setup) (csd : ℕ) (mem mem' : Hmb) : Prop where
  done1_eq : ∀ r < s.numPartitions, ∀ c < s.numPartitions,
    mem'.done1 (blockId s.numPartitions csd r c) =
      mem.done1 (blockId s.numPartitions csd r c)
  done2_eq : ∀ r < s.numPartitions, ∀ c < s.numPartitions,
    mem'.done2 (blockId s.numPartitions csd r c) =
      mem.done2 (blockId s.numPartitions csd r c)
  barrier_eq : mem'.donePartition (barrierId s.numPartitions csd) =
    mem.donePartition (barrierId s.numPartitions csd)

theorem SameFlags.refl (s : Setup) (csd : ℕ) (mem : Hmb) :
    SameFlags s csd mem mem :=
  ⟨fun _ _ _ _ => rfl, fun _ _ _ _ => rfl, rfl⟩

theorem Flags.congr {sends : List (ℕ × ℕ × ℕ)} {held : List ℕ}
    {mem mem' : Hmb} {dev : Device} (h : Flags s csd k sends held mem dev)
    (hsame : SameFlags s csd mem mem') :
    Flags s csd k sends held mem' dev where
  done1_iff := by
    intro r hr c hc
    rw [hsame.done1_eq r hr c hc]
    exact h.done1_iff r hr c hc
  done2_iff := by
    intro r hr c hc
    rw [hsame.done2_eq r hr c hc]
    exact h.done2_iff r hr c hc
  barrier_iff := by
    rw [hsame.barrier_eq]
    exact h.barrier_iff
  held_copies := h.held_copies

/-- A device changes its own state, and its own flags at most. -/
theorem Inv.updateDevice {st : State} (h : Inv s st) {dev' : Device}
    {mem' : Hmb} (hdev : DeviceInv s csd st.iter dev'
      (unsent s csd st.iter (st.host.sends s st.iter)))
    (hflags : Flags s csd st.iter (st.host.sends s st.iter) st.host.held mem'
      dev')
    (hothers : ∀ other, other ≠ csd → SameFlags s other st.mem mem')
    (hcolumns : ∀ c < s.numPartitions,
      mem'.donePartition c = st.mem.donePartition c) :
    Inv s ({ st with mem := mem' }.setDevice csd dev') where
  devices := by
    intro other hother
    by_cases heq : other = csd
    · subst heq
      simp only [State.setDevice, update_self]
      exact hdev
    · simp only [State.setDevice, update_of_ne heq]
      exact h.devices other hother
  flags := by
    intro other hother
    by_cases heq : other = csd
    · subst heq
      simp only [State.setDevice, update_self]
      exact hflags
    · simp only [State.setDevice, update_of_ne heq]
      exact (h.flags other hother).congr (hothers other heq)
  columns_iff := by
    intro c hc
    simp only [State.setDevice, hcolumns c hc]
    exact h.columns_iff c hc
  timely := h.timely
  iter_le := h.iter_le
  columns_suffix := h.columns_suffix
  sends_suffix := h.sends_suffix
  held_sublist := h.held_sublist

/-- A device changes its own state away from the barrier. -/
theorem Inv.updateAway {st : State} (h : Inv s st) (hcsd : csd < s.numCsds)
    {dev' : Device} {mem' : Hmb}
    (hdev : DeviceInv s csd st.iter dev'
      (unsent s csd st.iter (st.host.sends s st.iter)))
    (hran : ∀ f iter, dev'.ran f iter = (st.devices csd).ran f iter)
    (haway : ∀ task, (st.devices csd).worker ≠ .barrier task)
    (haway' : ∀ task, dev'.worker ≠ .barrier task)
    (hsame : ∀ other, SameFlags s other st.mem mem')
    (hcolumns : ∀ c < s.numPartitions,
      mem'.donePartition c = st.mem.donePartition c) :
    Inv s ({ st with mem := mem' }.setDevice csd dev') := by
  have hflags := (h.flags csd hcsd).congr (hsame csd)
  refine h.updateDevice hdev ⟨?_, ?_, ?_, ?_⟩ (fun other _ => hsame other)
    hcolumns
  · simp only [hran]
    exact hflags.done1_iff
  · simp only [hran]
    exact hflags.done2_iff
  · rw [hflags.barrier_iff]
    simp [haway, haway']
  · intro hheld
    exact absurd (hflags.held_copies hheld).2 (haway _)

end Lemmas

end NvmeVirt.DualQueue
