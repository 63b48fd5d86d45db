import NvmeVirt.DualQueue.QueueMemory

/-!
# Runs of the task queues

Every interleaving of calls acts on the queues as the list operations do, one
after the other in the order in which the calls take effect, and every call
returns what the list operation returns.
-/

namespace NvmeVirt.DualQueue.TaskQueues

open Function RingList Linearization NvmeVirt.Csd

/-- A call at this place has the lock of the queue. -/
def holds (q : Queue) : Pc → Bool
  | .seek q' _ _ => q' = q
  | .scan q' _ _ _ _ => q' = q
  | .swap => q = .normal
  | _ => false

/-- Only the consumer gets to this place. -/
def consumes : Pc → Bool
  | .idle => false
  | .link _ _ _ => false
  | .seek _ _ _ => false
  | _ => true

/-- The result of a call that has taken effect and not returned yet. -/
def pending (task : ℕ → ProcEdge) : Pc → List Result
  | .fetch node _ => [.task (some (task node))]
  | _ => []

/-- What a call knows at this place. -/
def Position (layout : Layout) (nodes : Queue → List ℕ) (task : ℕ → ProcEdge) :
    Pc → Prop
  | .link _ node written => task node = written
  | .unlink q => nodes q ≠ []
  | .peek q _ => nodes q ≠ []
  | .choose q _ _ => nodes q ≠ []
  | .fetch node false => ∃ q, node ∈ nodes q
  | .seek q wanted cell => ∃ front back, nodes q = front ++ back ∧
      cell = back.headD (layout.head q) ∧
      ∀ node ∈ front, sameBlock (task node) wanted = false
  | .scan q rowOverlap _ cell reads => (rowOverlap = 1 ∨ rowOverlap = 2) ∧
      ∃ front back, visits rowOverlap (nodes q) = front ++ back ∧
        cell = back.headD (layout.head q) ∧
        reads = List.replicate front.length false
  | _ => True

/-- The tasks in the queues. -/
def tasksOf (task : ℕ → ProcEdge) (nodes : Queue → List ℕ) : Lists :=
  fun q => (nodes q).map task

def noTasks : Lists := fun _ => []

variable {Party : Type}

/-- The places of the parties, and the locks. -/
structure Places (layout : Layout) (consumer : Party) (st : State Party)
    (nodes : Queue → List ℕ) : Prop where
  lock : ∀ p q, holds q (st.pc p) = true → st.lock q = some p
  consumer : ∀ p, consumes (st.pc p) = true → p = consumer
  position : ∀ p, Position layout nodes st.task (st.pc p)

section Record

variable [DecidableEq Party]

/-- The calls so far account for the tasks in the queues and for what the
parties have got. -/
structure Record (st : State Party) (nodes : Queue → List ℕ) : Prop where
  lists : tasksOf st.task nodes = objectAfter applyCall noTasks st.linearized
  results : ∀ p, resultsOf applyCall p noTasks st.linearized =
    st.returned p ++ pending st.task (st.pc p)
  possible : ∀ p, .impossible ∉ resultsOf applyCall p noTasks st.linearized

def Inv (layout : Layout) (consumer : Party) (st : State Party) : Prop :=
  ∃ nodes owner, Memory layout st nodes owner ∧
    Places layout consumer st nodes ∧ Record st nodes

end Record

variable {layout : Layout} {consumer p : Party} {st st' : State Party}
  {nodes nodes' : Queue → List ℕ} {owner : ℕ → Option (Owner Party)}
  {q : Queue}

/-- What a call knows is not lost while the tasks stay, its queue stays if it
has the lock, and nodes are only added if it is one of the consumer. -/
theorem Position.frame {task task' : ℕ → ProcEdge} {pc : Pc}
    (hposition : Position layout nodes task pc)
    (htask : ∀ q, ∀ node ∈ nodes q, task' node = task node)
    (hheld : ∀ node, held pc = some node → task' node = task node)
    (hlocked : ∀ q, holds q pc = true → nodes' q = nodes q)
    (hgrow : consumes pc = true → ∀ q, nodes q ⊆ nodes' q) :
    Position layout nodes' task' pc := by
  have hne : consumes pc = true → ∀ q, nodes q ≠ [] → nodes' q ≠ [] :=
    fun hconsumes q hnodes hnil => hnodes (List.eq_nil_iff_forall_not_mem.mpr
      fun node hnode => by simpa [hnil] using hgrow hconsumes q hnode)
  cases pc with
  | idle => trivial
  | link q node written => exact (hheld node rfl).trans hposition
  | unlink q => exact hne rfl q hposition
  | peek q last => exact hne rfl q hposition
  | choose q rowOverlap isDequeue => exact hne rfl q hposition
  | swap => trivial
  | fetch node free =>
      cases free with
      | true => trivial
      | false =>
          obtain ⟨q, hnode⟩ := hposition
          exact ⟨q, hgrow rfl q hnode⟩
  | seek q wanted cell =>
      obtain ⟨front, back, hnodes, hcell, hfront⟩ := hposition
      refine ⟨front, back, ?_, hcell, fun node hnode => ?_⟩
      · rw [hlocked q (decide_eq_true rfl), hnodes]
      · rw [htask q node (by simp [hnodes, hnode])]
        exact hfront node hnode
  | scan q rowOverlap isDequeue cell reads =>
      obtain ⟨hoverlap, front, back, hnodes, hrest⟩ := hposition
      refine ⟨hoverlap, front, back, ?_, hrest⟩
      rw [hlocked q (decide_eq_true rfl), hnodes]

/-- A step of one party, seen from the places of the parties. -/
theorem Places.turn (hplaces : Places layout consumer st nodes)
    (hmem : Memory layout st nodes owner)
    (hothers : ∀ p', p' ≠ p → st'.pc p' = st.pc p')
    (htask : ∀ node ∈ st.allocated, st'.task node = st.task node)
    (hlock : ∀ p', p' ≠ p → ∀ q, st.lock q = some p' → st'.lock q = some p')
    (hlocked : ∀ p', p' ≠ p → ∀ q, st.lock q = some p' → nodes' q = nodes q)
    (hgrow : p = consumer ∨ ∀ q, nodes q ⊆ nodes' q)
    (hholds : ∀ q, holds q (st'.pc p) = true → st'.lock q = some p)
    (hconsumer : consumes (st'.pc p) = true → p = consumer)
    (hposition : Position layout nodes' st'.task (st'.pc p)) :
    Places layout consumer st' nodes' := by
  refine ⟨fun p' q hp' => ?_, fun p' hp' => ?_, fun p' => ?_⟩
  · rcases eq_or_ne p' p with rfl | hne
    · exact hholds q hp'
    · rw [hothers p' hne] at hp'
      exact hlock p' hne q (hplaces.lock p' q hp')
  · rcases eq_or_ne p' p with rfl | hne
    · exact hconsumer hp'
    · rw [hothers p' hne] at hp'
      exact hplaces.consumer p' hp'
  · rcases eq_or_ne p' p with rfl | hne
    · exact hposition
    · rw [hothers p' hne]
      refine (hplaces.position p').frame
        (fun q node hnode => htask node (hmem.mem_allocated hnode))
        (fun node hnode => htask node (hmem.held_allocated hnode))
        (fun q hq => hlocked p' hne q (hplaces.lock p' q hq))
        (fun hconsumes => ?_)
      exact hgrow.resolve_left fun heq =>
        hne ((hplaces.consumer p' hconsumes).trans heq.symm)

/-- The pending result of a party does not depend on the others. -/
theorem Memory.pending_eq (hmem : Memory layout st nodes owner)
    (hplaces : Places layout consumer st nodes)
    (htask : ∀ node ∈ st.allocated, st'.task node = st.task node) (p : Party) :
    pending st'.task (st.pc p) = pending st.task (st.pc p) := by
  have hposition := hplaces.position p
  cases hpc : st.pc p with
  | fetch node free =>
      rw [hpc] at hposition
      have hnode : node ∈ st.allocated := by
        cases free with
        | true => exact hmem.held_allocated (congrArg held hpc)
        | false =>
            obtain ⟨q, hnode⟩ := hposition
            exact hmem.mem_allocated hnode
      rw [pending, pending, htask node hnode]
  | _ => rfl

theorem tasksOf_congr {task task' : ℕ → ProcEdge}
    (htask : ∀ q, ∀ node ∈ nodes q, task' node = task node) :
    tasksOf task' nodes = tasksOf task nodes := by
  funext q
  exact List.map_congr_left (htask q)

variable [DecidableEq Party]

/-- What the step of a party that then stands at `pc` does to the record: it has
no effect on the lists, or it is the step at which a call takes effect. -/
inductive Recorded (st st' : State Party) (nodes nodes' : Queue → List ℕ)
    (p : Party) (pc : Pc) : Prop
  | quiet (hlinearized : st'.linearized = st.linearized)
      (hlists : tasksOf st'.task nodes' = tasksOf st.task nodes)
      (hresult : st'.returned p ++ pending st'.task pc =
        st.returned p ++ pending st.task (st.pc p))
  | effect (call : Call)
      (hlinearized : st'.linearized = st.linearized ++ [(p, call)])
      (hlists : tasksOf st'.task nodes' =
        (applyCall (tasksOf st.task nodes) call).1)
      (hresult : st'.returned p ++ pending st'.task pc =
        st.returned p ++ pending st.task (st.pc p) ++
          [(applyCall (tasksOf st.task nodes) call).2])
      (hpossible : (applyCall (tasksOf st.task nodes) call).2 ≠ .impossible)

theorem Record.turn (hrecord : Record st nodes) {pc : Pc}
    (hpc : st'.pc p = pc)
    (hothers : ∀ p', p' ≠ p →
      st'.returned p' ++ pending st'.task (st'.pc p') =
        st.returned p' ++ pending st.task (st.pc p'))
    (hrecorded : Recorded st st' nodes nodes' p pc) : Record st' nodes' := by
  subst hpc
  cases hrecorded with
  | quiet hlinearized hlists hresult =>
      refine ⟨?_, fun p' => ?_, by rw [hlinearized]; exact hrecord.possible⟩
      · rw [hlists, hlinearized, hrecord.lists]
      · rw [hlinearized, hrecord.results]
        rcases eq_or_ne p' p with rfl | hne
        · exact hresult.symm
        · exact (hothers p' hne).symm
  | effect call hlinearized hlists hresult hpossible =>
      refine ⟨?_, fun p' => ?_, fun p' => ?_⟩
      · rw [hlists, hlinearized, objectAfter_concat, hrecord.lists]
      · rw [hlinearized, resultsOf_concat, hrecord.results, ← hrecord.lists]
        rcases eq_or_ne p' p with rfl | hne
        · rw [if_pos rfl, hresult]
        · rw [if_neg hne.symm, List.append_nil, hothers p' hne]
      · rw [hlinearized, resultsOf_concat, ← hrecord.lists, List.mem_append]
        refine not_or.mpr ⟨hrecord.possible p', ?_⟩
        split
        · simpa using hpossible.symm
        · exact List.not_mem_nil

/-- A step of one party. -/
theorem Inv.turn {owner' : ℕ → Option (Owner Party)} {pc : Pc}
    (hmem : Memory layout st nodes owner)
    (hplaces : Places layout consumer st nodes) (hrecord : Record st nodes)
    (hmem' : Memory layout st' nodes' owner')
    (hpc : st'.pc = update st.pc p pc)
    (htask : ∀ node ∈ st.allocated, st'.task node = st.task node)
    (hreturned : ∀ p', p' ≠ p → st'.returned p' = st.returned p')
    (hlock : ∀ p', p' ≠ p → ∀ q, st.lock q = some p' →
      st'.lock q = some p' ∧ nodes' q = nodes q)
    (hgrow : p = consumer ∨ ∀ q, nodes q ⊆ nodes' q)
    (hholds : ∀ q, holds q pc = true → st'.lock q = some p)
    (hconsumer : consumes pc = true → p = consumer)
    (hposition : Position layout nodes' st'.task pc)
    (hrecorded : Recorded st st' nodes nodes' p pc) :
    Inv layout consumer st' := by
  have hself : st'.pc p = pc := by rw [hpc, update_self]
  have hothers : ∀ p', p' ≠ p → st'.pc p' = st.pc p' := fun p' hne => by
    rw [hpc, update_of_ne hne]
  refine ⟨nodes', owner', hmem', ?_, ?_⟩
  · exact hplaces.turn hmem hothers htask
      (fun p' hne q hq => (hlock p' hne q hq).1)
      (fun p' hne q hq => (hlock p' hne q hq).2) hgrow
      (by rwa [hself]) (by rwa [hself]) (by rwa [hself])
  · refine hrecord.turn hself (fun p' hne => ?_) hrecorded
    rw [hreturned p' hne, hothers p' hne, hmem.pending_eq hplaces htask]

/-- A step that leaves the nodes alone. -/
theorem Inv.quiet {pc : Pc} (hmem : Memory layout st nodes owner)
    (hplaces : Places layout consumer st nodes) (hrecord : Record st nodes)
    (hcells : st'.cells = st.cells) (hsize : st'.size = st.size)
    (hallocated : st'.allocated = st.allocated) (hfault : st'.fault = st.fault)
    (htask : st'.task = st.task) (hpc : st'.pc = update st.pc p pc)
    (hreturned : ∀ p', p' ≠ p → st'.returned p' = st.returned p')
    (hlock : ∀ p', p' ≠ p → ∀ q, st.lock q = some p' → st'.lock q = some p')
    (hheld : held pc = held (st.pc p))
    (hholds : ∀ q, holds q pc = true → st'.lock q = some p)
    (hconsumer : consumes pc = true → p = consumer)
    (hposition : Position layout nodes st.task pc)
    (hrecorded : Recorded st st' nodes nodes p pc) :
    Inv layout consumer st' := by
  have hmem' : Memory layout st' nodes owner := by
    refine hmem.keep hcells hsize hallocated hfault fun p' => ?_
    rcases eq_or_ne p' p with rfl | hne
    · rw [hpc, update_self, hheld]
    · rw [hpc, update_of_ne hne]
  exact Inv.turn hmem hplaces hrecord hmem' hpc (fun node _ => by rw [htask])
    hreturned (fun p' hne q hq => ⟨hlock p' hne q hq, rfl⟩)
    (Or.inr fun q => List.Subset.refl _) hholds hconsumer (htask ▸ hposition)
    hrecorded

/-! ## Entering a call -/

/-- A call that returns at once. -/
theorem Inv.immediate (hmem : Memory layout st nodes owner)
    (hplaces : Places layout consumer st nodes) (hrecord : Record st nodes)
    (hidle : st.pc p = .idle) {call : Call} {result : Result}
    (hcall : applyCall (tasksOf st.task nodes) call =
      (tasksOf st.task nodes, result)) (hresult : result ≠ .impossible) :
    Inv layout consumer ((st.linearize p call).answer p result) := by
  refine Inv.quiet hmem hplaces hrecord rfl rfl rfl rfl rfl rfl
    (fun p' hne => update_of_ne hne ..) (fun _ _ _ hlock => hlock)
    (by rw [hidle]) (fun _ => by simp [holds]) (by simp [consumes]) trivial
    (.effect call rfl (congrArg Prod.fst hcall).symm ?_ (by rwa [hcall]))
  rw [hidle, hcall]
  simp [State.answer, State.linearize, pending]

/-- A call that goes on without the lock. -/
theorem Inv.proceed (hmem : Memory layout st nodes owner)
    (hplaces : Places layout consumer st nodes) (hrecord : Record st nodes)
    (hidle : st.pc p = .idle) {pc : Pc} (hheld : held pc = none)
    (hholds : ∀ q, holds q pc = false) (hconsumer : p = consumer)
    (hpending : pending st.task pc = [])
    (hposition : Position layout nodes st.task pc) :
    Inv layout consumer (st.goto p pc) := by
  refine Inv.quiet hmem hplaces hrecord rfl rfl rfl rfl rfl rfl
    (fun p' hne => rfl) (fun _ _ _ hlock => hlock) (by rw [hidle, hheld]; rfl)
    (fun q hq => absurd hq (by simp [hholds])) (fun _ => hconsumer) hposition
    (.quiet rfl rfl ?_)
  rw [hidle, State.goto, hpending]
  rfl

/-- A call that takes the lock of a queue. -/
theorem Inv.lockQueue (hmem : Memory layout st nodes owner)
    (hplaces : Places layout consumer st nodes) (hrecord : Record st nodes)
    (hpc : held (st.pc p) = none) (hpending : pending st.task (st.pc p) = [])
    (hfree : st.lock q = none) {pc : Pc} (hheld : held pc = none)
    (hholds : ∀ q', holds q' pc = true → q' = q)
    (hconsumer : consumes pc = true → p = consumer)
    (hpending' : pending st.task pc = [])
    (hposition : Position layout nodes st.task pc) :
    Inv layout consumer ((st.acquire p q).goto p pc) := by
  refine Inv.quiet hmem hplaces hrecord rfl rfl rfl rfl rfl rfl
    (fun p' hne => rfl) (fun p' hne q' hlock => ?_) (hheld.trans hpc.symm)
    (fun q' hq' => ?_) hconsumer hposition (.quiet rfl rfl ?_)
  · have hq' : q' ≠ q := by
      rintro rfl
      simp [hfree] at hlock
    exact (update_of_ne hq' ..).trans hlock
  · rw [hholds q' hq']
    exact update_self ..
  · rw [hpending]
    change st.returned p ++ pending st.task pc = _
    rw [hpending']

theorem scanned_nil (rowOverlap : ℕ) : Scanned rowOverlap 0 [] := by
  rw [Scanned]
  split
  · exact Or.inl rfl
  · rfl

/-- There is nothing to find in an empty queue. -/
theorem findNext_nil {lists : Lists} (hlists : lists q = []) (rowOverlap : ℕ)
    (isDequeue : Bool) :
    applyCall lists (.findNext q rowOverlap isDequeue []) =
      (lists, .task none) := by
  have hscanned : Scanned rowOverlap (lists q).length [] := by
    rw [hlists]
    exact scanned_nil rowOverlap
  rw [applyCall, if_pos hscanned]
  split
  case h_1 => rfl
  case h_2 i hi =>
    rw [hlists, List.eraseIdx_nil, ← hlists, update_eq_self, ite_self, hlists]
    rfl

/-- The allocation of a new node. -/
theorem Inv.allocate (hmem : Memory layout st nodes owner)
    (hplaces : Places layout consumer st nodes) (hrecord : Record st nodes)
    (hidle : st.pc p = .idle) {node : ℕ} (task : ProcEdge)
    (hfresh : fresh layout st node = true) :
    Inv layout consumer ({ st with
      task := update st.task node task
      allocated := insert node st.allocated }.goto p (.link q node task)) := by
  have hnew : node ∉ st.allocated := by
    intro hnode
    rw [fresh, Memory.accessible_allocated hnode] at hfresh
    simp at hfresh
  have htask : ∀ n ∈ st.allocated, update st.task node task n = st.task n :=
    fun n hn => update_of_ne (ne_of_mem_of_not_mem hn hnew) ..
  refine Inv.turn hmem hplaces hrecord
    (hmem.alloc hfresh rfl rfl rfl rfl (fun p' hne => update_of_ne hne ..)
      (by rw [hidle]; rfl) (by simp [State.goto, held]))
    rfl htask (fun p' hne => rfl) (fun p' _ q hlock => ⟨hlock, rfl⟩)
    (Or.inr fun q => List.Subset.refl _) (fun q hq => by simp [holds] at hq)
    (fun hq => by simp [consumes] at hq) (update_self ..) (.quiet rfl ?_ ?_)
  · exact tasksOf_congr fun q n hn => htask n (hmem.mem_allocated hn)
  · rw [hidle]
    rfl

theorem Inv.enter {op : Op} (hinv : Inv layout consumer st)
    (hidle : st.pc p = .idle)
    (hstep : enter layout consumer p st op = some st') :
    Inv layout consumer st' := by
  obtain ⟨nodes, owner, hmem, hplaces, hrecord⟩ := hinv
  have hempty : ∀ q, st.cells.listEmpty (layout.head q) = true →
      tasksOf st.task nodes q = [] := fun q hq => by
    rw [tasksOf, (hmem.ring q).listEmpty_iff.mp hq]
    rfl
  have hne : ∀ q, ¬st.cells.listEmpty (layout.head q) = true → nodes q ≠ [] :=
    fun q hq hnil => hq ((hmem.ring q).listEmpty_iff.mpr hnil)
  cases op with
  | enqueue q task node =>
      cases node with
      | none =>
          cases hstep
          exact Inv.immediate hmem hplaces hrecord hidle rfl (by simp)
      | some node =>
          rw [TaskQueues.enter] at hstep
          split at hstep
          case isTrue hfresh =>
            cases hstep
            exact Inv.allocate hmem hplaces hrecord hidle task hfresh
          case isFalse => simp at hstep
  | dequeue q =>
      rw [TaskQueues.enter] at hstep
      split_ifs at hstep with hp hq
      · cases hstep
        refine Inv.immediate hmem hplaces hrecord hidle ?_ (by simp)
        rw [applyCall, hempty q hq, List.tail_nil, ← hempty q hq,
          update_eq_self, hempty q hq]
        rfl
      · cases hstep
        exact Inv.proceed hmem hplaces hrecord hidle rfl (fun _ => rfl)
          (not_not.mp hp) rfl (hne q hq)
  | front q =>
      rw [TaskQueues.enter] at hstep
      split_ifs at hstep with hp hq
      · cases hstep
        refine Inv.immediate hmem hplaces hrecord hidle ?_ (by simp)
        rw [applyCall, hempty q hq]
        rfl
      · cases hstep
        exact Inv.proceed hmem hplaces hrecord hidle rfl (fun _ => rfl)
          (not_not.mp hp) rfl (hne q hq)
  | back q =>
      rw [TaskQueues.enter] at hstep
      split_ifs at hstep with hp hq
      · cases hstep
        refine Inv.immediate hmem hplaces hrecord hidle ?_ (by simp)
        rw [applyCall, hempty q hq]
        rfl
      · cases hstep
        exact Inv.proceed hmem hplaces hrecord hidle rfl (fun _ => rfl)
          (not_not.mp hp) rfl (hne q hq)
  | size q =>
      rw [TaskQueues.enter] at hstep
      split_ifs at hstep with hq
      cases hstep
      refine Inv.immediate hmem hplaces hrecord hidle ?_ (by simp)
      rw [applyCall, hmem.size, tasksOf, List.length_map]
  | swap =>
      rw [TaskQueues.enter] at hstep
      split_ifs at hstep with hp
      cases hstep
      rw [not_or, not_not, not_not] at hp
      exact Inv.lockQueue hmem hplaces hrecord (by rw [hidle]; rfl)
        (by rw [hidle]; rfl) hp.2 rfl (fun q' hq' => of_decide_eq_true hq')
        (fun _ => hp.1) rfl trivial
  | find q task =>
      rw [TaskQueues.enter] at hstep
      split_ifs at hstep with hq
      cases hstep
      refine Inv.lockQueue hmem hplaces hrecord (by rw [hidle]; rfl)
        (by rw [hidle]; rfl) hq rfl (fun q' hq' => (of_decide_eq_true hq').symm)
        (by simp [consumes]) rfl
        ⟨[], nodes q, rfl, (hmem.ring q).next_head, by simp⟩
  | findNext q rowOverlap isDequeue =>
      rw [TaskQueues.enter] at hstep
      split_ifs at hstep with hp hq
      · cases hstep
        have hnil : nodes q = [] := by
          rw [hmem.size, Nat.cast_eq_zero] at hq
          exact List.length_eq_zero_iff.mp hq
        refine Inv.immediate hmem hplaces hrecord hidle
          (findNext_nil ?_ rowOverlap isDequeue) (by simp)
        rw [tasksOf, hnil]
        rfl
      · cases hstep
        rw [not_or, not_not, not_not] at hp
        refine Inv.proceed hmem hplaces hrecord hidle rfl (fun _ => rfl)
          hp.1 rfl (fun hnil => hq ?_)
        rw [hmem.size, hnil]
        rfl

/-! ## Going on with a call -/

theorem tasksOf_update (task : ℕ → ProcEdge) (nodes : Queue → List ℕ)
    (q : Queue) (entries : List ℕ) :
    tasksOf task (update nodes q entries) =
      update (tasksOf task nodes) q (entries.map task) := by
  funext q'
  rcases eq_or_ne q' q with rfl | hne
  · rw [tasksOf, update_self, update_self]
  · rw [tasksOf, update_of_ne hne, update_of_ne hne]
    rfl

/-- What a loop over a queue has still to visit. -/
theorem eq_cons_of_ne {cell head : ℕ} {back : List ℕ}
    (hcell : cell = back.headD head) (hne : cell ≠ head) :
    ∃ rest, back = cell :: rest := by
  cases back with
  | nil => exact absurd hcell hne
  | cons entry rest => exact ⟨rest, by rw [hcell]; rfl⟩

/-- `find_next_future_task` at the position it has found. -/
theorem findNext_index {lists : Lists} {rowOverlap : ℕ} {reads : List Bool}
    {front back : List ProcEdge} {task : ProcEdge}
    (hlists : lists q = front ++ task :: back)
    (hscanned : Scanned rowOverlap (lists q).length reads)
    (hindex : nextIndex rowOverlap reads (lists q).length = some front.length)
    (isDequeue : Bool) :
    applyCall lists (.findNext q rowOverlap isDequeue reads) =
      (if isDequeue then update lists q (front ++ back) else lists,
        .task (some task)) := by
  rw [applyCall, if_pos hscanned, hindex]
  simp [hlists, List.eraseIdx_append_of_length_le]

/-- The end of `find_next_future_task` with a task. -/
theorem Inv.take {node : ℕ} {front back : List ℕ}
    {lock : Queue → Option Party} {call : Call} {isDequeue : Bool}
    (hmem : Memory layout st nodes owner)
    (hplaces : Places layout consumer st nodes) (hrecord : Record st nodes)
    (hheld : held (st.pc p) = none) (hpending : pending st.task (st.pc p) = [])
    (hconsumer : p = consumer) (hnodes : nodes q = front ++ node :: back)
    (hlock : ∀ p', p' ≠ p → ∀ q', st.lock q' = some p' →
      lock q' = some p' ∧ q' ≠ q)
    (hcall : applyCall (tasksOf st.task nodes) call =
      (if isDequeue then
          update (tasksOf st.task nodes) q ((front ++ back).map st.task)
        else tasksOf st.task nodes,
        .task (some (st.task node)))) :
    Inv layout consumer ((({ st with lock } : State Party).linearize p
      call).takeNode layout p q node isDequeue) := by
  set st₁ := ({ st with lock } : State Party).linearize p call with hst₁
  have hmem₁ : Memory layout st₁ nodes owner :=
    hmem.keep rfl rfl rfl rfl fun _ => rfl
  have hlinked : node ∈ nodes q := by simp [hnodes]
  have hnode := hmem.mem_allocated hlinked
  have htouch : st₁.touch layout [node] = st₁ := State.touch_eq
    fun cell hcell => (List.mem_singleton.mp hcell) ▸
      hmem₁.accessible (List.mem_cons_of_mem _ hlinked)
  rw [State.takeNode, htouch]
  cases isDequeue with
  | false =>
      refine Inv.quiet hmem hplaces hrecord rfl rfl rfl rfl rfl rfl
        (fun p' hne => update_of_ne hne ..)
        (fun p' hne q' hq' => (hlock p' hne q' hq').1) hheld.symm
        (fun _ hq => by simp [holds] at hq) (fun _ => hconsumer) trivial
        (.effect call rfl (congrArg Prod.fst hcall).symm ?_
          (by rw [hcall]; simp))
      rw [hcall, hpending]
      simp [State.answer, pending, st₁, State.linearize]
  | true =>
      rw [if_pos rfl, hmem₁.unlinkNode_eq hnodes,
        Memory.free_eq (by exact hnode)]
      refine Inv.turn hmem hplaces hrecord
        (hmem.unlink_free (p := p) hnodes rfl rfl rfl rfl
          (fun p' hne => update_of_ne hne ..) hheld
          (by simp [State.answer, held]))
        rfl (fun _ _ => rfl) (fun p' hne => update_of_ne hne ..)
        (fun p' hne q' hq' => ⟨(hlock p' hne q' hq').1,
          update_of_ne (hlock p' hne q' hq').2 ..⟩) (Or.inl hconsumer)
        (fun _ hq => by simp [holds] at hq) (fun _ => hconsumer) trivial
        (.effect call rfl ?_ ?_ (by rw [hcall]; simp))
      · rw [hcall]
        exact tasksOf_update ..
      · rw [hcall, hpending]
        simp [State.answer, pending, st₁, State.linearize]

/-- `queue_enqueue` links the node. -/
theorem Inv.linkStep {node : ℕ} {task : ProcEdge}
    (hmem : Memory layout st nodes owner)
    (hplaces : Places layout consumer st nodes) (hrecord : Record st nodes)
    (hpc : st.pc p = .link q node task) (hfree : st.lock q = none) :
    Inv layout consumer (((st.linkNode layout q node).linearize p
      (.enqueue q task)).answer p .done) := by
  have hnode : held (st.pc p) = some node := congrArg held hpc
  have hposition := hplaces.position p
  rw [hpc] at hposition
  rw [hmem.linkNode_eq hnode]
  refine Inv.turn hmem hplaces hrecord
    (hmem.link (p := p) hnode rfl rfl rfl rfl
      (fun p' hne => update_of_ne hne ..) (by simp [State.answer, held]))
    rfl (fun _ _ => rfl) (fun p' hne => update_of_ne hne ..)
    (fun p' hne q' hlock => ⟨hlock, update_of_ne (fun heq => ?_) ..⟩)
    (Or.inr fun q' => ?_) (fun _ hq => by simp [holds] at hq)
    (by simp [consumes]) trivial
    (.effect (.enqueue q task) rfl ?_ ?_ (by simp [applyCall]))
  · rw [heq, hfree] at hlock
    simp at hlock
  · rcases eq_or_ne q' q with rfl | hne
    · rw [update_self]
      exact List.subset_append_left _ _
    · rw [update_of_ne hne]
      exact List.Subset.refl _
  · have htask : st.task node = task := hposition
    change tasksOf st.task _ = _
    rw [tasksOf_update, List.map_append, List.map_singleton, htask]
    rfl
  · rw [hpc]
    simp [State.answer, State.linearize, pending, applyCall]

/-- `queue_dequeue` takes out the first node. -/
theorem Inv.unlinkStep (hmem : Memory layout st nodes owner)
    (hplaces : Places layout consumer st nodes) (hrecord : Record st nodes)
    (hpc : st.pc p = .unlink q) (hfree : st.lock q = none) :
    Inv layout consumer (((st.unlinkNode layout q
      (st.endNode layout q false)).linearize p (.dequeue q)).goto p
        (.fetch (st.endNode layout q false) true)) := by
  have hposition := hplaces.position p
  have hconsumer := hplaces.consumer p
  rw [hpc] at hposition hconsumer
  obtain ⟨node, back, hnodes⟩ := List.exists_cons_of_ne_nil hposition
  have hend : st.endNode layout q false = node := by
    refine (hmem.ring q).next_head.trans ?_
    rw [hnodes]
    rfl
  have hlists : tasksOf st.task nodes q = st.task node :: back.map st.task := by
    rw [tasksOf, hnodes, List.map_cons]
  rw [hend, @Memory.unlinkNode_eq Party layout st nodes owner q node [] back
    hmem hnodes]
  refine Inv.turn hmem hplaces hrecord
    (@Memory.unlink Party layout st _ nodes owner p q node [] back hmem hnodes
      rfl rfl rfl rfl (fun p' hne => update_of_ne hne ..) (congrArg held hpc)
      (by simp [State.goto, held]))
    rfl (fun _ _ => rfl) (fun p' hne => rfl)
    (fun p' hne q' hlock => ⟨hlock, update_of_ne (fun heq => ?_) ..⟩)
    (Or.inl (hconsumer rfl)) (fun _ hq => by simp [holds] at hq)
    (fun _ => hconsumer rfl) trivial
    (.effect (.dequeue q) rfl ?_ ?_ (by simp [applyCall]))
  · rw [heq, hfree] at hlock
    simp at hlock
  · change tasksOf st.task _ = _
    rw [tasksOf_update, applyCall, hlists]
    rfl
  · rw [hpc, applyCall, hlists]
    simp [State.goto, State.linearize, pending]

/-- `get_queue_front` and `get_queue_back` look for a node. -/
theorem Inv.peekStep {last : Bool} (hmem : Memory layout st nodes owner)
    (hplaces : Places layout consumer st nodes) (hrecord : Record st nodes)
    (hpc : st.pc p = .peek q last) :
    Inv layout consumer ((st.linearize p
      (if last then .back q else .front q)).goto p
        (.fetch (st.endNode layout q last) false)) := by
  have hposition := hplaces.position p
  have hconsumer := hplaces.consumer p
  rw [hpc] at hposition hconsumer
  have hend : ∃ node ∈ nodes q, st.endNode layout q last = node ∧
      (applyCall (tasksOf st.task nodes)
        (if last then .back q else .front q)).2 =
          .task (some (st.task node)) := by
    cases last with
    | false =>
        obtain ⟨node, back, hnodes⟩ := List.exists_cons_of_ne_nil hposition
        refine ⟨node, by simp [hnodes], (hmem.ring q).next_head.trans ?_, ?_⟩
        · rw [hnodes]
          rfl
        · simp [applyCall, tasksOf, hnodes]
    | true =>
        obtain ⟨front, node, hnodes⟩ :=
          (List.eq_nil_or_concat (nodes q)).resolve_left hposition
        refine ⟨node, by simp [hnodes], (hmem.ring q).prev_head.trans ?_, ?_⟩
        · rw [hnodes, List.concat_eq_append, List.getLastD_concat]
        · simp [applyCall, tasksOf, hnodes]
  obtain ⟨node, hnode, hend, hcall⟩ := hend
  rw [hend]
  refine Inv.quiet hmem hplaces hrecord rfl rfl rfl rfl rfl rfl
    (fun p' hne => rfl) (fun _ _ _ hlock => hlock) (by rw [hpc]; rfl)
    (fun _ hq => by simp [holds] at hq) (fun _ => hconsumer rfl) ⟨q, hnode⟩
    (.effect _ rfl ?_ ?_ (by rw [hcall]; simp))
  · cases last with
    | false => rfl
    | true => rfl
  · rw [hpc, hcall]
    simp [State.goto, State.linearize, pending]

/-- The task of a node is read, and the node of a dequeued task freed. -/
theorem Inv.fetchStep {node : ℕ} {free : Bool}
    (hmem : Memory layout st nodes owner)
    (hplaces : Places layout consumer st nodes) (hrecord : Record st nodes)
    (hpc : st.pc p = .fetch node free) :
    Inv layout consumer ((if free then st.free layout node
      else st.touch layout [node]).answer p
        (.task (some (st.task node)))) := by
  cases free with
  | false =>
      have hposition := hplaces.position p
      rw [hpc] at hposition
      obtain ⟨q, hnode⟩ := hposition
      rw [if_neg (by decide), State.touch_eq]
      · refine Inv.quiet hmem hplaces hrecord rfl rfl rfl rfl rfl rfl
          (fun p' hne => update_of_ne hne ..) (fun _ _ _ hlock => hlock)
          (by rw [hpc]; rfl) (fun _ hq => by simp [holds] at hq)
          (by simp [consumes]) trivial (.quiet rfl rfl ?_)
        rw [hpc]
        simp [State.answer, pending]
      · intro cell hcell
        rw [List.mem_singleton.mp hcell]
        exact hmem.accessible (List.mem_cons_of_mem _ hnode)
  | true =>
      have hnode : held (st.pc p) = some node := congrArg held hpc
      rw [if_pos rfl, Memory.free_eq (hmem.held_allocated hnode)]
      refine Inv.turn hmem hplaces hrecord
        (hmem.free hnode rfl rfl rfl rfl (fun p' hne => update_of_ne hne ..)
          (by simp [State.answer, held]))
        rfl (fun _ _ => rfl) (fun p' hne => update_of_ne hne ..)
        (fun p' _ q hlock => ⟨hlock, rfl⟩)
        (Or.inr fun _ => List.Subset.refl _)
        (fun _ hq => by simp [holds] at hq) (by simp [consumes]) trivial
        (.quiet rfl rfl ?_)
      rw [hpc]
      simp [State.answer, pending]

/-- `queue_swap` exchanges the lists. -/
theorem Inv.swapStep (hmem : Memory layout st nodes owner)
    (hplaces : Places layout consumer st nodes) (hrecord : Record st nodes)
    (hpc : st.pc p = .swap) (hfree : st.lock .future = none) :
    Inv layout consumer ((((st.swapHeads layout).release .normal).linearize p
      .swap).answer p .done) := by
  have hconsumer := hplaces.consumer p
  have hlock := hplaces.lock p .normal
  rw [hpc] at hconsumer hlock
  rw [hmem.swapHeads_eq]
  -- nobody else has one of the two locks
  have hnone : ∀ p', p' ≠ p → ∀ q, st.lock q ≠ some p' := by
    intro p' hne q hq
    cases q with
    | normal => exact hne (Option.some.inj (hq.symm.trans (hlock rfl)))
    | future => simp [hfree] at hq
  refine Inv.turn hmem hplaces hrecord
    (hmem.swap (by rw [hmem.swapHeads_eq]; rfl) rfl rfl rfl fun p' => ?_)
    rfl (fun _ _ => rfl) (fun p' hne => update_of_ne hne ..)
    (fun p' hne q hq => absurd hq (hnone p' hne q)) (Or.inl (hconsumer rfl))
    (fun _ hq => by simp [holds] at hq) (by simp [consumes]) trivial
    (.effect .swap rfl ?_ ?_ (by simp [applyCall]))
  · rcases eq_or_ne p' p with rfl | hne
    · rw [hpc]
      simp [State.answer, held]
    · simp [State.answer, State.linearize, State.release, hne]
  · funext q
    cases q with
    | normal => rfl
    | future => rfl
  · rw [hpc]
    simp [State.answer, State.linearize, State.release, pending, applyCall]

/-- A call that gives the lock back and returns. -/
theorem Inv.releaseQueue {call : Call} {result : Result}
    (hmem : Memory layout st nodes owner)
    (hplaces : Places layout consumer st nodes) (hrecord : Record st nodes)
    (hheld : held (st.pc p) = none) (hpending : pending st.task (st.pc p) = [])
    (hlock : st.lock q = some p)
    (hcall : applyCall (tasksOf st.task nodes) call =
      (tasksOf st.task nodes, result)) (hresult : result ≠ .impossible) :
    Inv layout consumer (((st.release q).linearize p call).answer p
      result) := by
  refine Inv.quiet hmem hplaces hrecord rfl rfl rfl rfl rfl rfl
    (fun p' hne => update_of_ne hne ..)
    (fun p' hne q' hq' => (update_of_ne (fun heq => ?_) ..).trans hq')
    hheld.symm (fun _ hq => by simp [holds] at hq) (by simp [consumes]) trivial
    (.effect call rfl (congrArg Prod.fst hcall).symm ?_ (by rwa [hcall]))
  · rw [heq, hlock] at hq'
    exact hne (Option.some.inj hq').symm
  · rw [hpending, hcall]
    simp [State.answer, State.linearize, State.release, pending]

/-- One more round of a loop under the lock. -/
theorem Inv.nextRound {pc : Pc} (hmem : Memory layout st nodes owner)
    (hplaces : Places layout consumer st nodes) (hrecord : Record st nodes)
    (hheld : held pc = held (st.pc p))
    (hholds : ∀ q, holds q pc = holds q (st.pc p))
    (hconsumes : consumes pc = consumes (st.pc p))
    (hpending : pending st.task pc = pending st.task (st.pc p))
    (hposition : Position layout nodes st.task pc) :
    Inv layout consumer (st.goto p pc) := by
  refine Inv.quiet hmem hplaces hrecord rfl rfl rfl rfl rfl rfl
    (fun p' hne => rfl) (fun _ _ _ hlock => hlock) hheld (fun q hq => ?_)
    (fun hc => hplaces.consumer p (hconsumes ▸ hc)) hposition
    (.quiet rfl rfl (congrArg (st.returned p ++ ·) hpending))
  exact hplaces.lock p q ((hholds q).symm.trans hq)

theorem queueFind_tasksOf (nodes : Queue → List ℕ) (task : ℕ → ProcEdge)
    (q : Queue) (wanted : ProcEdge) :
    queueFind (tasksOf task nodes q) wanted =
      (nodes q).any fun node => sameBlock (task node) wanted := by
  rw [queueFind, tasksOf, List.any_map]
  rfl

/-- A round of the loop of `queue_find`. -/
theorem Inv.seekStep {wanted : ProcEdge} {cell : ℕ} {ready : Bool}
    (hmem : Memory layout st nodes owner)
    (hplaces : Places layout consumer st nodes) (hrecord : Record st nodes)
    (hpc : st.pc p = .seek q wanted cell)
    (hstep : resume layout p st ready = some st') :
    Inv layout consumer st' := by
  have hheld : held (st.pc p) = none := congrArg held hpc
  have hpending : pending st.task (st.pc p) = [] := by rw [hpc]; rfl
  have hlock : st.lock q = some p :=
    hplaces.lock p q (by rw [hpc]; exact decide_eq_true rfl)
  have hposition := hplaces.position p
  rw [hpc] at hposition
  obtain ⟨front, back, hnodes, hcell, hfront⟩ := hposition
  simp only [resume, hpc] at hstep
  split at hstep
  case isTrue hhead =>
    cases hstep
    have hback : back = [] := hmem.eq_nil_of_head
      (fun node hnode => by rw [hnodes]; exact List.mem_append_right _ hnode)
      (hhead ▸ hcell)
    refine Inv.releaseQueue hmem hplaces hrecord hheld hpending hlock ?_
      (by simp)
    have hnone : queueFind (tasksOf st.task nodes q) wanted = false := by
      rw [queueFind_tasksOf, hnodes, hback, List.append_nil,
        List.any_eq_false]
      exact fun node hnode => by simp [hfront node hnode]
    rw [applyCall, hnone]
  case isFalse hhead =>
    obtain ⟨rest, hrest⟩ := eq_cons_of_ne hcell hhead
    rw [hrest] at hnodes
    have hlinked : cell ∈ nodes q := by simp [hnodes]
    have htouch : st.touch layout [cell] = st := State.touch_eq
      fun other hother => (List.mem_singleton.mp hother) ▸
        hmem.accessible (List.mem_cons_of_mem _ hlinked)
    rw [htouch] at hstep
    split at hstep
    case isTrue hsame =>
      cases hstep
      refine Inv.releaseQueue hmem hplaces hrecord hheld hpending hlock ?_
        (by simp)
      have hfound : queueFind (tasksOf st.task nodes q) wanted = true := by
        rw [queueFind_tasksOf, List.any_eq_true]
        exact ⟨cell, hlinked, hsame⟩
      rw [applyCall, hfound]
    case isFalse hsame =>
      cases hstep
      have hring := hmem.ring q
      rw [hnodes] at hring
      refine Inv.nextRound hmem hplaces hrecord (by rw [hpc]; rfl)
        (fun _ => by rw [hpc]; rfl) (by rw [hpc]; rfl) (by rw [hpc]; rfl)
        ⟨front ++ [cell], rest, ?_, hring.next_entry, ?_⟩
      · rw [hnodes, List.append_assoc]
        rfl
      · intro node hnode
        rcases List.mem_append.mp hnode with hnode | hnode
        · exact hfront node hnode
        · rw [List.mem_singleton.mp hnode]
          exact Bool.eq_false_iff.mpr hsame

/-- The start of the search of `find_next_future_task`. -/
theorem Inv.chooseStep {rowOverlap : ℕ} {isDequeue ready : Bool}
    (hmem : Memory layout st nodes owner)
    (hplaces : Places layout consumer st nodes) (hrecord : Record st nodes)
    (hpc : st.pc p = .choose q rowOverlap isDequeue)
    (hstep : resume layout p st ready = some st') :
    Inv layout consumer st' := by
  have hheld : held (st.pc p) = none := congrArg held hpc
  have hpending : pending st.task (st.pc p) = [] := by rw [hpc]; rfl
  have hposition := hplaces.position p
  have hconsumer := hplaces.consumer p
  rw [hpc] at hposition hconsumer
  simp only [resume, hpc] at hstep
  split_ifs at hstep with hlock hoverlap
  · cases hstep
    exact Inv.lockQueue hmem hplaces hrecord hheld hpending (not_not.mp hlock)
      rfl (fun q' hq' => (of_decide_eq_true hq').symm)
      (fun _ => hconsumer rfl) rfl ⟨hoverlap, [],
        visits rowOverlap (nodes q), rfl, hmem.scanLink_head rowOverlap q, rfl⟩
  · cases hstep
    rw [not_not] at hlock
    rw [not_or] at hoverlap
    obtain ⟨node, back, hnodes⟩ := List.exists_cons_of_ne_nil hposition
    have hend : st.endNode layout q false = node := by
      refine (hmem.ring q).next_head.trans ?_
      rw [hnodes]
      rfl
    rw [hend]
    refine @Inv.take Party layout consumer p st nodes owner q _ node [] back
      st.lock _ isDequeue hmem hplaces hrecord hheld hpending (hconsumer rfl)
      hnodes (fun p' _ q' hq' => ⟨hq', fun heq => ?_⟩) ?_
    · rw [heq, hlock] at hq'
      simp at hq'
    · refine @findNext_index q _ rowOverlap [] [] (back.map st.task)
        (st.task node) ?_ ?_ ?_ isDequeue
      · rw [tasksOf, hnodes]
        rfl
      · rw [Scanned, if_neg (not_or.mpr hoverlap)]
      · rw [nextIndex, if_neg hoverlap.1, if_neg hoverlap.2]
        rfl

/-- The first flag that is up. -/
theorem findIdx?_reads (passed : ℕ) :
    (List.replicate passed false ++ [true]).findIdx? id = some passed := by
  induction passed with
  | zero => rfl
  | succ passed ih => simp [List.replicate_succ, List.findIdx?_cons, ih]

theorem length_visits {α : Type} (rowOverlap : ℕ) (queue : List α) :
    (visits rowOverlap queue).length = queue.length := by
  rw [visits]
  split
  · exact List.length_reverse
  · rfl

/-- A search that has passed every task of the queue finds none. -/
theorem findNext_passed {lists : Lists} {rowOverlap : ℕ} {reads : List Bool}
    (hoverlap : rowOverlap = 1 ∨ rowOverlap = 2)
    (hreads : reads = List.replicate (lists q).length false)
    (isDequeue : Bool) :
    applyCall lists (.findNext q rowOverlap isDequeue reads) =
      (lists, .task none) := by
  have hscanned : Scanned rowOverlap (lists q).length reads := by
    rw [Scanned, if_pos hoverlap]
    exact Or.inl hreads
  have hidx : reads.findIdx? id = none := by
    rw [hreads, List.findIdx?_eq_none_iff]
    exact fun flag hflag => (List.mem_replicate.mp hflag).2
  have hnone : nextIndex rowOverlap reads (lists q).length = none := by
    rcases hoverlap with rfl | rfl
    · exact hidx
    · rw [nextIndex, if_neg (by decide), if_pos rfl, hidx]
      rfl
  rw [applyCall, if_pos hscanned, hnone]

/-- A round of the search of `find_next_future_task`. -/
theorem Inv.scanStep {rowOverlap cell : ℕ} {isDequeue ready : Bool}
    {reads : List Bool} (hmem : Memory layout st nodes owner)
    (hplaces : Places layout consumer st nodes) (hrecord : Record st nodes)
    (hpc : st.pc p = .scan q rowOverlap isDequeue cell reads)
    (hstep : resume layout p st ready = some st') :
    Inv layout consumer st' := by
  have hheld : held (st.pc p) = none := congrArg held hpc
  have hpending : pending st.task (st.pc p) = [] := by rw [hpc]; rfl
  have hlock : st.lock q = some p :=
    hplaces.lock p q (by rw [hpc]; exact decide_eq_true rfl)
  have hposition := hplaces.position p
  have hconsumer := hplaces.consumer p
  rw [hpc] at hposition hconsumer
  obtain ⟨hoverlap, front, back, hnodes, hcell, hreads⟩ := hposition
  have hvisits : ∀ node ∈ visits rowOverlap (nodes q), node ∈ nodes q := by
    intro node hnode
    rw [visits] at hnode
    split at hnode
    · exact List.mem_reverse.mp hnode
    · exact hnode
  simp only [resume, hpc] at hstep
  split at hstep
  case isTrue hhead =>
    cases hstep
    refine Inv.releaseQueue hmem hplaces hrecord hheld hpending hlock ?_
      (by simp)
    have hback : back = [] := hmem.eq_nil_of_head
      (fun node hnode => hvisits node (by simp [hnodes, hnode]))
      (hhead ▸ hcell)
    refine findNext_passed hoverlap ?_ isDequeue
    rw [hreads, tasksOf, List.length_map,
      ← length_visits rowOverlap (nodes q), hnodes, hback, List.append_nil]
  case isFalse hhead =>
    obtain ⟨rest, rfl⟩ := eq_cons_of_ne hcell hhead
    have hlinked : cell ∈ nodes q := hvisits cell (by simp [hnodes])
    have htouch : st.touch layout [cell] = st := State.touch_eq
      fun other hother => (List.mem_singleton.mp hother) ▸
        hmem.accessible (List.mem_cons_of_mem _ hlinked)
    rw [htouch] at hstep
    split at hstep
    case isTrue =>
      cases hstep
      have hscanned :
          Scanned rowOverlap (nodes q).length (reads ++ [true]) := by
        rw [Scanned, if_pos hoverlap, ← length_visits rowOverlap (nodes q),
          hnodes]
        exact Or.inr ⟨front.length, by simp, by rw [hreads]⟩
      -- the node splits the queue at the position that the flags give
      have hsplit : ∃ before after, nodes q = before ++ cell :: after ∧
          nextIndex rowOverlap (reads ++ [true]) (nodes q).length =
            some before.length := by
        rw [hreads]
        rcases hoverlap with rfl | rfl
        · exact ⟨front, rest, hnodes, findIdx?_reads _⟩
        · have hreverse : nodes q = rest.reverse ++ cell :: front.reverse := by
            rw [visits, if_pos rfl, List.reverse_eq_iff] at hnodes
            rw [hnodes]
            simp
          refine ⟨rest.reverse, front.reverse, hreverse, ?_⟩
          rw [nextIndex, if_neg (by decide), if_pos rfl, findIdx?_reads,
            Option.map_some, hreverse]
          simp only [List.length_append, List.length_cons, List.length_reverse]
          congr 1
          omega
      obtain ⟨before, after, hnodes, hindex⟩ := hsplit
      refine Inv.take hmem hplaces hrecord hheld hpending (hconsumer rfl)
        hnodes (fun p' hne q' hq' => ?_) ?_
      · have hq : q' ≠ q := by
          rintro rfl
          rw [hlock] at hq'
          exact hne (Option.some.inj hq').symm
        exact ⟨(update_of_ne hq ..).trans hq', hq⟩
      · rw [List.map_append]
        refine findNext_index ?_ ?_ ?_ isDequeue
        · rw [tasksOf, hnodes, List.map_append, List.map_cons]
        · rw [tasksOf, List.length_map]
          exact hscanned
        · rw [tasksOf, List.length_map, List.length_map]
          exact hindex
    case isFalse =>
      cases hstep
      refine Inv.nextRound hmem hplaces hrecord (by rw [hpc]; rfl)
        (fun _ => by rw [hpc]; rfl) (by rw [hpc]; rfl) (by rw [hpc]; rfl)
        ⟨hoverlap, front ++ [cell], rest, ?_, hmem.scanLink_eq hnodes, ?_⟩
      · rw [hnodes, List.append_assoc]
        rfl
      · rw [hreads, List.length_append, List.length_singleton,
          List.replicate_succ']

theorem Inv.resume {ready : Bool} (hinv : Inv layout consumer st)
    (hstep : resume layout p st ready = some st') :
    Inv layout consumer st' := by
  obtain ⟨nodes, owner, hmem, hplaces, hrecord⟩ := hinv
  cases hpc : st.pc p with
  | idle => simp [TaskQueues.resume, hpc] at hstep
  | link q node task =>
      simp only [TaskQueues.resume, hpc] at hstep
      split_ifs at hstep with hfree
      cases hstep
      exact Inv.linkStep hmem hplaces hrecord hpc hfree
  | unlink q =>
      simp only [TaskQueues.resume, hpc] at hstep
      split_ifs at hstep with hfree
      cases hstep
      exact Inv.unlinkStep hmem hplaces hrecord hpc hfree
  | peek q last =>
      simp only [TaskQueues.resume, hpc] at hstep
      by_cases hfree : st.lock q = none
      · rw [if_pos hfree] at hstep
        cases hstep
        exact Inv.peekStep hmem hplaces hrecord hpc
      · rw [if_neg hfree] at hstep
        cases hstep
  | fetch node free =>
      simp only [TaskQueues.resume, hpc] at hstep
      cases hstep
      exact Inv.fetchStep hmem hplaces hrecord hpc
  | swap =>
      simp only [TaskQueues.resume, hpc] at hstep
      split_ifs at hstep with hfree
      cases hstep
      exact Inv.swapStep hmem hplaces hrecord hpc hfree
  | seek q wanted cell => exact Inv.seekStep hmem hplaces hrecord hpc hstep
  | choose q rowOverlap isDequeue =>
      exact Inv.chooseStep hmem hplaces hrecord hpc hstep
  | scan q rowOverlap isDequeue cell reads =>
      exact Inv.scanStep hmem hplaces hrecord hpc hstep

theorem inv_queueInit (layout : Layout) (consumer : Party) (cells : Cells)
    (task : ℕ → ProcEdge) :
    Inv layout consumer (queueInit layout cells task : State Party) := by
  refine ⟨fun _ => [], fun _ => none, ⟨fun q => ?_, fun _ => rfl,
    ⟨fun q node => by simp, fun p node => by simp [queueInit, held],
      fun node => by simp [queueInit]⟩, by simp [queueInit],
    by simp [queueInit], rfl⟩,
    ⟨fun p q hq => by simp [queueInit, holds] at hq,
      fun p hp => by simp [queueInit, consumes] at hp, fun p => trivial⟩,
    ⟨rfl, fun p => rfl, fun p => List.not_mem_nil⟩⟩
  have hne : layout.head .normal ≠ layout.head .future :=
    layout.head_injective.ne (by decide)
  cases q with
  | normal =>
      refine (Ring.init cells (layout.head .normal)).congr ?_ ?_
      · intro cell hcell
        rw [List.mem_singleton.mp hcell]
        exact (Ring.init_frame _ hne).1
      · intro cell hcell
        rw [List.mem_singleton.mp hcell]
        exact (Ring.init_frame _ hne).2
  | future => exact Ring.init _ _

theorem inv_run (layout : Layout) (consumer : Party) (cells : Cells)
    (task : ℕ → ProcEdge) (schedule : List (Action Party)) :
    Inv layout consumer (Interleaving.run (step layout consumer) schedule
      (queueInit layout cells task)) := by
  refine Interleaving.run_invariant_of_meets _ (fun action st st' _ hinv
    hstep => ?_) (inv_queueInit layout consumer cells task)
    (Interleaving.meets_true _ schedule _)
  cases action with
  | call p op =>
      rw [step] at hstep
      split at hstep
      case isTrue hidle => exact hinv.enter hidle hstep
      case isFalse => cases hstep
  | resume p ready => exact hinv.resume hstep

/-- However the calls of the parties interleave, no node is accessed that is not
allocated, the rings in memory hold the tasks that the list operations leave
when they are done one after the other, the allocated nodes are the ones in the
rings and those of unfinished calls, and the parties get the results of the list
operations, in which a search that finds no task has read a flag of every
task. -/
theorem task_queues_linearizable (layout : Layout) (consumer : Party)
    (cells : Cells) (task : ℕ → ProcEdge) (schedule : List (Action Party)) :
    let st := Interleaving.run (step layout consumer) schedule
      (queueInit layout cells task)
    st.fault = false ∧
      (∃ nodes : Queue → List ℕ,
        (∀ q, Ring st.cells (layout.head q) (nodes q) ∧
          st.size q = (nodes q).length ∧
          (nodes q).map st.task =
            objectAfter applyCall noTasks st.linearized q) ∧
        (nodes .normal).Disjoint (nodes .future) ∧
        ∀ node, node ∈ st.allocated ↔
          (∃ q, node ∈ nodes q) ∨ ∃ p, held (st.pc p) = some node) ∧
      ∀ p, resultsOf applyCall p noTasks st.linearized =
          st.returned p ++ pending st.task (st.pc p) ∧
        .impossible ∉ resultsOf applyCall p noTasks st.linearized := by
  intro st
  obtain ⟨nodes, owner, hmem, -, hrecord⟩ :=
    inv_run layout consumer cells task schedule
  refine ⟨hmem.no_fault, ⟨nodes, fun q => ⟨hmem.ring q, hmem.size q, ?_⟩,
    ?_, fun node => ⟨fun hnode => ?_, ?_⟩⟩,
    fun p => ⟨hrecord.results p, hrecord.possible p⟩⟩
  · rw [← hrecord.lists]
    rfl
  · intro node hnormal hfuture
    exact hmem.disjoint (show Queue.normal ≠ .future by decide)
      (List.mem_cons_of_mem _ hnormal) (List.mem_cons_of_mem _ hfuture)
  · rw [hmem.owns.allocated] at hnode
    obtain ⟨one, hone⟩ := Option.ne_none_iff_exists'.mp hnode
    cases one with
    | queue q => exact Or.inl ⟨q, (hmem.owns.linked q node).mp hone⟩
    | party p => exact Or.inr ⟨p, (hmem.owns.held p node).mp hone⟩
  · rintro (⟨q, hnode⟩ | ⟨p, hnode⟩)
    · exact hmem.mem_allocated hnode
    · exact hmem.held_allocated hnode

end NvmeVirt.DualQueue.TaskQueues
