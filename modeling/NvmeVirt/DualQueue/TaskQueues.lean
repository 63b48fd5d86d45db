import NvmeVirt.DualQueue.Engine
import NvmeVirt.Lib.Linearization
import NvmeVirt.Lib.RingList

/-!
# Task queues

`core/queue.c` and `find_next_future_task`, down to the links of the nodes.  A
queue is a circular list with a lock and a size.  A step is a section under the
lock, one round of a loop that holds the lock, or an access outside of it; a
call that finds the lock taken waits.  Any party may enqueue, search and ask for
the size.  The other calls belong to one consumer, the worker of the device.

A node stands for the address of its `list` member, and a task is what the rest
of the node holds.
-/

namespace NvmeVirt.DualQueue.TaskQueues

open Function RingList NvmeVirt.Csd

inductive Queue
  | normal
  | future
  deriving DecidableEq

/-- Each queue gets what the other one has. -/
def exchange {α : Type} (value : Queue → α) : Queue → α
  | .normal => value .future
  | .future => value .normal

/-- The addresses of the two heads, and of the head that `queue_swap` has on its
stack, and the poison of `list_del`. -/
structure Layout where
  head : Queue → ℕ
  tempHead : ℕ
  poisonNext : ℕ
  poisonPrev : ℕ
  head_injective : Injective head
  tempHead_ne : ∀ q, tempHead ≠ head q

/-! ## Operations on lists -/

/-- A call with what it finds outside of the queues: `reads` are the flags that
`find_next_future_task` reads, in order. -/
inductive Call
  | enqueue (q : Queue) (task : ProcEdge)
  | failedEnqueue
  | dequeue (q : Queue)
  | front (q : Queue)
  | back (q : Queue)
  | size (q : Queue)
  | swap
  | find (q : Queue) (task : ProcEdge)
  | findNext (q : Queue) (rowOverlap : ℕ) (isDequeue : Bool) (reads : List Bool)
  deriving DecidableEq

/-- `impossible` is for a call that reads other flags than
`find_next_future_task` does; none returns it. -/
inductive Result
  | done
  | task (task : Option ProcEdge)
  | size (size : ℤ)
  | found (found : Bool)
  | impossible
  deriving DecidableEq

abbrev Lists := Queue → List ProcEdge

/-- The order in which `find_next_future_task` visits a queue. -/
def visits {α : Type} (rowOverlap : ℕ) (queue : List α) : List α :=
  if rowOverlap = 2 then queue.reverse else queue

/-- The position of the task that `find_next_future_task` finds. -/
def nextIndex (rowOverlap : ℕ) (reads : List Bool) (length : ℕ) : Option ℕ :=
  if rowOverlap = 1 then reads.findIdx? id
  else if rowOverlap = 2 then (reads.findIdx? id).map (length - 1 - ·)
  else some 0

/-- The flags that `find_next_future_task` reads in a queue of this length.  The
search stops at the first flag that is up, and it gives up only after it has
read one flag of every task. -/
def Scanned (rowOverlap length : ℕ) (reads : List Bool) : Prop :=
  if rowOverlap = 1 ∨ rowOverlap = 2 then
    reads = List.replicate length false ∨
      ∃ passed < length, reads = List.replicate passed false ++ [true]
  else reads = []

instance (rowOverlap length : ℕ) (reads : List Bool) :
    Decidable (Scanned rowOverlap length reads) :=
  inferInstanceAs (Decidable (ite _ _ _))

/-- What a call does to the two lists of tasks. -/
def applyCall (lists : Lists) : Call → Lists × Result
  | .enqueue q task => (update lists q (lists q ++ [task]), .done)
  | .failedEnqueue => (lists, .done)
  | .dequeue q => (update lists q (lists q).tail, .task (lists q).head?)
  | .front q => (lists, .task (lists q).head?)
  | .back q => (lists, .task (lists q).getLast?)
  | .size q => (lists, .size (lists q).length)
  | .swap => (exchange lists, .done)
  | .find q task => (lists, .found (queueFind (lists q) task))
  | .findNext q rowOverlap isDequeue reads =>
      if Scanned rowOverlap (lists q).length reads then
        match nextIndex rowOverlap reads (lists q).length with
        | none => (lists, .task none)
        | some i =>
            (if isDequeue then update lists q ((lists q).eraseIdx i) else lists,
              .task (lists q)[i]?)
      else (lists, .impossible)

/-! ## Operations on nodes -/

/-- What a party calls; `node` is what `kmalloc` gives. -/
inductive Op
  | enqueue (q : Queue) (task : ProcEdge) (node : Option ℕ)
  | dequeue (q : Queue)
  | front (q : Queue)
  | back (q : Queue)
  | size (q : Queue)
  | swap
  | find (q : Queue) (task : ProcEdge)
  | findNext (q : Queue) (rowOverlap : ℕ) (isDequeue : Bool)
  deriving DecidableEq

/-- Where a party stands in a call. -/
inductive Pc
  | idle
  | link (q : Queue) (node : ℕ) (task : ProcEdge)
  | unlink (q : Queue)
  | peek (q : Queue) (last : Bool)
  | fetch (node : ℕ) (free : Bool)
  | swap
  | seek (q : Queue) (task : ProcEdge) (cell : ℕ)
  | choose (q : Queue) (rowOverlap : ℕ) (isDequeue : Bool)
  | scan (q : Queue) (rowOverlap : ℕ) (isDequeue : Bool) (cell : ℕ)
      (reads : List Bool)
  deriving DecidableEq

/-- The memory of the two queues and the parties that use them.  `fault` is set
by an access to a node that is not allocated.  `linearized` and `returned` are a
record of the calls in the order in which they take effect, and of the results
that each party has got so far. -/
structure State (Party : Type) where
  cells : Cells
  task : ℕ → ProcEdge
  allocated : Finset ℕ
  size : Queue → ℤ
  lock : Queue → Option Party
  pc : Party → Pc
  fault : Bool
  linearized : List (Party × Call)
  returned : Party → List Result

section Steps

variable {Party : Type} [DecidableEq Party] (layout : Layout)

namespace State

variable (st : State Party) (p : Party)

def goto (pc : Pc) : State Party := { st with pc := update st.pc p pc }

def linearize (call : Call) : State Party :=
  { st with linearized := st.linearized ++ [(p, call)] }

def answer (result : Result) : State Party :=
  { st with
    pc := update st.pc p .idle
    returned := update st.returned p (st.returned p ++ [result]) }

def acquire (q : Queue) : State Party :=
  { st with lock := update st.lock q (some p) }

def release (q : Queue) : State Party :=
  { st with lock := update st.lock q none }

/-- A cell that may be accessed. -/
def accessible (cell : ℕ) : Bool :=
  cell ∈ st.allocated || cell = layout.head .normal ||
    cell = layout.head .future

def touch (cells : List ℕ) : State Party :=
  { st with fault := st.fault || !cells.all (st.accessible layout) }

/-- `kfree`. -/
def free (node : ℕ) : State Party :=
  { st.touch layout [node] with allocated := st.allocated.erase node }

/-- `list_add_tail` and `size++`. -/
def linkNode (q : Queue) (node : ℕ) : State Party :=
  { st.touch layout [node, st.cells.prev (layout.head q)] with
    cells := st.cells.listAddTail node (layout.head q)
    size := update st.size q (st.size q + 1) }

/-- `list_del` and `size--`. -/
def unlinkNode (q : Queue) (node : ℕ) : State Party :=
  { st.touch layout [node, st.cells.next node, st.cells.prev node] with
    cells := st.cells.listDel layout.poisonNext layout.poisonPrev node
    size := update st.size q (st.size q - 1) }

/-- The first node of the queue, or the last one. -/
def endNode (q : Queue) (last : Bool) : ℕ :=
  if last then st.cells.prev (layout.head q)
  else st.cells.next (layout.head q)

/-- The section of `queue_swap` under both locks. -/
def swapHeads : State Party :=
  let touched := [Queue.normal, .future].flatMap fun q =>
    [st.cells.next (layout.head q), st.cells.prev (layout.head q)]
  let cells := st.cells.initListHead layout.tempHead
  let cells := cells.listReplaceInit (layout.head .normal) layout.tempHead
  let cells := cells.listReplaceInit (layout.head .future)
    (layout.head .normal)
  let cells := cells.listReplaceInit layout.tempHead (layout.head .future)
  { st.touch layout touched with
    cells
    size := exchange st.size }

/-- The end of `find_next_future_task` with a task: the node goes if the caller
wants it to. -/
def takeNode (q : Queue) (node : ℕ) (isDequeue : Bool) : State Party :=
  let st := st.touch layout [node]
  let task := st.task node
  let st := if isDequeue then (st.unlinkNode layout q node).free layout node
    else st
  st.answer p (.task (some task))

end State

/-- `queue_find` compares the block of a task. -/
def sameBlock (node task : ProcEdge) : Bool :=
  node.r = task.r && node.c = task.c

/-- The link that the loop of `find_next_future_task` follows. -/
def scanLink (cells : Cells) (rowOverlap : ℕ) : ℕ → ℕ :=
  if rowOverlap = 2 then cells.prev else cells.next

/-- A node that `kmalloc` may give. -/
def fresh (st : State Party) (node : ℕ) : Bool :=
  !st.accessible layout node && node ≠ layout.tempHead

variable (consumer : Party)

/-- The first step of a call. -/
def enter (p : Party) (st : State Party) : Op → Option (State Party)
  | .enqueue _ _ none => some ((st.linearize p .failedEnqueue).answer p .done)
  | .enqueue q task (some node) =>
      if fresh layout st node then
        some ({ st with
          task := update st.task node task
          allocated := insert node st.allocated }.goto p (.link q node task))
      else none
  | .dequeue q =>
      if p ≠ consumer then none
      else if st.cells.listEmpty (layout.head q) then
        some ((st.linearize p (.dequeue q)).answer p (.task none))
      else some (st.goto p (.unlink q))
  | .front q =>
      if p ≠ consumer then none
      else if st.cells.listEmpty (layout.head q) then
        some ((st.linearize p (.front q)).answer p (.task none))
      else some (st.goto p (.peek q false))
  | .back q =>
      if p ≠ consumer then none
      else if st.cells.listEmpty (layout.head q) then
        some ((st.linearize p (.back q)).answer p (.task none))
      else some (st.goto p (.peek q true))
  | .size q =>
      if st.lock q = none then
        some ((st.linearize p (.size q)).answer p (.size (st.size q)))
      else none
  | .swap =>
      if p ≠ consumer ∨ st.lock .normal ≠ none then none
      else some ((st.acquire p .normal).goto p .swap)
  | .find q task =>
      if st.lock q = none then
        some ((st.acquire p q).goto p
          (.seek q task (st.cells.next (layout.head q))))
      else none
  | .findNext q rowOverlap isDequeue =>
      if p ≠ consumer ∨ st.lock q ≠ none then none
      else if st.size q = 0 then
        some ((st.linearize p (.findNext q rowOverlap isDequeue [])).answer p
          (.task none))
      else some (st.goto p (.choose q rowOverlap isDequeue))

/-- A later step of a call.  `ready` is the flag that it reads, if it reads
one. -/
def resume (p : Party) (st : State Party) (ready : Bool) :
    Option (State Party) :=
  match st.pc p with
  | .idle => none
  | .link q node task =>
      if st.lock q = none then
        some (((st.linkNode layout q node).linearize p
          (.enqueue q task)).answer p .done)
      else none
  | .unlink q =>
      if st.lock q = none then
        let node := st.endNode layout q false
        some (((st.unlinkNode layout q node).linearize p (.dequeue q)).goto p
          (.fetch node true))
      else none
  | .peek q last =>
      if st.lock q = none then
        some ((st.linearize p (if last then .back q else .front q)).goto p
          (.fetch (st.endNode layout q last) false))
      else none
  | .fetch node free =>
      let task := st.task node
      let st := if free then st.free layout node else st.touch layout [node]
      some (st.answer p (.task (some task)))
  | .swap =>
      if st.lock .future = none then
        some ((((st.swapHeads layout).release .normal).linearize p
          .swap).answer p .done)
      else none
  | .seek q task cell =>
      if cell = layout.head q then
        some (((st.release q).linearize p (.find q task)).answer p
          (.found false))
      else
        let st := st.touch layout [cell]
        if sameBlock (st.task cell) task then
          some (((st.release q).linearize p (.find q task)).answer p
            (.found true))
        else some (st.goto p (.seek q task (st.cells.next cell)))
  | .choose q rowOverlap isDequeue =>
      if st.lock q ≠ none then none
      else if rowOverlap = 1 ∨ rowOverlap = 2 then
        some ((st.acquire p q).goto p (.scan q rowOverlap isDequeue
          (scanLink st.cells rowOverlap (layout.head q)) []))
      else
        some ((st.linearize p (.findNext q rowOverlap isDequeue [])).takeNode
          layout p q (st.endNode layout q false) isDequeue)
  | .scan q rowOverlap isDequeue cell reads =>
      if cell = layout.head q then
        some (((st.release q).linearize p
          (.findNext q rowOverlap isDequeue reads)).answer p (.task none))
      else
        let st := st.touch layout [cell]
        if ready then
          some (((st.release q).linearize p
            (.findNext q rowOverlap isDequeue (reads ++ [true]))).takeNode
              layout p q cell isDequeue)
        else
          some (st.goto p (.scan q rowOverlap isDequeue
            (scanLink st.cells rowOverlap cell) (reads ++ [false])))

inductive Action (Party : Type)
  | call (p : Party) (op : Op)
  | resume (p : Party) (ready : Bool)
  deriving DecidableEq

/-- One step of a party.  A party that is in a call makes no other one. -/
def step (action : Action Party) (st : State Party) : Option (State Party) :=
  match action with
  | .call p op =>
      if st.pc p = .idle then enter layout consumer p st op else none
  | .resume p ready => resume layout p st ready

/-- `queue_init` of both queues, before any party uses them. -/
def queueInit (cells : Cells) (task : ℕ → ProcEdge) : State Party where
  cells := (cells.initListHead (layout.head .normal)).initListHead
    (layout.head .future)
  task := task
  allocated := ∅
  size := fun _ => 0
  lock := fun _ => none
  pc := fun _ => .idle
  fault := false
  linearized := []
  returned := fun _ => []

end Steps

end NvmeVirt.DualQueue.TaskQueues
