import NvmeVirt.DualQueue.HostSteps

/-!
# What the steps of a worker do

The steps that only move the worker in its loop are one case; the others take a
task, work on it, or lead through the end of an iteration.  A future task reads
values of the current iteration, and they are final if its source partition has
been announced when the task is taken.
-/

namespace NvmeVirt.DualQueue

open Function NvmeVirt.Csd

variable {s : Setup} {csd : ℕ} {st st' : State}

@[simp]
theorem State.devices_setDevice_self (st : State) (csd : ℕ) (dev : Device) :
    (st.setDevice csd dev).devices csd = dev := update_self _ _ _

theorem State.devices_setDevice_of_ne {csd other : ℕ} (hne : other ≠ csd)
    (st : State) (dev : Device) :
    (st.setDevice csd dev).devices other = st.devices other :=
  update_of_ne hne _ _

/-- The worker is at none of the places where it changes what others see. -/
def WorkerPc.Idle : WorkerPc → Prop
  | .top | .await _ | .scan _ _ | .check _ | .find _ _ | .normalCheck => True
  | .raise _ | .barrier _ | .copy _ _ | .run _ _ _ _ => False

inductive WorkerEffect (s : Setup) (csd : ℕ) (st : State) : State → Prop
  | move {worker : WorkerPc} (hold : (st.devices csd).worker.Idle)
      (hnew : worker.Idle) : WorkerEffect s csd st (st.setWorker csd worker)
  | close {front : ProcEdge} (hworker : (st.devices csd).worker = .await front)
      (hready : st.mem.donePartition front.r = true) :
      WorkerEffect s csd st (st.setDevice csd { st.devices csd with
        normalQueue := (st.devices csd).futureQueue.tail
        futureQueue := (st.devices csd).normalQueue
        worker := .raise front })
  | raise {front : ProcEdge} (hworker : (st.devices csd).worker = .raise front) :
      WorkerEffect s csd st ({ st with mem := { st.mem with
        donePartition := update st.mem.donePartition
          (barrierId front.numPartitions front.csdId) true } }.setWorker csd
            (.barrier front))
  | leave {front : ProcEdge}
      (hworker : (st.devices csd).worker = .barrier front)
      (hdown : st.mem.donePartition
        (barrierId front.numPartitions front.csdId) = false) :
      WorkerEffect s csd st
        (st.setWorker csd (.copy front (List.range front.numVertices)))
  | copy {front : ProcEdge} {v : ℕ} {todo : List ℕ}
      (hworker : (st.devices csd).worker = .copy front (v :: todo)) :
      WorkerEffect s csd st ({ st with
        mem := copyVertex st.mem front v }.setWorker csd (.copy front todo))
  | copied {front : ProcEdge}
      (hworker : (st.devices csd).worker = .copy front []) :
      WorkerEffect s csd st (st.setDevice csd { st.devices csd with
        worker := scanOrCheck (st.devices csd) front
        copies := (st.devices csd).copies + 1 })
  | normal {node : ProcEdge} {rest : List ProcEdge}
      (hworker : (st.devices csd).worker = .normalCheck)
      (hqueue : (st.devices csd).normalQueue = node :: rest) :
      WorkerEffect s csd st (st.setDevice csd { st.devices csd with
        normalQueue := rest
        worker := startRun s false node })
  | front {task node : ProcEdge} {rest : List ProcEdge}
      (hworker : (st.devices csd).worker = .check task)
      (hqueue : (st.devices csd).futureQueue = node :: rest)
      (hready : st.mem.donePartition task.r = true) :
      WorkerEffect s csd st (takeFuture s csd st 0 node)
  | found {task node : ProcEdge} {i : ℕ} {todo : List ℕ}
      (hworker : (st.devices csd).worker = .find task (i :: todo))
      (hnode : (st.devices csd).futureQueue[i]? = some node)
      (hready : st.mem.donePartition node.r = true) :
      WorkerEffect s csd st (takeFuture s csd st i node)
  | missed {task : ProcEdge}
      (hworker : (st.devices csd).worker = .find task []) :
      WorkerEffect s csd st (st.setWorker csd (startRun s true task))
  | edge {future : Bool} {node : ProcEdge} {edge : ℕ × ℕ}
      {edges : List (ℕ × ℕ)} {state : UInt32}
      (hworker : (st.devices csd).worker =
        .run future node (edge :: edges) state) :
      WorkerEffect s csd st ({ st with
        mem := (edgeRound s st.mem future node edge state).1 }.setWorker csd
          (.run future node edges
            (edgeRound s st.mem future node edge state).2))
  | complete {future : Bool} {node : ProcEdge} {state : UInt32}
      (hworker : (st.devices csd).worker = .run future node [] state) :
      WorkerEffect s csd st ({ st with
        mem := raiseDone st.mem future node }.setDevice csd
          ((st.devices csd).complete st.iter future node))

theorem WorkerPc.idle_scanOrCheck (dev : Device) (node : ProcEdge) :
    (scanOrCheck dev node).Idle := by
  unfold scanOrCheck
  split <;> trivial

/-! ## One lemma for each place of the worker -/

section Places

variable {node : ProcEdge} (hstep : workerStep s csd st = some st')
include hstep

theorem effect_top (hworker : (st.devices csd).worker = .top) :
    WorkerEffect s csd st st' := by
  have hold : (st.devices csd).worker.Idle := by rw [hworker]; trivial
  simp only [workerStep, hworker] at hstep
  split at hstep
  · split at hstep
    · cases hstep
    · cases hstep
      exact .move hold trivial
  · split at hstep
    · cases hstep
      exact .move hold trivial
    · cases hstep
      exact .move hold (WorkerPc.idle_scanOrCheck _ _)

theorem effect_await (hworker : (st.devices csd).worker = .await node) :
    WorkerEffect s csd st st' := by
  simp only [workerStep, hworker] at hstep
  split at hstep
  · rename_i hready
    cases hstep
    exact .close hworker hready
  · cases hstep

theorem effect_barrier (hworker : (st.devices csd).worker = .barrier node) :
    WorkerEffect s csd st st' := by
  simp only [workerStep, hworker] at hstep
  split at hstep
  · cases hstep
  · rename_i hdown
    cases hstep
    exact .leave hworker (Bool.eq_false_of_not_eq_true hdown)

theorem effect_copy {todo : List ℕ}
    (hworker : (st.devices csd).worker = .copy node todo) :
    WorkerEffect s csd st st' := by
  cases todo with
  | nil =>
      simp only [workerStep, hworker, Option.some.injEq] at hstep
      subst hstep
      exact .copied hworker
  | cons v todo =>
      simp only [workerStep, hworker, Option.some.injEq] at hstep
      subst hstep
      exact .copy hworker

theorem effect_scan {nodes : List ProcEdge}
    (hworker : (st.devices csd).worker = .scan node nodes) :
    WorkerEffect s csd st st' := by
  have hold : (st.devices csd).worker.Idle := by rw [hworker]; trivial
  cases nodes with
  | nil =>
      simp only [workerStep, hworker, Option.some.injEq] at hstep
      subst hstep
      exact .move hold trivial
  | cons first rest =>
      simp only [workerStep, hworker, Option.some.injEq] at hstep
      subst hstep
      split
      · exact .move hold trivial
      · exact .move hold trivial

theorem effect_check (hworker : (st.devices csd).worker = .check node) :
    WorkerEffect s csd st st' := by
  have hold : (st.devices csd).worker.Idle := by rw [hworker]; trivial
  cases hfuture : (st.devices csd).futureQueue with
  | nil =>
      simp only [workerStep, hworker, hfuture, Option.some.injEq] at hstep
      subst hstep
      exact .move hold trivial
  | cons front rest =>
      simp only [workerStep, hworker, hfuture] at hstep
      split_ifs at hstep with hready
      · cases hstep
        exact .move hold trivial
      · cases hstep
        exact .move hold trivial
      · cases hstep
        exact .front hworker hfuture hready
      · cases hstep
        exact .move hold trivial

theorem effect_find {todo : List ℕ}
    (hworker : (st.devices csd).worker = .find node todo) :
    WorkerEffect s csd st st' := by
  have hold : (st.devices csd).worker.Idle := by rw [hworker]; trivial
  cases todo with
  | nil =>
      simp only [workerStep, hworker, Option.some.injEq] at hstep
      subst hstep
      exact .missed hworker
  | cons i todo =>
      cases hnode : (st.devices csd).futureQueue[i]? with
      | none =>
          simp only [workerStep, hworker, hnode, Option.some.injEq] at hstep
          subst hstep
          exact .move hold trivial
      | some found =>
          simp only [workerStep, hworker, hnode] at hstep
          split at hstep
          · rename_i hready
            cases hstep
            exact .found hworker hnode hready
          · cases hstep
            exact .move hold trivial

theorem effect_normalCheck
    (hworker : (st.devices csd).worker = .normalCheck) :
    WorkerEffect s csd st st' := by
  have hold : (st.devices csd).worker.Idle := by rw [hworker]; trivial
  cases hqueue : (st.devices csd).normalQueue with
  | nil =>
      simp only [workerStep, hworker, hqueue, Option.some.injEq] at hstep
      subst hstep
      exact .move hold trivial
  | cons node rest =>
      simp only [workerStep, hworker, hqueue, Option.some.injEq] at hstep
      subst hstep
      exact .normal hworker hqueue

theorem effect_run {future : Bool} {edges : List (ℕ × ℕ)} {state : UInt32}
    (hworker : (st.devices csd).worker = .run future node edges state) :
    WorkerEffect s csd st st' := by
  cases edges with
  | nil =>
      simp only [workerStep, hworker, Option.some.injEq] at hstep
      subst hstep
      exact .complete hworker
  | cons edge edges =>
      simp only [workerStep, hworker, Option.some.injEq] at hstep
      subst hstep
      exact .edge hworker

theorem workerStep_effect : WorkerEffect s csd st st' := by
  cases hworker : (st.devices csd).worker with
  | top => exact effect_top hstep hworker
  | await front => exact effect_await hstep hworker
  | raise front =>
      simp only [workerStep, hworker, Option.some.injEq] at hstep
      subst hstep
      exact .raise hworker
  | barrier front => exact effect_barrier hstep hworker
  | copy front todo => exact effect_copy hstep hworker
  | scan node nodes => exact effect_scan hstep hworker
  | check node => exact effect_check hstep hworker
  | find node todo => exact effect_find hstep hworker
  | normalCheck => exact effect_normalCheck hstep hworker
  | run future node edges state => exact effect_run hstep hworker

end Places

end NvmeVirt.DualQueue
