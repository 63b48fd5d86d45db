import NvmeVirt.Admin.Queue

/-!
# Controller reset

The dispatcher compares the registers with the values it has seen last, in the
order AQA, ASQ, ACQ and CC, and acts on one change a round.  The head, the phase
and the doorbells of the admin queue are set back in different branches: all of
them only if AQA changes, the phase in no other case.  A reset after which the
host writes the old register values again leaves the queue where it was.
-/

namespace NvmeVirt.Admin

/-- The registers that the host writes. -/
structure Bar where
  aqa : ℕ
  asq : ℕ
  acq : ℕ
  cc : ℕ
  deriving DecidableEq

namespace Bar

/-- `aqa.asqs + 1`. -/
def sqDepth (bar : Bar) : ℕ := bar.aqa % 2 ^ 12 + 1

/-- `aqa.acqs + 1`. -/
def cqDepth (bar : Bar) : ℕ := bar.aqa / 2 ^ 16 % 2 ^ 12 + 1

def en (bar : Bar) : Bool := bar.cc.testBit 0

end Bar

/-- `cc.shn`. -/
def ccShn (cc : ℕ) : ℕ := cc / 2 ^ 14 % 4

/-- The registers, the values seen last, the status register, and the device;
`allocated` tells whether `admin_q` is set. -/
structure Controller where
  bar : Bar
  oldBar : Bar
  rdy : Bool
  shst : ℕ
  allocated : Bool
  dev : AdminDevice

/-- Both copies of a doorbell are set to 0. -/
def AdminDevice.clearDb (dev : AdminDevice) (i : ℕ) : AdminDevice :=
  { dev with
    dbs := Function.update dev.dbs i 0
    oldDbs := Function.update dev.oldDbs i 0 }

/-! ## The branches of `nvmev_proc_bars` -/

namespace Controller

/-- The page of an address. -/
def pageAddress (address : ℕ) : ℕ := address / pageSize * pageSize

/-- A queue that is allocated here has no rings yet. -/
def takeAqa (c : Controller) : Controller :=
  { c with
    oldBar := { c.oldBar with aqa := c.bar.aqa }
    allocated := true
    dev := { (c.dev.clearDb 0).clearDb 1 with
      adminQ :=
        { phase := true
          sqDepth := c.bar.sqDepth
          cqDepth := c.bar.cqDepth
          cqHead := 0
          nvmeSq := if c.allocated then c.dev.adminQ.nvmeSq else none
          nvmeCq := if c.allocated then c.dev.adminQ.nvmeCq else none } } }

def takeAsq (c : Controller) : Controller :=
  { c with
    oldBar := { c.oldBar with asq := c.bar.asq }
    dev := { c.dev.clearDb 0 with
      adminQ := { c.dev.adminQ with
        sqDepth := c.bar.sqDepth
        nvmeSq := some (pageAddress c.bar.asq) } } }

def takeAcq (c : Controller) : Controller :=
  { c with
    oldBar := { c.oldBar with acq := c.bar.acq }
    dev := { c.dev.clearDb 1 with
      adminQ := { c.dev.adminQ with
        cqDepth := c.bar.cqDepth
        cqHead := 0
        nvmeCq := some (pageAddress c.bar.acq) } } }

/-- The enable bit decides about `csts.rdy`, and a shutdown sets the head and
the doorbells back. -/
def takeCc (c : Controller) : Controller :=
  let c := { c with
    oldBar := { c.oldBar with cc := c.bar.cc }
    rdy := if c.bar.en then c.allocated || c.rdy else false }
  if ccShn c.bar.cc = 1 then
    { c with
      shst := 2
      dev := { (c.dev.clearDb 0).clearDb 1 with
        adminQ := { c.dev.adminQ with cqHead := 0 } } }
  else c

/-- `nvmev_proc_bars`.  A shutdown without an admin queue is a fault. -/
def procBars (c : Controller) : Option Controller :=
  if c.oldBar.aqa ≠ c.bar.aqa then some c.takeAqa
  else if c.oldBar.asq ≠ c.bar.asq then
    if c.allocated then some c.takeAsq else some c
  else if c.oldBar.acq ≠ c.bar.acq then
    if c.allocated then some c.takeAcq else some c
  else if c.oldBar.cc ≠ c.bar.cc then
    if ccShn c.bar.cc = 1 ∧ c.allocated = false then none
    else some c.takeCc
  else some c

/-- The doorbells of the admin queue; an entry without an admin queue is a
fault. -/
def procDbs (c : Controller) : Option Controller :=
  if c.allocated = false ∧ c.dev.dbs 0 ≠ c.dev.oldDbs 0 then none
  else (procAdminDbs c.dev).map fun dev => { c with dev }

/-- The host has written its memory. -/
def withHost (c : Controller) (host : HostMemory) : Controller :=
  { c with dev := { c.dev with host } }

end Controller

/-- Register and doorbell writes of the host, and rounds of the dispatcher, at
which the memory of the host holds certain bytes. -/
inductive RegisterEvent where
  | aqa (value : ℕ)
  | asq (value : ℕ)
  | acq (value : ℕ)
  | cc (value : ℕ)
  | doorbell (i value : ℕ)
  | poll (host : HostMemory)

def controllerStep (c : Controller) : RegisterEvent → Option Controller
  | .aqa value => some { c with bar := { c.bar with aqa := value } }
  | .asq value => some { c with bar := { c.bar with asq := value } }
  | .acq value => some { c with bar := { c.bar with acq := value } }
  | .cc value => some { c with bar := { c.bar with cc := value } }
  | .doorbell i value =>
      some { c with
        dev := { c.dev with dbs := Function.update c.dev.dbs i value } }
  | .poll host => (c.withHost host).procBars.bind Controller.procDbs

/-! ## One round -/

namespace Controller

/-- The state of the admin queue that a reset is about. -/
structure Initial (c : Controller) : Prop where
  cqHead_eq : c.dev.adminQ.cqHead = 0
  phase_eq : c.dev.adminQ.phase = true
  sqDb_eq : c.dev.oldDbs 0 = 0
  cqDb_eq : c.dev.oldDbs 1 = 0

/-- All doorbells have been processed. -/
structure Idle (c : Controller) : Prop where
  allocated_eq : c.allocated = true
  sqDb_eq : c.dev.dbs 0 = c.dev.oldDbs 0
  cqDb_eq : c.dev.dbs 1 = c.dev.oldDbs 1

/-- A register has its old value or its new one, and the device has seen the
old value or the present one. -/
def Moves (old new value seen : ℕ) : Prop :=
  (seen = old ∨ seen = new) ∧ (value = seen ∨ value = new)

theorem Moves.write {old new value seen : ℕ} (hmoves : Moves old new value seen) :
    Moves old new new seen :=
  ⟨hmoves.1, .inr rfl⟩

theorem Moves.take {old new value seen : ℕ} (hmoves : Moves old new value seen) :
    Moves old new value value := by
  obtain ⟨hseen, rfl | rfl⟩ := hmoves
  · exact ⟨hseen, .inl rfl⟩
  · exact ⟨.inr rfl, .inl rfl⟩

theorem Moves.taken_ne {old new value seen : ℕ}
    (hmoves : Moves old new value seen) (hne : seen ≠ value) :
    seen = old ∧ value = new ∧ value ≠ old := by
  obtain ⟨rfl | rfl, rfl | rfl⟩ := hmoves
  · exact absurd rfl hne
  · exact ⟨rfl, rfl, hne.symm⟩
  · exact absurd rfl hne
  · exact absurd rfl hne

/-- What the device has set back on the way from one setting of the registers
to another. -/
structure OnWay (start : Controller) (target : Bar) (c : Controller) :
    Prop extends c.Idle where
  aqa_moves : Moves start.bar.aqa target.aqa c.bar.aqa c.oldBar.aqa
  asq_moves : Moves start.bar.asq target.asq c.bar.asq c.oldBar.asq
  acq_moves : Moves start.bar.acq target.acq c.bar.acq c.oldBar.acq
  cc_moves : Moves start.bar.cc target.cc c.bar.cc c.oldBar.cc
  phase_eq : c.dev.adminQ.phase =
    (start.dev.adminQ.phase || decide (c.oldBar.aqa ≠ start.bar.aqa))
  cqHead_eq : c.dev.adminQ.cqHead =
    if c.oldBar.aqa ≠ start.bar.aqa ∨ c.oldBar.acq ≠ start.bar.acq ∨
      c.oldBar.cc ≠ start.bar.cc ∧ ccShn target.cc = 1 then 0
    else start.dev.adminQ.cqHead
  oldSqDb_eq : c.dev.oldDbs 0 =
    if c.oldBar.aqa ≠ start.bar.aqa ∨ c.oldBar.asq ≠ start.bar.asq ∨
      c.oldBar.cc ≠ start.bar.cc ∧ ccShn target.cc = 1 then 0
    else start.dev.oldDbs 0
  oldCqDb_eq : c.dev.oldDbs 1 =
    if c.oldBar.aqa ≠ start.bar.aqa ∨ c.oldBar.acq ≠ start.bar.acq ∨
      c.oldBar.cc ≠ start.bar.cc ∧ ccShn target.cc = 1 then 0
    else start.dev.oldDbs 1

variable {start c : Controller} {target : Bar}

theorem onWay_start (hidle : start.Idle) (hseen : start.oldBar = start.bar)
    (target : Bar) : OnWay start target start where
  toIdle := hidle
  aqa_moves := by rw [hseen]; exact ⟨.inl rfl, .inl rfl⟩
  asq_moves := by rw [hseen]; exact ⟨.inl rfl, .inl rfl⟩
  acq_moves := by rw [hseen]; exact ⟨.inl rfl, .inl rfl⟩
  cc_moves := by rw [hseen]; exact ⟨.inl rfl, .inl rfl⟩
  phase_eq := by simp [hseen]
  cqHead_eq := by simp [hseen]
  oldSqDb_eq := by simp [hseen]
  oldCqDb_eq := by simp [hseen]

theorem OnWay.takeAqa (hway : OnWay start target c)
    (hne : c.oldBar.aqa ≠ c.bar.aqa) : OnWay start target c.takeAqa := by
  have hnew := (hway.aqa_moves.taken_ne hne).2.2
  refine ⟨⟨rfl, rfl, rfl⟩, hway.aqa_moves.take, hway.asq_moves, hway.acq_moves,
    hway.cc_moves, ?_, ?_, ?_, ?_⟩
  · simp [Controller.takeAqa, hnew]
  all_goals exact (if_pos (.inl hnew)).symm

theorem OnWay.takeAsq (hway : OnWay start target c)
    (hne : c.oldBar.asq ≠ c.bar.asq) : OnWay start target c.takeAsq := by
  have hnew := (hway.asq_moves.taken_ne hne).2.2
  exact ⟨⟨hway.allocated_eq, rfl, hway.cqDb_eq⟩, hway.aqa_moves,
    hway.asq_moves.take, hway.acq_moves, hway.cc_moves, hway.phase_eq,
    hway.cqHead_eq, (if_pos (.inr (.inl hnew))).symm, hway.oldCqDb_eq⟩

theorem OnWay.takeAcq (hway : OnWay start target c)
    (hne : c.oldBar.acq ≠ c.bar.acq) : OnWay start target c.takeAcq := by
  have hnew := (hway.acq_moves.taken_ne hne).2.2
  exact ⟨⟨hway.allocated_eq, hway.sqDb_eq, rfl⟩, hway.aqa_moves,
    hway.asq_moves, hway.acq_moves.take, hway.cc_moves, hway.phase_eq,
    (if_pos (.inr (.inl hnew))).symm, hway.oldSqDb_eq,
    (if_pos (.inr (.inl hnew))).symm⟩

theorem OnWay.takeCc (hway : OnWay start target c)
    (hne : c.oldBar.cc ≠ c.bar.cc) : OnWay start target c.takeCc := by
  obtain ⟨hold, htarget, hnew⟩ := hway.cc_moves.taken_ne hne
  have hhead := hway.cqHead_eq
  have hsq := hway.oldSqDb_eq
  have hcq := hway.oldCqDb_eq
  simp only [hold, ne_eq, not_true_eq_false, false_and, or_false]
    at hhead hsq hcq
  unfold Controller.takeCc
  dsimp only
  by_cases hshn : ccShn c.bar.cc = 1
  · have hshn' : ccShn target.cc = 1 := htarget ▸ hshn
    rw [if_pos hshn]
    refine ⟨⟨hway.allocated_eq, rfl, rfl⟩, hway.aqa_moves, hway.asq_moves,
      hway.acq_moves, hway.cc_moves.take, hway.phase_eq, ?_, ?_, ?_⟩
    all_goals exact (if_pos (.inr (.inr ⟨hnew, hshn'⟩))).symm
  · have hshn' : ¬ccShn target.cc = 1 := htarget ▸ hshn
    rw [if_neg hshn]
    refine ⟨⟨hway.allocated_eq, hway.sqDb_eq, hway.cqDb_eq⟩, hway.aqa_moves,
      hway.asq_moves, hway.acq_moves, hway.cc_moves.take, hway.phase_eq,
      ?_, ?_, ?_⟩
    all_goals simp only [hshn', and_false, or_false]
    · exact hhead
    · exact hsq
    · exact hcq

theorem OnWay.procBars (hway : OnWay start target c) :
    ∃ c', c.procBars = some c' ∧ OnWay start target c' := by
  unfold Controller.procBars
  by_cases haqa : c.oldBar.aqa ≠ c.bar.aqa
  · exact ⟨_, if_pos haqa, hway.takeAqa haqa⟩
  rw [if_neg haqa]
  by_cases hasq : c.oldBar.asq ≠ c.bar.asq
  · rw [if_pos hasq, if_pos hway.allocated_eq]
    exact ⟨_, rfl, hway.takeAsq hasq⟩
  rw [if_neg hasq]
  by_cases hacq : c.oldBar.acq ≠ c.bar.acq
  · rw [if_pos hacq, if_pos hway.allocated_eq]
    exact ⟨_, rfl, hway.takeAcq hacq⟩
  rw [if_neg hacq]
  by_cases hcc : c.oldBar.cc ≠ c.bar.cc
  · rw [if_pos hcc, if_neg (by simp [hway.allocated_eq])]
    exact ⟨_, rfl, hway.takeCc hcc⟩
  · exact ⟨c, if_neg hcc, hway⟩

theorem OnWay.withHost (hway : OnWay start target c) (host : HostMemory) :
    OnWay start target (c.withHost host) where
  allocated_eq := hway.allocated_eq
  sqDb_eq := hway.sqDb_eq
  cqDb_eq := hway.cqDb_eq
  aqa_moves := hway.aqa_moves
  asq_moves := hway.asq_moves
  acq_moves := hway.acq_moves
  cc_moves := hway.cc_moves
  phase_eq := hway.phase_eq
  cqHead_eq := hway.cqHead_eq
  oldSqDb_eq := hway.oldSqDb_eq
  oldCqDb_eq := hway.oldCqDb_eq

/-- Without new doorbells there is nothing to do. -/
theorem Idle.procDbs (hidle : c.Idle) : c.procDbs = some c := by
  have hdbs : procAdminDbs c.dev = some c.dev := by
    rw [procAdminDbs, procAdminSqDb, if_neg (not_not.mpr hidle.sqDb_eq),
      Option.map_some, procAdminCqDb, if_neg (not_not.mpr hidle.cqDb_eq)]
  rw [Controller.procDbs, if_neg (by simp [hidle.allocated_eq]), hdbs]
  rfl

end Controller

/-! ## A reset and what follows -/

/-- The host writes one of the registers of a setting, or the device looks. -/
def RegisterEvent.Towards (target : Bar) : RegisterEvent → Prop
  | .aqa value => value = target.aqa
  | .asq value => value = target.asq
  | .acq value => value = target.acq
  | .cc value => value = target.cc
  | .doorbell _ _ => False
  | .poll _ => True

namespace Controller

variable {start c c' : Controller} {target : Bar}

theorem OnWay.step (hway : OnWay start target c) {event : RegisterEvent}
    (hevent : event.Towards target) :
    ∃ c', controllerStep c event = some c' ∧ OnWay start target c' := by
  cases event with
  | aqa value =>
      cases hevent
      exact ⟨_, rfl, { hway with aqa_moves := hway.aqa_moves.write }⟩
  | asq value =>
      cases hevent
      exact ⟨_, rfl, { hway with asq_moves := hway.asq_moves.write }⟩
  | acq value =>
      cases hevent
      exact ⟨_, rfl, { hway with acq_moves := hway.acq_moves.write }⟩
  | cc value =>
      cases hevent
      exact ⟨_, rfl, { hway with cc_moves := hway.cc_moves.write }⟩
  | doorbell i value => exact hevent.elim
  | poll host =>
      obtain ⟨c', hbars, hway'⟩ := (hway.withHost host).procBars
      refine ⟨c', ?_, hway'⟩
      rw [controllerStep, hbars]
      exact hway'.toIdle.procDbs

theorem OnWay.run (hway : OnWay start target c) {events : List RegisterEvent}
    (hevents : ∀ event ∈ events, event.Towards target) :
    ∃ c', events.foldlM controllerStep c = some c' ∧ OnWay start target c' := by
  induction events generalizing c with
  | nil => exact ⟨c, rfl, hway⟩
  | cons event rest ih =>
      obtain ⟨hevent, hrest⟩ := List.forall_mem_cons.mp hevents
      obtain ⟨mid, hstep, hmid⟩ := hway.step hevent
      obtain ⟨c', hrun, hway'⟩ := ih hmid hrest
      refine ⟨c', ?_, hway'⟩
      rw [List.foldlM_cons, hstep]
      exact hrun

/-- One of the values of CC announces a shutdown. -/
def Shutdown (values : List ℕ) : Prop := ∃ cc ∈ values, ccShn cc = 1

instance (values : List ℕ) : Decidable (Shutdown values) :=
  inferInstanceAs (Decidable (∃ cc ∈ values, _))

/-- The state after values of CC have been written and seen one after the
other. -/
structure AfterCc (values : List ℕ) (c c' : Controller) : Prop
    extends c'.Idle where
  seen_eq : c'.oldBar = c'.bar
  bar_eq : c'.bar = { c.bar with cc := values.getLastD c.bar.cc }
  phase_eq : c'.dev.adminQ.phase = c.dev.adminQ.phase
  cqHead_eq : c'.dev.adminQ.cqHead =
    if Shutdown values then 0 else c.dev.adminQ.cqHead
  oldSqDb_eq : c'.dev.oldDbs 0 =
    if Shutdown values then 0 else c.dev.oldDbs 0
  oldCqDb_eq : c'.dev.oldDbs 1 =
    if Shutdown values then 0 else c.dev.oldDbs 1

theorem shutdown_singleton (cc : ℕ) : Shutdown [cc] ↔ ccShn cc = 1 := by
  simp [Shutdown]

theorem afterCc_one (hidle : c.Idle) (hseen : c.oldBar = c.bar) {cc : ℕ}
    (hne : c.bar.cc ≠ cc) (host : HostMemory) :
    ∃ c', [.cc cc, .poll host].foldlM controllerStep c = some c' ∧
      AfterCc [cc] c c' := by
  let written : Controller :=
    ({ c with bar := { c.bar with cc := cc } } : Controller).withHost host
  have hchanged : written.oldBar.cc ≠ written.bar.cc := by
    simpa [written, Controller.withHost, hseen] using hne
  have hbars : written.procBars = some written.takeCc := by
    rw [Controller.procBars, if_neg (by simp [written, withHost, hseen]),
      if_neg (by simp [written, withHost, hseen]),
      if_neg (by simp [written, withHost, hseen]), if_pos hchanged, if_neg]
    simp [written, withHost, hidle.allocated_eq]
  have hstart := (onWay_start hidle hseen written.bar).withHost host
  have hway : OnWay c written.bar written :=
    { hstart with cc_moves := hstart.cc_moves.write }
  have hafter := hway.takeCc hchanged
  have hbar : written.takeCc.bar = written.bar := by
    unfold Controller.takeCc
    dsimp only
    split <;> rfl
  have hold : written.takeCc.oldBar = written.bar := by
    unfold Controller.takeCc
    dsimp only
    split <;> simp [written, withHost, hseen]
  have hvalues : written.bar = { c.bar with cc := cc } := rfl
  refine ⟨written.takeCc, ?_, ⟨hafter.toIdle, hold.trans hbar.symm, hbar,
    ?_, ?_, ?_, ?_⟩⟩
  · change (written.procBars.bind procDbs).bind some = _
    rw [hbars]
    exact congrArg (Option.bind · some) hafter.toIdle.procDbs
  · simpa [hold, hvalues] using hafter.phase_eq
  · simpa [hold, hvalues, shutdown_singleton, hne.symm] using hafter.cqHead_eq
  · simpa [hold, hvalues, shutdown_singleton, hne.symm] using hafter.oldSqDb_eq
  · simpa [hold, hvalues, shutdown_singleton, hne.symm] using hafter.oldCqDb_eq

/-- The registers are as the host wrote them, seen by the device. -/
structure Settled (c : Controller) : Prop extends c.Idle where
  seen_eq : c.oldBar = c.bar

theorem AfterCc.trans {values : List ℕ} {cc : ℕ} {mid : Controller}
    (hfirst : AfterCc [cc] c mid) (hrest : AfterCc values mid c') :
    AfterCc (cc :: values) c c' := by
  have hboth : ∀ value, (if Shutdown values then 0
      else if Shutdown [cc] then 0 else value) =
      if Shutdown (cc :: values) then 0 else value := by
    intro value
    have hcons : Shutdown (cc :: values) ↔ Shutdown [cc] ∨ Shutdown values := by
      simp [Shutdown]
    by_cases hvalues : Shutdown values <;> simp [hcons, hvalues]
  refine ⟨hrest.toIdle, hrest.seen_eq, ?_, hrest.phase_eq.trans hfirst.phase_eq,
    ?_, ?_, ?_⟩
  · rw [hrest.bar_eq, hfirst.bar_eq]
    simp only [List.getLastD_cons, List.getLastD_nil]
  · rw [hrest.cqHead_eq, hfirst.cqHead_eq, hboth]
  · rw [hrest.oldSqDb_eq, hfirst.oldSqDb_eq, hboth]
  · rw [hrest.oldCqDb_eq, hfirst.oldCqDb_eq, hboth]

/-- Each value of CC is written and seen. -/
def ccEvents (values : List ℕ) (host : HostMemory) : List RegisterEvent :=
  values.flatMap fun cc => [.cc cc, .poll host]

theorem afterCc_run {values : List ℕ} (hsettled : c.Settled)
    (hchain : (c.bar.cc :: values).IsChain (· ≠ ·))
    (host : HostMemory) :
    ∃ c', (ccEvents values host).foldlM controllerStep c = some c' ∧
      AfterCc values c c' := by
  induction values generalizing c with
  | nil =>
      have hnone : ¬Shutdown [] := by simp [Shutdown]
      exact ⟨c, rfl, hsettled.toIdle, hsettled.seen_eq, rfl, rfl,
        (if_neg hnone).symm, (if_neg hnone).symm, (if_neg hnone).symm⟩
  | cons cc rest ih =>
      obtain ⟨hne, htail⟩ := List.isChain_cons_cons.mp hchain
      obtain ⟨mid, hone, hmid⟩ :=
        afterCc_one hsettled.toIdle hsettled.seen_eq hne host
      have hcc : mid.bar.cc = cc := by
        rw [hmid.bar_eq]
        simp
      rw [← hcc] at htail
      obtain ⟨c', hrun, hc'⟩ := ih ⟨hmid.toIdle, hmid.seen_eq⟩ htail
      refine ⟨c', ?_, hmid.trans hc'⟩
      rw [ccEvents, List.flatMap_cons, List.foldlM_append, hone]
      exact hrun

end Controller

open Controller

/-- A value that two steps may set back. -/
theorem set_back_iff {first second : Prop} [Decidable first] [Decidable second]
    {value : ℕ} : (if first then 0 else if second then 0 else value) = 0 ↔
      first ∨ second ∨ value = 0 := by
  split_ifs <;> simp_all

theorem initial_iff {c : Controller} : c.Initial ↔
    c.dev.adminQ.cqHead = 0 ∧ c.dev.adminQ.phase = true ∧
      c.dev.oldDbs 0 = 0 ∧ c.dev.oldDbs 1 = 0 :=
  ⟨fun h => ⟨h.cqHead_eq, h.phase_eq, h.sqDb_eq, h.cqDb_eq⟩,
    fun ⟨h1, h2, h3, h4⟩ => ⟨h1, h2, h3, h4⟩⟩

/-- After any reset and any writes of the registers, the admin queue is in its
initial state exactly if AQA changes, or if the phase was the initial one and
each of the head and the doorbells was 0, or is set back by a shutdown or by a
change of the address of its queue. -/
theorem reset_initial_iff (c : Controller) (resets : List ℕ) (target : Bar)
    (host : HostMemory) (rest : List RegisterEvent)
    (hsettled : c.Settled)
    (hchain : (c.bar.cc :: (resets ++ [target.cc])).IsChain (· ≠ ·))
    (hrest : ∀ event ∈ rest, event.Towards target) :
    ∃ c', (ccEvents resets host ++ rest).foldlM controllerStep c = some c' ∧
      (c'.bar = target → c'.oldBar = target →
        let shutdown := Shutdown (resets ++ [target.cc])
        (c'.Initial ↔ target.aqa ≠ c.bar.aqa ∨
          c.dev.adminQ.phase = true ∧
          (c.dev.adminQ.cqHead = 0 ∨ target.acq ≠ c.bar.acq ∨ shutdown) ∧
          (c.dev.oldDbs 0 = 0 ∨ target.asq ≠ c.bar.asq ∨ shutdown) ∧
          (c.dev.oldDbs 1 = 0 ∨ target.acq ≠ c.bar.acq ∨ shutdown))) := by
  rw [← List.cons_append] at hchain
  have hresets := hchain.left_of_append
  obtain ⟨mid, hfirst, hmid⟩ := afterCc_run hsettled hresets host
  obtain ⟨c', hrun, hway⟩ :=
    (onWay_start hmid.toIdle hmid.seen_eq target).run hrest
  refine ⟨c', ?_, ?_⟩
  · rw [List.foldlM_append, hfirst]
    exact hrun
  intro _ hseen shutdown
  have hcc : target.cc ≠ mid.bar.cc := by
    have hlast := (List.isChain_append.mp hchain).2.2 mid.bar.cc (by
      rw [hmid.bar_eq]
      simp [List.getLast?_cons, List.getLastD_eq_getLast?]) target.cc rfl
    exact hlast.symm
  have hshutdown : shutdown ↔ ccShn target.cc = 1 ∨ Shutdown resets := by
    simp only [shutdown, Shutdown, List.mem_append, List.mem_singleton]
    constructor
    · rintro ⟨cc, hmem | rfl, hshn⟩
      · exact .inr ⟨cc, hmem, hshn⟩
      · exact .inl hshn
    · rintro (hshn | ⟨cc, hmem, hshn⟩)
      · exact ⟨_, .inr rfl, hshn⟩
      · exact ⟨cc, .inl hmem, hshn⟩
  have hbar := hmid.bar_eq
  have hphase := hway.phase_eq
  have hhead := hway.cqHead_eq
  have hsq := hway.oldSqDb_eq
  have hcq := hway.oldCqDb_eq
  rw [hseen, hmid.phase_eq] at hphase
  rw [hseen, hmid.cqHead_eq] at hhead
  rw [hseen, hmid.oldSqDb_eq] at hsq
  rw [hseen, hmid.oldCqDb_eq] at hcq
  have haqa : mid.bar.aqa = c.bar.aqa := by rw [hbar]
  have hasq : mid.bar.asq = c.bar.asq := by rw [hbar]
  have hacq : mid.bar.acq = c.bar.acq := by rw [hbar]
  simp only [haqa, hasq, hacq, hcc, ne_eq, not_false_eq_true, true_and]
    at hphase hhead hsq hcq
  rw [initial_iff, hphase, hhead, hsq, hcq, set_back_iff, set_back_iff,
    set_back_iff, Bool.or_eq_true, decide_eq_true_iff, hshutdown]
  by_cases hsame : target.aqa = c.bar.aqa
  · simp only [hsame, not_true_eq_false, false_or, ne_eq, or_false]
    grind
  · simp [hsame]

/-- The device before the host has written a register. -/
def powerOn : Controller where
  bar := ⟨0, 0, 0, 0⟩
  oldBar := ⟨0, 0, 0, 0⟩
  rdy := false
  shst := 0
  allocated := false
  dev :=
    { adminQ := ⟨false, 0, 0, 0, none, none⟩
      nrSq := 0
      nrCq := 0
      sqes := fun _ => none
      cqes := fun _ => none
      ns := [⟨.nvm, 0, ⟨0, 0, 0, 0, 0, 0⟩⟩]
      mdts := 5
      virtId := 0
      dbs := fun _ => 0
      oldDbs := fun _ => 0
      host := fun _ => 0
      posted := [] }

/-- Asynchronous event requests with the id 10 in the first slots of a ring at
0x1000. -/
def eventRequests : HostMemory := fun a =>
  if a % sqeSize = 0 then 0x0c else if a % sqeSize = 2 then 10 else 0

/-- The host sets up queues of four entries and enables the device. -/
def enable (aqa : ℕ) : List RegisterEvent :=
  [.aqa aqa, .asq 0x1000, .acq 0x2000, .cc 1]

def rounds (n : ℕ) : List RegisterEvent :=
  List.replicate n (.poll eventRequests)

/-- One command, submitted, completed and acknowledged. -/
def oneCommand : List RegisterEvent :=
  [.doorbell 0 1] ++ rounds 1 ++ [.doorbell 1 1] ++ rounds 1

/-- The device after one admin command. -/
def usedController : Controller :=
  ((enable 0x30003 ++ rounds 4 ++ oneCommand).foldlM controllerStep
    powerOn).getD powerOn

theorem usedController_run :
    (enable 0x30003 ++ rounds 4 ++ oneCommand).foldlM controllerStep powerOn =
      some usedController := by
  have hsome : ((enable 0x30003 ++ rounds 4 ++ oneCommand).foldlM controllerStep
      powerOn).isSome = true := by decide +kernel
  obtain ⟨c, hrun⟩ := Option.isSome_iff_exists.mp hsome
  rw [usedController, hrun, Option.getD_some]

theorem usedController_settled : usedController.Settled where
  allocated_eq := by decide +kernel
  sqDb_eq := by decide +kernel
  cqDb_eq := by decide +kernel
  seen_eq := by decide +kernel

/-- With queues of another size everything is set back. -/
theorem reset_initial_iff_resized :
    ∃ c', (ccEvents [0] eventRequests ++ (enable 0x70007 ++ rounds 2)).foldlM
        controllerStep usedController = some c' ∧ c'.Initial := by
  obtain ⟨c', hrun, hiff⟩ := reset_initial_iff usedController [0]
    ⟨0x70007, 0x1000, 0x2000, 1⟩ eventRequests (enable 0x70007 ++ rounds 2)
    usedController_settled (by decide +kernel)
    (by simp [enable, rounds, RegisterEvent.Towards])
  have hbars : ((ccEvents [0] eventRequests ++ (enable 0x70007 ++
      rounds 2)).foldlM controllerStep usedController).map
        (fun c => (c.bar, c.oldBar)) =
          some (⟨0x70007, 0x1000, 0x2000, 1⟩, ⟨0x70007, 0x1000, 0x2000, 1⟩) := by
    decide +kernel
  rw [hrun, Option.map_some, Option.some.injEq, Prod.mk.injEq] at hbars
  exact ⟨c', hrun, (hiff hbars.1 hbars.2).mpr (.inl (by decide +kernel))⟩

/-- One command is processed, the host clears EN and enables the device again
with the same registers; the device has seen everything and goes on in slot 1. -/
theorem reset_keeps_queue :
    ∃ c c', (enable 0x30003 ++ rounds 4 ++ oneCommand).foldlM controllerStep
        powerOn = some c ∧ c.Settled ∧
      (RegisterEvent.cc 0 :: rounds 1 ++ enable 0x30003 ++ rounds 1).foldlM
        controllerStep c = some c' ∧
      c'.Settled ∧ c'.bar.en = true ∧ c'.dev.adminQ.cqHead = 1 ∧
      c'.dev.oldDbs 0 = 1 ∧ ¬c'.Initial := by
  have hview : ((RegisterEvent.cc 0 :: rounds 1 ++ enable 0x30003 ++
      rounds 1).foldlM controllerStep usedController).map (fun c =>
        (decide (c.allocated = true ∧ c.dev.dbs 0 = c.dev.oldDbs 0 ∧
          c.dev.dbs 1 = c.dev.oldDbs 1 ∧ c.oldBar = c.bar ∧ c.bar.en = true),
          c.dev.adminQ.cqHead, c.dev.oldDbs 0)) =
      some (true, 1, 1) := by decide +kernel
  obtain ⟨c', hrun, heq⟩ := Option.map_eq_some_iff.mp hview
  simp only [Prod.mk.injEq, decide_eq_true_eq] at heq
  obtain ⟨⟨hallocated, hsq, hcq, hseen, hen⟩, hhead, hdb⟩ := heq
  refine ⟨usedController, c', usedController_run, usedController_settled, hrun,
    ⟨⟨hallocated, hsq, hcq⟩, hseen⟩, hen, hhead, hdb, ?_⟩
  intro hinitial
  rw [hinitial.cqHead_eq] at hhead
  exact absurd hhead (by decide)

end NvmeVirt.Admin
