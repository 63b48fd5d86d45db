import NvmeVirt.DualQueue.TaskQueues

/-!
# The nodes of the task queues

Every allocated node has one owner, a queue that it is linked in or a party that
is about to link or to free it.  The nodes of a queue form a ring of the length
that the queue records, and no access leaves the allocated nodes.
-/

namespace NvmeVirt.DualQueue.TaskQueues

open Function RingList NvmeVirt.Csd

inductive Owner (Party : Type)
  | queue (q : Queue)
  | party (p : Party)
  deriving DecidableEq

/-- The node that a call has to itself. -/
def held : Pc → Option ℕ
  | .link _ node _ => some node
  | .fetch node true => some node
  | _ => none

variable {Party : Type} {layout : Layout}

/-- Who owns the nodes. -/
structure Owns (nodes : Queue → List ℕ) (pc : Party → Pc)
    (allocated : Finset ℕ) (owner : ℕ → Option (Owner Party)) : Prop where
  linked : ∀ q node, owner node = some (.queue q) ↔ node ∈ nodes q
  held : ∀ p node, owner node = some (.party p) ↔ held (pc p) = some node
  allocated : ∀ node, node ∈ allocated ↔ owner node ≠ none

/-- One node changes hands. -/
theorem Owns.transfer {nodes nodes' : Queue → List ℕ} {pc pc' : Party → Pc}
    {allocated allocated' : Finset ℕ} {owner : ℕ → Option (Owner Party)}
    (howns : Owns nodes pc allocated owner) (node : ℕ)
    (next : Option (Owner Party))
    (hlinked : ∀ q n, n ∈ nodes' q ↔
      if n = node then next = some (.queue q) else n ∈ nodes q)
    (hheld : ∀ p n, TaskQueues.held (pc' p) = some n ↔
      if n = node then next = some (.party p)
      else TaskQueues.held (pc p) = some n)
    (hallocated : ∀ n, n ∈ allocated' ↔
      if n = node then next ≠ none else n ∈ allocated) :
    Owns nodes' pc' allocated' (update owner node next) := by
  refine ⟨fun q n => ?_, fun p n => ?_, fun n => ?_⟩
  · rw [hlinked, update_apply]
    split
    · rfl
    · exact howns.linked q n
  · rw [hheld, update_apply]
    split
    · rfl
    · exact howns.held p n
  · rw [hallocated, update_apply]
    split
    · rfl
    · exact howns.allocated n

/-- The two rings in memory, with the owners of the nodes. -/
structure Memory (layout : Layout) (st : State Party) (nodes : Queue → List ℕ)
    (owner : ℕ → Option (Owner Party)) : Prop where
  ring : ∀ q, Ring st.cells (layout.head q) (nodes q)
  size : ∀ q, st.size q = (nodes q).length
  owns : Owns nodes st.pc st.allocated owner
  not_head : ∀ node ∈ st.allocated, ∀ q, node ≠ layout.head q
  not_tempHead : ∀ node ∈ st.allocated, node ≠ layout.tempHead
  no_fault : st.fault = false

theorem State.touch_eq {st : State Party} {cells : List ℕ}
    (hcells : ∀ cell ∈ cells, st.accessible layout cell = true) :
    st.touch layout cells = st := by
  have hall : cells.all (st.accessible layout) = true :=
    List.all_eq_true.mpr hcells
  rw [State.touch, hall, Bool.not_true, Bool.or_false]

namespace Memory

variable {st st' : State Party} {nodes : Queue → List ℕ}
  {owner : ℕ → Option (Owner Party)} {p : Party} {q : Queue} {node : ℕ}
  {front back : List ℕ}

theorem mem_allocated (hmem : Memory layout st nodes owner)
    (hnode : node ∈ nodes q) : node ∈ st.allocated := by
  rw [hmem.owns.allocated, (hmem.owns.linked q node).mpr hnode]
  exact Option.some_ne_none _

theorem held_allocated (hmem : Memory layout st nodes owner)
    (hnode : held (st.pc p) = some node) : node ∈ st.allocated := by
  rw [hmem.owns.allocated, (hmem.owns.held p node).mpr hnode]
  exact Option.some_ne_none _

theorem held_not_linked (hmem : Memory layout st nodes owner)
    (hnode : held (st.pc p) = some node) (q : Queue) : node ∉ nodes q := by
  rw [← hmem.owns.linked, (hmem.owns.held p node).mpr hnode]
  simp

theorem accessible (hmem : Memory layout st nodes owner) {cell : ℕ}
    (hcell : cell ∈ layout.head q :: nodes q) :
    st.accessible layout cell = true := by
  rw [State.accessible, Bool.or_eq_true, Bool.or_eq_true, decide_eq_true_iff,
    decide_eq_true_iff, decide_eq_true_iff]
  rcases List.mem_cons.mp hcell with rfl | hcell
  · cases q with
    | normal => exact Or.inl (Or.inr rfl)
    | future => exact Or.inr rfl
  · exact Or.inl (Or.inl (hmem.mem_allocated hcell))

theorem accessible_allocated (hnode : node ∈ st.allocated) :
    st.accessible layout node = true := by
  simp [State.accessible, hnode]

/-- The rings share no cell. -/
theorem disjoint (hmem : Memory layout st nodes owner) {q' : Queue}
    (hne : q ≠ q') :
    (layout.head q :: nodes q).Disjoint (layout.head q' :: nodes q') := by
  intro cell hcell hcell'
  rcases List.mem_cons.mp hcell with rfl | hcell
  · rcases List.mem_cons.mp hcell' with heq | hcell'
    · exact hne (layout.head_injective heq)
    · exact hmem.not_head _ (hmem.mem_allocated hcell') q rfl
  · rcases List.mem_cons.mp hcell' with rfl | hcell'
    · exact hmem.not_head _ (hmem.mem_allocated hcell) q' rfl
    · have howner := (hmem.owns.linked q cell).mpr hcell
      rw [(hmem.owns.linked q' cell).mpr hcell'] at howner
      exact hne (Owner.queue.inj (Option.some.inj howner)).symm

/-- A step that leaves the nodes alone. -/
theorem keep (hmem : Memory layout st nodes owner)
    (hcells : st'.cells = st.cells) (hsize : st'.size = st.size)
    (hallocated : st'.allocated = st.allocated) (hfault : st'.fault = st.fault)
    (hheld : ∀ p, held (st'.pc p) = held (st.pc p)) :
    Memory layout st' nodes owner where
  ring q := hcells ▸ hmem.ring q
  size q := hsize ▸ hmem.size q
  owns :=
    { linked := hmem.owns.linked
      held := fun p node => by rw [hheld]; exact hmem.owns.held p node
      allocated := hallocated ▸ hmem.owns.allocated }
  not_head := hallocated ▸ hmem.not_head
  not_tempHead := hallocated ▸ hmem.not_tempHead
  no_fault := hfault.trans hmem.no_fault

/-- Who holds a node, after a party has changed its place. -/
theorem held_iff (hothers : ∀ p', p' ≠ p → st'.pc p' = st.pc p')
    (hbefore : ∀ n, held (st.pc p) = some n → n = node)
    {next : Option (Owner Party)}
    (hnext : ∀ p', next = some (.party p') → p' = p)
    (hafter : ∀ n, held (st'.pc p) = some n ↔
      n = node ∧ next = some (.party p))
    (hfree : ∀ p', p' ≠ p → held (st.pc p') ≠ some node) (p' : Party)
    (n : ℕ) :
    held (st'.pc p') = some n ↔
      if n = node then next = some (.party p')
      else held (st.pc p') = some n := by
  rcases eq_or_ne p' p with rfl | hp'
  · rw [hafter]
    split
    case isTrue hn => simp [hn]
    case isFalse hn =>
      exact iff_of_false (fun h => hn h.1) (fun h => hn (hbefore n h))
  · rw [hothers p' hp']
    split
    case isTrue hn =>
      subst hn
      exact iff_of_false (hfree p' hp') (fun h => hp' (hnext p' h))
    case isFalse hn => rfl

theorem held_unique (hmem : Memory layout st nodes owner)
    (hnode : held (st.pc p) = some node) {p' : Party} (hp' : p' ≠ p) :
    held (st.pc p') ≠ some node := by
  intro hother
  have howner := (hmem.owns.held p node).mpr hnode
  rw [(hmem.owns.held p' node).mpr hother] at howner
  exact hp' (Owner.party.inj (Option.some.inj howner))

theorem linked_not_held (hmem : Memory layout st nodes owner)
    (hnode : node ∈ nodes q) (p : Party) : held (st.pc p) ≠ some node :=
  fun hheld => hmem.held_not_linked hheld q hnode

/-- `kmalloc` gives a node to a party. -/
theorem alloc (hmem : Memory layout st nodes owner)
    (hfresh : fresh layout st node = true)
    (hcells : st'.cells = st.cells) (hsize : st'.size = st.size)
    (hallocated : st'.allocated = insert node st.allocated)
    (hfault : st'.fault = st.fault)
    (hothers : ∀ p', p' ≠ p → st'.pc p' = st.pc p')
    (hbefore : held (st.pc p) = none) (hafter : held (st'.pc p) = some node) :
    Memory layout st' nodes (update owner node (some (.party p))) := by
  simp only [fresh, State.accessible, Bool.and_eq_true, Bool.not_eq_true',
    Bool.or_eq_false_iff, decide_eq_false_iff_not, decide_eq_true_iff] at hfresh
  obtain ⟨⟨⟨hnew, hnormal⟩, hfuture⟩, htemp⟩ := hfresh
  refine ⟨hcells ▸ hmem.ring, hsize ▸ hmem.size, ?_, ?_, ?_,
    hfault.trans hmem.no_fault⟩
  · refine hmem.owns.transfer node _ (fun q n => ?_)
      (held_iff hothers (fun n hn => by simp [hbefore] at hn) (fun p' hp' => ?_)
        (fun n => ?_) (fun p' _ hheld => hnew (hmem.held_allocated hheld)))
      (fun n => ?_)
    · split
      case isTrue hn =>
        subst hn
        exact iff_of_false (fun h => hnew (hmem.mem_allocated h)) (by simp)
      case isFalse hn => rfl
    · exact (Owner.party.inj (Option.some.inj hp')).symm
    · rw [hafter]
      simp [eq_comm]
    · rw [hallocated, Finset.mem_insert]
      split
      case isTrue hn => simp [hn]
      case isFalse hn => simp [hn]
  · intro n hn q
    rw [hallocated, Finset.mem_insert] at hn
    rcases hn with rfl | hn
    · cases q with
      | normal => exact hnormal
      | future => exact hfuture
    · exact hmem.not_head n hn q
  · intro n hn
    rw [hallocated, Finset.mem_insert] at hn
    rcases hn with rfl | hn
    · exact htemp
    · exact hmem.not_tempHead n hn

/-- The ring of a queue changes, and the links of the other one stay. -/
theorem ring_update (hmem : Memory layout st nodes owner) {cells : Cells}
    {entries : List ℕ} (hring : Ring cells (layout.head q) entries)
    (hframe : ∀ q', q' ≠ q → ∀ cell ∈ layout.head q' :: nodes q',
      cells.next cell = st.cells.next cell ∧
        cells.prev cell = st.cells.prev cell) (q' : Queue) :
    Ring cells (layout.head q') (update nodes q entries q') := by
  rcases eq_or_ne q' q with rfl | hq'
  · rw [update_self]
    exact hring
  · rw [update_of_ne hq']
    exact (hmem.ring q').congr (fun cell hcell => (hframe q' hq' cell hcell).1)
      (fun cell hcell => (hframe q' hq' cell hcell).2)

theorem size_update (hmem : Memory layout st nodes owner) {entries : List ℕ}
    {size : ℤ} (hsize : size = entries.length) (q' : Queue) :
    update st.size q size q' = (update nodes q entries q').length := by
  rcases eq_or_ne q' q with rfl | hq'
  · rw [update_self, update_self]
    exact hsize
  · rw [update_of_ne hq', update_of_ne hq']
    exact hmem.size q'

/-- The cells that `list_add_tail` and `list_del` write. -/
theorem linkNode_eq (hmem : Memory layout st nodes owner)
    (hnode : held (st.pc p) = some node) :
    st.linkNode layout q node = { st with
      cells := st.cells.listAddTail node (layout.head q)
      size := update st.size q (st.size q + 1) } := by
  have htouch := @State.touch_eq Party layout st
    [node, st.cells.prev (layout.head q)] (by
      intro cell hcell
      rcases List.mem_cons.mp hcell with rfl | hcell
      · exact accessible_allocated (hmem.held_allocated hnode)
      · rw [List.mem_singleton.mp hcell]
        exact hmem.accessible ((hmem.ring q).prev_mem List.mem_cons_self))
  rw [State.linkNode, htouch]

theorem unlinkNode_eq (hmem : Memory layout st nodes owner)
    (hnodes : nodes q = front ++ node :: back) :
    st.unlinkNode layout q node = { st with
      cells := st.cells.listDel layout.poisonNext layout.poisonPrev node
      size := update st.size q (st.size q - 1) } := by
  have hnode : node ∈ layout.head q :: nodes q := by simp [hnodes]
  have htouch := @State.touch_eq Party layout st
    [node, st.cells.next node, st.cells.prev node] (by
      intro cell hcell
      rcases List.mem_cons.mp hcell with rfl | hcell
      · exact hmem.accessible hnode
      rcases List.mem_cons.mp hcell with rfl | hcell
      · exact hmem.accessible ((hmem.ring q).next_mem hnode)
      · rw [List.mem_singleton.mp hcell]
        exact hmem.accessible ((hmem.ring q).prev_mem hnode))
  rw [State.unlinkNode, htouch]

/-- A party links the node that it holds. -/
theorem link (hmem : Memory layout st nodes owner)
    (hnode : held (st.pc p) = some node)
    (hcells : st'.cells = st.cells.listAddTail node (layout.head q))
    (hsize : st'.size = update st.size q (st.size q + 1))
    (hallocated : st'.allocated = st.allocated) (hfault : st'.fault = st.fault)
    (hothers : ∀ p', p' ≠ p → st'.pc p' = st.pc p')
    (hafter : held (st'.pc p) = none) :
    Memory layout st' (update nodes q (nodes q ++ [node]))
      (update owner node (some (.queue q))) := by
  have hmem_node := hmem.held_allocated hnode
  have hnot : ∀ q, node ∉ layout.head q :: nodes q := fun q hcell =>
    (List.mem_cons.mp hcell).elim (hmem.not_head node hmem_node q)
      (hmem.held_not_linked hnode q)
  refine ⟨?_, ?_, ?_, hallocated ▸ hmem.not_head,
    hallocated ▸ hmem.not_tempHead, hfault.trans hmem.no_fault⟩
  · rw [hcells]
    refine hmem.ring_update ((hmem.ring q).addTail (hnot q)) ?_
    intro q' hq' cell hcell
    exact (hmem.ring q).addTail_frame (hmem.disjoint hq' hcell)
      (ne_of_mem_of_not_mem hcell (hnot q'))
  · rw [hsize]
    refine hmem.size_update ?_
    rw [hmem.size, List.length_append, List.length_singleton, Nat.cast_succ]
  · refine hmem.owns.transfer node _ (fun q' n => ?_)
      (held_iff hothers (fun n hn => ?_) (fun p' hp' => ?_) (fun n => ?_)
        (fun p' hp' => hmem.held_unique hnode hp')) (fun n => ?_)
    · rcases eq_or_ne q' q with rfl | hq'
      · rw [update_self, List.mem_append, List.mem_singleton]
        split
        case isTrue hn => simp [hn]
        case isFalse hn => simp [hn]
      · rw [update_of_ne hq']
        split
        case isTrue hn =>
          rw [hn]
          exact iff_of_false (hmem.held_not_linked hnode q')
            (fun heq => hq' (Owner.queue.inj (Option.some.inj heq)).symm)
        case isFalse hn => rfl
    · exact (Option.some.inj (hnode.symm.trans hn)).symm
    · exact absurd hp' (by simp)
    · simp [hafter]
    · rw [hallocated]
      split
      case isTrue hn => simp [hn, hmem_node]
      case isFalse hn => rfl

/-- A party takes a node out of its queue. -/
theorem unlink (hmem : Memory layout st nodes owner)
    (hnodes : nodes q = front ++ node :: back)
    (hcells : st'.cells =
      st.cells.listDel layout.poisonNext layout.poisonPrev node)
    (hsize : st'.size = update st.size q (st.size q - 1))
    (hallocated : st'.allocated = st.allocated) (hfault : st'.fault = st.fault)
    (hothers : ∀ p', p' ≠ p → st'.pc p' = st.pc p')
    (hbefore : held (st.pc p) = none) (hafter : held (st'.pc p) = some node) :
    Memory layout st' (update nodes q (front ++ back))
      (update owner node (some (.party p))) := by
  have hring := hmem.ring q
  have hlinked : node ∈ nodes q := by simp [hnodes]
  rw [hnodes] at hring
  refine ⟨?_, ?_, ?_, hallocated ▸ hmem.not_head,
    hallocated ▸ hmem.not_tempHead, hfault.trans hmem.no_fault⟩
  · rw [hcells]
    refine hmem.ring_update (hring.del _ _) ?_
    intro q' hq' cell hcell
    refine hring.del_frame _ _ ?_
    rw [← hnodes]
    exact hmem.disjoint hq' hcell
  · rw [hsize]
    refine hmem.size_update ?_
    rw [hmem.size, hnodes]
    simp only [List.length_append, List.length_cons]
    omega
  · refine hmem.owns.transfer node _ (fun q' n => ?_)
      (held_iff hothers (fun n hn => by simp [hbefore] at hn) (fun p' hp' => ?_)
        (fun n => ?_) (fun p' _ => hmem.linked_not_held hlinked p'))
      (fun n => ?_)
    · have hnodup := (List.nodup_cons.mp hring.nodup).2
      rw [List.nodup_middle, List.nodup_cons] at hnodup
      rcases eq_or_ne q' q with rfl | hq'
      · rw [update_self, hnodes]
        split
        case isTrue hn =>
          rw [hn]
          exact iff_of_false hnodup.1 (by simp)
        case isFalse hn => simp [hn]
      · rw [update_of_ne hq']
        split
        case isTrue hn =>
          rw [hn]
          refine iff_of_false (fun hmem' => ?_) (by simp)
          exact hmem.disjoint hq' (List.mem_cons_of_mem _ hmem')
            (List.mem_cons_of_mem _ hlinked)
        case isFalse hn => rfl
    · exact (Owner.party.inj (Option.some.inj hp')).symm
    · rw [hafter]
      simp [eq_comm]
    · rw [hallocated]
      split
      case isTrue hn => simp [hn, hmem.mem_allocated hlinked]
      case isFalse hn => rfl

/-- A party frees the node that it holds. -/
theorem free (hmem : Memory layout st nodes owner)
    (hnode : held (st.pc p) = some node)
    (hcells : st'.cells = st.cells) (hsize : st'.size = st.size)
    (hallocated : st'.allocated = st.allocated.erase node)
    (hfault : st'.fault = st.fault)
    (hothers : ∀ p', p' ≠ p → st'.pc p' = st.pc p')
    (hafter : held (st'.pc p) = none) :
    Memory layout st' nodes (update owner node none) := by
  refine ⟨hcells ▸ hmem.ring, hsize ▸ hmem.size, ?_, ?_, ?_,
    hfault.trans hmem.no_fault⟩
  · refine hmem.owns.transfer node _ (fun q n => ?_)
      (held_iff hothers (fun n hn => ?_) (fun p' hp' => ?_) (fun n => ?_)
        (fun p' hp' => hmem.held_unique hnode hp')) (fun n => ?_)
    · split
      case isTrue hn =>
        rw [hn]
        exact iff_of_false (hmem.held_not_linked hnode q) (by simp)
      case isFalse hn => rfl
    · exact (Option.some.inj (hnode.symm.trans hn)).symm
    · exact absurd hp' (by simp)
    · simp [hafter]
    · rw [hallocated, Finset.mem_erase]
      split
      case isTrue hn => simp [hn]
      case isFalse hn => simp [hn]
  · rw [hallocated]
    exact fun n hn => hmem.not_head n (Finset.mem_of_mem_erase hn)
  · rw [hallocated]
    exact fun n hn => hmem.not_tempHead n (Finset.mem_of_mem_erase hn)

theorem free_eq (hnode : node ∈ st.allocated) :
    st.free layout node =
      { st with allocated := st.allocated.erase node } := by
  rw [State.free, State.touch_eq]
  intro cell hcell
  rw [List.mem_singleton.mp hcell]
  exact accessible_allocated hnode

theorem swapHeads_eq (hmem : Memory layout st nodes owner) :
    st.swapHeads layout = { st with
      cells := (((st.cells.initListHead layout.tempHead).listReplaceInit
        (layout.head .normal) layout.tempHead).listReplaceInit
          (layout.head .future) (layout.head .normal)).listReplaceInit
            layout.tempHead (layout.head .future)
      size := exchange st.size } := by
  rw [State.swapHeads, State.touch_eq]
  intro cell hcell
  obtain ⟨q, -, hcell⟩ := List.mem_flatMap.mp hcell
  rcases List.mem_cons.mp hcell with rfl | hcell
  · exact hmem.accessible ((hmem.ring q).next_mem List.mem_cons_self)
  · rw [List.mem_singleton.mp hcell]
    exact hmem.accessible ((hmem.ring q).prev_mem List.mem_cons_self)

/-- A party takes a node out of its queue and frees it. -/
theorem unlink_free (hmem : Memory layout st nodes owner)
    (hnodes : nodes q = front ++ node :: back)
    (hcells : st'.cells =
      st.cells.listDel layout.poisonNext layout.poisonPrev node)
    (hsize : st'.size = update st.size q (st.size q - 1))
    (hallocated : st'.allocated = st.allocated.erase node)
    (hfault : st'.fault = st.fault)
    (hothers : ∀ p', p' ≠ p → st'.pc p' = st.pc p')
    (hbefore : held (st.pc p) = none) (hafter : held (st'.pc p) = none) :
    Memory layout st' (update nodes q (front ++ back))
      (update (update owner node (some (.party p))) node none) := by
  classical
  have hself := update_self p (Pc.fetch node true) st.pc
  have hunlinked := @unlink Party layout st
    { st with
      cells := st'.cells
      size := st'.size
      pc := update st.pc p (.fetch node true) }
    nodes owner p q node front back hmem hnodes hcells hsize rfl rfl
    (fun p' hne => update_of_ne hne ..) hbefore (congrArg held hself)
  exact hunlinked.free (congrArg held hself) rfl rfl hallocated hfault
    (fun p' hne => (hothers p' hne).trans (update_of_ne hne ..).symm) hafter

/-- The queues exchange their nodes. -/
theorem swap (hmem : Memory layout st nodes owner)
    (hcells : st'.cells = (st.swapHeads layout).cells)
    (hsize : st'.size = exchange st.size)
    (hallocated : st'.allocated = st.allocated) (hfault : st'.fault = st.fault)
    (hheld : ∀ p, held (st'.pc p) = held (st.pc p)) :
    Memory layout st' (exchange nodes) fun node =>
      (owner node).map fun
        | .queue q => .queue (exchange id q)
        | .party p => .party p := by
  have htemp : ∀ q, layout.tempHead ∉ layout.head q :: nodes q :=
    fun q hcell => (List.mem_cons.mp hcell).elim (layout.tempHead_ne q)
      (fun hcell => hmem.not_tempHead _ (hmem.mem_allocated hcell) rfl)
  rw [hmem.swapHeads_eq] at hcells
  obtain ⟨hnormal, hfuture⟩ := (hmem.ring .normal).exchange (hmem.ring .future)
    (hmem.disjoint (by decide)) (htemp .normal) (htemp .future)
  refine ⟨fun q => ?_, fun q => ?_, ⟨fun q node => ?_, fun p node => ?_,
    fun node => ?_⟩, hallocated ▸ hmem.not_head, hallocated ▸ hmem.not_tempHead,
    hfault.trans hmem.no_fault⟩
  · rw [hcells]
    cases q with
    | normal => exact hnormal
    | future => exact hfuture
  · rw [hsize]
    cases q with
    | normal => exact hmem.size .future
    | future => exact hmem.size .normal
  · have hlinked := hmem.owns.linked (exchange id q) node
    cases hnode : owner node with
    | none => cases q <;> simpa [exchange, hnode] using hlinked
    | some one =>
        cases one with
        | queue q' =>
            cases q <;> cases q' <;> simpa [exchange, hnode] using hlinked
        | party p => cases q <;> simpa [exchange, hnode] using hlinked
  · rw [hheld, ← hmem.owns.held]
    cases hnode : owner node with
    | none => simp
    | some one =>
        cases one with
        | queue q => simp
        | party p => simp
  · rw [hallocated, hmem.owns.allocated]
    exact not_congr Option.map_eq_none_iff.symm

theorem eq_nil_of_head (hmem : Memory layout st nodes owner)
    {back : List ℕ} (hback : ∀ node ∈ back, node ∈ nodes q)
    (hcell : layout.head q = back.headD (layout.head q)) : back = [] := by
  cases back with
  | nil => rfl
  | cons entry rest =>
      have hentry := hmem.mem_allocated (hback entry List.mem_cons_self)
      exact absurd hcell.symm (hmem.not_head entry hentry q)

/-- The link of a node leads to the next one that a loop visits. -/
theorem scanLink_eq (hmem : Memory layout st nodes owner)
    {rowOverlap cell : ℕ} {front rest : List ℕ}
    (hnodes : visits rowOverlap (nodes q) = front ++ cell :: rest) :
    scanLink st.cells rowOverlap cell = rest.headD (layout.head q) := by
  have hring := hmem.ring q
  rw [visits] at hnodes
  rw [scanLink]
  split at hnodes
  case isTrue htwo =>
    rw [List.reverse_eq_iff, List.reverse_append, List.reverse_cons,
      List.append_assoc, List.singleton_append] at hnodes
    rw [hnodes] at hring
    rw [if_pos htwo, hring.prev_entry]
    simp [List.headD_eq_head?_getD, List.getLastD_eq_getLast?]
  case isFalse htwo =>
    rw [hnodes] at hring
    rw [if_neg htwo, hring.next_entry]

theorem scanLink_head (hmem : Memory layout st nodes owner)
    (rowOverlap : ℕ) (q : Queue) :
    scanLink st.cells rowOverlap (layout.head q) =
      (visits rowOverlap (nodes q)).headD (layout.head q) := by
  rw [scanLink, visits]
  split
  · rw [(hmem.ring q).prev_head]
    simp [List.headD_eq_head?_getD, List.getLastD_eq_getLast?]
  · exact (hmem.ring q).next_head

end Memory

end NvmeVirt.DualQueue.TaskQueues
