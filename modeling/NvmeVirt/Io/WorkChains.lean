import NvmeVirt.Io.WorkQueue

/-!
# The two lists of a work queue

The free list and the busy list partition the entries of the queue whatever the
dispatcher and the worker do.  The busy list can be walked in both directions,
and it is sorted by target time up to entries that have already expired.
-/

namespace NvmeVirt.Io

open IndexList Interleaving

/-- An entry without its links. -/
def IoWork.unlinked (work : IoWork) : IoWork :=
  { work with next := 0, prev := 0 }

namespace IoWorker

section Setters

variable (worker : IoWorker) (entry value : ℕ)

theorem next_setWork (work : IoWork) :
    (worker.setWork entry work).next =
      Function.update worker.next entry work.next :=
  Function.comp_update IoWork.next worker.workQueue entry work

theorem prev_setWork (work : IoWork) :
    (worker.setWork entry work).prev =
      Function.update worker.prev entry work.prev :=
  Function.comp_update IoWork.prev worker.workQueue entry work

theorem target_setWork (work : IoWork) :
    (worker.setWork entry work).target =
      Function.update worker.target entry work.nsecsTarget :=
  Function.comp_update IoWork.nsecsTarget worker.workQueue entry work

/-- What an entry carries besides its links. -/
def content (worker : IoWorker) (entry : ℕ) : IoWork :=
  (worker.workQueue entry).unlinked

theorem content_setWork (work : IoWork) :
    (worker.setWork entry work).content =
      Function.update worker.content entry work.unlinked :=
  Function.comp_update IoWork.unlinked worker.workQueue entry work

@[simp]
theorem next_setNext :
    (worker.setNext entry value).next =
      Function.update worker.next entry value :=
  next_setWork ..

@[simp]
theorem prev_setNext : (worker.setNext entry value).prev = worker.prev := by
  rw [setNext, prev_setWork]
  exact Function.update_eq_self entry worker.prev

@[simp]
theorem next_setPrev : (worker.setPrev entry value).next = worker.next := by
  rw [setPrev, next_setWork]
  exact Function.update_eq_self entry worker.next

@[simp]
theorem prev_setPrev :
    (worker.setPrev entry value).prev =
      Function.update worker.prev entry value :=
  prev_setWork ..

@[simp]
theorem content_setNext :
    (worker.setNext entry value).content = worker.content := by
  rw [setNext, content_setWork]
  exact Function.update_eq_self entry worker.content

@[simp]
theorem content_setPrev :
    (worker.setPrev entry value).content = worker.content := by
  rw [setPrev, content_setWork]
  exact Function.update_eq_self entry worker.content

end Setters

theorem target_eq_of_content {worker worker' : IoWorker}
    (hcontent : worker'.content = worker.content) :
    worker'.target = worker.target := by
  funext entry
  have hentry := congrArg IoWork.nsecsTarget (congrFun hcontent entry)
  exact hentry

/-- Neighbours in the busy list are in order, or the first one has expired. -/
def InOrder (worker : IoWorker) (entry entry' : ℕ) : Prop :=
  worker.target entry ≤ worker.target entry' ∨
    worker.target entry ≤ worker.latestNsecs

/-- The busy list: forwards, backwards, and in order. -/
structure Busy (worker : IoWorker) (busy : List ℕ) : Prop where
  links : Links worker.next worker.ioSeq busy noEntry
  back : busy ≠ [] → Links worker.prev worker.ioSeqEnd busy.reverse noEntry
  ordered : busy.IsChain worker.InOrder
  nodup : busy.Nodup
  entries : ∀ entry ∈ busy, entry < nrMaxParallelIo

/-- The free list. -/
structure Free (worker : IoWorker) (free : List ℕ) : Prop where
  links : Links worker.next worker.freeSeq free noEntry
  last : free.getLast? = some worker.freeSeqEnd

/-- The two lists share the entries of the queue. -/
structure Chained (worker : IoWorker) (free busy : List ℕ) : Prop where
  onFree : worker.Free free
  onBusy : worker.Busy busy
  perm : (free ++ busy).Perm (List.range nrMaxParallelIo)

theorem ne_noEntry {entry : ℕ} (hentry : entry < nrMaxParallelIo) :
    entry ≠ noEntry :=
  (hentry.trans nrMaxParallelIo_lt_noEntry).ne

section FindPosition

variable (worker : IoWorker) (nsecsTarget : ℕ)

/-- The scan splits the list at the entry it stops at. -/
theorem findPosition_spec {fuel curr : ℕ} {entries : List ℕ}
    (hlinks : Links worker.prev curr entries noEntry)
    (hentries : ∀ entry ∈ entries, entry < nrMaxParallelIo)
    (hfuel : entries.length ≤ fuel) :
    ∃ later earlier, entries = later ++ earlier ∧
      Links worker.prev (worker.findPosition nsecsTarget fuel curr) earlier
        noEntry ∧
      (∀ entry ∈ later, worker.latestNsecs < worker.target entry ∧
        nsecsTarget < worker.target entry) ∧
      ∀ entry ∈ earlier.head?, worker.target entry ≤ nsecsTarget ∨
        worker.target entry ≤ worker.latestNsecs := by
  induction fuel generalizing curr entries with
  | zero =>
      have hempty : entries = [] := List.eq_nil_of_length_eq_zero (by omega)
      subst hempty
      exact ⟨[], [], rfl, hlinks, by simp, by simp⟩
  | succ fuel ih =>
      rw [findPosition]
      cases entries with
      | nil =>
          have hcurr : curr = noEntry := hlinks
          rw [if_pos hcurr]
          exact ⟨[], [], rfl, hlinks, by simp, by simp⟩
      | cons entry rest =>
          obtain ⟨rfl, hrest⟩ := hlinks
          have hcurr := hentries curr List.mem_cons_self
          rw [if_neg (ne_noEntry hcurr)]
          split
          next hexpired =>
            exact ⟨[], curr :: rest, rfl, ⟨rfl, hrest⟩, by simp,
              by simp [hexpired]⟩
          next hlate =>
          split
          next hdue =>
            exact ⟨[], curr :: rest, rfl, ⟨rfl, hrest⟩, by simp, by simp [hdue]⟩
          next hafter =>
            rw [List.length_cons, Nat.add_le_add_iff_right] at hfuel
            obtain ⟨later, earlier, rfl, hposition, hlater, hearlier⟩ := ih hrest
              (fun other hother => hentries other (List.mem_cons_of_mem _ hother))
              hfuel
            refine ⟨curr :: later, earlier, rfl, hposition, ?_, hearlier⟩
            intro other hother
            rcases List.mem_cons.mp hother with rfl | hother
            · exact ⟨not_le.mp hlate, not_le.mp hafter⟩
            · exact hlater other hother

end FindPosition

theorem isChain_insert {relation : ℕ → ℕ → Prop} {front back : List ℕ}
    {entry : ℕ} (hchain : (front ++ back).IsChain relation)
    (hfront : ∀ other ∈ front.getLast?, relation other entry)
    (hback : ∀ other ∈ back.head?, relation entry other) :
    (front ++ entry :: back).IsChain relation := by
  obtain ⟨hleft, hright, -⟩ := List.isChain_append.mp hchain
  refine List.isChain_append.mpr ⟨hleft, ?_, by simpa using hfront⟩
  exact List.isChain_cons.mpr ⟨hback, hright⟩

theorem Busy.eq_nil {worker : IoWorker} {busy : List ℕ}
    (hbusy : worker.Busy busy) : busy = [] ↔ worker.ioSeq = noEntry := by
  have hlinks := hbusy.links
  cases busy with
  | nil => exact iff_of_true rfl hlinks
  | cons entry rest =>
      refine iff_of_false (by simp) ?_
      rw [hlinks.1]
      exact ne_noEntry (hbusy.entries entry List.mem_cons_self)

theorem Busy.length_le {worker : IoWorker} {busy : List ℕ}
    (hbusy : worker.Busy busy) : busy.length ≤ nrMaxParallelIo := by
  have hsubset : busy ⊆ List.range nrMaxParallelIo := fun entry hentry =>
    List.mem_range.mpr (hbusy.entries entry hentry)
  simpa using (hbusy.nodup.subperm hsubset).length_le

/-- What inserting an entry leaves alone. -/
structure Inserts (worker worker' : IoWorker) (entry : ℕ) (busy : List ℕ) :
    Prop where
  content_eq : worker'.content = worker.content
  latestNsecs_eq : worker'.latestNsecs = worker.latestNsecs
  freeSeq_eq : worker'.freeSeq = worker.freeSeq
  freeSeqEnd_eq : worker'.freeSeqEnd = worker.freeSeqEnd
  next_eq : ∀ other, other ∉ entry :: busy →
    worker'.next other = worker.next other

theorem inOrder_eq {worker worker' : IoWorker}
    (hcontent : worker'.content = worker.content)
    (hlatest : worker'.latestNsecs = worker.latestNsecs) :
    worker'.InOrder = worker.InOrder := by
  funext entry entry'
  rw [InOrder, InOrder, target_eq_of_content hcontent, hlatest]

section Insert

variable {worker : IoWorker} {busy : List ℕ} {entry : ℕ}
  (hbusy : worker.Busy busy) (hentry : entry < nrMaxParallelIo)
  (hnew : entry ∉ busy) (hnext : worker.next entry = noEntry)
  (hprev : worker.prev entry = noEntry)
include hbusy hentry hnew

/-- The lists that the insertion links up form a busy list. -/
theorem Inserts.toBusy (front back : List ℕ) {worker' : IoWorker}
    (hinserts : worker.Inserts worker' entry busy)
    (hsplit : busy = front ++ back)
    (hlinks : Links worker'.next worker'.ioSeq (front ++ entry :: back) noEntry)
    (hback : Links worker'.prev worker'.ioSeqEnd
      (front ++ entry :: back).reverse noEntry)
    (hleft : ∀ other ∈ front.getLast?, worker.InOrder other entry)
    (hright : ∀ other ∈ back.head?, worker.InOrder entry other) :
    worker'.Busy (front ++ entry :: back) := by
  have hperm : (front ++ entry :: back).Perm (entry :: busy) :=
    hsplit ▸ List.perm_middle
  refine ⟨hlinks, fun _ => hback, ?_, ?_, ?_⟩
  · rw [inOrder_eq hinserts.content_eq hinserts.latestNsecs_eq]
    exact isChain_insert (hsplit ▸ hbusy.ordered) hleft hright
  · exact hperm.nodup_iff.mpr (List.nodup_cons.mpr ⟨hnew, hbusy.nodup⟩)
  · intro other hother
    rcases List.mem_cons.mp (hperm.mem_iff.mp hother) with rfl | hother
    · exact hentry
    · exact hbusy.entries other hother

include hprev in
/-- Insertion in front of every entry of the list. -/
theorem insert_head (hne : busy ≠ [])
    (hright : ∀ other ∈ busy.head?, worker.InOrder entry other) :
    let worker' := { (worker.setPrev worker.ioSeq entry).setNext entry
      worker.ioSeq with ioSeq := entry }
    worker'.Busy (entry :: busy) ∧ worker.Inserts worker' entry busy := by
  intro worker'
  obtain ⟨first, rest, rfl⟩ := List.exists_cons_of_ne_nil hne
  have hfirst : worker.ioSeq = first := hbusy.links.1
  have hnext : worker'.next =
      Function.update worker.next entry worker.ioSeq := by
    exact (next_setNext ..).trans (by rw [next_setPrev])
  have hprev' : worker'.prev = Function.update worker.prev first entry := by
    exact (prev_setNext ..).trans (by rw [prev_setPrev, hfirst])
  have hinserts : worker.Inserts worker' entry (first :: rest) := by
    refine ⟨?_, rfl, rfl, rfl, ?_⟩
    · exact (content_setNext ..).trans (content_setPrev ..)
    · intro other hother
      rw [hnext, Function.update_of_ne]
      exact fun heq => hother (heq ▸ List.mem_cons_self)
  refine ⟨Inserts.toBusy hbusy hentry hnew [] _ hinserts rfl ?_ ?_ (by simp)
    hright, hinserts⟩
  · rw [hnext]
    exact hbusy.links.push hnew
  · have hback := hbusy.back hne
    have hnodup := List.nodup_reverse.mpr hbusy.nodup
    have hnew' := List.mem_reverse.not.mpr hnew
    rw [List.reverse_cons] at hback hnodup hnew'
    have hfirstPrev := (Links.concat_iff.mp hback).2
    have hsame : Function.update worker.prev entry (worker.prev first) =
        worker.prev := by
      rw [hfirstPrev, ← hprev, Function.update_eq_self]
    have hinsert := hback.insert_after hnodup hnew'
    rw [hsame] at hinsert
    rw [hprev']
    change Links _ worker.ioSeqEnd _ _
    simpa using hinsert

include hnext in
/-- Insertion behind the last entry. -/
theorem insert_tail {front : List ℕ} {curr : ℕ}
    (hsplit : busy = front ++ [curr]) (hleft : worker.InOrder curr entry) :
    let worker' := { (worker.setPrev entry curr).setNext curr entry with
      ioSeqEnd := entry }
    worker'.Busy (front ++ [curr, entry]) ∧
      worker.Inserts worker' entry busy := by
  intro worker'
  subst hsplit
  have hnext' : worker'.next = Function.update worker.next curr entry := by
    exact (next_setNext ..).trans (by rw [next_setPrev])
  have hprev' : worker'.prev = Function.update worker.prev entry curr := by
    exact (prev_setNext ..).trans (prev_setPrev ..)
  have hinserts : worker.Inserts worker' entry (front ++ [curr]) := by
    refine ⟨?_, rfl, rfl, rfl, ?_⟩
    · exact (content_setNext ..).trans (content_setPrev ..)
    · intro other hother
      rw [hnext', Function.update_of_ne]
      rintro rfl
      simp at hother
  have hbusy' := Inserts.toBusy hbusy hentry hnew (front ++ [curr]) [] hinserts
    (by simp) ?_ ?_ (by simpa using hleft) (by simp)
  · exact ⟨by simpa using hbusy', hinserts⟩
  · have hcurr := (Links.concat_iff.mp hbusy.links).2
    have hsame : Function.update worker.next entry (worker.next curr) =
        worker.next := by
      rw [hcurr, ← hnext, Function.update_eq_self]
    have hinsert := hbusy.links.insert_after hbusy.nodup hnew
    rw [hsame] at hinsert
    rw [hnext']
    change Links _ worker.ioSeq _ _
    simpa using hinsert
  · have hback := hbusy.back (by simp)
    rw [List.reverse_append, List.reverse_singleton, List.singleton_append]
      at hback
    have hpush := hback.push (show entry ∉ curr :: front.reverse by
      simpa [and_comm] using hnew)
    rw [hback.1] at hpush
    rw [hprev']
    simpa using hpush

/-- Insertion between two entries. -/
theorem insert_between {front back : List ℕ} {curr follower : ℕ}
    (hsplit : busy = front ++ curr :: follower :: back)
    (hleft : worker.InOrder curr entry)
    (hright : worker.InOrder entry follower) :
    let worker₁ := (worker.setPrev entry curr).setNext entry (worker.next curr)
    let worker' := (worker₁.setPrev (worker₁.next entry) entry).setNext curr
      entry
    worker'.Busy (front ++ curr :: entry :: follower :: back) ∧
      worker.Inserts worker' entry busy := by
  intro worker₁ worker'
  subst hsplit
  have hfollower : worker.next curr = follower := by
    obtain ⟨_, -, -, hlinks⟩ := Links.append_iff.mp hbusy.links
    exact hlinks.1
  have hnext₁ : worker₁.next =
      Function.update worker.next entry (worker.next curr) :=
    (next_setNext ..).trans (by rw [next_setPrev])
  have hnext' : worker'.next = Function.update (Function.update worker.next
      entry (worker.next curr)) curr entry :=
    (next_setNext ..).trans (by rw [next_setPrev, hnext₁])
  have hprev' : worker'.prev = Function.update (Function.update worker.prev
      entry curr) follower entry := by
    refine (prev_setNext ..).trans ?_
    rw [prev_setPrev, hnext₁, Function.update_self, hfollower]
    exact congrArg (Function.update · follower entry)
      ((prev_setNext ..).trans (prev_setPrev ..))
  have hinserts : worker.Inserts worker' entry
      (front ++ curr :: follower :: back) := by
    refine ⟨?_, rfl, rfl, rfl, ?_⟩
    · simp only [worker', worker₁, content_setNext, content_setPrev]
    · intro other hother
      rw [hnext', Function.update_of_ne, Function.update_of_ne]
      · rintro rfl
        simp at hother
      · rintro rfl
        simp at hother
  have hbusy' := Inserts.toBusy hbusy hentry hnew (front ++ [curr])
    (follower :: back) hinserts (by simp) ?_ ?_ (by simpa using hleft)
    (by simpa using hright)
  · exact ⟨by simpa using hbusy', hinserts⟩
  · rw [hnext']
    change Links _ worker.ioSeq _ _
    simpa using hbusy.links.insert_after hbusy.nodup hnew
  · have hback := hbusy.back (by simp)
    have hnodup := List.nodup_reverse.mpr hbusy.nodup
    have hnew' := List.mem_reverse.not.mpr hnew
    have hreverse : (front ++ curr :: follower :: back).reverse =
        back.reverse ++ follower :: curr :: front.reverse := by simp
    rw [hreverse] at hback hnodup hnew'
    have hcurr : worker.prev follower = curr := by
      obtain ⟨_, -, -, hlinks⟩ := Links.append_iff.mp hback
      exact hlinks.1
    have hinsert := hback.insert_after hnodup hnew'
    rw [hcurr] at hinsert
    rw [hprev']
    change Links _ worker.ioSeqEnd _ _
    simpa using hinsert

include hnext hprev in
theorem insertReqSorted_spec :
    ∃ front back, busy = front ++ back ∧
      (insertReqSorted entry worker (worker.target entry)).Busy
        (front ++ entry :: back) ∧
      worker.Inserts (insertReqSorted entry worker (worker.target entry)) entry
        busy := by
  by_cases hempty : busy = []
  · have hioSeq := hbusy.eq_nil.mp hempty
    subst hempty
    refine ⟨[], [], rfl, ?_, ?_⟩
    · rw [insertReqSorted, if_pos hioSeq]
      exact ⟨⟨rfl, hnext⟩, fun _ => ⟨rfl, hprev⟩, by simp, by simp, by simpa⟩
    · rw [insertReqSorted, if_pos hioSeq]
      exact ⟨rfl, rfl, rfl, rfl, fun _ _ => rfl⟩
  · have hioSeq := hbusy.eq_nil.not.mp hempty
    obtain ⟨later, earlier, hsplit, hposition, hlater, hearlier⟩ :=
      findPosition_spec worker (worker.target entry) (hbusy.back hempty)
        (by simpa using hbusy.entries) (by simpa using hbusy.length_le)
    have hbusyEq : busy = earlier.reverse ++ later.reverse := by
      rw [← List.reverse_append, ← hsplit, List.reverse_reverse]
    have hright : ∀ other ∈ later.reverse, worker.InOrder entry other :=
      fun other hother => .inl (hlater other (by simpa using hother)).2.le
    rw [insertReqSorted, if_neg hioSeq]
    cases earlier with
    | nil =>
        have hcurr : findPosition worker (worker.target entry) nrMaxParallelIo
            worker.ioSeqEnd = noEntry := hposition
        rw [List.reverse_nil, List.nil_append] at hbusyEq
        obtain ⟨hhead, hinserts⟩ := insert_head hbusy hentry hnew hprev hempty
          fun other hother => hright other
            (hbusyEq ▸ List.mem_of_mem_head? hother)
        simp only [hcurr, if_true]
        exact ⟨[], busy, rfl, hhead, hinserts⟩
    | cons curr earlier =>
        obtain ⟨hcurr, hrest⟩ := hposition
        have hmem : curr ∈ busy := by simp [hbusyEq]
        have hleft : worker.InOrder curr entry := hearlier curr (by simp)
        rw [List.reverse_cons, List.append_assoc, List.singleton_append]
          at hbusyEq
        simp only [hcurr, if_neg (ne_noEntry (hbusy.entries curr hmem))]
        cases hback : later.reverse with
        | nil =>
            rw [hback] at hbusyEq
            have hlast : worker.next curr = noEntry :=
              (Links.concat_iff.mp (hbusyEq ▸ hbusy.links)).2
            rw [if_pos hlast]
            obtain ⟨htail, hinserts⟩ := insert_tail hbusy hentry hnew hnext
              hbusyEq hleft
            exact ⟨busy, [], by simp, by simpa [hbusyEq] using htail, hinserts⟩
        | cons follower back =>
            rw [hback] at hbusyEq hright
            have hfollower : worker.next curr = follower := by
              obtain ⟨_, -, -, hlinks⟩ :=
                Links.append_iff.mp (hbusyEq ▸ hbusy.links)
              exact hlinks.1
            have hfollowerMem : follower ∈ busy := by simp [hbusyEq]
            rw [if_neg (hfollower ▸
              ne_noEntry (hbusy.entries follower hfollowerMem))]
            obtain ⟨hbetween, hinserts⟩ := insert_between hbusy hentry hnew
              hbusyEq hleft (hright follower List.mem_cons_self)
            exact ⟨earlier.reverse ++ [curr], follower :: back,
              by simp [hbusyEq], by simpa using hbetween, hinserts⟩

end Insert


section Enqueue

variable {worker : IoWorker} {free busy : List ℕ}
  (hchained : worker.Chained free busy)
include hchained

theorem Chained.nodup : (free ++ busy).Nodup :=
  hchained.perm.nodup_iff.mpr List.nodup_range

theorem Chained.lt {entry : ℕ} (hentry : entry ∈ free ++ busy) :
    entry < nrMaxParallelIo :=
  List.mem_range.mp (hchained.perm.mem_iff.mp hentry)

theorem Chained.free_ne_nil : free ≠ [] := by
  rintro rfl
  simpa using hchained.onFree.last

/-- The test of the allocation finds out whether two entries are free. -/
theorem Chained.spare_iff :
    worker.next worker.freeSeq < nrMaxParallelIo ↔ 2 ≤ free.length := by
  have hlinks := hchained.onFree.links
  rcases free with _ | ⟨entry, _ | ⟨entry', rest⟩⟩
  · exact absurd rfl hchained.free_ne_nil
  · obtain ⟨hseq, hnext⟩ := hlinks
    change worker.next entry = noEntry at hnext
    rw [hseq, hnext]
    exact iff_of_false (not_lt.mpr nrMaxParallelIo_lt_noEntry.le) (by simp)
  · obtain ⟨hseq, hnext, -⟩ := hlinks
    rw [hseq, hnext]
    exact iff_of_true (hchained.lt (by simp)) (by simp)

theorem Chained.allocateEntry_eq_none (hspare : free.length < 2) :
    worker.allocateEntry = none :=
  if_pos (not_lt.mp (hchained.spare_iff.not.mpr (not_le.mpr hspare)))

theorem Chained.allocateEntry_eq_some {entry entry' : ℕ} {rest : List ℕ}
    (hfree : free = entry :: entry' :: rest) :
    worker.allocateEntry = some (entry, { worker with freeSeq := entry' }) := by
  have hlt := hchained.spare_iff.mpr (by simp [hfree])
  have hlinks := hchained.onFree.links
  rw [hfree] at hlinks
  obtain ⟨hseq, hnext, -⟩ := hlinks
  simp only [allocateEntry]
  rw [if_neg (not_le.mpr hlt), hseq, hnext]

/-- A filled entry leaves the free list and joins the busy list. -/
theorem Chained.enqueue {entry entry' : ℕ} {rest : List ℕ}
    (hfree : free = entry :: entry' :: rest) {work : IoWork}
    (hnext : work.next = noEntry) (hprev : work.prev = noEntry) :
    ∃ front back, busy = front ++ back ∧
      (insertReqSorted entry ({ worker with freeSeq := entry' }.setWork entry
        work) work.nsecsTarget).Chained (entry' :: rest)
          (front ++ entry :: back) ∧
      (insertReqSorted entry ({ worker with freeSeq := entry' }.setWork entry
        work) work.nsecsTarget).content =
          Function.update worker.content entry work.unlinked := by
  subst hfree
  have hnodup := hchained.nodup
  have hentry : entry < nrMaxParallelIo := hchained.lt (by simp)
  rw [List.cons_append, List.nodup_cons] at hnodup
  have hnew : entry ∉ busy := fun hmem =>
    hnodup.1 (List.mem_append_right _ hmem)
  set filled := { worker with freeSeq := entry' }.setWork entry work
    with hfilled
  have hnextEq : filled.next = Function.update worker.next entry noEntry := by
    rw [hfilled, next_setWork, hnext]
    rfl
  have hprevEq : filled.prev = Function.update worker.prev entry noEntry := by
    rw [hfilled, prev_setWork, hprev]
    rfl
  have hcontent : filled.content =
      Function.update worker.content entry work.unlinked := content_setWork ..
  have hbusy : filled.Busy busy := by
    have hbefore := hchained.onBusy
    refine ⟨?_, ?_, ?_, hbefore.nodup, hbefore.entries⟩
    · rw [hnextEq]
      exact hbefore.links.update hnew _
    · rw [hprevEq]
      exact fun hne => (hbefore.back hne).update (by simpa using hnew) _
    · refine hbefore.ordered.imp_of_mem_imp ?_
      intro other other' hother hother' horder
      have htarget : ∀ listed ∈ busy,
          filled.target listed = worker.target listed := by
        intro listed hlisted
        rw [hfilled, target_setWork, Function.update_of_ne]
        · rfl
        · exact fun heq => hnew (heq ▸ hlisted)
      rw [InOrder, htarget other hother, htarget other' hother']
      exact horder
  have htarget : filled.target entry = work.nsecsTarget := by
    rw [hfilled, target_setWork, Function.update_self]
  obtain ⟨front, back, hsplit, hbusy', hinserts⟩ :=
    insertReqSorted_spec hbusy hentry hnew (by simp [hnextEq])
      (by simp [hprevEq])
  rw [htarget] at hbusy' hinserts
  refine ⟨front, back, hsplit, ⟨⟨?_, ?_⟩, hbusy', ?_⟩,
    hinserts.content_eq.trans hcontent⟩
  · obtain ⟨-, hlinks⟩ := hchained.onFree.links
    have hseq : worker.next entry = entry' := hlinks.1
    rw [hinserts.freeSeq_eq]
    rw [hseq] at hlinks
    refine hlinks.congr fun other hother => ?_
    have hne : other ≠ entry := by
      rintro rfl
      exact hnodup.1 (List.mem_append_left _ hother)
    have hbusyOther : other ∉ busy := fun hmem =>
      List.disjoint_of_nodup_append hnodup.2 hother hmem
    rw [hinserts.next_eq other (by simp [hne, hbusyOther]), hnextEq,
      Function.update_of_ne hne]
  · rw [hinserts.freeSeqEnd_eq]
    exact hchained.onFree.last
  · refine List.Perm.trans ?_ hchained.perm
    rw [hsplit]
    exact (List.perm_middle.append_left (entry' :: rest)).trans
      List.perm_middle

end Enqueue

section Reclaim

variable {worker : IoWorker}

/-- The scan stops behind the finished stretch at the head of the list. -/
theorem lastFinished_spec {fuel curr : ℕ} (lastEntry : ℕ) {entries : List ℕ}
    (hlinks : Links worker.next curr entries noEntry)
    (hentries : ∀ entry ∈ entries, entry < nrMaxParallelIo)
    (hfuel : entries.length ≤ fuel) :
    ∃ finished rest, entries = finished ++ rest ∧
      (∀ entry ∈ finished, worker.isFinished entry) ∧
      (lastEntry :: finished).getLast? =
        some (worker.lastFinished fuel curr lastEntry) := by
  induction fuel generalizing curr lastEntry entries with
  | zero => exact ⟨[], entries, rfl, by simp, rfl⟩
  | succ fuel ih =>
      rw [lastFinished]
      cases entries with
      | nil =>
          rw [if_pos (show curr = noEntry from hlinks)]
          exact ⟨[], [], rfl, by simp, rfl⟩
      | cons entry rest =>
          obtain ⟨rfl, hrest⟩ := hlinks
          rw [if_neg (ne_noEntry (hentries curr List.mem_cons_self))]
          split
          next hfinished =>
            rw [List.length_cons, Nat.add_le_add_iff_right] at hfuel
            obtain ⟨finished, rest', rfl, hall, hlast⟩ := ih curr hrest
              (fun other hother => hentries other (List.mem_cons_of_mem _ hother))
              hfuel
            refine ⟨curr :: finished, rest', rfl, ?_, ?_⟩
            · simpa using ⟨hfinished, hall⟩
            · rw [← hlast]
              exact List.getLast?_cons_cons
          next => exact ⟨[], curr :: rest, rfl, by simp, rfl⟩

theorem next_giveBack (worker : IoWorker) (last : ℕ) :
    (worker.giveBack last).next =
      Function.update (Function.update worker.next last noEntry)
        worker.freeSeqEnd worker.ioSeq := by
  refine (next_setNext ..).trans ?_
  rw [next_setPrev, next_setNext]
  split
  · rfl
  · rw [next_setPrev]
    rfl

theorem prev_giveBack (worker : IoWorker) (last : ℕ) :
    (worker.giveBack last).prev =
      Function.update (if worker.next last = noEntry then worker.prev
        else Function.update worker.prev (worker.next last) noEntry)
        worker.ioSeq worker.freeSeqEnd := by
  refine (prev_setNext ..).trans ?_
  rw [prev_setPrev, prev_setNext]
  split
  · rfl
  · rw [prev_setPrev]
    rfl

theorem content_giveBack (worker : IoWorker) (last : ℕ) :
    (worker.giveBack last).content = worker.content := by
  refine (content_setNext ..).trans ?_
  rw [content_setPrev, content_setNext]
  split
  · rfl
  · rw [content_setPrev]
    rfl

theorem fields_giveBack (worker : IoWorker) (last : ℕ) :
    (worker.giveBack last).ioSeq = worker.next last ∧
      (worker.giveBack last).ioSeqEnd = worker.ioSeqEnd ∧
      (worker.giveBack last).freeSeq = worker.freeSeq ∧
      (worker.giveBack last).latestNsecs = worker.latestNsecs := by
  simp only [giveBack]
  split <;> exact ⟨rfl, rfl, rfl, rfl⟩

theorem Chained.giveBack {free init rest : List ℕ} {last : ℕ}
    (hchained : worker.Chained free (init ++ last :: rest)) :
    (worker.giveBack last).Chained (free ++ (init ++ [last])) rest := by
  have hbusy := hchained.onBusy
  have hnodup := hchained.nodup
  obtain ⟨hioSeq, hioSeqEnd, hfreeSeq, hlatest⟩ := fields_giveBack worker last
  obtain ⟨front, hfront⟩ : ∃ front, free = front ++ [worker.freeSeqEnd] :=
    List.getLast?_eq_some_iff.mp hchained.onFree.last
  obtain ⟨middle, hinit, hmiddle, hrest⟩ := Links.append_iff.mp hbusy.links
  subst hmiddle
  have hstretch : Links worker.next worker.ioSeq (init ++ [middle])
      (worker.next middle) := Links.concat_iff.mpr ⟨hinit, rfl⟩
  -- the three parts of the queue have no entry in common
  have hbusyNodup : ((init ++ [middle]) ++ rest).Nodup := by
    simpa using hbusy.nodup
  have hfreeBusy : List.Disjoint free ((init ++ [middle]) ++ rest) := by
    simpa using List.disjoint_of_nodup_append hnodup
  have hparts := List.disjoint_of_nodup_append hbusyNodup
  have hmiddleInit : middle ∉ init := by
    have := hbusyNodup.of_append_left
    rw [List.nodup_append] at this
    exact fun hmem => this.2.2 middle hmem middle (by simp) rfl
  have hfreeEnd : worker.freeSeqEnd ∈ free := by simp [hfront]
  have hfirst : worker.ioSeq ∈ init ++ [middle] := by
    cases init with
    | nil => simp [show worker.ioSeq = middle from hinit]
    | cons entry _ => simp [hinit.1]
  refine ⟨⟨?_, ?_⟩, ⟨?_, ?_, ?_, ?_, ?_⟩, ?_⟩
  · rw [next_giveBack, hfreeSeq, hfront]
    refine Links.join ?_ (hstretch.cut hmiddleInit noEntry) ?_ ?_
    · rw [← hfront]
      exact hchained.onFree.links.update
        (fun hmem => hfreeBusy hmem (by simp)) _
    · have := hnodup.of_append_left
      rw [hfront, List.nodup_append] at this
      exact fun hmem => this.2.2 _ hmem _ (by simp) rfl
    · exact fun hmem => hfreeBusy hfreeEnd (List.mem_append_left _ hmem)
  · simp [IoWorker.giveBack]
  · rw [next_giveBack, hioSeq]
    refine (hrest.update ?_ _).update ?_ _
    · exact fun hmem => hparts (by simp) hmem
    · exact fun hmem => hfreeBusy hfreeEnd (List.mem_append_right _ hmem)
  · intro hne
    obtain ⟨follower, back, rfl⟩ := List.exists_cons_of_ne_nil hne
    have hfollower : worker.next middle = follower := hrest.1
    have hfollowerLt : follower < nrMaxParallelIo :=
      hbusy.entries follower (by simp)
    have hback := hbusy.back (by simp)
    have hreverse : (init ++ middle :: follower :: back).reverse =
        (back.reverse ++ [follower]) ++ (middle :: init.reverse) := by simp
    rw [hreverse] at hback
    obtain ⟨_, hfollowers, -⟩ := Links.append_iff.mp hback
    have hrestNodup := List.nodup_reverse.mpr hbusyNodup.of_append_right
    rw [List.reverse_cons, List.nodup_append] at hrestNodup
    rw [prev_giveBack, hioSeqEnd, hfollower, if_neg (ne_noEntry hfollowerLt),
      List.reverse_cons]
    refine (hfollowers.cut ?_ noEntry).update ?_ _
    · exact fun hmem => hrestNodup.2.2 _ hmem _ (by simp) rfl
    · exact fun hmem => hparts hfirst (by simpa [or_comm] using hmem)
  · rw [inOrder_eq (content_giveBack worker middle) hlatest]
    exact (List.isChain_cons.mp (List.isChain_append.mp hbusy.ordered).2.1).2
  · exact hbusyNodup.of_append_right
  · exact fun entry hentry => hbusy.entries entry (by simp [hentry])
  · simpa using hchained.perm

/-- Reclaiming moves a finished stretch from the head of the busy list to the
tail of the free list. -/
theorem Chained.reclaim {free busy : List ℕ}
    (hchained : worker.Chained free busy) :
    ∃ finished rest, busy = finished ++ rest ∧
      (∀ entry ∈ finished, worker.isFinished entry) ∧
      worker.reclaimCompletedReqs.Chained (free ++ finished) rest ∧
      worker.reclaimCompletedReqs.content = worker.content := by
  have hbusy := hchained.onBusy
  obtain ⟨finished, rest, hsplit, hfinished, hlast⟩ :=
    lastFinished_spec noEntry hbusy.links hbusy.entries hbusy.length_le
  rcases List.eq_nil_or_concat finished with rfl | ⟨init, last, rfl⟩
  · have hnone : worker.lastFinished nrMaxParallelIo worker.ioSeq noEntry =
        noEntry := by simpa using hlast.symm
    refine ⟨[], rest, hsplit, by simp, ?_, ?_⟩
    · rw [reclaimCompletedReqs, if_pos hnone, List.append_nil]
      rwa [hsplit] at hchained
    · rw [reclaimCompletedReqs, if_pos hnone]
  · have hlastEq : worker.lastFinished nrMaxParallelIo worker.ioSeq noEntry =
        last := by
      rw [List.getLast?_cons, List.concat_eq_append, List.getLast?_concat]
        at hlast
      simpa using hlast.symm
    have hlastMem : last ∈ busy := by simp [hsplit]
    have hreclaim : worker.reclaimCompletedReqs = worker.giveBack last := by
      rw [reclaimCompletedReqs, hlastEq,
        if_neg (ne_noEntry (hbusy.entries last hlastMem))]
    refine ⟨init ++ [last], rest, by simpa using hsplit,
      by simpa using hfinished, ?_, ?_⟩
    · rw [hreclaim]
      rw [hsplit, List.concat_eq_append, List.append_assoc,
        List.singleton_append] at hchained
      exact hchained.giveBack
    · rw [hreclaim, content_giveBack]

end Reclaim

section Chains

variable {worker : IoWorker} {free busy : List ℕ}
  (hchained : worker.Chained free busy)
include hchained

theorem Chained.freeChain_eq : worker.freeChain = free := by
  refine hchained.onFree.links.walk_eq (fun hmem => ?_) ?_
  · exact ne_noEntry (hchained.lt (List.mem_append_left _ hmem)) rfl
  · have hlength := hchained.perm.length_eq
    rw [List.length_append, List.length_range] at hlength
    omega

theorem Chained.busyChain_eq : worker.busyChain = busy := by
  refine hchained.onBusy.links.walk_eq (fun hmem => ?_)
    hchained.onBusy.length_le
  exact ne_noEntry (hchained.onBusy.entries _ hmem) rfl

/-- A worker that marks entries or moves its clock forward. -/
theorem Chained.mark {worker' : IoWorker} (hnext : worker'.next = worker.next)
    (hprev : worker'.prev = worker.prev)
    (htarget : worker'.target = worker.target)
    (hfreeSeq : worker'.freeSeq = worker.freeSeq)
    (hfreeSeqEnd : worker'.freeSeqEnd = worker.freeSeqEnd)
    (hioSeq : worker'.ioSeq = worker.ioSeq)
    (hioSeqEnd : worker'.ioSeqEnd = worker.ioSeqEnd)
    (hlatest : worker.latestNsecs ≤ worker'.latestNsecs) :
    worker'.Chained free busy := by
  obtain ⟨⟨hfree, hlast⟩, ⟨hlinks, hback, hordered, hnodup, hentries⟩, hperm⟩ :=
    hchained
  refine ⟨⟨?_, ?_⟩, ⟨?_, ?_, ?_, hnodup, hentries⟩, hperm⟩
  · rwa [hnext, hfreeSeq]
  · rwa [hfreeSeqEnd]
  · rwa [hnext, hioSeq]
  · rwa [hprev, hioSeqEnd]
  · refine hordered.imp fun entry entry' horder => ?_
    rw [InOrder, htarget]
    exact horder.imp_right hlatest.trans'

end Chains

theorem init_links {start count : ℕ} (hcount : start + count = nrMaxParallelIo)
    (hpos : 0 < count) :
    Links init.next start (List.range' start count) noEntry := by
  induction count generalizing start with
  | zero => exact absurd hpos (lt_irrefl 0)
  | succ count ih =>
      refine ⟨rfl, ?_⟩
      by_cases hlast : count = 0
      · subst hlast
        change init.next start = noEntry
        exact if_pos (by omega)
      · have hnext : init.next start = start + 1 := if_neg (by omega)
        rw [hnext]
        exact ih (by omega) (by omega)

theorem init_chained : init.Chained (List.range nrMaxParallelIo) [] := by
  have hpos : 0 < nrMaxParallelIo := two_le_nrMaxParallelIo.trans_lt' two_pos
  refine ⟨⟨?_, ?_⟩, ⟨rfl, by simp, by simp, by simp, by simp⟩, by simp⟩
  · rw [List.range_eq_range']
    exact init_links (zero_add _) hpos
  · rw [List.getLast?_range, if_neg hpos.ne']
    rfl

end IoWorker

end NvmeVirt.Io
