import NvmeVirt.Lib.IndexList

/-!
# Circular lists

A circular list is linked in both directions through the cells of its entries
and of its head.  The operations overwrite single links, and each of them
changes cells of the lists it is given only.
-/

namespace NvmeVirt.RingList

open Function IndexList

/-- The two links of every cell. -/
structure Cells where
  next : ℕ → ℕ
  prev : ℕ → ℕ

namespace Cells

def setNext (cells : Cells) (cell value : ℕ) : Cells :=
  { cells with next := update cells.next cell value }

def setPrev (cells : Cells) (cell value : ℕ) : Cells :=
  { cells with prev := update cells.prev cell value }

/-- `INIT_LIST_HEAD`. -/
def initListHead (cells : Cells) (head : ℕ) : Cells :=
  (cells.setNext head head).setPrev head head

def listEmpty (cells : Cells) (head : ℕ) : Bool := cells.next head = head

/-- `list_add_tail`: the entry goes between the last entry and the head. -/
def listAddTail (cells : Cells) (entry head : ℕ) : Cells :=
  let last := cells.prev head
  (((cells.setPrev head entry).setNext entry head).setPrev entry last).setNext
    last entry

/-- `list_del`, which leaves the poison in the links of the entry. -/
def listDel (poisonNext poisonPrev : ℕ) (cells : Cells) (entry : ℕ) : Cells :=
  let next := cells.next entry
  let prev := cells.prev entry
  (((cells.setPrev next prev).setNext prev next).setNext entry
    poisonNext).setPrev entry poisonPrev

/-- `list_replace_init`: a new head takes over the entries of an old one. -/
def listReplaceInit (cells : Cells) (old new : ℕ) : Cells :=
  let cells := cells.setNext new (cells.next old)
  let cells := cells.setPrev (cells.next new) new
  let cells := cells.setPrev new (cells.prev old)
  let cells := cells.setNext (cells.prev new) new
  cells.initListHead old

end Cells

section Chain

variable {link : ℕ → ℕ} {head entry : ℕ} {front back : List ℕ}

/-- The cell in front of the end of a list. -/
theorem exists_concat (head : ℕ) (front : List ℕ) :
    ∃ before, head :: front = before ++ [front.getLastD head] := by
  rcases List.eq_nil_or_concat front with rfl | ⟨init, last, rfl⟩
  · exact ⟨[], rfl⟩
  · exact ⟨head :: init, by simp⟩

/-- The cell behind an entry. -/
theorem link_eq_headD
    (hlinks : Links link head (head :: (front ++ entry :: back)) head) :
    link entry = back.headD head := by
  rw [← List.cons_append] at hlinks
  obtain ⟨_, -, rfl, hback⟩ := Links.append_iff.mp hlinks
  cases back with
  | nil => exact hback
  | cons other rest => exact hback.1

/-- Taking out an entry, whose own link then does not matter. -/
theorem links_remove
    (hlinks : Links link head (head :: (front ++ entry :: back)) head)
    (hnodup : (head :: (front ++ entry :: back)).Nodup) (poison : ℕ) :
    Links (update (update link (front.getLastD head) (back.headD head)) entry
      poison) head (head :: (front ++ back)) head := by
  have hentry : entry ∉ head :: (front ++ back) := by
    rw [← List.cons_append, List.nodup_middle, List.nodup_cons] at hnodup
    exact hnodup.1
  have hlink := link_eq_headD hlinks
  obtain ⟨before, hbefore⟩ := exists_concat head front
  rw [← List.cons_append, hbefore, List.append_assoc] at hlinks hnodup
  have hremove := hlinks.remove_after hnodup
  rw [hlink] at hremove
  refine Links.update ?_ hentry poison
  rw [← List.cons_append, hbefore, List.append_assoc]
  exact hremove

/-- A new head in front of a list that is not empty. -/
theorem links_replace {new last : ℕ} {entries : List ℕ}
    (hlinks : Links link head (head :: entries) head)
    (hnodup : (head :: entries).Nodup) (hnew : new ∉ head :: entries)
    (hentries : entries = front ++ [last]) :
    Links (update (update (update link new (entries.headD head)) last new) head
      head) new (new :: entries) new := by
  rw [List.nodup_cons] at hnodup
  rw [List.mem_cons, not_or] at hnew
  have hlast : last ∈ entries := by simp [hentries]
  have hfront : last ∉ front := by
    have hnodup := hnodup.2
    rw [hentries, List.nodup_append] at hnodup
    exact fun hmem => hnodup.2.2 last hmem last List.mem_cons_self rfl
  have hfirst : link head = entries.headD head := by
    obtain ⟨-, hlinks⟩ := hlinks
    cases entries with
    | nil => exact hlinks
    | cons entry rest => exact hlinks.1
  have htail : Links link (entries.headD head) entries head :=
    hfirst ▸ hlinks.2
  have hcut : Links (update (update link new (entries.headD head)) last new)
      (entries.headD head) entries new := by
    have hupdate := htail.update hnew.2 (entries.headD head)
    nth_rewrite 3 [hentries] at hupdate
    nth_rewrite 3 [hentries]
    exact hupdate.cut hfront new
  refine ⟨rfl, ?_⟩
  have hne : new ≠ last := (ne_of_mem_of_not_mem hlast hnew.2).symm
  rw [update_of_ne hnew.1, update_of_ne hne, update_self]
  exact hcut.update hnodup.1 head

end Chain

/-- From the head, the list passes its entries in order in one direction, and in
reverse order in the other. -/
structure Ring (cells : Cells) (head : ℕ) (entries : List ℕ) : Prop where
  forward : Links cells.next head (head :: entries) head
  backward : Links cells.prev head (head :: entries.reverse) head
  nodup : (head :: entries).Nodup

namespace Ring

variable {cells cells' : Cells} {head entry new : ℕ}
  {entries front back : List ℕ}

/-- Only the links of the head and of the entries matter. -/
theorem congr (hring : Ring cells head entries)
    (hnext : ∀ cell ∈ head :: entries, cells'.next cell = cells.next cell)
    (hprev : ∀ cell ∈ head :: entries, cells'.prev cell = cells.prev cell) :
    Ring cells' head entries where
  forward := hring.forward.congr hnext
  backward := hring.backward.congr fun cell hcell =>
    hprev cell (by simpa using hcell)
  nodup := hring.nodup

theorem nodup_reverse (hring : Ring cells head entries) :
    (head :: entries.reverse).Nodup := by
  rw [List.nodup_cons, List.mem_reverse, List.nodup_reverse]
  exact List.nodup_cons.mp hring.nodup

theorem next_head (hring : Ring cells head entries) :
    cells.next head = entries.headD head := by
  obtain ⟨-, hlinks⟩ := hring.forward
  cases entries with
  | nil => exact hlinks
  | cons entry rest => exact hlinks.1

theorem prev_head (hring : Ring cells head entries) :
    cells.prev head = entries.getLastD head := by
  obtain ⟨-, hlinks⟩ := hring.backward
  rcases List.eq_nil_or_concat entries with rfl | ⟨front, last, rfl⟩
  · exact hlinks
  · rw [List.concat_eq_append, List.reverse_append] at hlinks
    rw [List.concat_eq_append, List.getLastD_concat]
    exact hlinks.1

theorem listEmpty_iff (hring : Ring cells head entries) :
    cells.listEmpty head = true ↔ entries = [] := by
  rw [Cells.listEmpty, decide_eq_true_iff, hring.next_head]
  cases entries with
  | nil => exact iff_of_true rfl rfl
  | cons entry rest =>
      refine iff_of_false (fun heq => ?_) (List.cons_ne_nil _ _)
      have hnodup := hring.nodup
      rw [← (show entry = head from heq)] at hnodup
      exact (List.nodup_cons.mp hnodup).1 List.mem_cons_self

theorem init (cells : Cells) (head : ℕ) :
    Ring (cells.initListHead head) head [] where
  forward := ⟨rfl, update_self ..⟩
  backward := ⟨rfl, update_self ..⟩
  nodup := List.nodup_singleton head

theorem addTail (hring : Ring cells head entries)
    (hentry : entry ∉ head :: entries) :
    Ring (cells.listAddTail entry head) head (entries ++ [entry]) := by
  have hne : entry ≠ head := fun heq => hentry (heq ▸ List.mem_cons_self)
  have hlast := hring.prev_head
  constructor
  · obtain ⟨front, hfront⟩ := exists_concat head entries
    rw [← hlast] at hfront
    have hforward := hring.forward
    have hnodup := hring.nodup
    rw [hfront] at hforward hnodup hentry
    have hlink := (Links.concat_iff.mp hforward).2
    have hinsert := hforward.insert_after hnodup hentry
    rw [hlink] at hinsert
    rw [← List.cons_append, hfront]
    simpa [Cells.listAddTail, Cells.setNext, Cells.setPrev] using hinsert
  · have hbackward : Links cells.prev head ([] ++ head :: entries.reverse)
        head := hring.backward
    have hinsert := hbackward.insert_after hring.nodup_reverse
      (by simpa using hentry)
    have hprev : (cells.listAddTail entry head).prev =
        update (update cells.prev entry (cells.prev head)) head entry := by
      change update (update cells.prev head entry) entry (cells.prev head) = _
      exact update_comm hne.symm ..
    rw [hprev, List.reverse_append]
    exact hinsert
  · rw [← List.cons_append, List.nodup_append]
    exact ⟨hring.nodup, List.nodup_singleton entry, fun a ha b hb =>
      (List.mem_singleton.mp hb) ▸ ne_of_mem_of_not_mem ha hentry⟩

/-- Only the links of the head and of the last entry change, and those of the
new entry. -/
theorem addTail_frame (hring : Ring cells head entries) {cell : ℕ}
    (hcell : cell ∉ head :: entries) (hne : cell ≠ entry) :
    (cells.listAddTail entry head).next cell = cells.next cell ∧
      (cells.listAddTail entry head).prev cell = cells.prev cell := by
  have hhead : cell ≠ head := fun heq => hcell (heq ▸ List.mem_cons_self)
  have hlast : cell ≠ cells.prev head := by
    rintro rfl
    refine hcell ?_
    rw [hring.prev_head]
    rcases List.eq_nil_or_concat entries with rfl | ⟨front, last, rfl⟩
    · simp
    · simp
  simp [Cells.listAddTail, Cells.setNext, Cells.setPrev, hne, hhead, hlast]

theorem next_entry (hring : Ring cells head (front ++ entry :: back)) :
    cells.next entry = back.headD head :=
  link_eq_headD hring.forward

theorem prev_entry (hring : Ring cells head (front ++ entry :: back)) :
    cells.prev entry = front.getLastD head := by
  have hbackward := hring.backward
  rw [List.reverse_append, List.reverse_cons, List.append_assoc,
    List.singleton_append] at hbackward
  rw [link_eq_headD hbackward]
  simp [List.headD_eq_head?_getD, List.getLastD_eq_getLast?]

/-- The links of a list stay in the list. -/
theorem next_mem (hring : Ring cells head entries) {cell : ℕ}
    (hcell : cell ∈ head :: entries) : cells.next cell ∈ head :: entries := by
  rcases List.mem_cons.mp hcell with rfl | hcell
  · rw [hring.next_head]
    cases entries with
    | nil => simp
    | cons entry rest => simp
  · obtain ⟨front, back, rfl⟩ := List.append_of_mem hcell
    rw [hring.next_entry]
    cases back with
    | nil => simp
    | cons entry rest => simp

theorem prev_mem (hring : Ring cells head entries) {cell : ℕ}
    (hcell : cell ∈ head :: entries) : cells.prev cell ∈ head :: entries := by
  rcases List.mem_cons.mp hcell with rfl | hcell
  · rw [hring.prev_head]
    rcases List.eq_nil_or_concat entries with rfl | ⟨init, last, rfl⟩
    · simp
    · simp
  · obtain ⟨front, back, rfl⟩ := List.append_of_mem hcell
    rw [hring.prev_entry]
    rcases List.eq_nil_or_concat front with rfl | ⟨init, last, rfl⟩
    · simp
    · simp

theorem del (poisonNext poisonPrev : ℕ)
    (hring : Ring cells head (front ++ entry :: back)) :
    Ring (cells.listDel poisonNext poisonPrev entry) head (front ++ back) := by
  have hnext := hring.next_entry
  have hprev := hring.prev_entry
  constructor
  · have hlinks := links_remove hring.forward hring.nodup poisonNext
    simpa [Cells.listDel, Cells.setNext, Cells.setPrev, hnext, hprev] using
      hlinks
  · have hbackward := hring.backward
    have hnodup := hring.nodup_reverse
    rw [List.reverse_append, List.reverse_cons, List.append_assoc,
      List.singleton_append] at hbackward hnodup
    have hlinks := links_remove hbackward hnodup poisonPrev
    simpa [Cells.listDel, Cells.setNext, Cells.setPrev, hnext, hprev,
      List.headD_eq_head?_getD, List.getLastD_eq_getLast?] using hlinks
  · have hnodup := hring.nodup
    rw [← List.cons_append, List.nodup_middle, List.nodup_cons] at hnodup
    exact hnodup.2

/-- Only the links of the list change. -/
theorem del_frame (poisonNext poisonPrev : ℕ)
    (hring : Ring cells head (front ++ entry :: back)) {cell : ℕ}
    (hcell : cell ∉ head :: (front ++ entry :: back)) :
    (cells.listDel poisonNext poisonPrev entry).next cell = cells.next cell ∧
      (cells.listDel poisonNext poisonPrev entry).prev cell =
        cells.prev cell := by
  have hentry : cell ≠ entry := fun heq => hcell (heq ▸ by simp)
  have hnext : cell ≠ cells.next entry := by
    rintro rfl
    rw [hring.next_entry] at hcell
    cases back with
    | nil => simp at hcell
    | cons other rest => simp at hcell
  have hprev : cell ≠ cells.prev entry := by
    rintro rfl
    rw [hring.prev_entry, ← List.cons_append] at hcell
    obtain ⟨before, hbefore⟩ := exists_concat head front
    rw [hbefore] at hcell
    simp at hcell
  simp [Cells.listDel, Cells.setNext, Cells.setPrev, hentry, hnext, hprev]

/-- The links after a new head has taken over some entries. -/
theorem replaceInit_eq (hring : Ring cells head entries) {first last : ℕ}
    (hfirst : entries = first :: back) (hlast : entries = front ++ [last]) :
    (cells.listReplaceInit head new).next =
        update (update (update cells.next new first) last new) head head ∧
      (cells.listReplaceInit head new).prev =
        update (update (update cells.prev first new) new last) head head := by
  have hnext : cells.next head = first := by rw [hring.next_head, hfirst]; rfl
  have hprev : cells.prev head = last := by
    rw [hring.prev_head, hlast, List.getLastD_concat]
  have hne : head ≠ first := by
    rintro rfl
    have hnodup := hring.nodup
    rw [hfirst] at hnodup
    simp at hnodup
  simp [Cells.listReplaceInit, Cells.initListHead, Cells.setNext,
    Cells.setPrev, hnext, hprev, hne]

/-- The new head takes over the entries, and the old one is left with none. -/
theorem replaceInit (hring : Ring cells head entries)
    (hnew : new ∉ head :: entries) :
    Ring (cells.listReplaceInit head new) new entries ∧
      Ring (cells.listReplaceInit head new) head [] := by
  refine ⟨?_, Ring.init _ head⟩
  have hne : new ≠ head := fun heq => hnew (heq ▸ List.mem_cons_self)
  have hnodup : (new :: entries).Nodup :=
    List.nodup_cons.mpr ⟨fun hmem => hnew (List.mem_cons_of_mem _ hmem),
      (List.nodup_cons.mp hring.nodup).2⟩
  cases entries with
  | nil =>
      have hnext : cells.next head = head := hring.next_head
      refine ⟨⟨rfl, ?_⟩, ⟨rfl, ?_⟩, hnodup⟩
      · simp [Links, Cells.listReplaceInit, Cells.initListHead, Cells.setNext,
          Cells.setPrev, hnext, hne]
      · simp [Links, Cells.listReplaceInit, Cells.initListHead, Cells.setNext,
          Cells.setPrev, hnext, hne]
  | cons first back =>
      obtain ⟨front, last, hlast⟩ := (List.eq_nil_or_concat
        (first :: back)).resolve_left (List.cons_ne_nil _ _)
      rw [List.concat_eq_append] at hlast
      obtain ⟨hnext, hprev⟩ := @replaceInit_eq cells head new _ front back hring
        first last rfl hlast
      refine ⟨?_, ?_, hnodup⟩
      · rw [hnext]
        exact links_replace hring.forward hring.nodup hnew hlast
      · have hfirst : first ≠ new := fun heq => hnew (by simp [heq])
        have hnew' : new ∉ head :: (first :: back).reverse := by
          rwa [List.mem_cons, List.mem_reverse, ← List.mem_cons]
        have hlinks := links_replace hring.backward hring.nodup_reverse hnew'
          (show (first :: back).reverse = back.reverse ++ [first] by simp)
        have hhead : (first :: back).reverse.headD head = last := by
          rw [hlast, List.reverse_append]
          rfl
        rw [hhead] at hlinks
        rw [hprev, update_comm hfirst]
        exact hlinks

theorem replaceInit_frame (hring : Ring cells head entries) {cell : ℕ}
    (hcell : cell ∉ head :: entries) (hne : cell ≠ new) :
    (cells.listReplaceInit head new).next cell = cells.next cell ∧
      (cells.listReplaceInit head new).prev cell = cells.prev cell := by
  rw [List.mem_cons, not_or] at hcell
  cases entries with
  | nil =>
      have hnext : cells.next head = head := hring.next_head
      simp [Cells.listReplaceInit, Cells.initListHead, Cells.setNext,
        Cells.setPrev, hnext, hcell.1, hne]
  | cons first back =>
      obtain ⟨front, last, hlast⟩ := (List.eq_nil_or_concat
        (first :: back)).resolve_left (List.cons_ne_nil _ _)
      rw [List.concat_eq_append] at hlast
      obtain ⟨hnext, hprev⟩ := @replaceInit_eq cells head new _ front back hring
        first last rfl hlast
      have hfirst : cell ≠ first := fun heq =>
        hcell.2 (heq ▸ List.mem_cons_self)
      have hend : cell ≠ last := fun heq => hcell.2 (by simp [hlast, heq])
      rw [hnext, hprev]
      simp [hcell.1, hne, hfirst, hend]

theorem init_frame (cells : Cells) {cell head : ℕ} (hne : cell ≠ head) :
    (cells.initListHead head).next cell = cells.next cell ∧
      (cells.initListHead head).prev cell = cells.prev cell :=
  ⟨update_of_ne hne .., update_of_ne hne ..⟩

/-- Two heads exchange their entries by way of a third one. -/
theorem exchange {other temp : ℕ} {others : List ℕ}
    (hring : Ring cells head entries) (hother : Ring cells other others)
    (hdisjoint : (head :: entries).Disjoint (other :: others))
    (htemp : temp ∉ head :: entries) (htemp' : temp ∉ other :: others) :
    let cells := cells.initListHead temp
    let cells := cells.listReplaceInit head temp
    let cells := cells.listReplaceInit other head
    let cells := cells.listReplaceInit temp other
    Ring cells head others ∧ Ring cells other entries := by
  intro cells₁ cells₂ cells₃ cells₄
  have hring₁ : Ring cells₁ head entries :=
    hring.congr
      (fun cell hcell => (init_frame cells
        (ne_of_mem_of_not_mem hcell htemp)).1)
      (fun cell hcell => (init_frame cells
        (ne_of_mem_of_not_mem hcell htemp)).2)
  have hother₁ : Ring cells₁ other others :=
    hother.congr
      (fun cell hcell => (init_frame cells
        (ne_of_mem_of_not_mem hcell htemp')).1)
      (fun cell hcell => (init_frame cells
        (ne_of_mem_of_not_mem hcell htemp')).2)
  -- the entries move to the third head
  have htemp₂ : Ring cells₂ temp entries := (hring₁.replaceInit htemp).1
  have hframe₂ : ∀ cell ∈ other :: others,
      cells₂.next cell = cells₁.next cell ∧
        cells₂.prev cell = cells₁.prev cell :=
    fun cell hcell => hring₁.replaceInit_frame
      (fun hmem => hdisjoint hmem hcell) (ne_of_mem_of_not_mem hcell htemp')
  have hother₂ : Ring cells₂ other others :=
    hother₁.congr (fun cell hcell => (hframe₂ cell hcell).1)
      (fun cell hcell => (hframe₂ cell hcell).2)
  -- the others move to the first head
  have hhead : head ∉ other :: others := hdisjoint List.mem_cons_self
  have hring₃ : Ring cells₃ head others := (hother₂.replaceInit hhead).1
  have hentries : ∀ cell ∈ temp :: entries, cell ∉ other :: others := by
    intro cell hcell
    rcases List.mem_cons.mp hcell with rfl | hcell
    · exact htemp'
    · exact hdisjoint (List.mem_cons_of_mem _ hcell)
  have hne : ∀ cell ∈ temp :: entries, cell ≠ head := by
    intro cell hcell
    rcases List.mem_cons.mp hcell with rfl | hcell
    · exact fun heq => htemp (heq ▸ List.mem_cons_self)
    · exact ne_of_mem_of_not_mem hcell (List.nodup_cons.mp hring.nodup).1
  have hframe₃ : ∀ cell ∈ temp :: entries,
      cells₃.next cell = cells₂.next cell ∧
        cells₃.prev cell = cells₂.prev cell :=
    fun cell hcell => hother₂.replaceInit_frame (hentries cell hcell)
      (hne cell hcell)
  have htemp₃ : Ring cells₃ temp entries :=
    htemp₂.congr (fun cell hcell => (hframe₃ cell hcell).1)
      (fun cell hcell => (hframe₃ cell hcell).2)
  -- the entries move on to the second head
  have hother' : other ∉ temp :: entries := fun hmem =>
    hentries other hmem List.mem_cons_self
  refine ⟨?_, (htemp₃.replaceInit hother').1⟩
  have hframe₄ : ∀ cell ∈ head :: others,
      cells₄.next cell = cells₃.next cell ∧
        cells₄.prev cell = cells₃.prev cell := by
    intro cell hcell
    refine htemp₃.replaceInit_frame (fun hmem => ?_) (fun heq => ?_)
    · rcases List.mem_cons.mp hcell with rfl | hcell
      · exact hne cell hmem rfl
      · exact hentries cell hmem (List.mem_cons_of_mem _ hcell)
    · rcases List.mem_cons.mp hcell with rfl | hcell
      · exact hhead (heq ▸ List.mem_cons_self)
      · exact (List.nodup_cons.mp hother.nodup).1 (heq ▸ hcell)
  exact hring₃.congr (fun cell hcell => (hframe₄ cell hcell).1)
    (fun cell hcell => (hframe₄ cell hcell).2)

end Ring

end NvmeVirt.RingList
