import Mathlib

/-!
# Lists chained through an array of indices

An intrusive list stores in each entry the index of the next one.  `Links` says
which entries a chain passes and where it arrives; the operations on such lists
overwrite one or two links.
-/

namespace NvmeVirt.IndexList

/-- Following `link` from `head` passes the entries of the list in order and
arrives at `last`. -/
def Links (link : ℕ → ℕ) : ℕ → List ℕ → ℕ → Prop
  | head, [], last => head = last
  | head, entry :: rest, last => head = entry ∧ Links link (link entry) rest last

/-- The entries met from `head` until `stop`, at most `fuel` of them. -/
def walk (link : ℕ → ℕ) (stop : ℕ) : ℕ → ℕ → List ℕ
  | 0, _ => []
  | fuel + 1, head =>
      if head = stop then [] else head :: walk link stop fuel (link head)

namespace Links

variable {link link' : ℕ → ℕ} {head last entry node : ℕ} {front back : List ℕ}

theorem congr {entries : List ℕ} (hlinks : Links link head entries last)
    (heq : ∀ entry ∈ entries, link' entry = link entry) :
    Links link' head entries last := by
  induction entries generalizing head with
  | nil => exact hlinks
  | cons entry rest ih =>
      obtain ⟨rfl, hrest⟩ := hlinks
      refine ⟨rfl, ?_⟩
      rw [heq head List.mem_cons_self]
      exact ih hrest fun other hother => heq other (List.mem_cons_of_mem _ hother)

theorem append_iff :
    Links link head (front ++ back) last ↔
      ∃ middle, Links link head front middle ∧ Links link middle back last := by
  induction front generalizing head with
  | nil => simp [Links]
  | cons entry rest ih => simp [Links, ih, and_assoc]

theorem concat_iff :
    Links link head (front ++ [node]) last ↔
      Links link head front node ∧ link node = last := by
  simp [append_iff, Links]

/-- Overwriting the link of an entry off the chain. -/
theorem update {entries : List ℕ} (hlinks : Links link head entries last)
    (hentry : entry ∉ entries) (value : ℕ) :
    Links (Function.update link entry value) head entries last := by
  refine hlinks.congr fun other hother => Function.update_of_ne ?_ _ _
  rintro rfl
  exact hentry hother

/-- Putting an entry in front. -/
theorem push (hlinks : Links link head back last) (hentry : entry ∉ back) :
    Links (Function.update link entry head) entry (entry :: back) last :=
  ⟨rfl, by simpa using hlinks.update hentry head⟩

/-- Splicing an entry in behind a node. -/
theorem insert_after (hlinks : Links link head (front ++ node :: back) last)
    (hnodup : (front ++ node :: back).Nodup)
    (hentry : entry ∉ front ++ node :: back) :
    Links (Function.update (Function.update link entry (link node)) node entry)
      head (front ++ node :: entry :: back) last := by
  obtain ⟨middle, hfront, rfl, hback⟩ := append_iff.mp hlinks
  rw [List.nodup_middle, List.nodup_cons] at hnodup
  have hne : entry ≠ middle := by
    rintro rfl
    exact hentry (by simp)
  simp only [List.mem_append, List.mem_cons, not_or] at hentry hnodup
  refine append_iff.mpr ⟨middle, ?_, rfl, ?_⟩
  · exact (hfront.update hentry.1 _).update hnodup.1.1 _
  · refine ⟨Function.update_self .., ?_⟩
    rw [Function.update_of_ne hne, Function.update_self]
    exact (hback.update hentry.2.2 _).update hnodup.1.2 _

/-- Taking out the entry behind a node. -/
theorem remove_after (hlinks : Links link head (front ++ node :: entry :: back)
      last) (hnodup : (front ++ node :: entry :: back).Nodup) :
    Links (Function.update link node (link entry)) head (front ++ node :: back)
      last := by
  obtain ⟨middle, hfront, rfl, rfl, hback⟩ := append_iff.mp hlinks
  rw [List.nodup_middle, List.nodup_cons] at hnodup
  simp only [List.mem_append, List.mem_cons, not_or] at hnodup
  refine append_iff.mpr ⟨middle, hfront.update hnodup.1.1 _, rfl, ?_⟩
  rw [Function.update_self]
  exact hback.update hnodup.1.2.2 _

/-- Cutting a chain behind a node. -/
theorem cut (hlinks : Links link head (front ++ [node]) last)
    (hnode : node ∉ front) (stop : ℕ) :
    Links (Function.update link node stop) head (front ++ [node]) stop := by
  obtain ⟨hfront, -⟩ := concat_iff.mp hlinks
  exact concat_iff.mpr ⟨hfront.update hnode _, Function.update_self ..⟩

/-- Joining a chain to the end of another. -/
theorem join {next : ℕ} (hfront : Links link head (front ++ [node]) last)
    (hback : Links link next back last) (hnode : node ∉ front)
    (hback' : node ∉ back) :
    Links (Function.update link node next) head (front ++ [node] ++ back)
      last :=
  append_iff.mpr ⟨next, hfront.cut hnode next, hback.update hback' next⟩

/-- A chain that ends at `stop` is what a walk finds. -/
theorem walk_eq {entries : List ℕ} {stop fuel : ℕ}
    (hlinks : Links link head entries stop) (hstop : stop ∉ entries)
    (hfuel : entries.length ≤ fuel) : walk link stop fuel head = entries := by
  induction entries generalizing head fuel with
  | nil =>
      cases fuel with
      | zero => rfl
      | succ fuel => simp [walk, show head = stop from hlinks]
  | cons entry rest ih =>
      obtain ⟨rfl, hrest⟩ := hlinks
      simp only [List.mem_cons, not_or] at hstop
      cases fuel with
      | zero => simp at hfuel
      | succ fuel =>
          rw [walk, if_neg (Ne.symm hstop.1)]
          simp only [List.length_cons, add_le_add_iff_right] at hfuel
          rw [ih hrest hstop.2 hfuel]

end Links

end NvmeVirt.IndexList
