import Mathlib

/-!
# NAND flash

The pages of a block are programmed in the order of their numbers, `shot` pages
at a time, and lose their contents together when the block is erased.  A
controller keeps in memory the pages that wait to be programmed and those of the
last read.  `stored` is what a page holds, wherever it is.
-/

namespace NvmeVirt.NandFlash

open Function

variable {β α : Type}

/-- Flash blocks and the memory of their controller.  Only the first `next`
pages of a block are programmed. -/
structure Flash (β α : Type) where
  next : β → ℕ
  cell : β → ℕ → Option α
  staged : β → ℕ → Option α
  loaded : β → ℕ → Option α

inductive Step (β α : Type) where
  | host (blk : β) (pg : ℕ) (data : α)
  | read (blk : β) (pg cnt : ℕ)
  | move (blk : β) (pg : ℕ) (blk' : β) (pg' : ℕ)
  | program (blk : β) (pg : ℕ)
  | erase (blk : β)

section Pages

variable [DecidableEq β]

/-- One page of one block is replaced. -/
def setPage (pages : β → ℕ → Option α) (blk : β) (pg : ℕ) (data : α) :
    β → ℕ → Option α :=
  update pages blk (update (pages blk) pg (some data))

theorem setPage_self (pages : β → ℕ → Option α) (blk : β) (pg : ℕ)
    (data : α) : setPage pages blk pg data blk pg = some data := by
  rw [setPage, update_self, update_self]

theorem setPage_of_ne (pages : β → ℕ → Option α) {blk blk' : β} {pg pg' : ℕ}
    (data : α) (hne : ¬ (blk' = blk ∧ pg' = pg)) :
    setPage pages blk pg data blk' pg' = pages blk' pg' := by
  rw [setPage]
  by_cases hblk : blk' = blk
  · subst hblk
    rw [update_self, update_of_ne fun hpg => hne ⟨rfl, hpg⟩]
  · rw [update_of_ne hblk]

end Pages

namespace Flash

def blank : Flash β α where
  next := fun _ => 0
  cell := fun _ _ => none
  staged := fun _ _ => none
  loaded := fun _ _ => none

def stored (flash : Flash β α) (blk : β) (pg : ℕ) : Option α :=
  if pg < flash.next blk then flash.cell blk pg else flash.staged blk pg

section Steps

variable [DecidableEq β]

/-- A page that is not programmed takes its place among those that wait. -/
def stage (flash : Flash β α) (blk : β) (pg : ℕ) (data : α) :
    Option (Flash β α) :=
  if flash.next blk ≤ pg ∧ (flash.staged blk pg).isNone then
    some { flash with staged := setPage flash.staged blk pg data }
  else none

/-- One step, if flash can take it: reads are of programmed pages, a move is of
a page in memory, and a program completes the next `shot` pages of its block. -/
def step (shot : ℕ) (flash : Flash β α) : Step β α → Option (Flash β α)
  | .host blk pg data => flash.stage blk pg data
  | .read blk pg cnt =>
      if pg + cnt ≤ flash.next blk then
        some { flash with
          loaded := update (fun _ _ => none) blk fun pg' =>
            if pg ≤ pg' ∧ pg' < pg + cnt then flash.cell blk pg' else none }
      else none
  | .move blk pg blk' pg' =>
      (flash.loaded blk pg).bind fun data => flash.stage blk' pg' data
  | .program blk pg =>
      if flash.next blk + shot = pg + 1 ∧
          ∀ i < shot, (flash.staged blk (flash.next blk + i)).isSome then
        some { flash with
          next := update flash.next blk (pg + 1)
          cell := update flash.cell blk fun pg' =>
            if pg' < flash.next blk then flash.cell blk pg'
            else flash.staged blk pg'
          staged := update flash.staged blk fun pg' =>
            if pg' ≤ pg then none else flash.staged blk pg' }
      else none
  | .erase blk =>
      some { flash with
        next := update flash.next blk 0
        staged := update flash.staged blk fun _ => none }

def run (shot : ℕ) (flash : Flash β α) (steps : List (Step β α)) :
    Option (Flash β α) :=
  steps.foldlM (step shot) flash

end Steps

variable {shot : ℕ} {flash flash' : Flash β α} {blk : β} {n : ℕ}

/-- The first `n` pages of the block hold something, and those of them that
make up whole programs are programmed. -/
structure Filled (shot : ℕ) (flash : Flash β α) (blk : β) (n : ℕ) : Prop where
  next_eq : flash.next blk = n / shot * shot
  isSome_iff : ∀ pg, (flash.stored blk pg).isSome = true ↔ pg < n

theorem Filled.next_le (h : Filled shot flash blk n) : flash.next blk ≤ n :=
  h.next_eq.trans_le (Nat.div_mul_le_self n shot)

theorem Filled.staged_eq (h : Filled shot flash blk n) {pg : ℕ}
    (hpg : n ≤ pg) : flash.staged blk pg = none := by
  have hstored : flash.stored blk pg = flash.staged blk pg :=
    if_neg (by have := h.next_le; omega)
  rw [← hstored, ← Option.not_isSome_iff_eq_none, h.isSome_iff]
  omega

theorem filled_blank (shot : ℕ) (blk : β) :
    Filled shot (blank : Flash β α) blk 0 := by
  constructor
  · simp [blank]
  · simp [blank, stored]

theorem Filled.congr (h : Filled shot flash blk n)
    (hnext : flash'.next = flash.next) (hstored : flash'.stored = flash.stored) :
    Filled shot flash' blk n :=
  ⟨hnext ▸ h.next_eq, hstored ▸ h.isSome_iff⟩

variable [DecidableEq β]

theorem run_append {steps steps' : List (Step β α)}
    (hrun : flash.run shot steps = some flash') :
    flash.run shot (steps ++ steps') = flash'.run shot steps' := by
  rw [run, List.foldlM_append]
  exact congrArg (· >>= fun flash => run shot flash steps') hrun

/-! ## Staging and programming -/

theorem stored_stage (h : Filled shot flash blk n) (data : α) :
    ({ flash with staged := setPage flash.staged blk n data } :
      Flash β α).stored = setPage flash.stored blk n data := by
  funext blk' pg
  by_cases hown : blk' = blk ∧ pg = n
  · obtain ⟨rfl, rfl⟩ := hown
    have hnext := h.next_le
    simp only [stored]
    rw [if_neg (by omega), setPage_self, setPage_self]
  · simp only [stored]
    rw [setPage_of_ne _ _ hown, setPage_of_ne _ _ hown]
    rfl

/-- The step that stages page `n` is possible. -/
theorem Filled.stage_eq (h : Filled shot flash blk n) (data : α) :
    flash.stage blk n data =
      some { flash with staged := setPage flash.staged blk n data } := by
  rw [stage, if_pos ⟨h.next_le, by rw [h.staged_eq le_rfl]; rfl⟩]

/-- Programming the pages that wait changes no contents. -/
theorem program_spec (hshot : 0 < shot)
    (hnext : flash.next blk = n / shot * shot)
    (hstored : ∀ pg, (flash.stored blk pg).isSome = true ↔ pg < n + 1)
    (hlast : n % shot = shot - 1) :
    ∃ flash', flash.step shot (.program blk n) = some flash' ∧
      flash'.next = update flash.next blk (n + 1) ∧
      flash'.stored = flash.stored ∧ flash'.loaded = flash.loaded := by
  have hdiv := Nat.div_add_mod' n shot
  have hfits : flash.next blk + shot = n + 1 := by omega
  have hwait : ∀ i < shot, (flash.staged blk (flash.next blk + i)).isSome := by
    intro i hi
    have hsome := (hstored (flash.next blk + i)).mpr (by omega)
    rwa [stored, if_neg (by omega)] at hsome
  refine ⟨_, if_pos ⟨hfits, hwait⟩, rfl, ?_, rfl⟩
  funext blk' pg
  by_cases hblk : blk' = blk
  · subst hblk
    simp only [stored, update_self]
    split_ifs <;> first | rfl | omega
  · simp only [stored, update_of_ne hblk]

/-- A page is put after those that the block holds, and the last page of a shot
is followed by the program. -/
theorem put_spec (hshot : 0 < shot) {filled : β → ℕ}
    (h : ∀ blk, Filled shot flash blk (filled blk)) (blk : β) (data : α)
    {first : Step β α}
    (hfirst : flash.step shot first = flash.stage blk (filled blk) data) :
    ∃ flash', flash.run shot (first ::
        if filled blk % shot = shot - 1 then [.program blk (filled blk)]
        else []) = some flash' ∧
      (∀ blk', Filled shot flash' blk'
        (update filled blk (filled blk + 1) blk')) ∧
      flash'.stored = setPage flash.stored blk (filled blk) data ∧
      flash'.loaded = flash.loaded := by
  set n := filled blk with hn
  have hown : Filled shot flash blk n := h blk
  rw [hown.stage_eq data] at hfirst
  set staged : Flash β α :=
    { flash with staged := setPage flash.staged blk n data } with hstaged
  have hstored : staged.stored = setPage flash.stored blk n data :=
    stored_stage hown data
  have hsome : ∀ pg, (staged.stored blk pg).isSome = true ↔ pg < n + 1 := by
    intro pg
    rw [hstored]
    by_cases hpg : pg = n
    · rw [hpg, setPage_self]
      simp
    · rw [setPage_of_ne _ _ (fun heq => hpg heq.2), hown.isSome_iff]
      omega
  have hdiv := Nat.div_add_mod' n shot
  have hrun : ∀ steps, flash.run shot (first :: steps) =
      staged.run shot steps := by
    intro steps
    rw [run, List.foldlM_cons, hfirst]
    rfl
  have hother : ∀ blk' ≠ blk, ∀ pg,
      setPage flash.stored blk n data blk' pg = flash.stored blk' pg :=
    fun blk' hne pg => setPage_of_ne _ _ fun heq => hne heq.1
  rw [hrun]
  by_cases hlast : n % shot = shot - 1
  · obtain ⟨flash', hprogram, hnext, hsame, hloaded⟩ :=
      program_spec hshot
        (show staged.next blk = n / shot * shot from hown.next_eq) hsome hlast
    have hnextDiv : (n + 1) / shot * shot = n + 1 := by
      apply Nat.div_mul_cancel
      refine ⟨n / shot + 1, ?_⟩
      rw [Nat.mul_add, Nat.mul_comm shot, mul_one]
      omega
    rw [if_pos hlast]
    refine ⟨flash', ?_, fun blk' => ?_, hsame.trans hstored, hloaded⟩
    · rw [run, List.foldlM_cons, hprogram]
      rfl
    · by_cases hblk : blk' = blk
      · subst hblk
        rw [update_self]
        refine ⟨?_, hsame ▸ hsome⟩
        rw [hnext, update_self, hnextDiv]
      · rw [update_of_ne hblk]
        refine ⟨?_, fun pg => ?_⟩
        · rw [hnext, update_of_ne hblk]
          exact (h blk').next_eq
        · rw [hsame, hstored, hother blk' hblk]
          exact (h blk').isSome_iff pg
  · rw [if_neg hlast]
    refine ⟨staged, rfl, fun blk' => ?_, hstored, rfl⟩
    by_cases hblk : blk' = blk
    · subst hblk
      rw [update_self]
      refine ⟨?_, hsome⟩
      have hmod := Nat.mod_lt n hshot
      have hsameDiv : (n + 1) / shot = n / shot := by
        rw [Nat.div_eq_iff hshot]
        constructor <;> omega
      rw [hsameDiv]
      exact hown.next_eq
    · rw [update_of_ne hblk]
      refine ⟨(h blk').next_eq, fun pg => ?_⟩
      rw [hstored, hother blk' hblk]
      exact (h blk').isSome_iff pg

/-! ## Reading and erasing -/

/-- A read of programmed pages brings their contents into memory. -/
theorem read_spec (shot : ℕ) {pg cnt : ℕ}
    (hprogrammed : pg + cnt ≤ flash.next blk) :
    ∃ flash', flash.step shot (.read blk pg cnt) = some flash' ∧
      flash'.next = flash.next ∧ flash'.stored = flash.stored ∧
      ∀ pg', pg ≤ pg' → pg' < pg + cnt →
        flash'.loaded blk pg' = flash.stored blk pg' := by
  refine ⟨_, if_pos hprogrammed, rfl, rfl, fun pg' hge hlt => ?_⟩
  simp only [update_self, if_pos (And.intro hge hlt)]
  rw [stored, if_pos (by omega)]

/-- An erased block holds nothing; the others stay as they are. -/
theorem erase_spec {filled : β → ℕ}
    (h : ∀ blk, Filled shot flash blk (filled blk)) (blk : β) :
    ∃ flash', flash.step shot (.erase blk) = some flash' ∧
      (∀ blk', Filled shot flash' blk' (update filled blk 0 blk')) ∧
      ∀ blk' ≠ blk, flash'.stored blk' = flash.stored blk' := by
  have hother : ∀ blk' ≠ blk, ∀ pg, ({ flash with
      next := update flash.next blk 0
      staged := update flash.staged blk fun _ => none } :
        Flash β α).stored blk' pg = flash.stored blk' pg := by
    intro blk' hne pg
    simp only [stored, update_of_ne hne]
  refine ⟨_, rfl, fun blk' => ?_, fun blk' hne => funext (hother blk' hne)⟩
  by_cases hblk : blk' = blk
  · subst hblk
    rw [update_self]
    exact ⟨by simp, by simp [stored]⟩
  · rw [update_of_ne hblk]
    refine ⟨?_, fun pg => ?_⟩
    · simp only [update_of_ne hblk]
      exact (h blk').next_eq
    · rw [hother blk' hblk]
      exact (h blk').isSome_iff pg

end Flash

end NvmeVirt.NandFlash
