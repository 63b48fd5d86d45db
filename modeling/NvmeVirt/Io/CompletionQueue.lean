import NvmeVirt.Lib.Interleaving

/-!
# Posting completions

The dispatcher and an I/O worker post to the same completion queue.  Both read
`cq_head` and choose the slot before they take the lock under which they write
the entry and store the advanced head.  The entries are in place as long as the
head has not moved between the two steps; a poster that comes back to a head
that has moved on overwrites a completion and sets the head back.
-/

namespace NvmeVirt.Io

open Interleaving

structure NvmeCompletion where
  result0 : ℕ
  result1 : ℕ
  sqHead : ℕ
  sqId : ℕ
  commandId : ℕ
  status : ℕ

/-- What a poster knows about the completion it posts. -/
structure Posting where
  sqid : ℕ
  sqEntry : ℕ
  commandId : ℕ
  status : ℕ
  result0 : ℕ
  result1 : ℕ

inductive Poster where
  | dispatcher
  | worker
  deriving DecidableEq

structure CompletionQueue where
  queueSize : ℕ
  phase : Bool
  cqHead : ℕ
  entries : ℕ → NvmeCompletion
  interruptReady : Bool

/-- The fields written into an entry.  The dispatcher's copy of the code leaves
the result words as they are. -/
def fillEntry (poster : Poster) (posting : Posting) (phase : Bool)
    (cqe : NvmeCompletion) : NvmeCompletion :=
  let cqe := { cqe with
    commandId := posting.commandId
    sqId := posting.sqid
    sqHead := posting.sqEntry
    status := phase.toNat ||| posting.status <<< 1 }
  match poster with
  | .dispatcher => cqe
  | .worker =>
      { cqe with result0 := posting.result0, result1 := posting.result1 }

/-- The locked step, with the head that the poster has read. -/
def CompletionQueue.post (cq : CompletionQueue) (cqHead : ℕ) (poster : Poster)
    (posting : Posting) : CompletionQueue :=
  let wraps := cqHead + 1 = cq.queueSize
  { cq with
    entries := Function.update cq.entries cqHead
      (fillEntry poster posting cq.phase (cq.entries cqHead))
    cqHead := if wraps then 0 else cqHead + 1
    phase := if wraps then !cq.phase else cq.phase
    interruptReady := true }

/-- The queue, the heads that posters have read, and the postings in the order
of their locked steps. -/
structure PostingState where
  cq : CompletionQueue
  heads : Poster → Option ℕ
  posted : List (Poster × Posting)

inductive PostingEvent where
  | read (poster : Poster)
  | post (poster : Poster) (posting : Posting)

namespace PostingState

def init (queueSize : ℕ) (entries : ℕ → NvmeCompletion) : PostingState where
  cq :=
    { queueSize := queueSize
      phase := true
      cqHead := 0
      entries := entries
      interruptReady := false }
  heads _ := none
  posted := []

def step (event : PostingEvent) (st : PostingState) : Option PostingState :=
  match event with
  | .read poster =>
      match st.heads poster with
      | some _ => none
      | none => some { st with
          heads := Function.update st.heads poster (some st.cq.cqHead) }
  | .post poster posting =>
      match st.heads poster with
      | none => none
      | some cqHead => some
          { cq := st.cq.post cqHead poster posting
            heads := Function.update st.heads poster none
            posted := st.posted ++ [(poster, posting)] }

/-- The phase of the lap in which a posting falls. -/
def lapPhase (queueSize k : ℕ) : Bool := k / queueSize % 2 = 0

end PostingState

/-- An entry holds a posting, with the given phase bit. -/
structure NvmeCompletion.Shows (cqe : NvmeCompletion)
    (posting : Poster × Posting) (phase : Bool) : Prop where
  commandId_eq : cqe.commandId = posting.2.commandId
  sqId_eq : cqe.sqId = posting.2.sqid
  sqHead_eq : cqe.sqHead = posting.2.sqEntry
  phase_eq : cqe.status.testBit 0 = phase
  status_eq : cqe.status >>> 1 = posting.2.status
  results_eq : posting.1 = .worker →
    cqe.result0 = posting.2.result0 ∧ cqe.result1 = posting.2.result1

namespace PostingState

/-- The head and the phase are those of the number of postings, and the last lap
of postings stands in its slots. -/
structure InPlace (st : PostingState) : Prop where
  cqHead_eq : st.cq.cqHead = st.posted.length % st.cq.queueSize
  phase_eq : st.cq.phase = lapPhase st.cq.queueSize st.posted.length
  entries_show : ∀ k posting, st.posted[k]? = some posting →
    st.posted.length ≤ k + st.cq.queueSize →
      (st.cq.entries (k % st.cq.queueSize)).Shows posting
        (lapPhase st.cq.queueSize k)

/-- The head a poster has read is still the head when it takes the lock. -/
def Fresh (event : PostingEvent) (st : PostingState) : Prop :=
  match event with
  | .read _ => True
  | .post poster _ => ∀ cqHead ∈ st.heads poster, cqHead = st.cq.cqHead

instance (event : PostingEvent) (st : PostingState) :
    Decidable (Fresh event st) :=
  match event with
  | .read _ => .isTrue trivial
  | .post poster _ =>
      inferInstanceAs (Decidable (∀ cqHead ∈ st.heads poster, _))

structure Inv (queueSize : ℕ) (st : PostingState) : Prop
    extends st.InPlace where
  queueSize_eq : st.cq.queueSize = queueSize
  heads_lt : ∀ poster, ∀ cqHead ∈ st.heads poster, cqHead < queueSize

end PostingState

theorem fillEntry_shows (poster : Poster) (posting : Posting) (phase : Bool)
    (cqe : NvmeCompletion) :
    (fillEntry poster posting phase cqe).Shows (poster, posting) phase := by
  have hbit : (phase.toNat ||| posting.status <<< 1).testBit 0 = phase := by
    cases phase <;> simp
  have hstatus : (phase.toNat ||| posting.status <<< 1) >>> 1 =
      posting.status := by
    cases phase <;> simp [Nat.shiftRight_or_distrib]
  cases poster with
  | dispatcher => exact ⟨rfl, rfl, rfl, hbit, hstatus, by simp⟩
  | worker => exact ⟨rfl, rfl, rfl, hbit, hstatus, fun _ => ⟨rfl, rfl⟩⟩

theorem succ_mod_eq {n : ℕ} (hn : 0 < n) (k : ℕ) :
    (k + 1) % n = if k % n + 1 = n then 0 else k % n + 1 := by
  have hlt := Nat.mod_lt k hn
  rw [Nat.add_mod]
  split
  next hwraps =>
    rcases Nat.lt_or_ge 1 n with hone | hone
    · rw [Nat.mod_eq_of_lt hone, hwraps, Nat.mod_self]
    · have : n = 1 := by omega
      subst this
      exact Nat.mod_one _
  next hstays =>
    rw [Nat.mod_eq_of_lt (show 1 < n by omega), Nat.mod_eq_of_lt (by omega)]

theorem succ_div_eq {n : ℕ} (hn : 0 < n) (k : ℕ) :
    (k + 1) / n = if k % n + 1 = n then k / n + 1 else k / n := by
  have hdvd : n ∣ k + 1 ↔ k % n + 1 = n := by
    rw [Nat.dvd_iff_mod_eq_zero, succ_mod_eq hn]
    split <;> simp_all
  rw [Nat.succ_div]
  by_cases hwraps : k % n + 1 = n
  · rw [if_pos hwraps, if_pos (hdvd.mpr hwraps)]
  · rw [if_neg hwraps, if_neg (hdvd.not.mpr hwraps), add_zero]

namespace PostingState

theorem lapPhase_succ {n : ℕ} (hn : 0 < n) (k : ℕ) :
    lapPhase n (k + 1) =
      if k % n + 1 = n then !lapPhase n k else lapPhase n k := by
  rw [lapPhase, lapPhase, succ_div_eq hn]
  split
  · rw [← decide_not]
    exact decide_eq_decide.mpr (by omega)
  · rfl

variable {queueSize : ℕ} {st : PostingState} {poster : Poster}

/-- Two postings of one lap have different slots. -/
theorem slot_ne {k : ℕ} {count : ℕ} (hk : k < count)
    (hlap : count + 1 ≤ k + queueSize) : k % queueSize ≠ count % queueSize := by
  intro heq
  have hdvd : queueSize ∣ count - k :=
    (Nat.modEq_iff_dvd' hk.le).mp heq
  have := Nat.le_of_dvd (by omega) hdvd
  omega

theorem Inv.read (hst : st.Inv queueSize) (hpos : 0 < queueSize)
    (poster : Poster) :
    Inv queueSize { st with
      heads := Function.update st.heads poster (some st.cq.cqHead) } := by
  refine ⟨⟨hst.cqHead_eq, hst.phase_eq, hst.entries_show⟩, hst.queueSize_eq, ?_⟩
  intro other cqHead hhead
  dsimp only at hhead
  by_cases hother : other = poster
  · subst hother
    rw [Function.update_self, Option.mem_some_iff] at hhead
    rw [← hhead, hst.cqHead_eq, hst.queueSize_eq]
    exact Nat.mod_lt _ hpos
  · rw [Function.update_of_ne hother] at hhead
    exact hst.heads_lt other cqHead hhead

theorem Inv.post (hst : st.Inv queueSize) (hpos : 0 < queueSize)
    (poster : Poster) (posting : Posting) :
    Inv queueSize
      { cq := st.cq.post st.cq.cqHead poster posting
        heads := Function.update st.heads poster none
        posted := st.posted ++ [(poster, posting)] } := by
  have hsize := hst.queueSize_eq
  have hhead := hst.cqHead_eq
  have hphase := hst.phase_eq
  rw [hsize] at hhead hphase
  refine ⟨⟨?_, ?_, ?_⟩, hsize, ?_⟩
  · rw [List.length_append, List.length_singleton, CompletionQueue.post,
      hsize, hhead, succ_mod_eq hpos]
  · rw [List.length_append, List.length_singleton, CompletionQueue.post,
      hsize, hhead, lapPhase_succ hpos, hphase]
  · intro k other hother hlap
    rw [List.length_append, List.length_singleton, CompletionQueue.post, hsize]
      at hlap
    rw [CompletionQueue.post, hsize, hhead]
    dsimp only at hother ⊢
    rcases Nat.lt_or_ge k st.posted.length with hk | hk
    · rw [List.getElem?_append_left hk] at hother
      rw [Function.update_of_ne (slot_ne hk hlap)]
      have hshows := hst.entries_show k other hother (by omega)
      rwa [hsize] at hshows
    · have hlast : k = st.posted.length := by
        have := (List.getElem?_eq_some_iff.mp hother).1
        rw [List.length_append, List.length_singleton] at this
        omega
      subst hlast
      rw [List.getElem?_concat_length, Option.some_inj] at hother
      rw [Function.update_self, ← hother, hphase]
      exact fillEntry_shows ..
  · intro other cqHead hmem
    dsimp only at hmem
    by_cases hother : other = poster
    · subst hother
      rw [Function.update_self] at hmem
      cases hmem
    · rw [Function.update_of_ne hother] at hmem
      exact hst.heads_lt other cqHead hmem

/-- A poster that comes back to another head sets the head wrong. -/
theorem head_eq_of_inPlace (hst : st.Inv queueSize) (hpos : 0 < queueSize)
    {cqHead : ℕ} (hhead : cqHead ∈ st.heads poster) {posting : Posting}
    {heads : Poster → Option ℕ}
    (hplace : InPlace
      { cq := st.cq.post cqHead poster posting
        heads := heads
        posted := st.posted ++ [(poster, posting)] }) :
    cqHead = st.cq.cqHead := by
  have hlt := hst.heads_lt poster cqHead hhead
  have hnext := hplace.cqHead_eq
  rw [List.length_append, List.length_singleton, CompletionQueue.post,
    hst.queueSize_eq, succ_mod_eq hpos] at hnext
  dsimp only at hnext
  rw [hst.cqHead_eq, hst.queueSize_eq]
  have hmod := Nat.mod_lt st.posted.length hpos
  split at hnext <;> split at hnext <;> omega

theorem init_inv (entries : ℕ → NvmeCompletion) :
    (init queueSize entries).Inv queueSize := by
  refine ⟨⟨?_, ?_, ?_⟩, rfl, ?_⟩
  · exact (Nat.zero_mod _).symm
  · simp [init, lapPhase]
  · simp [init]
  · simp [init]

end PostingState

/-- In every interleaving of two posters, the completions are in place
throughout exactly if every poster takes the lock while the head it has read is
still the head. -/
theorem completions_in_place {queueSize : ℕ} (hpos : 0 < queueSize)
    (entries : ℕ → NvmeCompletion) (schedule : List PostingEvent) :
    Always PostingState.step PostingState.InPlace schedule
        (PostingState.init queueSize entries) ↔
      Meets PostingState.step PostingState.Fresh schedule
        (PostingState.init queueSize entries) := by
  refine always_iff_meets PostingState.step
    (fun st (hst : st.Inv queueSize) => hst.toInPlace) ?_ ?_
    (PostingState.init_inv entries) (meets_true PostingState.step _ _)
  · intro event st hst _ hfresh
    cases event with
    | read poster =>
        rw [turn, PostingState.step]
        cases hhead : st.heads poster with
        | none => exact hst.read hpos poster
        | some _ => exact hst
    | post poster posting =>
        rw [turn, PostingState.step]
        cases hhead : st.heads poster with
        | none => exact hst
        | some cqHead =>
            rw [hfresh cqHead hhead]
            exact hst.post hpos poster posting
  · intro event st hst _ hplace
    cases event with
    | read _ => trivial
    | post poster posting =>
        intro cqHead hhead
        rw [turn, PostingState.step, show st.heads poster = some cqHead from
          hhead] at hplace
        exact PostingState.head_eq_of_inPlace hst hpos hhead hplace

/-- A successful completion of a command, as either poster posts it. -/
def plainPosting (commandId : ℕ) : Posting where
  sqid := 1
  sqEntry := commandId
  commandId := commandId
  status := 0
  result0 := 0
  result1 := 0

def emptyEntry : NvmeCompletion := ⟨0, 0, 0, 0, 0, 0⟩

theorem completions_in_place_alternating :
    Always PostingState.step PostingState.InPlace
      [.read .worker, .post .worker (plainPosting 7), .read .dispatcher,
        .post .dispatcher (plainPosting 8)]
      (PostingState.init 4 fun _ => emptyEntry) :=
  (completions_in_place (by decide) _ _).mpr (by decide)

/-- Both posters read the head before either has posted. -/
theorem completions_overwritten :
    ¬ Always PostingState.step PostingState.InPlace
      [.read .worker, .read .dispatcher, .post .worker (plainPosting 7),
        .post .dispatcher (plainPosting 8)]
      (PostingState.init 4 fun _ => emptyEntry) := by
  intro halways
  exact absurd halways.last.cqHead_eq (by decide)

end NvmeVirt.Io
