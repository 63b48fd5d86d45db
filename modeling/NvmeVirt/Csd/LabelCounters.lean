import NvmeVirt.Csd.EdgeKernel
import NvmeVirt.Lib.Rounding

/-!
# Label counters in single-precision slots

Label Propagation keeps the numbers of votes for its two labels in one vertex
slot, as the word `freq0 + 65536 * freq1` converted to single precision.  The
mask `0xFFFF` leaves 16 bits for each counter, but the significand of a slot
has 24 bits, so the second counter has room for 8 bits only.

A run lists the edges that the devices process for one iteration, in whatever
order the devices take turns; the host then aggregates the partitions.
-/

namespace NvmeVirt.Csd

open Function

/-! ## Words and slots -/

/-- `(float)` of an `int`. -/
def singlePrecision (n : ℤ) : ℚ :=
  Rounding.roundInt 24 n

/-- The word that is converted to single precision. -/
def packedWord (freqs : BitVec 32 × BitVec 32) : ℕ :=
  freqs.1.toNat + 65536 * freqs.2.toNat

/-- The counters that the two masks read from a slot. -/
def slotVotes (value : ℚ) : ℕ × ℕ :=
  ((labelFreqs value).1.toNat, (labelFreqs value).2.toNat)

theorem toInt32_natCast {n : ℕ} : toInt32 (n : ℚ) = BitVec.ofNat 32 n := by
  rw [toInt32, Rat.num_natCast, Rat.den_natCast]
  simp

theorem slotVotes_natCast {n : ℕ} (hn : n < 2 ^ 31) :
    slotVotes (n : ℚ) = (n % 65536, n / 65536) := by
  have hmask : ∀ word : BitVec 32,
      (word &&& 0xFFFF).toNat = word.toNat % 65536 := by
    intro word
    rw [BitVec.toNat_and]
    exact Nat.and_two_pow_sub_one_eq_mod word.toNat 16
  have hword : (BitVec.ofNat 32 n).toNat = n := by
    rw [BitVec.toNat_ofNat]
    omega
  have hmsb : (BitVec.ofNat 32 n).msb = false := by
    rw [BitVec.msb_eq_decide, hword, decide_eq_false_iff_not]
    omega
  have hshift : ((BitVec.ofNat 32 n).sshiftRight 16).toNat = n / 65536 := by
    rw [BitVec.sshiftRight_eq_of_msb_false hmsb, BitVec.toNat_ushiftRight,
      hword, Nat.shiftRight_eq_div_pow]
  simp only [slotVotes, labelFreqs, toInt32_natCast]
  rw [hmask, hmask, hword, hshift]
  apply Prod.ext
  · rfl
  · show n / 65536 % 65536 = n / 65536
    omega

@[simp]
theorem slotVotes_zero : slotVotes 0 = (0, 0) := by
  have hzero := slotVotes_natCast (n := 0) (by norm_num)
  simpa using hzero

theorem slotVotes_lt (value : ℚ) :
    (slotVotes value).1 < 65536 ∧ (slotVotes value).2 < 65536 := by
  have hmask : ∀ word : BitVec 32, (word &&& 0xFFFF).toNat < 65536 := by
    intro word
    rw [BitVec.toNat_and]
    exact lt_of_le_of_lt Nat.and_le_right (by decide)
  exact ⟨hmask _, hmask _⟩

/-- The two counters before they are joined. -/
theorem toInt_or_shift {freqs : BitVec 32 × BitVec 32}
    (hword : packedWord freqs < 2 ^ 24) :
    ∃ low : ℕ, low < 2 ^ 24 ∧ low / 65536 < 256 ∧
      (freqs.1 ||| (freqs.2 <<< 16)).toInt = low ∧
      (freqs.1.toNat < 65536 → low = packedWord freqs) := by
  have hword' : freqs.1.toNat + 65536 * freqs.2.toNat < 16777216 := hword
  have hshift : (freqs.2 <<< 16).toNat = freqs.2.toNat <<< 16 := by
    rw [BitVec.toNat_shiftLeft, Nat.shiftLeft_eq]
    omega
  have hor : (freqs.1 ||| (freqs.2 <<< 16)).toNat =
      freqs.1.toNat ||| freqs.2.toNat <<< 16 := by
    rw [BitVec.toNat_or, hshift]
  have hlt : (freqs.1.toNat ||| freqs.2.toNat <<< 16) < 2 ^ 24 := by
    apply Nat.or_lt_two_pow
    · omega
    · rw [Nat.shiftLeft_eq]
      omega
  refine ⟨_, hlt, by omega, ?_, ?_⟩
  · rw [BitVec.toInt_eq_toNat_of_lt (by rw [hor]; omega), hor]
  · intro hlow
    rw [Nat.lor_comm, ← Nat.shiftLeft_add_eq_or_of_lt hlow, Nat.shiftLeft_eq,
      packedWord]
    omega

section Slots

variable {arithmetic : Arithmetic}
  (hsingle : arithmetic.single = singlePrecision)
include hsingle

theorem packFreqs_natCast {freqs : BitVec 32 × BitVec 32} {word : ℕ}
    (hword : (freqs.1 ||| (freqs.2 <<< 16)).toInt = word)
    (hlt : word < 2 ^ 24) : packFreqs arithmetic freqs = word := by
  rw [packFreqs, hsingle, hword, singlePrecision,
    Rounding.roundInt_natCast (by norm_num) hlt, Int.cast_natCast]

/-- A word below `2 ^ 24` leaves at most 255 for the second label. -/
theorem slotVotes_packFreqs_lt {freqs : BitVec 32 × BitVec 32}
    (hword : packedWord freqs < 2 ^ 24) :
    (slotVotes (packFreqs arithmetic freqs)).2 < 256 := by
  obtain ⟨word, hlt, hhigh, hint, -⟩ := toInt_or_shift hword
  rw [packFreqs_natCast hsingle hint hlt, slotVotes_natCast (by omega)]
  exact hhigh

/-- Counters of 16 and 8 bits survive the slot. -/
theorem slotVotes_packFreqs {freqs : BitVec 32 × BitVec 32}
    (hfirst : freqs.1.toNat < 65536) (hsecond : freqs.2.toNat < 256) :
    packedWord freqs < 2 ^ 24 ∧
      slotVotes (packFreqs arithmetic freqs) =
        (freqs.1.toNat, freqs.2.toNat) := by
  have hword : packedWord freqs < 2 ^ 24 := by
    rw [packedWord]
    omega
  obtain ⟨word, hlt, -, hint, heq⟩ := toInt_or_shift hword
  refine ⟨hword, ?_⟩
  rw [packFreqs_natCast hsingle hint hlt, slotVotes_natCast (by omega),
    heq hfirst, packedWord]
  apply Prod.ext
  · show (freqs.1.toNat + 65536 * freqs.2.toNat) % 65536 = freqs.1.toNat
    omega
  · show (freqs.1.toNat + 65536 * freqs.2.toNat) / 65536 = freqs.2.toNat
    omega

end Slots

/-! ## Votes -/

/-- The label that vertex `u` votes for: the one it has seen more often, and
on a tie the parity of `u`. -/
def voteOf (src : ℕ → ℚ) (u : ℕ) : Fin 2 :=
  let votes := slotVotes (src u)
  if votes.2 < votes.1 then 0
  else if votes.1 < votes.2 then 1
  else if u % 2 = 0 then 0
  else 1

/-- Votes for a label that vertex `v` receives from the edges of the devices
in `devices`.  A run is a list of devices with the edges they process. -/
def votesFor (src : ℕ → ℚ) (label : Fin 2) (devices : ℕ → Bool) (v : ℕ)
    (run : List (ℕ × ℕ × ℕ)) : ℕ :=
  run.countP fun vote =>
    devices vote.1 && (vote.2.2 = v && voteOf src vote.2.1 = label)

/-- Votes for both labels. -/
def votes (src : ℕ → ℚ) (devices : ℕ → Bool) (v : ℕ)
    (run : List (ℕ × ℕ × ℕ)) : ℕ × ℕ :=
  (votesFor src 0 devices v run, votesFor src 1 devices v run)

theorem votesFor_mono (src : ℕ → ℚ) (label : Fin 2)
    {devices others : ℕ → Bool}
    (hdevices : ∀ csd, devices csd = true → others csd = true) (v : ℕ)
    (run : List (ℕ × ℕ × ℕ)) :
    votesFor src label devices v run ≤ votesFor src label others v run := by
  apply List.countP_mono_left
  intro vote _ hcounted
  rw [Bool.and_eq_true] at hcounted ⊢
  exact ⟨hdevices vote.1 hcounted.1, hcounted.2⟩

theorem votesFor_append (src : ℕ → ℚ) (label : Fin 2) (devices : ℕ → Bool)
    (v : ℕ) (before after : List (ℕ × ℕ × ℕ)) :
    votesFor src label devices v (before ++ after) =
      votesFor src label devices v before +
        votesFor src label devices v after :=
  List.countP_append

/-- The votes counted by the first devices and by the next one. -/
theorem votesFor_le (src : ℕ → ℚ) (label : Fin 2) (csd v : ℕ)
    (run : List (ℕ × ℕ × ℕ)) :
    votesFor src label (fun device => decide (device ≤ csd)) v run =
      votesFor src label (fun device => decide (device < csd)) v run +
        votesFor src label (fun device => decide (device = csd)) v run := by
  induction run with
  | nil => rfl
  | cons vote run ih =>
      simp only [votesFor, List.countP_cons] at ih ⊢
      rw [ih]
      rcases lt_trichotomy vote.1 csd with hlt | heq | hgt
      · simp only [hlt.le, hlt, hlt.ne, decide_true, decide_false,
          Bool.true_and, Bool.false_and]
        simp only [Bool.false_eq_true, if_false]
        omega
      · simp only [heq, le_refl, lt_irrefl, decide_true, decide_false,
          Bool.true_and, Bool.false_and]
        simp only [Bool.false_eq_true, if_false]
        omega
      · simp only [hgt.not_ge, hgt.not_gt, hgt.ne', decide_false,
          Bool.false_and]
        simp only [Bool.false_eq_true, if_false, add_zero]

/-- The counters of a destination below the masks after one vote. -/
theorem castVote_eq (src : ℕ → ℚ) (u : ℕ) {dst : BitVec 32 × BitVec 32}
    (hfirst : dst.1.toNat < 65536) (hsecond : dst.2.toNat < 65536) :
    let freqs := castVote u (labelFreqs (src u)) dst
    freqs.1.toNat = dst.1.toNat + (if voteOf src u = 0 then 1 else 0) ∧
      freqs.2.toNat = dst.2.toNat + (if voteOf src u = 1 then 1 else 0) := by
  have hsucc : ∀ freq : BitVec 32, freq.toNat < 65536 →
      (freq + 1).toNat = freq.toNat + 1 := by
    intro freq hfreq
    rw [BitVec.toNat_add]
    change (freq.toNat + 1) % 2 ^ 32 = freq.toNat + 1
    omega
  simp only [castVote, voteOf, slotVotes]
  split_ifs <;> simp_all

/-! ## The edge loops of the devices -/

/-- One iteration of the edge loop of a device. -/
def voteStep (cfg : Config) (degree : ℕ → ℕ) (src : ℕ → ℚ) (buf : ℕ → ℚ)
    (vote : ℕ × ℕ × ℕ) : ℕ → ℚ :=
  (edgeStep cfg degree src ((vote.1 + 1) * cfg.numVertices) (buf, 0)
    vote.2).1

/-- The edges of all devices, from a cleared buffer on. -/
def castVotes (cfg : Config) (degree : ℕ → ℕ) (src : ℕ → ℚ)
    (run : List (ℕ × ℕ × ℕ)) : ℕ → ℚ :=
  run.foldl (voteStep cfg degree src) fun _ => 0

/-- The counters that one iteration of the edge loop packs. -/
def votedFreqs (cfg : Config) (src : ℕ → ℚ) (buf : ℕ → ℚ)
    (vote : ℕ × ℕ × ℕ) : BitVec 32 × BitVec 32 :=
  castVote vote.2.1 (labelFreqs (src vote.2.1))
    (labelFreqs (buf (sectionIndex cfg.numVertices vote.1 vote.2.2)))

/-- The counters that the aggregation of one slot packs. -/
def summedFreqs (host partialSum : ℚ) : BitVec 32 × BitVec 32 :=
  ((labelFreqs host).1 + (labelFreqs partialSum).1,
    (labelFreqs host).2 + (labelFreqs partialSum).2)

section Runs

variable (cfg : Config) (degree : ℕ → ℕ) (src : ℕ → ℚ)
  (halgorithm : cfg.algorithm = .labelPropagation)
include halgorithm

/-- The loop of one task is a run of its device. -/
theorem procEdges_eq_votes (csd : ℕ) (buf : ℕ → ℚ) (edges : List (ℕ × ℕ)) :
    procEdges cfg degree src ((csd + 1) * cfg.numVertices) buf edges =
      (edges.map (Prod.mk csd)).foldl (voteStep cfg degree src) buf := by
  have hstate : ∀ loop edge, edgeState cfg src loop edge = loop := by
    intro loop edge
    simp only [edgeState, halgorithm]
  induction edges generalizing buf with
  | nil => rfl
  | cons edge edges ih =>
      rw [List.map_cons, List.foldl_cons, ← ih]
      simp only [procEdges, List.foldl_cons]
      rw [edgeStep, hstate]
      rfl

theorem voteStep_eq (buf : ℕ → ℚ) (vote : ℕ × ℕ × ℕ) :
    voteStep cfg degree src buf vote =
      update buf (sectionIndex cfg.numVertices vote.1 vote.2.2)
        (packFreqs cfg.arithmetic (votedFreqs cfg src buf vote)) := by
  simp only [voteStep, edgeStep, edgeValue, halgorithm]
  rfl

theorem mergeValue_eq (host partialSum : ℚ) :
    mergeValue cfg host partialSum =
      packFreqs cfg.arithmetic (summedFreqs host partialSum) := by
  simp only [mergeValue, halgorithm]
  rfl

end Runs

section Counters

variable (cfg : Config) (degree : ℕ → ℕ) (src : ℕ → ℚ)
  (halgorithm : cfg.algorithm = .labelPropagation)
  (hsingle : cfg.arithmetic.single = singlePrecision)
include halgorithm hsingle

/-- A vote for a slot whose counters are right and stay small. -/
theorem voted_slot {buf : ℕ → ℚ} {before : List (ℕ × ℕ × ℕ)} {csd : ℕ}
    {edge : ℕ × ℕ}
    (hslot : slotVotes (buf (sectionIndex cfg.numVertices csd edge.2)) =
      votes src (fun device => decide (device = csd)) edge.2 before)
    (hfirst : votesFor src 0 (fun device => decide (device = csd)) edge.2
      (before ++ [(csd, edge)]) < 65536)
    (hsecond : votesFor src 1 (fun device => decide (device = csd)) edge.2
      (before ++ [(csd, edge)]) < 256) :
    packedWord (votedFreqs cfg src buf (csd, edge)) < 2 ^ 24 ∧
      slotVotes (voteStep cfg degree src buf (csd, edge)
          (sectionIndex cfg.numVertices csd edge.2)) =
        votes src (fun device => decide (device = csd)) edge.2
          (before ++ [(csd, edge)]) := by
  have hone : ∀ label : Fin 2,
      votesFor src label (fun device => decide (device = csd)) edge.2
        (before ++ [(csd, edge)]) =
      votesFor src label (fun device => decide (device = csd)) edge.2 before +
        if voteOf src edge.1 = label then 1 else 0 := by
    intro label
    rw [votesFor_append]
    simp [votesFor, List.countP_cons]
  have hmasks := slotVotes_lt (buf (sectionIndex cfg.numVertices csd edge.2))
  have hcast := castVote_eq src edge.1 hmasks.1 hmasks.2
  have hfreqs : (votedFreqs cfg src buf (csd, edge)).1.toNat =
        votesFor src 0 (fun device => decide (device = csd)) edge.2
          (before ++ [(csd, edge)]) ∧
      (votedFreqs cfg src buf (csd, edge)).2.toNat =
        votesFor src 1 (fun device => decide (device = csd)) edge.2
          (before ++ [(csd, edge)]) := by
    rw [hone 0, hone 1]
    exact ⟨hcast.1.trans (congrArg (· + _) (congrArg Prod.fst hslot)),
      hcast.2.trans (congrArg (· + _) (congrArg Prod.snd hslot))⟩
  rw [voteStep_eq cfg degree src halgorithm, update_self]
  have hpacked := slotVotes_packFreqs hsingle
    (hfreqs.1.trans_lt hfirst) (hfreqs.2.trans_lt hsecond)
  rw [hfreqs.1, hfreqs.2] at hpacked
  exact hpacked

/-- Aggregation of two slots whose counters stay small together. -/
theorem merged_slot {host partialSum : ℚ} {first second : ℕ × ℕ}
    (hhost : slotVotes host = first) (hpart : slotVotes partialSum = second)
    (hfirst : first.1 + second.1 < 65536)
    (hsecond : first.2 + second.2 < 256) :
    packedWord (summedFreqs host partialSum) < 2 ^ 24 ∧
      slotVotes (mergeValue cfg host partialSum) =
        (first.1 + second.1, first.2 + second.2) := by
  subst hhost hpart
  have hfreqs : (summedFreqs host partialSum).1.toNat =
        (slotVotes host).1 + (slotVotes partialSum).1 ∧
      (summedFreqs host partialSum).2.toNat =
        (slotVotes host).2 + (slotVotes partialSum).2 := by
    simp only [summedFreqs, slotVotes, BitVec.toNat_add] at hfirst hsecond ⊢
    constructor <;> exact Nat.mod_eq_of_lt (by omega)
  rw [mergeValue_eq cfg halgorithm]
  have hpacked := slotVotes_packFreqs hsingle
    (hfreqs.1.trans_lt hfirst) (hfreqs.2.trans_lt hsecond)
  rw [hfreqs.1, hfreqs.2] at hpacked
  exact hpacked

end Counters

/-! ## Runs -/

/-- Edges as the preprocessing step leaves them. -/
def WellFormedRun (cfg : Config) (run : List (ℕ × ℕ × ℕ)) : Prop :=
  ∀ vote ∈ run, vote.1 < cfg.numCsds ∧ vote.2.2 < cfg.numVertices

/-- The buffer before the slot of device `csd` is folded into the host's slot
of vertex `v`; the vertices in `before` are aggregated already. -/
def mergingBuffer (cfg : Config) (buf : ℕ → ℚ) (before : List ℕ) (v csd : ℕ) :
    ℕ → ℚ :=
  (List.range csd).foldl (mergeSection cfg (mergeValue cfg) v)
    (before.foldl (mergeVertex cfg (mergeValue cfg)) buf)

/-- Every word that an edge loop or the aggregation writes is below `2 ^ 24`,
and the slot then decodes to the true numbers of votes. -/
structure CountersKept (cfg : Config) (degree : ℕ → ℕ) (src : ℕ → ℚ)
    (run : List (ℕ × ℕ × ℕ)) : Prop where
  edges : ∀ before vote after, run = before ++ vote :: after →
    packedWord (votedFreqs cfg src (castVotes cfg degree src before) vote) <
        2 ^ 24 ∧
      slotVotes (castVotes cfg degree src (before ++ [vote])
          (sectionIndex cfg.numVertices vote.1 vote.2.2)) =
        votes src (fun device => decide (device = vote.1)) vote.2.2
          (before ++ [vote])
  merges : ∀ partitionId < cfg.numPartitions, ∀ before v after,
    partitionVertices cfg partitionId = before ++ v :: after →
    ∀ csd < cfg.numCsds,
      let buf :=
        mergingBuffer cfg (castVotes cfg degree src run) before v csd
      packedWord (summedFreqs (buf v)
          (buf (sectionIndex cfg.numVertices csd v))) < 2 ^ 24 ∧
        slotVotes (mergeSection cfg (mergeValue cfg) v buf csd v) =
          votes src (fun device => decide (device ≤ csd)) v run

theorem mergeSection_host (cfg : Config) (merge : ℚ → ℚ → ℚ) {v : ℕ}
    (hv : v < cfg.numVertices) (buf : ℕ → ℚ) (csd : ℕ) :
    mergeSection cfg merge v buf csd v =
      merge (buf v) (buf (sectionIndex cfg.numVertices csd v)) := by
  simp only [mergeSection]
  rw [update_of_ne (sectionIndex_ne_host hv csd).symm, update_self]

/-- The aggregation of a vertex is unaffected by the vertices before it. -/
theorem mergingBuffer_cells (cfg : Config) (hpos : 0 < cfg.numPartitions)
    (buf : ℕ → ℚ) {partitionId : ℕ}
    (hpartition : partitionId < cfg.numPartitions)
    {before after : List ℕ} {v : ℕ}
    (hsplit : partitionVertices cfg partitionId = before ++ v :: after)
    (csd : ℕ) :
    mergingBuffer cfg buf before v csd v =
        (List.range csd).foldl (fun value device => mergeValue cfg value
          (buf (sectionIndex cfg.numVertices device v))) (buf v) ∧
      mergingBuffer cfg buf before v csd
          (sectionIndex cfg.numVertices csd v) =
        buf (sectionIndex cfg.numVertices csd v) := by
  have hlt : ∀ w ∈ before ++ v :: after, w < cfg.numVertices := by
    intro w hw
    rw [← hsplit] at hw
    exact lt_of_mem_partitionVertices cfg hpos hpartition hw
  have hv : v < cfg.numVertices := hlt v (by simp)
  have hnodup := nodup_partitionVertices cfg partitionId
  rw [hsplit] at hnodup
  have hframe : vertexCells cfg v
      (before.foldl (mergeVertex cfg (mergeValue cfg)) buf) =
      vertexCells cfg v buf := by
    apply Loops.foldl_frame (vertexCells cfg v)
    intro w hw now
    apply vertexCells_mergeVertex_other cfg _ hv (hlt w (by simp [hw]))
    rintro rfl
    exact List.disjoint_of_nodup_append hnodup hw List.mem_cons_self
  have hcells := vertexCells_mergeVertex_own { cfg with numCsds := csd }
    (mergeValue cfg) (v := v) hv
    (before.foldl (mergeVertex cfg (mergeValue cfg)) buf)
  have hhost := congrArg Prod.fst hframe
  have hsection := congrFun (congrArg Prod.snd hframe)
  constructor
  · refine (congrArg Prod.fst hcells).trans ?_
    simp only [mergeCell]
    simp only [vertexCells] at hhost hsection
    simp only [hhost, hsection]
  · refine (congrFun (congrArg Prod.snd hcells) csd).trans ?_
    simp only [lt_irrefl, if_false]
    exact hsection csd

section Kept

variable (cfg : Config) (degree : ℕ → ℕ) (src : ℕ → ℚ)
  (halgorithm : cfg.algorithm = .labelPropagation)
  (hsingle : cfg.arithmetic.single = singlePrecision)

omit hsingle in
include halgorithm in
/-- Edge loops leave the host's slots alone. -/
theorem castVotes_host (run : List (ℕ × ℕ × ℕ)) {v : ℕ}
    (hv : v < cfg.numVertices) : castVotes cfg degree src run v = 0 := by
  apply Loops.foldl_frame (fun buf : ℕ → ℚ => buf v)
    (voteStep cfg degree src) run
  intro vote _ buf
  rw [voteStep_eq cfg degree src halgorithm]
  exact update_of_ne (sectionIndex_ne_host hv vote.1).symm _ _

include halgorithm hsingle

/-- As long as the counters stay small, every slot of a device decodes to the
votes that the device has counted. -/
theorem castVotes_section {run : List (ℕ × ℕ × ℕ)}
    (hrun : WellFormedRun cfg run)
    (hfirst : ∀ v, votesFor src 0 (fun _ => true) v run < 65536)
    (hsecond : ∀ v, votesFor src 1 (fun _ => true) v run < 256) (csd : ℕ)
    {v : ℕ} (hv : v < cfg.numVertices) :
    slotVotes (castVotes cfg degree src run
        (sectionIndex cfg.numVertices csd v)) =
      votes src (fun device => decide (device = csd)) v run := by
  have hloop := Loops.foldl_prefix
    (fun before buf => ∀ csd, ∀ v < cfg.numVertices,
      slotVotes (buf (sectionIndex cfg.numVertices csd v)) =
        votes src (fun device => decide (device = csd)) v before)
    (voteStep cfg degree src) run ?_ (s := fun _ => 0)
    (fun csd v _ => slotVotes_zero)
  · exact hloop csd v hv
  rintro before ⟨device, edge⟩ after buf hsplit hinv csd v hv
  have htarget : edge.2 < cfg.numVertices :=
    (hrun (device, edge) (by simp [hsplit])).2
  have hbound : ∀ label : Fin 2,
      votesFor src label (fun csd => decide (csd = device)) edge.2
          (before ++ [(device, edge)]) ≤
        votesFor src label (fun _ => true) edge.2 run := by
    intro label
    calc votesFor src label (fun csd => decide (csd = device)) edge.2
          (before ++ [(device, edge)])
        ≤ votesFor src label (fun _ => true) edge.2
          (before ++ [(device, edge)]) :=
          votesFor_mono src label (fun _ _ => rfl) _ _
      _ ≤ votesFor src label (fun _ => true) edge.2
          (before ++ [(device, edge)] ++ after) := by
          rw [votesFor_append src label _ _ (before ++ [(device, edge)])]
          exact Nat.le_add_right _ _
      _ = votesFor src label (fun _ => true) edge.2 run := by
          rw [hsplit, List.append_assoc, List.singleton_append]
  by_cases hslot : csd = device ∧ v = edge.2
  · obtain ⟨rfl, rfl⟩ := hslot
    exact (voted_slot cfg degree src halgorithm hsingle
      (hinv csd edge.2 htarget) ((hbound 0).trans_lt (hfirst edge.2))
      ((hbound 1).trans_lt (hsecond edge.2))).2
  · -- The vote goes to another slot and is not counted for this one.
    have hzero : ∀ label : Fin 2, votesFor src label
        (fun other => decide (other = csd)) v [(device, edge)] = 0 := by
      intro label
      have hvote : ¬(device = csd ∧ edge.2 = v) := by
        rintro ⟨rfl, rfl⟩
        exact hslot ⟨rfl, rfl⟩
      simp only [votesFor, List.countP_cons, List.countP_nil]
      rw [if_neg]
      simp only [Bool.and_eq_true, decide_eq_true_eq]
      tauto
    rw [voteStep_eq cfg degree src halgorithm, update_of_ne, hinv csd v hv]
    · simp only [votes, votesFor_append, hzero, add_zero]
    · rw [Ne, sectionIndex_inj hv htarget]
      exact hslot

/-- The host's slot after the slots of the first devices are folded in. -/
theorem mergingBuffer_host {buf : ℕ → ℚ} {run : List (ℕ × ℕ × ℕ)} {v : ℕ}
    (hsection : ∀ csd, slotVotes (buf (sectionIndex cfg.numVertices csd v)) =
      votes src (fun device => decide (device = csd)) v run)
    (hfirst : votesFor src 0 (fun _ => true) v run < 65536)
    (hsecond : votesFor src 1 (fun _ => true) v run < 256) (csd : ℕ)
    {host : ℚ} (hhost : slotVotes host =
      votes src (fun device => decide (device < csd)) v run) :
    packedWord (summedFreqs host
        (buf (sectionIndex cfg.numVertices csd v))) < 2 ^ 24 ∧
      slotVotes (mergeValue cfg host
          (buf (sectionIndex cfg.numVertices csd v))) =
        votes src (fun device => decide (device ≤ csd)) v run := by
  have hall : ∀ label : Fin 2,
      votesFor src label (fun device => decide (device ≤ csd)) v run ≤
        votesFor src label (fun _ => true) v run := by
    intro label
    exact votesFor_mono src label (fun _ _ => rfl) v run
  have hfirst' := (hall 0).trans_lt hfirst
  have hsecond' := (hall 1).trans_lt hsecond
  rw [votesFor_le] at hfirst' hsecond'
  have hmerged := merged_slot cfg halgorithm hsingle hhost (hsection csd)
    hfirst' hsecond'
  refine ⟨hmerged.1, hmerged.2.trans ?_⟩
  simp only [votes, votesFor_le]

theorem foldl_mergeValue {buf : ℕ → ℚ} {run : List (ℕ × ℕ × ℕ)} {v : ℕ}
    (hsection : ∀ csd, slotVotes (buf (sectionIndex cfg.numVertices csd v)) =
      votes src (fun device => decide (device = csd)) v run)
    (hfirst : votesFor src 0 (fun _ => true) v run < 65536)
    (hsecond : votesFor src 1 (fun _ => true) v run < 256) (csd : ℕ) :
    slotVotes ((List.range csd).foldl (fun value device =>
        mergeValue cfg value (buf (sectionIndex cfg.numVertices device v)))
        0) =
      votes src (fun device => decide (device < csd)) v run := by
  induction csd with
  | zero => simp [votes, votesFor]
  | succ csd ih =>
      rw [List.range_succ, List.foldl_append]
      simp only [Nat.lt_succ_iff]
      exact (mergingBuffer_host cfg src halgorithm hsingle hsection hfirst
        hsecond csd ih).2

/-- Small counters are kept by the edge loops and by the aggregation. -/
theorem countersKept_of_small (hpos : 0 < cfg.numPartitions)
    {run : List (ℕ × ℕ × ℕ)} (hrun : WellFormedRun cfg run)
    (hfirst : ∀ v, votesFor src 0 (fun _ => true) v run < 65536)
    (hsecond : ∀ v, votesFor src 1 (fun _ => true) v run < 256) :
    CountersKept cfg degree src run := by
  have hsplit : ∀ (before after : List (ℕ × ℕ × ℕ)), run = before ++ after →
      ∀ (label : Fin 2) v, votesFor src label (fun _ => true) v before ≤
        votesFor src label (fun _ => true) v run := by
    rintro before after rfl label v
    rw [votesFor_append]
    exact Nat.le_add_right _ _
  constructor
  · rintro before ⟨csd, edge⟩ after heq
    have hbefore := hsplit before _ heq
    have hnext := hsplit (before ++ [(csd, edge)]) after (by simp [heq])
    have hwellFormed : WellFormedRun cfg before := by
      intro vote hvote
      exact hrun vote (by simp [heq, hvote])
    have htarget : edge.2 < cfg.numVertices :=
      (hrun (csd, edge) (by simp [heq])).2
    have hslot := castVotes_section cfg degree src halgorithm hsingle
      hwellFormed (fun v => (hbefore 0 v).trans_lt (hfirst v))
      (fun v => (hbefore 1 v).trans_lt (hsecond v)) csd htarget
    have hmono : ∀ label : Fin 2, votesFor src label
        (fun device => decide (device = csd)) edge.2
          (before ++ [(csd, edge)]) ≤
        votesFor src label (fun _ => true) edge.2 run := fun label =>
      (votesFor_mono src label (fun _ _ => rfl) _ _).trans (hnext label edge.2)
    have hvoted := voted_slot cfg degree src halgorithm hsingle hslot
      ((hmono 0).trans_lt (hfirst edge.2))
      ((hmono 1).trans_lt (hsecond edge.2))
    refine ⟨hvoted.1, ?_⟩
    rw [castVotes, List.foldl_append]
    exact hvoted.2
  · intro partitionId hpartition before v after heq csd _
    have hv : v < cfg.numVertices :=
      lt_of_mem_partitionVertices cfg hpos hpartition (by simp [heq])
    have hcells := mergingBuffer_cells cfg hpos (castVotes cfg degree src run)
      hpartition heq csd
    rw [castVotes_host cfg degree src halgorithm run hv] at hcells
    have hsection : ∀ csd, slotVotes (castVotes cfg degree src run
        (sectionIndex cfg.numVertices csd v)) =
          votes src (fun device => decide (device = csd)) v run := fun csd =>
      castVotes_section cfg degree src halgorithm hsingle hrun hfirst hsecond
        csd hv
    have hhost := foldl_mergeValue cfg src halgorithm hsingle hsection
      (hfirst v) (hsecond v) csd
    have hmerged := mergingBuffer_host cfg src halgorithm hsingle hsection
      (hfirst v) (hsecond v) csd hhost
    simp only [mergeSection_host cfg _ hv, hcells.1, hcells.2]
    exact hmerged

/-- The word of the last aggregation bounds the second counter. -/
theorem votesFor_lt_of_countersKept (hpos : 0 < cfg.numPartitions)
    {run : List (ℕ × ℕ × ℕ)} (hrun : WellFormedRun cfg run)
    (hkept : CountersKept cfg degree src run) (v : ℕ) :
    votesFor src 1 (fun _ => true) v run < 256 := by
  by_cases hvotes : votesFor src 1 (fun _ => true) v run = 0
  · omega
  -- Some edge votes for the vertex, so there are a device and a partition.
  obtain ⟨vote, hvote, hcounted⟩ :=
    List.countP_pos_iff.mp (Nat.pos_of_ne_zero hvotes)
  simp only [Bool.true_and, Bool.and_eq_true, decide_eq_true_eq] at hcounted
  obtain ⟨hdevice, htarget⟩ := hrun vote hvote
  rw [hcounted.1] at htarget
  obtain ⟨partitionId, hpartition, hin⟩ := exists_inPartition cfg hpos htarget
  obtain ⟨before, after, hsplit⟩ := List.append_of_mem
    ((mem_partitionVertices cfg partitionId v).mpr hin)
  have hlast := hkept.merges partitionId hpartition before v after hsplit
    (cfg.numCsds - 1) (by omega)
  have hall : votesFor src 1 (fun device => decide (device ≤ cfg.numCsds - 1))
      v run = votesFor src 1 (fun _ => true) v run := by
    apply List.countP_congr
    intro vote hvote
    have hle : vote.1 ≤ cfg.numCsds - 1 := by
      have := (hrun vote hvote).1
      omega
    simp [hle]
  have hsecond := congrArg Prod.snd hlast.2
  rw [mergeSection_host cfg _ htarget, mergeValue_eq cfg halgorithm] at hsecond
  have hlt := slotVotes_packFreqs_lt hsingle hlast.1
  rw [hsecond] at hlt
  exact hall ▸ hlt

end Kept

/-- The counters of a graph whose vertices receive fewer than `2 ^ 16` votes
for each label are kept exactly when no vertex receives 256 votes for label
1. -/
theorem label_counters_kept_iff (cfg : Config) (degree : ℕ → ℕ) (src : ℕ → ℚ)
    (run : List (ℕ × ℕ × ℕ)) (halgorithm : cfg.algorithm = .labelPropagation)
    (hsingle : cfg.arithmetic.single = singlePrecision)
    (hpos : 0 < cfg.numPartitions) (hrun : WellFormedRun cfg run)
    (hvotes : ∀ v label, votesFor src label (fun _ => true) v run < 2 ^ 16) :
    CountersKept cfg degree src run ↔
      ∀ v, votesFor src 1 (fun _ => true) v run < 256 := by
  constructor
  · exact votesFor_lt_of_countersKept cfg degree src halgorithm hsingle hpos
      hrun
  · exact countersKept_of_small cfg degree src halgorithm hsingle hpos hrun
      fun v => hvotes v 0

/-! ## A hub vertex -/

/-- One device, one partition and two vertices. -/
def hubConfig : Config where
  numVertices := 2
  numPartitions := 1
  numCsds := 1
  algorithm := .labelPropagation
  arithmetic := ⟨fun value degree => value / degree, singlePrecision⟩
  outdegreeSlba := 0
  edgeBlocksSlba := fun _ _ _ => 0
  edgeBlocksLength := fun _ _ _ => 0
  storage := fun _ _ => 0

/-- Without a majority vertex 1 votes for label 1 and vertex 0 for label 0. -/
theorem label_counters_kept_pair :
    CountersKept hubConfig (fun _ => 1) (fun _ => 0)
        [(0, (1, 0)), (0, (0, 0))] ↔
      ∀ v, votesFor (fun _ => 0) 1 (fun _ => true) v
        [(0, (1, 0)), (0, (0, 0))] < 256 := by
  apply label_counters_kept_iff hubConfig (fun _ => 1) (fun _ => 0)
    [(0, (1, 0)), (0, (0, 0))] rfl rfl (by decide)
  · simp [WellFormedRun, hubConfig]
  · intro v label
    exact List.countP_le_length.trans_lt (by decide)

def hubRun : List (ℕ × ℕ × ℕ) :=
  List.replicate 256 (0, (1, 0)) ++ [(0, (0, 0))]

theorem votesFor_replicate (label : Fin 2) {devices : ℕ → Bool}
    (hdevice : devices 0 = true) (count v : ℕ) :
    votesFor (fun _ => 0) label devices v
        (List.replicate count (0, (1, 0))) =
      if v = 0 ∧ label = 1 then count else 0 := by
  have hvote : voteOf (fun _ => 0) 1 = 1 := by
    simp [voteOf]
  rw [votesFor, List.countP_replicate]
  simp only [hvote, hdevice, Bool.true_and, Bool.and_eq_true,
    decide_eq_true_eq, eq_comm (b := v), eq_comm (b := label)]

/-- 256 votes for label 1 fill the slot, and a vote for label 0 is rounded
away. -/
theorem hub_slot :
    slotVotes (castVotes hubConfig (fun _ => 1) (fun _ => 0) hubRun
      (sectionIndex 2 0 0)) = (0, 256) := by
  have hwellFormed : WellFormedRun hubConfig
      (List.replicate 255 (0, (1, 0))) := by
    intro vote hvote
    rw [List.eq_of_mem_replicate hvote]
    exact ⟨Nat.one_pos, Nat.two_pos⟩
  have hslot := castVotes_section hubConfig (fun _ => 1) (fun _ => 0) rfl rfl
    hwellFormed
    (by intro v
        rw [votesFor_replicate _ rfl]
        split_ifs <;> omega)
    (by intro v
        rw [votesFor_replicate _ rfl]
        split_ifs <;> omega) 0 (v := 0) Nat.two_pos
  rw [votes, votesFor_replicate _ (by decide),
    votesFor_replicate _ (by decide)] at hslot
  have hrun : hubRun =
      List.replicate 255 (0, (1, 0)) ++ [(0, (1, 0)), (0, (0, 0))] := by
    rw [hubRun, List.replicate_succ' (n := 255), List.append_assoc]
    rfl
  generalize hbuf : castVotes hubConfig (fun _ => 1) (fun _ => 0)
    (List.replicate 255 (0, (1, 0))) = buf at hslot
  have hfreqs : labelFreqs (buf (sectionIndex 2 0 0)) = (0, 255) :=
    Prod.ext (BitVec.eq_of_toNat_eq (congrArg Prod.fst hslot))
      (BitVec.eq_of_toNat_eq (congrArg Prod.snd hslot))
  have hfull : packFreqs hubConfig.arithmetic
      (castVote 1 (labelFreqs 0) (0, 255)) = 16777216 := by decide
  have hlost : packFreqs hubConfig.arithmetic
      (castVote 0 (labelFreqs 0) (labelFreqs 16777216)) = 16777216 := by decide
  rw [hrun, castVotes, List.foldl_append]
  rw [castVotes] at hbuf
  rw [hbuf, List.foldl_cons, List.foldl_cons, List.foldl_nil,
    voteStep_eq _ _ _ rfl, voteStep_eq _ _ _ rfl]
  change slotVotes (update (update buf (sectionIndex 2 0 0)
    (packFreqs hubConfig.arithmetic (castVote 1 (labelFreqs 0)
      (labelFreqs (buf (sectionIndex 2 0 0)))))) (sectionIndex 2 0 0)
    (packFreqs hubConfig.arithmetic (castVote 0 (labelFreqs 0)
      (labelFreqs (update buf (sectionIndex 2 0 0)
        (packFreqs hubConfig.arithmetic (castVote 1 (labelFreqs 0)
          (labelFreqs (buf (sectionIndex 2 0 0))))) (sectionIndex 2 0 0)))))
    (sectionIndex 2 0 0)) = (0, 256)
  rw [update_self, update_self, hfreqs, hfull, hlost]
  decide

/-- A vertex with 256 votes for label 1 and one vote for label 0. -/
theorem label_vote_lost :
    WellFormedRun hubConfig hubRun ∧
      (∀ v label, votesFor (fun _ => 0) label (fun _ => true) v hubRun <
        2 ^ 16) ∧
      ¬ CountersKept hubConfig (fun _ => 1) (fun _ => 0) hubRun ∧
      votes (fun _ => 0) (fun device => decide (device = 0)) 0 hubRun =
        (1, 256) ∧
      slotVotes (castVotes hubConfig (fun _ => 1) (fun _ => 0) hubRun
        (sectionIndex 2 0 0)) = (0, 256) := by
  have hwellFormed : WellFormedRun hubConfig hubRun := by
    intro vote hvote
    rcases List.mem_append.mp hvote with hvote | hvote
    · rw [List.eq_of_mem_replicate hvote]
      exact ⟨Nat.one_pos, Nat.two_pos⟩
    · rw [List.mem_singleton.mp hvote]
      exact ⟨Nat.one_pos, Nat.two_pos⟩
  have hvotes : votes (fun _ => 0) (fun device => decide (device = 0)) 0
      hubRun = (1, 256) := by
    simp only [votes, hubRun, votesFor_append]
    rw [votesFor_replicate _ (by decide), votesFor_replicate _ (by decide)]
    decide
  refine ⟨hwellFormed, ?_, ?_, hvotes, hub_slot⟩
  · intro v label
    have hlength : hubRun.length = 257 := by
      rw [hubRun, List.length_append, List.length_replicate]
      rfl
    refine List.countP_le_length.trans_lt ?_
    rw [hlength]
    norm_num
  · intro hkept
    have hlt := votesFor_lt_of_countersKept hubConfig (fun _ => 1) (fun _ => 0)
      rfl rfl Nat.one_pos hwellFormed hkept 0
    have hmono := votesFor_mono (fun _ => 0) 1
      (fun (device : ℕ) (_ : decide (device = 0) = true) => rfl) 0 hubRun
    have hsecond := congrArg Prod.snd hvotes
    simp only [votes] at hsecond
    omega

end NvmeVirt.Csd
