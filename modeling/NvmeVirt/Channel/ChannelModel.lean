import NvmeVirt.Lib.Timeline

/-!
# The channel model

The bandwidth of a channel is a number of credits for each interval of time.
`chmodel_request` keeps what is left of them in a circular array that begins
with the interval of the last call: it moves the head to the present interval,
fills the slots that it passes, and takes the credits of the transfer from the
interval of the request on.
-/

namespace NvmeVirt.Channel

open Function

@[irreducible]
def nrCreditEntries : ℕ := 1024 * 96

/-- In nanoseconds. -/
def unitTimeInterval : ℕ := 4000

/-- In bytes. -/
def unitXferSize : ℕ := 128

def unitXferCredits : ℕ := 1

/-- The value of a `uint32_t`. -/
def uint32 (n : ℕ) : ℕ := n % 2 ^ 32

/-- The value of a `uint64_t`. -/
def uint64 (n : ℕ) : ℕ := n % 2 ^ 64

/-- `DIV_ROUND_UP` of a `uint64_t`. -/
def divRoundUp (n d : ℕ) : ℕ := uint64 (n + d - 1) / d

structure ChannelModel where
  curTime : ℕ
  head : ℕ
  validLen : ℕ
  maxCredits : ℕ
  commandCredits : ℕ
  xferLat : ℕ
  availCredits : ℕ → ℕ

/-- `memset` of `length` credits of one byte. -/
def memset (credits : ℕ → ℕ) (start value length : ℕ) : ℕ → ℕ :=
  fun i => if start ≤ i ∧ i < start + length then value % 2 ^ 8 else credits i

/-- `BANDWIDTH_TO_MAX_CREDITS` of a bandwidth in MiB/s. -/
def bandwidthToMaxCredits (bandwidth : ℕ) : ℕ :=
  uint64 (bandwidth * 2 ^ 20 * unitTimeInterval) / 10 ^ 9 / unitXferSize *
    unitXferCredits

/-- `BANDWIDTH_TO_TX_TIME` of a bandwidth in MiB/s. -/
def bandwidthToTxTime (bandwidth : ℕ) : ℕ :=
  unitXferSize * 10 ^ 9 / uint64 (bandwidth * 2 ^ 20)

def chmodelInit (memory : ℕ → ℕ) (bandwidth : ℕ) : ChannelModel where
  curTime := 0
  head := 0
  validLen := 0
  maxCredits := uint32 (bandwidthToMaxCredits bandwidth)
  commandCredits := 0
  xferLat := uint32 (bandwidthToTxTime bandwidth)
  availCredits := memset memory 0 (uint32 (bandwidthToMaxCredits bandwidth))
    nrCreditEntries

/-- The intervals from one time to a later one, in a `uint32_t`. -/
def intervalsBetween (time later : ℕ) : ℕ :=
  uint32 (later / unitTimeInterval + 2 ^ 64 - time / unitTimeInterval)

/-- The first `offs` slots are filled, around the end of the array. -/
def refill (ch : ChannelModel) (offs : ℕ) : ℕ → ℕ :=
  if nrCreditEntries ≤ ch.head + offs then
    memset (memset ch.availCredits ch.head ch.maxCredits
      (nrCreditEntries - ch.head)) 0 ch.maxCredits
        (offs - (nrCreditEntries - ch.head))
  else memset ch.availCredits ch.head ch.maxCredits offs

/-- The head moves to the present interval, by `valid_len` slots at most. -/
def advance (ch : ChannelModel) (curTime : ℕ) : ChannelModel :=
  let elapsed := intervalsBetween ch.curTime curTime
  let offs := if elapsed < ch.validLen then elapsed else ch.validLen
  { ch with
    availCredits := refill ch offs
    head := (ch.head + offs) % nrCreditEntries
    curTime := curTime
    validLen := ch.validLen - offs }

def unitsToXfer (length : ℕ) : ℕ := uint32 (divRoundUp length unitXferSize)

/-- The credits of a transfer. -/
def requestCredits (ch : ChannelModel) (length : ℕ) : ℕ :=
  uint32 (uint32 (unitsToXfer length * unitXferCredits) + ch.commandCredits)

/-- What the consumption loop leaves behind. -/
structure Consumed where
  availCredits : ℕ → ℕ
  remaining : ℕ
  pos : ℕ
  delay : ℕ

/-- The consumption loop.  It ends at the slot before the head at the latest,
so it has one round for each slot at most. -/
def consume (head : ℕ) : ℕ → ℕ → ℕ → ℕ → (ℕ → ℕ) → Consumed
  | 0, pos, remaining, delay, credits => ⟨credits, remaining, pos, delay⟩
  | rounds + 1, pos, remaining, delay, credits =>
      let taken := if remaining ≤ credits pos then remaining else credits pos
      let left := remaining - taken
      let credits := update credits pos (credits pos - taken)
      if left ≠ 0 then
        let nextPos := (pos + 1) % nrCreditEntries
        if nextPos ≠ head then
          consume head rounds nextPos left (delay + 1) credits
        else ⟨credits, left, pos, delay⟩
      else ⟨credits, left, pos, delay⟩

/-- A call of `chmodel_request`: the wall clock and the arguments. -/
structure Request where
  curTime : ℕ
  requestTime : ℕ
  length : ℕ

/-- The slot of the interval of the request. -/
def Request.offset (req : Request) : ℕ :=
  intervalsBetween req.curTime req.requestTime

/-- The request lies before the wall clock, or beyond the array. -/
def Request.TurnedAway (req : Request) : Prop :=
  req.requestTime < req.curTime ∨ nrCreditEntries ≤ req.offset

instance (req : Request) : Decidable req.TurnedAway :=
  inferInstanceAs (Decidable (_ ∨ _))

/-- The consumption loop of a request, after the head has been moved. -/
def consumption (ch : ChannelModel) (req : Request) : Consumed :=
  consume ch.head nrCreditEntries ((ch.head + req.offset) % nrCreditEntries)
    (requestCredits ch req.length) 0 ch.availCredits

/-- The slots up to a position, counted from the head. -/
def validLength (head pos : ℕ) : ℕ :=
  if head ≤ pos then pos - head + 1 else nrCreditEntries - (head - pos - 1)

/-- `chmodel_request`.  Its assertion on `valid_len` is the bound of
`Window.validLen_le`. -/
def chmodelRequest (ch : ChannelModel) (req : Request) : ℕ × ChannelModel :=
  let ch := advance ch req.curTime
  if req.TurnedAway then (req.requestTime, ch)
  else
    let consumed := consumption ch req
    let defaultDelay := requestCredits ch req.length / ch.maxCredits
    let validLen := validLength ch.head consumed.pos
    let delay :=
      if defaultDelay < consumed.delay then consumed.delay - defaultDelay else 0
    let totalLatency := uint32 (ch.xferLat * unitsToXfer req.length) +
      delay * unitTimeInterval
    (uint64 (req.requestTime + totalLatency),
      { ch with
        availCredits := consumed.availCredits
        validLen := if ch.validLen < validLen then validLen else ch.validLen })

/-- The nanoseconds that `chmodel_request` adds to the time of a request. -/
def requestLatency (ch : ChannelModel) (req : Request) : ℕ :=
  if req.TurnedAway then 0
  else
    let ch := advance ch req.curTime
    let consumed := consumption ch req
    let defaultDelay := requestCredits ch req.length / ch.maxCredits
    let delay :=
      if defaultDelay < consumed.delay then consumed.delay - defaultDelay else 0
    uint32 (ch.xferLat * unitsToXfer req.length) + delay * unitTimeInterval

theorem chmodelRequest_time (ch : ChannelModel) (req : Request)
    (hfits : req.requestTime + requestLatency ch req < 2 ^ 64) :
    (chmodelRequest ch req).1 = req.requestTime + requestLatency ch req := by
  unfold requestLatency at hfits ⊢
  unfold chmodelRequest
  dsimp only
  split
  · rfl
  · rename_i haway
    rw [if_neg haway] at hfits
    exact Nat.mod_eq_of_lt hfits

@[simp]
theorem maxCredits_advance (ch : ChannelModel) (curTime : ℕ) :
    (advance ch curTime).maxCredits = ch.maxCredits := rfl

@[simp]
theorem requestCredits_advance (ch : ChannelModel) (curTime length : ℕ) :
    requestCredits (advance ch curTime) length = requestCredits ch length := rfl

theorem chmodelRequest_away {ch : ChannelModel} {req : Request}
    (haway : req.TurnedAway) :
    (chmodelRequest ch req).2 = advance ch req.curTime := by
  rw [chmodelRequest, if_pos haway]

theorem chmodelRequest_taken {ch ch' : ChannelModel} {req : Request}
    (hadvance : advance ch req.curTime = ch') (haway : ¬ req.TurnedAway) :
    (chmodelRequest ch req).2 = { ch' with
      availCredits := (consumption ch' req).availCredits
      validLen :=
        if ch'.validLen < validLength ch'.head (consumption ch' req).pos then
          validLength ch'.head (consumption ch' req).pos
        else ch'.validLen } := by
  subst hadvance
  rw [chmodelRequest, if_neg haway]

/-! ## Slots -/

/-- The slot of the `j`-th interval from the head on. -/
def ChannelModel.slot (ch : ChannelModel) (j : ℕ) : ℕ :=
  ch.availCredits ((ch.head + j) % nrCreditEntries)

/-- A slot before the end of the array, or one after it. -/
theorem position_eq {head j : ℕ} (hhead : head < nrCreditEntries)
    (hj : j < nrCreditEntries) :
    (head + j) % nrCreditEntries =
      if head + j < nrCreditEntries then head + j
      else head + j - nrCreditEntries := by
  split
  · rename_i hlt
    exact Nat.mod_eq_of_lt hlt
  · rename_i hge
    rw [Nat.mod_eq_sub_mod (by omega), Nat.mod_eq_of_lt (by omega)]

theorem position_next (head j : ℕ) :
    ((head + j) % nrCreditEntries + 1) % nrCreditEntries =
      (head + (j + 1)) % nrCreditEntries := by
  rw [Nat.mod_add_mod, Nat.add_assoc]

theorem position_inj {head i j : ℕ} (hhead : head < nrCreditEntries)
    (hi : i < nrCreditEntries) (hj : j < nrCreditEntries) :
    (head + i) % nrCreditEntries = (head + j) % nrCreditEntries ↔ i = j := by
  rw [position_eq hhead hi, position_eq hhead hj]
  split <;> split <;> omega

theorem validLength_position {head j : ℕ} (hhead : head < nrCreditEntries)
    (hj : j < nrCreditEntries) :
    validLength head ((head + j) % nrCreditEntries) = j + 1 := by
  rw [position_eq hhead hj, validLength]
  split <;> split <;> omega

theorem refill_position {ch : ChannelModel} {offs i : ℕ}
    (hhead : ch.head < nrCreditEntries) (hmax : ch.maxCredits ≤ 255)
    (hi : i < nrCreditEntries) :
    refill ch offs ((ch.head + i) % nrCreditEntries) =
      if i < offs then ch.maxCredits else ch.slot i := by
  have hbyte : ch.maxCredits % 2 ^ 8 = ch.maxCredits :=
    Nat.mod_eq_of_lt (by omega)
  simp only [refill, ChannelModel.slot, position_eq hhead hi]
  split
  · simp only [memset, hbyte]
    split <;> split <;> split <;> (try split) <;> first | rfl | omega
  · simp only [memset, hbyte]
    split <;> split <;> split <;> first | rfl | omega

/-- The slots after the head has moved: those that were there, and then those
that it has passed. -/
theorem slot_advance {ch : ChannelModel} {curTime offs : ℕ}
    (hhead : ch.head < nrCreditEntries) (hvalid : ch.validLen ≤ nrCreditEntries)
    (hmax : ch.maxCredits ≤ 255)
    (hoffs : offs = min (intervalsBetween ch.curTime curTime) ch.validLen)
    {j : ℕ} (hj : j < nrCreditEntries) :
    (advance ch curTime).slot j =
      if j + offs < nrCreditEntries then ch.slot (j + offs)
      else ch.maxCredits := by
  have hmin : (if intervalsBetween ch.curTime curTime < ch.validLen then
      intervalsBetween ch.curTime curTime else ch.validLen) = offs := by
    rw [hoffs]
    split <;> omega
  have hslot : (advance ch curTime).slot j =
      refill ch offs ((ch.head + (j + offs)) % nrCreditEntries) := by
    simp only [ChannelModel.slot, advance, hmin]
    rw [Nat.mod_add_mod, Nat.add_assoc, Nat.add_comm offs]
  rw [hslot]
  split
  · rename_i hlt
    rw [refill_position hhead hmax hlt, if_neg (by omega)]
  · rename_i hge
    have hback : ch.head + (j + offs) =
        ch.head + (j + offs - nrCreditEntries) + nrCreditEntries := by
      omega
    rw [hback, Nat.add_mod_right, refill_position hhead hmax (by omega),
      if_pos (by omega)]

end NvmeVirt.Channel
