import NvmeVirt.Channel.ChannelModel

/-!
# The channel model and the timeline of its credits

The circular array is a window on an unbounded timeline of credits.  The window
moves with the wall clock as long as two calls are fewer than `2 ^ 32` intervals
apart; with a longer gap the slots that should have been filled are not, since
the number of intervals is cut to 32 bits before it is compared.
-/

namespace NvmeVirt.Channel

open Function Timeline

/-- The array holds what is left of the credits from interval `base` on. -/
def Agrees (head limit base : ℕ) (credits used : ℕ → ℕ) : Prop :=
  ∀ j < nrCreditEntries,
    credits ((head + j) % nrCreditEntries) = limit - used (base + j)

section Consumption

variable {head limit base amount : ℕ} {credits used : ℕ → ℕ}

theorem Agrees.charge (h : Agrees head limit base credits used)
    (hhead : head < nrCreditEntries) (amount : ℕ) {offset : ℕ}
    (hoffset : offset < nrCreditEntries) :
    Agrees head limit base
      (update credits ((head + offset) % nrCreditEntries)
        (limit - used (base + offset) -
          share limit (base + offset) amount used))
      (Timeline.charge limit (base + offset) amount used) := by
  intro j hj
  by_cases hne : j = offset
  · subst hne
    rw [update_self, Timeline.charge, update_self, Nat.sub_sub]
  · have hslot : (head + j) % nrCreditEntries ≠
        (head + offset) % nrCreditEntries :=
      fun heq => hne ((position_inj hhead hj hoffset).mp heq)
    rw [update_of_ne hslot, charge_of_ne (by omega), h j hj]

/-- One round of the consumption loop. -/
theorem consume_round {rounds pos t delay : ℕ}
    (hslot : credits pos = limit - used t) :
    consume head (rounds + 1) pos amount delay credits =
      let left := amount - share limit t amount used
      let credits := update credits pos
        (limit - used t - share limit t amount used)
      if left ≠ 0 then
        if (pos + 1) % nrCreditEntries ≠ head then
          consume head rounds ((pos + 1) % nrCreditEntries) left (delay + 1)
            credits
        else ⟨credits, left, pos, delay⟩
      else ⟨credits, left, pos, delay⟩ := by
  have htaken : (if amount ≤ credits pos then amount else credits pos) =
      share limit t amount used := by
    rw [share, hslot, min_def]
  rw [consume, htaken, hslot]

/-- The consumption loop spends credits of the timeline up to the end of the
array. -/
theorem consume_spend (hhead : head < nrCreditEntries)
    {count offset rounds : ℕ} (amount delay : ℕ)
    (hcount : offset + count + 1 = nrCreditEntries)
    (hrounds : count < rounds) (h : Agrees head limit base credits used) :
    let consumed := consume head rounds ((head + offset) % nrCreditEntries)
      amount delay credits
    let spent := spend limit count (base + offset) amount used
    Agrees head limit base consumed.availCredits spent.used ∧
      consumed.remaining = spent.missing ∧
      consumed.pos = (head + (spent.last - base)) % nrCreditEntries := by
  induction count generalizing offset rounds amount delay credits used with
  | zero =>
      obtain ⟨rounds, rfl⟩ := Nat.exists_eq_add_one_of_ne_zero hrounds.ne'
      have hoffset : offset < nrCreditEntries := by omega
      have hlast : (head + (offset + 1)) % nrCreditEntries = head := by
        rw [show offset + 1 = nrCreditEntries by omega, Nat.add_mod_right,
          Nat.mod_eq_of_lt hhead]
      have hpos : (head + offset) % nrCreditEntries =
          (head + (base + offset - base)) % nrCreditEntries := by
        rw [Nat.add_sub_cancel_left]
      rw [consume_round (h offset hoffset), position_next, hlast, spend]
      simp only [ne_eq, not_true_eq_false, if_false]
      split
      · exact ⟨h.charge hhead _ hoffset, rfl, hpos⟩
      · exact ⟨h.charge hhead _ hoffset, rfl, hpos⟩
  | succ count ih =>
      obtain ⟨rounds, rfl⟩ := Nat.exists_eq_add_one_of_ne_zero
        (show rounds ≠ 0 by omega)
      have hoffset : offset < nrCreditEntries := by omega
      have hcharge := h.charge hhead amount hoffset
      have hnext : (head + (offset + 1)) % nrCreditEntries ≠ head := by
        intro heq
        have hself : (head + 0) % nrCreditEntries = head :=
          Nat.mod_eq_of_lt hhead
        have := (position_inj hhead (show offset + 1 < nrCreditEntries by omega)
          (by omega)).mp (heq.trans hself.symm)
        omega
      rw [consume_round (h offset hoffset), position_next, spend]
      by_cases henough : amount - share limit (base + offset) amount used = 0
      · simp only [henough, ne_eq, not_true_eq_false, if_false, if_true]
        refine ⟨hcharge, trivial, ?_⟩
        rw [Nat.add_sub_cancel_left]
      · simp only [henough, hnext, ne_eq, not_false_eq_true, if_true, if_false]
        exact ih _ (delay + 1) (by omega) (by omega) hcharge

end Consumption

/-! ## The window -/

/-- The array is the window of the timeline that begins with interval `base`.
-/
structure Window (base : ℕ) (ch : ChannelModel) (used : ℕ → ℕ) : Prop where
  head_lt : ch.head < nrCreditEntries
  validLen_le : ch.validLen ≤ nrCreditEntries
  agrees : Agrees ch.head ch.maxCredits base ch.availCredits used
  unused : ∀ t, base + ch.validLen ≤ t → used t = 0
  used_le : ∀ t, used t ≤ ch.maxCredits

section Window

variable {base base' : ℕ} {ch : ChannelModel} {used : ℕ → ℕ}

theorem Window.slot_eq (h : Window base ch used) {j : ℕ}
    (hj : j < nrCreditEntries) :
    ch.slot j = ch.maxCredits - used (base + j) := h.agrees j hj

theorem Window.slot_full (h : Window base ch used) {j : ℕ}
    (hvalid : ch.validLen ≤ j) (hj : j < nrCreditEntries) :
    ch.slot j = ch.maxCredits := by
  rw [h.slot_eq hj, h.unused _ (Nat.add_le_add_left hvalid base), Nat.sub_zero]

/-- The number of slots by which the head moves. -/
def headOffset (ch : ChannelModel) (curTime : ℕ) : ℕ :=
  min (intervalsBetween ch.curTime curTime) ch.validLen

theorem validLen_advance (ch : ChannelModel) (curTime : ℕ) :
    (advance ch curTime).validLen = ch.validLen - headOffset ch curTime := by
  simp only [advance, headOffset, min_def]
  split <;> split <;> omega

/-- The window moves with the head, or past all the intervals in use. -/
theorem Window.moved (h : Window base ch used) (hmax : ch.maxCredits ≤ 255)
    {curTime : ℕ}
    (hbase : base' = base + headOffset ch curTime ∨
      headOffset ch curTime = ch.validLen ∧ base + ch.validLen ≤ base') :
    Window base' (advance ch curTime) used where
  head_lt := Nat.mod_lt _ (by have := h.head_lt; omega)
  validLen_le := by
    have := h.validLen_le
    rw [validLen_advance]
    omega
  agrees := by
    intro j hj
    have hvalid := h.validLen_le
    have hle : headOffset ch curTime ≤ ch.validLen := min_le_right _ _
    have hslot := slot_advance h.head_lt h.validLen_le hmax
      (show headOffset ch curTime = _ from rfl) hj
    have hmaxCredits : (advance ch curTime).maxCredits =
        ch.maxCredits := rfl
    have hfull : base + ch.validLen ≤ base' + j →
        ch.maxCredits = ch.maxCredits - used (base' + j) := by
      intro hend
      rw [h.unused _ hend, Nat.sub_zero]
    change (advance ch curTime).slot j = _
    rw [hslot, hmaxCredits]
    split
    · rename_i hlt
      rcases hbase with rfl | ⟨hpassed, hend⟩
      · rw [h.slot_eq hlt, Nat.add_assoc, Nat.add_comm j]
      · rw [h.slot_full (by omega) hlt]
        exact hfull (by omega)
    · exact hfull (by omega)
  unused := by
    intro t ht
    have hle : headOffset ch curTime ≤ ch.validLen := min_le_right _ _
    rw [validLen_advance] at ht
    exact h.unused t (by omega)
  used_le := h.used_le

/-- Credits are taken from intervals of the window, up to the last one in which
the loop stops. -/
theorem Window.taken (h : Window base ch used) {consumed : Consumed}
    {spent : Spent}
    (hagrees : Agrees ch.head ch.maxCredits base consumed.availCredits
      spent.used)
    (hpos : consumed.pos = (ch.head + (spent.last - base)) % nrCreditEntries)
    (hlow : base ≤ spent.last) (hhigh : spent.last < base + nrCreditEntries)
    (houtside : ∀ t, spent.last < t → spent.used t = used t)
    (hle : ∀ t, spent.used t ≤ ch.maxCredits) :
    Window base { ch with
      availCredits := consumed.availCredits
      validLen :=
        if ch.validLen < validLength ch.head consumed.pos then
          validLength ch.head consumed.pos
        else ch.validLen } spent.used := by
  have hlength : validLength ch.head consumed.pos = spent.last - base + 1 := by
    rw [hpos]
    exact validLength_position h.head_lt (by omega)
  rw [hlength]
  refine ⟨h.head_lt, ?_, hagrees, ?_, hle⟩
  · have := h.validLen_le
    dsimp only
    split <;> omega
  · intro t ht
    dsimp only at ht
    have hafter : base + ch.validLen ≤ t ∧ spent.last < t := by
      split at ht <;> omega
    rw [houtside t hafter.2, h.unused t hafter.1]

/-- What the consumption loop of a request does to the timeline. -/
theorem Window.consumed (h : Window base ch used) {req : Request} {spent : Spent}
    (hoffset : req.offset < nrCreditEntries)
    (hspent : Timeline.spend ch.maxCredits (nrCreditEntries - 1 - req.offset)
      (base + req.offset) (requestCredits ch req.length) used = spent) :
    (consumption ch req).remaining = spent.missing ∧
      Window base { ch with
        availCredits := (consumption ch req).availCredits
        validLen :=
          if ch.validLen < validLength ch.head (consumption ch req).pos then
            validLength ch.head (consumption ch req).pos
          else ch.validLen } spent.used := by
  obtain ⟨hagrees, hremaining, hpos⟩ := consume_spend h.head_lt
    (requestCredits ch req.length) 0
    (show req.offset + (nrCreditEntries - 1 - req.offset) + 1 = _ by omega)
    (show _ < nrCreditEntries by omega) h.agrees
  have hlow := le_spend_last ch.maxCredits (nrCreditEntries - 1 - req.offset)
    (base + req.offset) (requestCredits ch req.length) used
  have hhigh := spend_last_le ch.maxCredits (nrCreditEntries - 1 - req.offset)
    (base + req.offset) (requestCredits ch req.length) used
  have houtside := fun t (ht : spent.last < t) =>
    spend_outside ch.maxCredits (nrCreditEntries - 1 - req.offset)
      (base + req.offset) (requestCredits ch req.length) used
      (.inr (hspent ▸ ht))
  have hle := spend_le ch.maxCredits (nrCreditEntries - 1 - req.offset)
    (base + req.offset) (requestCredits ch req.length) used h.used_le
  rw [hspent] at hagrees hremaining hpos hlow hhigh hle
  simp only [hspent] at houtside
  exact ⟨hremaining, h.taken hagrees hpos (by omega) (by omega) houtside hle⟩

end Window

/-! ## Requests -/

/-- The interval of a time. -/
def interval (time : ℕ) : ℕ := time / unitTimeInterval

/-- What a request that is not turned away does to the timeline. -/
def Request.spent (req : Request) (ch : ChannelModel) (used : ℕ → ℕ) : Spent :=
  Timeline.spend ch.maxCredits (nrCreditEntries - 1 - req.offset)
    (interval req.curTime + req.offset) (requestCredits ch req.length) used

/-- The channel model, and the credits that have been consumed so far in each
interval of time. -/
structure Tracked where
  ch : ChannelModel
  used : ℕ → ℕ

def Tracked.serve (st : Tracked) (req : Request) : Tracked where
  ch := (chmodelRequest st.ch req).2
  used := if req.TurnedAway then st.used else (req.spent st.ch st.used).used

/-- The request comes to the end of the array before it has its credits. -/
def FillsArray (ch : ChannelModel) (req : Request) : Prop :=
  ¬ req.TurnedAway ∧ (consumption (advance ch req.curTime) req).remaining ≠ 0

section Requests

variable {st : Tracked} {req : Request}

theorem Request.spent_advance :
    Timeline.spend (advance st.ch req.curTime).maxCredits
      (nrCreditEntries - 1 - req.offset) (interval req.curTime + req.offset)
      (requestCredits (advance st.ch req.curTime) req.length) st.used =
        req.spent st.ch st.used := by
  rw [maxCredits_advance, requestCredits_advance, Request.spent]

theorem Tracked.serve_away (haway : req.TurnedAway) :
    st.serve req = ⟨advance st.ch req.curTime, st.used⟩ := by
  rw [Tracked.serve, if_pos haway, chmodelRequest_away haway]

theorem Tracked.used_serve (haway : ¬ req.TurnedAway) :
    (st.serve req).used = (req.spent st.ch st.used).used := if_neg haway

/-- The array remains the window of the timeline. -/
theorem Window.served
    (h : Window (interval req.curTime) (advance st.ch req.curTime) st.used) :
    Window (interval req.curTime) (st.serve req).ch (st.serve req).used := by
  by_cases haway : req.TurnedAway
  · rw [Tracked.serve_away haway]
    exact h
  · have hoffset : req.offset < nrCreditEntries :=
      not_le.mp fun hge => haway (.inr hge)
    have hwindow := (h.consumed hoffset Request.spent_advance).2
    rw [← Tracked.used_serve haway, ← chmodelRequest_taken rfl haway] at hwindow
    exact hwindow

/-- The credits that a request does not get. -/
theorem Window.remaining_eq
    (h : Window (interval req.curTime) (advance st.ch req.curTime) st.used)
    (haway : ¬ req.TurnedAway) :
    (consumption (advance st.ch req.curTime) req).remaining =
      (req.spent st.ch st.used).missing :=
  (h.consumed (not_le.mp fun hge => haway (.inr hge))
    Request.spent_advance).1

theorem Tracked.serve_ch (st : Tracked) (req : Request) :
    (st.serve req).ch.curTime = req.curTime ∧
      (st.serve req).ch.maxCredits = st.ch.maxCredits ∧
      (st.serve req).ch.commandCredits = st.ch.commandCredits := by
  by_cases haway : req.TurnedAway
  · rw [Tracked.serve_away haway]
    exact ⟨rfl, rfl, rfl⟩
  · rw [Tracked.serve, chmodelRequest_taken rfl haway]
    exact ⟨rfl, rfl, rfl⟩

/-- The intervals between two times, as long as they fit in 32 bits. -/
theorem intervalsBetween_eq {time later : ℕ} (hle : time ≤ later) :
    intervalsBetween time later = (interval later - interval time) % 2 ^ 32 := by
  have hinterval : interval time ≤ interval later :=
    Nat.div_le_div_right hle
  change (interval later + 2 ^ 64 - interval time) % 2 ^ 32 = _
  omega

/-- The window moves to the interval of the next request. -/
theorem Window.reaches (h : Window (interval st.ch.curTime) st.ch st.used)
    (hmax : st.ch.maxCredits ≤ 255) (hclock : st.ch.curTime ≤ req.curTime)
    (hgap : st.ch.validLen = 0 ∨
      interval req.curTime < interval st.ch.curTime + 2 ^ 32) :
    Window (interval req.curTime) (advance st.ch req.curTime) st.used := by
  have hinterval : interval st.ch.curTime ≤ interval req.curTime :=
    Nat.div_le_div_right hclock
  have helapsed := intervalsBetween_eq hclock
  apply h.moved hmax
  rcases hgap with hempty | hgap
  · refine .inr ⟨?_, by omega⟩
    rw [headOffset, hempty, Nat.min_zero]
  · rw [Nat.mod_eq_of_lt (by omega)] at helapsed
    rw [headOffset, helapsed]
    rcases Nat.le_total (interval req.curTime - interval st.ch.curTime)
      st.ch.validLen with hle | hge
    · rw [min_eq_left hle]
      exact .inl (by omega)
    · exact .inr ⟨min_eq_right hge, by omega⟩

end Requests

/-! ## Runs -/

/-- The channel model after `chmodel_init`, with any latency and any credits for
the command. -/
structure Fresh (ch : ChannelModel) : Prop where
  curTime_eq : ch.curTime = 0
  head_eq : ch.head = 0
  validLen_eq : ch.validLen = 0
  full : ∀ i < nrCreditEntries, ch.availCredits i = ch.maxCredits

theorem chmodelInit_fresh (memory : ℕ → ℕ) {bandwidth : ℕ}
    (hmax : uint32 (bandwidthToMaxCredits bandwidth) ≤ 255) :
    Fresh (chmodelInit memory bandwidth) := by
  refine ⟨rfl, rfl, rfl, fun i hi => ?_⟩
  simp only [chmodelInit, memset]
  rw [if_pos ⟨Nat.zero_le i, by omega⟩, Nat.mod_eq_of_lt (by omega)]

/-- The wall clock does not go back, and consecutive requests are fewer than
`2 ^ 32` intervals apart. -/
def Paced (requests : List Request) : Prop :=
  requests.IsChain fun req next => req.curTime ≤ next.curTime ∧
    interval next.curTime < interval req.curTime + 2 ^ 32

def serveAll (ch : ChannelModel) (requests : List Request) : Tracked :=
  requests.foldl Tracked.serve ⟨ch, fun _ => 0⟩

section Runs

variable {ch : ChannelModel} {requests : List Request}

theorem serveAll_concat (ch : ChannelModel) (requests : List Request)
    (req : Request) :
    serveAll ch (requests ++ [req]) = (serveAll ch requests).serve req := by
  rw [serveAll, List.foldl_append]
  rfl

theorem serveAll_ch (ch : ChannelModel) (requests : List Request) :
    (serveAll ch requests).ch.maxCredits = ch.maxCredits ∧
      (serveAll ch requests).ch.commandCredits = ch.commandCredits := by
  induction requests using List.reverseRecOn with
  | nil => exact ⟨rfl, rfl⟩
  | append_singleton requests req ih =>
      rw [serveAll_concat]
      obtain ⟨-, hmax, hcommand⟩ := (serveAll ch requests).serve_ch req
      exact ⟨hmax.trans ih.1, hcommand.trans ih.2⟩

theorem Fresh.window (hfresh : Fresh ch) : Window 0 ch fun _ => 0 where
  head_lt := by
    rw [hfresh.head_eq]
    unfold nrCreditEntries
    omega
  validLen_le := by
    rw [hfresh.validLen_eq]
    exact Nat.zero_le _
  agrees := by
    intro j hj
    rw [hfresh.head_eq, Nat.zero_add, Nat.mod_eq_of_lt hj, hfresh.full j hj]
    rfl
  unused := fun _ _ => rfl
  used_le := fun _ => Nat.zero_le _

/-- A paced run meets every request with the window at its interval. -/
theorem serveAll_reaches (hfresh : Fresh ch) (hmax : ch.maxCredits ≤ 255)
    {req : Request} (hpaced : Paced (requests ++ [req])) :
    Window (interval req.curTime)
      (advance (serveAll ch requests).ch req.curTime)
      (serveAll ch requests).used := by
  induction requests using List.reverseRecOn generalizing req with
  | nil =>
      have hwindow : Window (interval (serveAll ch []).ch.curTime)
          (serveAll ch []).ch (serveAll ch []).used := by
        change Window (interval ch.curTime) ch fun _ => 0
        rw [hfresh.curTime_eq, interval, Nat.zero_div]
        exact hfresh.window
      have hclock : (serveAll ch []).ch.curTime ≤ req.curTime := by
        change ch.curTime ≤ _
        rw [hfresh.curTime_eq]
        exact Nat.zero_le _
      exact hwindow.reaches hmax hclock (.inl hfresh.validLen_eq)
  | append_singleton requests last ih =>
      rw [Paced, List.isChain_append] at hpaced
      obtain ⟨hbefore, -, hnext⟩ := hpaced
      obtain ⟨hclock, hgap⟩ := hnext last (by simp) req (by simp)
      have hwindow := (ih hbefore).served
      obtain ⟨hcurTime, hmaxCredits, -⟩ := (serveAll ch requests).serve_ch last
      rw [serveAll_concat]
      rw [← hcurTime] at hwindow hclock hgap
      exact hwindow.reaches
        (by rw [hmaxCredits, (serveAll_ch ch requests).1]; exact hmax) hclock
        (.inr hgap)

/-- The credits that a request asks for. -/
def transferCredits (ch : ChannelModel) (req : Request) : ℕ :=
  (req.length + unitXferSize - 1) / unitXferSize + ch.commandCredits

/-- The distance and the credits of a request fit in 32 bits. -/
structure Request.Representable (req : Request) (ch : ChannelModel) : Prop where
  near : interval req.requestTime < interval req.curTime + 2 ^ 32
  small : transferCredits ch req < 2 ^ 32

theorem Request.Representable.credits_eq {req : Request}
    (h : req.Representable ch) :
    requestCredits ch req.length = transferCredits ch req := by
  have hsmall := h.small
  simp only [transferCredits, unitXferSize] at hsmall
  simp only [requestCredits, unitsToXfer, divRoundUp, uint32, uint64,
    unitXferSize, unitXferCredits, transferCredits]
  omega

theorem Request.Representable.offset_eq {req : Request}
    (h : req.Representable ch) (haway : ¬ req.TurnedAway) :
    interval req.curTime + req.offset = interval req.requestTime := by
  have hnear := h.near
  have hle : req.curTime ≤ req.requestTime :=
    not_lt.mp fun hlt => haway (.inl hlt)
  have hinterval : interval req.curTime ≤ interval req.requestTime :=
    Nat.div_le_div_right hle
  rw [Request.offset, intervalsBetween_eq hle, Nat.mod_eq_of_lt (by omega)]
  omega

theorem nrCreditEntries_lt : nrCreditEntries < 2 ^ 32 := by
  unfold nrCreditEntries
  decide

/-- The request lies before the wall clock, or beyond the array and less than
`2 ^ 32` intervals ahead, so that its distance fits in 32 bits. -/
def Request.OutOfReach (req : Request) : Prop :=
  req.requestTime < req.curTime ∨
    interval req.curTime + nrCreditEntries ≤ interval req.requestTime ∧
      interval req.requestTime < interval req.curTime + 2 ^ 32

/-- The request lies in one of the intervals of the array. -/
def Request.InReach (req : Request) : Prop :=
  req.curTime ≤ req.requestTime ∧
    interval req.requestTime < interval req.curTime + nrCreditEntries

theorem Request.OutOfReach.turnedAway {req : Request} (h : req.OutOfReach) :
    req.TurnedAway := by
  rcases h with hbefore | ⟨hbeyond, hnear⟩
  · exact .inl hbefore
  · rcases Nat.lt_or_ge req.requestTime req.curTime with hlt | hle
    · exact .inl hlt
    · refine .inr ?_
      rw [Request.offset, intervalsBetween_eq hle, Nat.mod_eq_of_lt (by omega)]
      omega

theorem Request.InReach.not_turnedAway {req : Request} (h : req.InReach) :
    ¬ req.TurnedAway := by
  obtain ⟨hle, hnear⟩ := h
  have hentries := nrCreditEntries_lt
  have hinterval : interval req.curTime ≤ interval req.requestTime :=
    Nat.div_le_div_right hle
  rintro (hlt | hbeyond)
  · exact absurd hle (not_le.mpr hlt)
  · rw [Request.offset, intervalsBetween_eq hle,
      Nat.mod_eq_of_lt (by omega)] at hbeyond
    omega

/-- The guards return the time of the request as it is. -/
theorem chmodelRequest_away_time {req : Request} (haway : req.TurnedAway) :
    (chmodelRequest ch req).1 = req.requestTime := by
  rw [chmodelRequest, if_pos haway]

/-- A request that is served takes what it asks for, from its interval on. -/
theorem Window.charges {st : Tracked} {req : Request}
    (h : Window (interval req.curTime) (advance st.ch req.curTime) st.used)
    (hrepresentable : req.Representable st.ch) (haway : ¬ req.TurnedAway)
    (hroom : ¬ FillsArray st.ch req) :
    let now := interval req.curTime
    ∑ t ∈ Finset.Ico now (now + nrCreditEntries), (st.serve req).used t =
        ∑ t ∈ Finset.Ico now (now + nrCreditEntries), st.used t +
          transferCredits st.ch req ∧
      ∀ t, t < interval req.requestTime ∨ now + nrCreditEntries ≤ t →
        (st.serve req).used t = st.used t := by
  intro now
  have hoffset : req.offset < nrCreditEntries :=
    not_le.mp fun hge => haway (.inr hge)
  have hmissing : (req.spent st.ch st.used).missing = 0 := by
    rw [← h.remaining_eq haway]
    by_contra hremaining
    exact hroom ⟨haway, hremaining⟩
  have hspent : req.spent st.ch st.used =
      spend st.ch.maxCredits (nrCreditEntries - 1 - req.offset)
        (now + req.offset) (transferCredits st.ch req) st.used := by
    rw [Request.spent, hrepresentable.credits_eq]
  have hlast := spend_last_le st.ch.maxCredits
    (nrCreditEntries - 1 - req.offset) (now + req.offset)
    (transferCredits st.ch req) st.used
  have hsum := sum_spend st.ch.maxCredits (nrCreditEntries - 1 - req.offset)
    (now + req.offset) (transferCredits st.ch req) st.used
    (Nat.le_add_right now _) (show _ < now + nrCreditEntries by omega)
  rw [← hspent] at hlast hsum
  rw [hmissing, Nat.add_zero] at hsum
  rw [Tracked.used_serve haway]
  refine ⟨hsum, fun t ht => ?_⟩
  have houtside : t < now + req.offset ∨ (req.spent st.ch st.used).last < t := by
    rw [hrepresentable.offset_eq haway]
    rcases ht with hbefore | hend
    · exact .inl hbefore
    · exact .inr (by omega)
  rw [hspent] at houtside ⊢
  exact spend_outside _ _ _ _ _ houtside

/-- The array is a window on the timeline of credits after every request of a
paced run.  A request out of reach consumes nothing and gets its own time back;
one in reach consumes what it asks for, from its interval on, unless it fills
the array. -/
theorem requests_refine_timeline (hfresh : Fresh ch) (hmax : ch.maxCredits ≤ 255)
    (requests : List Request) (req : Request)
    (hpaced : Paced (requests ++ [req])) :
    let before := serveAll ch requests
    let after := serveAll ch (requests ++ [req])
    let now := interval after.ch.curTime
    (∀ j < nrCreditEntries,
        after.ch.slot j = ch.maxCredits - after.used (now + j) ∧
          after.used (now + j) ≤ ch.maxCredits) ∧
      after.ch.validLen ≤ nrCreditEntries ∧
      (∀ j < nrCreditEntries, after.ch.validLen ≤ j →
        after.ch.slot j = ch.maxCredits) ∧
      (req.OutOfReach → after.used = before.used ∧
        (chmodelRequest before.ch req).1 = req.requestTime) ∧
      (req.InReach → transferCredits ch req < 2 ^ 32 →
        ¬ FillsArray before.ch req →
        ∑ t ∈ Finset.Ico now (now + nrCreditEntries), after.used t =
            ∑ t ∈ Finset.Ico now (now + nrCreditEntries), before.used t +
              transferCredits ch req ∧
          ∀ t, t < interval req.requestTime ∨ now + nrCreditEntries ≤ t →
            after.used t = before.used t) := by
  have hreaches := serveAll_reaches hfresh hmax hpaced
  obtain ⟨hmaxCredits, hcommand⟩ := serveAll_ch ch requests
  have htransfer : transferCredits (serveAll ch requests).ch req =
      transferCredits ch req := by
    rw [transferCredits, hcommand, transferCredits]
  rw [serveAll_concat]
  generalize serveAll ch requests = st at *
  obtain ⟨hcurTime, hserved, -⟩ := st.serve_ch req
  have hwindow := hreaches.served
  rw [hmaxCredits] at hserved
  dsimp only
  rw [hcurTime]
  refine ⟨fun j hj => ?_, hwindow.validLen_le, fun j hj hvalid => ?_,
    fun hout => ⟨?_, chmodelRequest_away_time hout.turnedAway⟩,
    fun hin hsmall hroom => ?_⟩
  · rw [← hserved]
    exact ⟨hwindow.slot_eq hj, hwindow.used_le _⟩
  · rw [← hserved]
    exact hwindow.slot_full hvalid hj
  · rw [Tracked.serve_away hout.turnedAway]
  · have hnear := hin.2
    have hentries := nrCreditEntries_lt
    rw [← htransfer] at hsmall ⊢
    exact hreaches.charges ⟨by omega, hsmall⟩ hin.not_turnedAway hroom

/-- A channel of 31 MiB/s, which has one credit for each interval. -/
def slowChannel : ChannelModel := chmodelInit (fun _ => 0) 31

theorem slowChannel_fresh : Fresh slowChannel ∧ slowChannel.maxCredits = 1 :=
  ⟨chmodelInit_fresh _ (by decide), by decide⟩

/-- A transfer of 128 bytes at the start of the clock. -/
def firstTransfer : Request := ⟨0, 0, 128⟩

theorem requests_refine_timeline_slow :
    let after := serveAll slowChannel ([firstTransfer] ++ [⟨4000, 4000, 128⟩])
    ∀ j < nrCreditEntries, after.ch.slot j = slowChannel.maxCredits -
      after.used (interval after.ch.curTime + j) := by
  intro after j hj
  have hpaced : Paced ([firstTransfer] ++ [⟨4000, 4000, 128⟩]) := by
    simp [Paced, interval, unitTimeInterval, firstTransfer]
  exact ((requests_refine_timeline slowChannel_fresh.1
    (by rw [slowChannel_fresh.2]; decide) _ _ hpaced).1 j hj).1

/-- A request whose time lies before the wall clock does not fill the array, and
consumes nothing. -/
theorem early_request_consumes_nothing :
    let req : Request := ⟨4000, 0, 128⟩
    Paced ([] ++ [req]) ∧ ¬ FillsArray (serveAll slowChannel []).ch req ∧
      ¬ ∑ t ∈ Finset.Ico 1 (1 + nrCreditEntries),
          (serveAll slowChannel ([] ++ [req])).used t =
        ∑ t ∈ Finset.Ico 1 (1 + nrCreditEntries),
            (serveAll slowChannel []).used t +
          transferCredits slowChannel req := by
  intro req
  have haway : req.TurnedAway := .inl (by decide)
  have hone : transferCredits slowChannel req = 1 := by decide
  refine ⟨List.isChain_singleton _, fun hfills => hfills.1 haway, ?_⟩
  rw [serveAll_concat, Tracked.serve_away haway, hone]
  exact (Nat.lt_succ_self _).ne

/-! ## Idle channels -/

/-- The array is a window at the base reached so far, whatever the clock does.
-/
theorem serveAll_window (hfresh : Fresh ch) (hmax : ch.maxCredits ≤ 255)
    (requests : List Request) :
    ∃ base used, Window base (serveAll ch requests).ch used := by
  induction requests using List.reverseRecOn with
  | nil => exact ⟨0, _, hfresh.window⟩
  | append_singleton requests req ih =>
      obtain ⟨base, used, hwindow⟩ := ih
      have hmaxCredits := (serveAll_ch ch requests).1
      rw [serveAll_concat]
      generalize serveAll ch requests = st at *
      have hmoved : Window (base + headOffset st.ch req.curTime)
          (advance st.ch req.curTime) used :=
        hwindow.moved (hmaxCredits ▸ hmax) (.inl rfl)
      by_cases haway : req.TurnedAway
      · rw [Tracked.serve_away haway]
        exact ⟨_, _, hmoved⟩
      · rw [Tracked.serve, chmodelRequest_taken rfl haway]
        exact ⟨_, _, (hmoved.consumed (not_le.mp fun hge => haway (.inr hge))
          rfl).2⟩

/-- When the wall clock has gone on, all slots are full exactly if those are that
lie behind the number of elapsed intervals, cut to 32 bits. -/
theorem idle_slots_full_iff (hfresh : Fresh ch) (hmax : ch.maxCredits ≤ 255)
    (requests : List Request) {curTime : ℕ}
    (hclock : (serveAll ch requests).ch.curTime ≤ curTime) :
    let idle := (serveAll ch requests).ch
    (∀ j < nrCreditEntries, (advance idle curTime).slot j = ch.maxCredits) ↔
      ∀ j, (interval curTime - interval idle.curTime) % 2 ^ 32 ≤ j →
        j < idle.validLen → idle.slot j = ch.maxCredits := by
  obtain ⟨base, used, hwindow⟩ := serveAll_window hfresh hmax requests
  have hmaxCredits := (serveAll_ch ch requests).1
  generalize (serveAll ch requests).ch = idle at *
  have hvalid := hwindow.validLen_le
  have helapsed := intervalsBetween_eq hclock
  have hslot : ∀ j < nrCreditEntries, (advance idle curTime).slot j =
      if j + headOffset idle curTime < nrCreditEntries then
        idle.slot (j + headOffset idle curTime)
      else ch.maxCredits := by
    intro j hj
    rw [← hmaxCredits]
    exact slot_advance hwindow.head_lt hvalid (hmaxCredits ▸ hmax) rfl hj
  dsimp only
  rw [← helapsed]
  constructor
  · intro hfull j hlow hhigh
    have hoffset : headOffset idle curTime =
        intervalsBetween idle.curTime curTime := min_eq_left (by omega)
    have hj := hfull (j - headOffset idle curTime) (by omega)
    rw [hslot _ (by omega), if_pos (by omega),
      Nat.sub_add_cancel (by omega)] at hj
    exact hj
  · intro hbehind j hj
    rw [hslot j hj]
    split
    · rename_i hlt
      rcases Nat.lt_or_ge (j + headOffset idle curTime) idle.validLen with
        hin | hout
      · apply hbehind _ _ hin
        rw [headOffset] at hin ⊢
        rcases min_choice (intervalsBetween idle.curTime curTime)
          idle.validLen with hmin | hmin
        · rw [hmin]
          exact Nat.le_add_left _ _
        · rw [hmin] at hin
          exact absurd hin (Nat.not_lt.mpr (Nat.le_add_left _ _))
      · rw [hwindow.slot_full hout hlt, hmaxCredits]
    · rfl

/-- The channel after the transfer. -/
def idleChannel : ChannelModel := (serveAll slowChannel [firstTransfer]).ch

theorem idleChannel_fields : idleChannel.curTime = 0 ∧
    idleChannel.validLen = 1 ∧ idleChannel.maxCredits = 1 := by
  decide +kernel

theorem idle_slots_full_iff_slow : idleChannel.curTime ≤ 8000 ∧
    ∀ j < nrCreditEntries,
      (advance idleChannel 8000).slot j = slowChannel.maxCredits := by
  obtain ⟨hcurTime, hvalid, -⟩ := idleChannel_fields
  have hclock : idleChannel.curTime ≤ 8000 := by
    rw [hcurTime]
    exact Nat.zero_le _
  refine ⟨hclock, (idle_slots_full_iff slowChannel_fresh.1
    (by rw [slowChannel_fresh.2]; decide) [firstTransfer] hclock).mpr ?_⟩
  intro j hlow hhigh
  have helapsed : (interval 8000 - interval idleChannel.curTime) % 2 ^ 32 = 2 := by
    rw [hcurTime]
    decide
  have htwo : 2 ≤ j := helapsed ▸ hlow
  have hone : j < 1 := hvalid ▸ hhigh
  omega

/-- `2 ^ 32` intervals after a transfer its credits have not come back. -/
theorem idle_credits_missing :
    idleChannel.validLen ≤
        interval (2 ^ 32 * unitTimeInterval) - interval idleChannel.curTime ∧
      (advance idleChannel (2 ^ 32 * unitTimeInterval)).slot 0 ≠
        idleChannel.maxCredits := by
  decide +kernel

end Runs

end NvmeVirt.Channel
