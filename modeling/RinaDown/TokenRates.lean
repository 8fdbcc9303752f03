import Mathlib.Tactic.Ring
import RinaDown.TokenBucket

/-!
# The rate of a token bucket

A refill that adds tokens takes the whole time since the last one as accounted for, also the part
of it that was not worth a token.
-/

namespace RinaDown.TokenRates

open TokenBucket LabelledExecutions

/-! ## What a wait is worth -/

def Fits (limit wait : ℕ) : Prop :=
  wait / 1000 < 2 ^ 64 ∧ limit * (wait / 1000) / 1000000 < 2 ^ 64

instance (limit wait : ℕ) : Decidable (Fits limit wait) := inferInstanceAs (Decidable (_ ∧ _))

/-- Billionths of a token by which a wait exceeds whole tokens for whole microseconds. -/
def fraction (limit wait : ℕ) : ℕ :=
  limit * (wait % 1000) + 1000 * (limit * (wait / 1000) % 1000000)

variable {limit : ℕ}

theorem refillAmount_of_fits {wait : ℕ} (h : Fits limit wait) :
    refillAmount limit wait = limit * (wait / 1000) / 1000000 := by
  rw [refillAmount, wrap, wrap, Nat.mod_eq_of_lt h.1, Nat.mod_eq_of_lt h.2]

theorem worth_of_fits {wait : ℕ} (h : Fits limit wait) :
    BILLION * refillAmount limit wait + fraction limit wait = limit * wait := by
  have hwait : limit * wait = limit * (wait / 1000) * 1000 + limit * (wait % 1000) := by
    rw [Nat.mul_assoc, ← Nat.mul_add, Nat.div_add_mod']
  rw [refillAmount_of_fits h, fraction, hwait]
  unfold BILLION
  omega

theorem not_fits_mono {wait wait' : ℕ} (hle : wait ≤ wait') (h : ¬ Fits limit wait) :
    ¬ Fits limit wait' := by
  intro hfits
  have hmicros : wait / 1000 ≤ wait' / 1000 := Nat.div_le_div_right hle
  have htokens : limit * (wait / 1000) / 1000000 ≤ limit * (wait' / 1000) / 1000000 :=
    Nat.div_le_div_right (Nat.mul_le_mul_left limit hmicros)
  exact h ⟨hmicros.trans_lt hfits.1,htokens.trans_lt hfits.2⟩

/-- A wait that does not fit is worth at least a token more than the refill counts. -/
theorem lost_of_not_fits (hlimit : 0 < limit) {wait : ℕ} (h : ¬ Fits limit wait) :
    BILLION * refillAmount limit wait + BILLION ≤ limit * wait := by
  have hmicros : limit * (wait / 1000) * 1000 ≤ limit * wait := by
    rw [Nat.mul_assoc]
    exact Nat.mul_le_mul_left limit (Nat.div_mul_le_self wait 1000)
  have hamount : 1000000 * refillAmount limit wait + 1000000 ≤ limit * (wait / 1000) := by
    by_cases hwide : wait / 1000 < 2 ^ 64
    · have htokens : 2 ^ 64 ≤ limit * (wait / 1000) / 1000000 :=
        not_lt.1 fun hlt => h ⟨hwide,hlt⟩
      rw [refillAmount, wrap, wrap, Nat.mod_eq_of_lt hwide]
      omega
    · have hless : wrap (wait / 1000) + 2 ^ 64 ≤ wait / 1000 := by
        unfold wrap
        omega
      have hworth : limit * wrap (wait / 1000) + limit * 2 ^ 64 ≤ limit * (wait / 1000) := by
        rw [← Nat.mul_add]
        exact Nat.mul_le_mul_left limit hless
      have hcount := wrap_le (limit * wrap (wait / 1000) / 1000000)
      unfold refillAmount
      omega
  unfold BILLION
  omega

/-! ## The account of the ticks -/

/-- The last tick that added tokens and the fractions dropped so far, as long as every wait fits. -/
def account (limit : ℕ) : Option (ℕ × ℕ) → ℕ → Option (ℕ × ℕ)
  | none, _ => none
  | some (last, lost), now =>
      if Fits limit (now - last) then
        if limit * ((now - last) / 1000) / 1000000 = 0 then some (last, lost)
        else some (now, lost + fraction limit (now - last))
      else none

/-- The fractions dropped by the ticks and the time since the last one that added tokens are
together worth less than a token. -/
def KeepsFractions (limit clock : ℕ) (ticks : List ℕ) : Prop :=
  ∃ last lost, ticks.foldl (account limit) (some (clock, 0)) = some (last, lost) ∧
    lost + limit * (ticks.getLastD clock - last) < BILLION

/-- The tokens added since the start differ by less than one from what the time up to the last
tick is worth. -/
def InRate (limit clock : ℕ) (s : State) : Prop :=
  |(BILLION * s.added : ℤ) - limit * (s.ticks.getLastD clock - clock)| < BILLION

/-- What the refill has counted, by the account of its ticks. -/
structure Accounts (limit clock : ℕ) (s : State) : Prop where
  begun : clock ≤ s.lastRefill
  last : s.lastRefill ≤ s.ticks.getLastD clock
  tick : s.ticks.getLastD clock ≤ s.clock
  counted : BILLION * (s.added + s.refill.pending) ≤ limit * (s.lastRefill - clock)
  kept : ∀ last lost, s.ticks.foldl (account limit) (some (clock, 0)) = some (last, lost) →
    last = s.lastRefill ∧
      BILLION * (s.added + s.refill.pending) + lost = limit * (s.lastRefill - clock)
  dropped : s.ticks.foldl (account limit) (some (clock, 0)) = none →
    ¬ Fits limit (s.ticks.getLastD clock - s.lastRefill) ∨
      BILLION * (s.added + s.refill.pending) + BILLION ≤ limit * (s.lastRefill - clock)
  loaded : ∀ amount current, s.refill = .adding amount (some current) → current < capacity limit
  amount : ∀ amount current, s.refill = .adding amount current → 0 < amount

variable {clock : ℕ} {s t : State}

theorem accounts_start (clock : ℕ) : Accounts limit clock (start clock) := by
  constructor
  · exact le_rfl
  · exact le_rfl
  · exact le_rfl
  · exact Nat.zero_le _
  · intro last lost h
    cases h
    exact ⟨rfl,by simp [start, Refill.pending]⟩
  · intro h
    cases h
  · intro amount current h
    cases h
  · intro amount current h
    cases h

theorem Accounts.same (h : Accounts limit clock s) (hlast : t.lastRefill = s.lastRefill)
    (hticks : t.ticks = s.ticks) (hclock : s.clock ≤ t.clock)
    (hcounted : t.added + t.refill.pending = s.added + s.refill.pending)
    (hloaded : ∀ amount current, t.refill = .adding amount (some current) →
      current < capacity limit)
    (hamount : ∀ amount current, t.refill = .adding amount current → 0 < amount) :
    Accounts limit clock t := by
  constructor
  · rw [hlast]
    exact h.begun
  · rw [hlast, hticks]
    exact h.last
  · rw [hticks]
    exact h.tick.trans hclock
  · rw [hlast, hcounted]
    exact h.counted
  · rw [hlast, hcounted, hticks]
    exact h.kept
  · rw [hlast, hcounted, hticks]
    exact h.dropped
  · exact hloaded
  · exact hamount

theorem account_eq_some {acc : Option (ℕ × ℕ)} {now last lost : ℕ}
    (h : account limit acc now = some (last, lost)) :
    ∃ last' lost', acc = some (last', lost') ∧ Fits limit (now - last') ∧
      ((refillAmount limit (now - last') = 0 ∧ last = last' ∧ lost = lost') ∨
        (refillAmount limit (now - last') ≠ 0 ∧ last = now ∧
          lost = lost' + fraction limit (now - last'))) := by
  cases acc with
  | none => cases h
  | some pair =>
    obtain ⟨last',lost'⟩ := pair
    simp only [account] at h
    split_ifs at h with hfits hzero
    · cases h
      exact ⟨_,_,rfl,hfits,.inl ⟨(refillAmount_of_fits hfits).trans hzero,rfl,rfl⟩⟩
    · cases h
      refine ⟨_,_,rfl,hfits,.inr ⟨?_,rfl,rfl⟩⟩
      rwa [refillAmount_of_fits hfits]

theorem account_eq_none {acc : Option (ℕ × ℕ)} {now : ℕ} (h : account limit acc now = none) :
    acc = none ∨ ∃ last lost, acc = some (last, lost) ∧ ¬ Fits limit (now - last) := by
  cases acc with
  | none => exact .inl rfl
  | some pair =>
    obtain ⟨last,lost⟩ := pair
    simp only [account] at h
    split_ifs at h with hfits
    exact .inr ⟨last,lost,rfl,hfits⟩

theorem foldl_account_concat (acc : Option (ℕ × ℕ)) (ticks : List ℕ) (now : ℕ) :
    (ticks ++ [now]).foldl (account limit) acc =
      account limit (ticks.foldl (account limit) acc) now := by
  rw [List.foldl_append]
  rfl

theorem Accounts.wait_cases (h : Accounts limit clock s)
    (hnone : (s.ticks ++ [s.clock]).foldl (account limit) (some (clock, 0)) = none) :
    ¬ Fits limit (s.clock - s.lastRefill) ∨
      BILLION * (s.added + s.refill.pending) + BILLION ≤ limit * (s.lastRefill - clock) := by
  rw [foldl_account_concat] at hnone
  rcases account_eq_none hnone with hbefore | ⟨last,lost,hsome,hfits⟩
  · rcases h.dropped hbefore with hfits | hless
    · exact .inl (not_fits_mono (Nat.sub_le_sub_right h.tick _) hfits)
    · exact .inr hless
  · rw [(h.kept last lost hsome).1] at hfits
    exact .inl hfits

theorem Accounts.idle (h : Accounts limit clock s)
    (hamount : refillAmount limit (s.clock - s.lastRefill) = 0) :
    Accounts limit clock { s with ticks := s.ticks ++ [s.clock] } := by
  have hlast : (s.ticks ++ [s.clock]).getLastD clock = s.clock := by simp
  constructor
  · exact h.begun
  · exact (h.last.trans h.tick).trans hlast.ge
  · exact hlast.le
  · exact h.counted
  · intro last lost hsome
    rw [foldl_account_concat] at hsome
    obtain ⟨last',lost',hbefore,-,hcases⟩ := account_eq_some hsome
    have hkept := h.kept last' lost' hbefore
    rw [← hkept.1] at hamount
    rcases hcases with ⟨-,rfl,rfl⟩ | ⟨hne,-,-⟩
    · exact hkept
    · exact absurd hamount hne
  · intro hnone
    show ¬ Fits limit ((s.ticks ++ [s.clock]).getLastD clock - s.lastRefill) ∨ _
    rw [hlast]
    exact h.wait_cases hnone
  · exact h.loaded
  · exact h.amount

/-- The time up to a tick is that up to the last refill and the wait. -/
theorem Accounts.split_time (h : Accounts limit clock s) :
    limit * (s.clock - clock) =
      limit * (s.lastRefill - clock) + limit * (s.clock - s.lastRefill) := by
  have hbegun := h.begun
  have hlast := h.last.trans h.tick
  rw [← Nat.mul_add]
  congr 1
  omega

theorem Accounts.counts (hlimit : 0 < limit) (h : Accounts limit clock s)
    (hwaiting : s.refill = .waiting) {amount : ℕ}
    (hamount : refillAmount limit (s.clock - s.lastRefill) = amount) (hpos : amount ≠ 0) :
    Accounts limit clock { s with
      ticks := s.ticks ++ [s.clock], lastRefill := s.clock, refill := .adding amount none } := by
  have hlast : (s.ticks ++ [s.clock]).getLastD clock = s.clock := by simp
  have hsplit := h.split_time
  have hpending : s.refill.pending = 0 := by rw [hwaiting, Refill.pending]
  have hcounted := h.counted
  rw [hpending] at hcounted
  constructor
  · exact h.begun.trans (h.last.trans h.tick)
  · exact hlast.ge
  · exact hlast.le
  · have hworth := refillAmount_le limit (s.clock - s.lastRefill)
    show BILLION * (s.added + amount) ≤ limit * (s.clock - clock)
    rw [hamount] at hworth
    unfold BILLION at hworth hcounted ⊢
    omega
  · intro last lost hsome
    rw [foldl_account_concat] at hsome
    obtain ⟨last',lost',hbefore,hfits,hcases⟩ := account_eq_some hsome
    have hkept := h.kept last' lost' hbefore
    rw [hkept.1] at hfits hcases
    have hworth := worth_of_fits hfits
    rw [hpending] at hkept
    rcases hcases with ⟨hzero,-,-⟩ | ⟨-,rfl,rfl⟩
    · exact absurd (hamount.symm.trans hzero) hpos
    · refine ⟨rfl,?_⟩
      have hbefore := hkept.2
      show BILLION * (s.added + amount) + (lost' + fraction limit (s.clock - s.lastRefill)) =
        limit * (s.clock - clock)
      rw [hamount] at hworth
      unfold BILLION at hworth hbefore ⊢
      omega
  · intro hnone
    right
    show BILLION * (s.added + amount) + BILLION ≤ limit * (s.clock - clock)
    rcases h.wait_cases hnone with hfits | hless
    · have hlost := lost_of_not_fits hlimit hfits
      rw [hamount] at hlost
      unfold BILLION at hlost hcounted ⊢
      omega
    · have hworth := refillAmount_le limit (s.clock - s.lastRefill)
      rw [hamount] at hworth
      rw [hpending] at hless
      unfold BILLION at hworth hless ⊢
      omega
  · intro amount' current hadding
    cases hadding
  · intro amount' current hadding
    cases hadding
    exact Nat.pos_of_ne_zero hpos

/-! ## A bucket that is never full -/

theorem capacity_lt (limit : ℕ) : capacity limit < 2 ^ 64 - 1 := by
  have hnominal : wrap (limit * REFILL_INTERVAL_MS) < 2 ^ 64 := Nat.mod_lt _ (by decide)
  have hcap : wrap (limit * CAP_DURATION_MS) < 2 ^ 64 := Nat.mod_lt _ (by decide)
  simp only [capacity]
  omega

theorem filled_of_lt {current amount : ℕ} (h : filled limit current amount < capacity limit) :
    filled limit current amount = current + amount := by
  have hcapacity := capacity_lt limit
  unfold filled at h ⊢
  omega

/-- The step leaves the bucket below its capacity. -/
def Unfilled (limit : ℕ) (s : State) (label : Label) : Prop :=
  (step limit s label).all (fun t => decide (t.tokens < capacity limit)) = true

instance (limit : ℕ) (s : State) (label : Label) : Decidable (Unfilled limit s label) :=
  inferInstanceAs (Decidable (_ = true))

theorem Accounts.consumeLoad (h : Accounts limit clock s) (consumer requested : ℕ) :
    Accounts limit clock (consumeLoad limit s consumer requested) := by
  unfold TokenBucket.consumeLoad
  split_ifs
  · exact h
  · exact h.same rfl rfl le_rfl rfl h.loaded h.amount
  · exact h.same rfl rfl le_rfl rfl h.loaded h.amount
  · exact h

theorem Accounts.consumeTake (h : Accounts limit clock s)
    (consumer requested available : ℕ) (spurious : Bool) :
    Accounts limit clock (consumeTake s consumer requested available spurious) := by
  unfold TokenBucket.consumeTake
  split_ifs
  · exact h.same rfl rfl le_rfl rfl h.loaded h.amount
  · exact h.same rfl rfl le_rfl rfl h.loaded h.amount

theorem Accounts.refillTick (hlimit : 0 < limit) (h : Accounts limit clock s)
    (hwaiting : s.refill = .waiting) : Accounts limit clock (refillTick limit s) := by
  unfold TokenBucket.refillTick
  dsimp only
  split_ifs with hzero hamount
  · omega
  · exact h.idle hamount
  · exact h.counts hlimit hwaiting rfl hamount

/-- An addition that the capacity does not cut brings the whole amount. -/
theorem Accounts.refillAdd (h : Accounts limit clock s) {amount current : ℕ} {spurious : Bool}
    (hadding : s.refill = .adding amount (some current))
    (hunfilled : (refillAdd limit s amount current spurious).tokens < capacity limit) :
    Accounts limit clock (refillAdd limit s amount current spurious) := by
  have hcurrent := h.loaded amount current hadding
  have hamount := h.amount amount (some current) hadding
  unfold TokenBucket.refillAdd at hunfilled ⊢
  split_ifs at hunfilled ⊢ with hfull hadded
  · -- The bucket would have been full when the tokens were read.
    have hsum := filled_of_lt (hfull.trans_lt hcurrent)
    omega
  · have hsum := filled_of_lt hunfilled
    refine h.same rfl rfl le_rfl ?_ ?_ ?_
    · rw [hadding]
      simp only [Refill.pending]
      omega
    · intro _ _ hwaiting
      cases hwaiting
    · intro _ _ hwaiting
      cases hwaiting
  · refine h.same rfl rfl le_rfl ?_ ?_ ?_
    · rw [hadding]
      rfl
    · intro _ _ hread
      cases hread
    · intro _ _ hread
      cases hread
      exact hamount

theorem Accounts.step (hlimit : 0 < limit) (h : Accounts limit clock s) {label : Label}
    (hunfilled : Unfilled limit s label) (hstep : TokenBucket.step limit s label = some t) :
    Accounts limit clock t := by
  have ht : t.tokens < capacity limit := by simpa [Unfilled, hstep] using hunfilled
  cases label with
  | time now =>
    simp only [TokenBucket.step] at hstep
    split_ifs at hstep with hclock
    cases hstep
    exact h.same rfl rfl hclock rfl h.loaded h.amount
  | load consumer requested =>
    simp only [TokenBucket.step] at hstep
    split at hstep
    · cases hstep
      exact h.consumeLoad consumer requested
    · cases hstep
  | take consumer spurious =>
    simp only [TokenBucket.step] at hstep
    split at hstep
    · cases hstep
      exact h.consumeTake consumer _ _ spurious
    · cases hstep
  | tick =>
    simp only [TokenBucket.step] at hstep
    split at hstep
    · rename_i hwaiting
      cases hstep
      exact h.refillTick hlimit hwaiting
    · cases hstep
  | read =>
    simp only [TokenBucket.step] at hstep
    split at hstep
    · rename_i amount hadding
      cases hstep
      refine h.same rfl rfl le_rfl ?_ ?_ ?_
      · rw [hadding]
        rfl
      · intro amount' current hread
        cases hread
        exact ht
      · intro amount' current hread
        cases hread
        exact h.amount amount none hadding
    · cases hstep
  | add spurious =>
    simp only [TokenBucket.step] at hstep
    split at hstep
    · rename_i amount current hadding
      cases hstep
      exact h.refillAdd hadding ht
    · cases hstep

/-! ## Every run -/

theorem Accounts.inRate_iff (hlimit : 0 < limit) (h : Accounts limit clock s)
    (hwaiting : s.refill = .waiting) :
    InRate limit clock s ↔ KeepsFractions limit clock s.ticks := by
  have hbegun := h.begun
  have hlast := h.last
  have hcounted := h.counted
  have hkept := h.kept
  have hdropped := h.dropped
  have hpending : s.refill.pending = 0 := by rw [hwaiting, Refill.pending]
  rw [hpending, Nat.add_zero] at hcounted hkept hdropped
  -- The time up to the last tick is that up to the last refill and the rest.
  have hsplit : (limit : ℤ) * (s.ticks.getLastD clock - clock) =
      (limit * (s.lastRefill - clock) + limit * (s.ticks.getLastD clock - s.lastRefill) : ℕ) := by
    push_cast [hbegun, hlast]
    ring
  have hbound : InRate limit clock s ↔
      limit * (s.lastRefill - clock) + limit * (s.ticks.getLastD clock - s.lastRefill) <
        BILLION * s.added + BILLION := by
    rw [InRate, hsplit, abs_lt]
    unfold BILLION at hcounted ⊢
    omega
  rw [hbound]
  constructor
  · intro hless
    cases hfold : s.ticks.foldl (account limit) (some (clock, 0)) with
    | none =>
      rcases hdropped hfold with hfits | hlost
      · have hlost := lost_of_not_fits hlimit hfits
        omega
      · omega
    | some pair =>
      obtain ⟨hpair,hsum⟩ := hkept pair.1 pair.2 hfold
      refine ⟨pair.1,pair.2,hfold,?_⟩
      rw [hpair]
      omega
  · rintro ⟨last,lost,hfold,hless⟩
    obtain ⟨hpair,hsum⟩ := hkept last lost hfold
    rw [hpair] at hless
    omega

/-- For a run in which the bucket is never full: after a tick and its addition, the tokens added
are those of the configured rate if and only if the fractions that the ticks dropped and the time
since the last addition are together worth less than a token. -/
theorem rate_kept_iff (limit clock : ℕ) (hlimit : 0 < limit) (labels : List Label) (s : State)
    (hrun : exec (step limit) (start clock) labels = some s)
    (hunfilled : Meets (step limit) (Unfilled limit) (start clock) labels)
    (hwaiting : s.refill = .waiting) :
    InRate limit clock s ↔ KeepsFractions limit clock s.ticks := by
  have haccounts : Accounts limit clock s :=
    exec_invariant_of_meets (fun _ _ _ h hc hstep => h.step hlimit hc hstep)
      (accounts_start clock) hunfilled hrun
  exact haccounts.inRate_iff hlimit hwaiting

/-- Three ticks of 50 milliseconds at 30 bytes a second, of which each drops half a token, with a
consumer in between. -/
def slowLabels : List Label :=
  [.time 50000000, .tick, .read, .add false, .load 0 1, .take 0 false, .time 100000000, .tick,
    .read, .add false, .time 150000000, .tick, .read, .add false]

def slowEnd : State :=
  ⟨2,150000000,.waiting,[],150000000,1,3,[50000000, 100000000, 150000000]⟩

theorem slow_not_in_rate :
    exec (step 30) (start 0) slowLabels = some slowEnd ∧
      Meets (step 30) (Unfilled 30) (start 0) slowLabels ∧ slowEnd.refill = .waiting ∧
        ¬ InRate 30 0 slowEnd := by
  refine ⟨by decide +kernel,by decide +kernel,rfl,?_⟩
  unfold InRate
  decide +kernel

/-- At 100 bytes a second each tick of 50 milliseconds is worth five tokens. -/
def evenLabels : List Label :=
  [.time 50000000, .tick, .read, .add false, .load 0 1, .take 0 false, .time 100000000, .tick,
    .read, .add false]

def evenEnd : State := ⟨9,100000000,.waiting,[],100000000,1,10,[50000000, 100000000]⟩

theorem even_in_rate : InRate 100 0 evenEnd ↔ KeepsFractions 100 0 evenEnd.ticks :=
  rate_kept_iff 100 0 (by decide) evenLabels evenEnd (by decide +kernel) (by decide +kernel) rfl

end RinaDown.TokenRates
