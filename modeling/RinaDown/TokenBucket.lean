import Mathlib.Tactic.Linarith
import RinaDown.KeyedTable
import RinaDown.LabelledExecutions

/-!
# The token bucket

One refill task and any number of consumers share a bucket of tokens through atomic loads and
compare-exchanges, and every one of these is a step. Times are in nanoseconds; token counts that
are compared with times are in billionths of a token.
-/

namespace RinaDown.TokenBucket

open KeyedTable LabelledExecutions

/-! ## The amounts -/

def REFILL_INTERVAL_MS : ℕ := 50
def CAP_DURATION_MS : ℕ := 100

def BILLION : ℕ := 1000000000

def wrap (n : ℕ) : ℕ := n % 2 ^ 64

/-- The most tokens that the refill leaves in the bucket. -/
def capacity (limit : ℕ) : ℕ :=
  let nominalTick := wrap (limit * REFILL_INTERVAL_MS) / 1000
  max (max (wrap (limit * CAP_DURATION_MS) / 1000) (nominalTick * 2)) 1

/-- The tokens for a time, counted in whole microseconds and rounded down. -/
def refillAmount (limit elapsed : ℕ) : ℕ := wrap (limit * wrap (elapsed / 1000) / 1000000)

theorem wrap_le (n : ℕ) : wrap n ≤ n := Nat.mod_le _ _

theorem capacity_le (limit : ℕ) : capacity limit ≤ max (limit / 10) 1 := by
  have hnominal := wrap_le (limit * REFILL_INTERVAL_MS)
  have hcap := wrap_le (limit * CAP_DURATION_MS)
  simp only [REFILL_INTERVAL_MS, CAP_DURATION_MS] at hnominal hcap
  simp only [capacity, REFILL_INTERVAL_MS, CAP_DURATION_MS]
  omega

theorem refillAmount_le (limit elapsed : ℕ) :
    BILLION * refillAmount limit elapsed ≤ limit * elapsed := by
  have hamount : refillAmount limit elapsed * 1000000 ≤ limit * (elapsed / 1000) := by
    calc refillAmount limit elapsed * 1000000
        ≤ limit * wrap (elapsed / 1000) / 1000000 * 1000000 :=
          Nat.mul_le_mul_right _ (wrap_le _)
      _ ≤ limit * wrap (elapsed / 1000) := Nat.div_mul_le_self _ _
      _ ≤ limit * (elapsed / 1000) := Nat.mul_le_mul_left _ (wrap_le _)
  have hmicros : limit * (elapsed / 1000) * 1000 ≤ limit * elapsed := by
    rw [Nat.mul_assoc]
    exact Nat.mul_le_mul_left limit (Nat.div_mul_le_self elapsed 1000)
  unfold BILLION
  omega

/-! ## The steps -/

/-- The refill task waits for its interval, or it adds an amount, with the tokens that it read. -/
inductive Refill where
  | waiting
  | adding (amount : ℕ) (current : Option ℕ)
deriving DecidableEq

/-- A consumer that has read the tokens is in `reads`, with its request and what it read. The
grants, the additions and the times of the ticks are counted for the statements only. -/
structure State where
  tokens : ℕ
  lastRefill : ℕ
  refill : Refill
  reads : Table ℕ (ℕ × ℕ)
  clock : ℕ
  granted : ℕ
  added : ℕ
  ticks : List ℕ
deriving DecidableEq

def start (clock : ℕ) : State := ⟨0,clock,.waiting,[],clock,0,0,[]⟩

inductive Label where
  | time (now : ℕ)
  | load (consumer requested : ℕ)
  | take (consumer : ℕ) (spurious : Bool)
  | tick
  | read
  | add (spurious : Bool)
deriving DecidableEq

/-- The first part of `consume`, up to the load of the tokens. -/
def consumeLoad (limit : ℕ) (s : State) (consumer requested : ℕ) : State :=
  if requested = 0 then s
  else if limit = 0 then { s with granted := s.granted + requested }
  else if 0 < s.tokens then { s with reads := insert consumer (requested, s.tokens) s.reads }
  else s

/-- The compare-exchange of `consume`. A consumer that fails begins again. -/
def consumeTake (s : State) (consumer requested available : ℕ) (spurious : Bool) : State :=
  if spurious = false ∧ s.tokens = available then
    { s with
      tokens := available - min requested available
      granted := s.granted + min requested available
      reads := remove consumer s.reads }
  else { s with reads := remove consumer s.reads }

/-- The refill task after its interval. It keeps the time of the last refill as long as the time
since is not worth a token. -/
def refillTick (limit : ℕ) (s : State) : State :=
  let s := { s with ticks := s.ticks ++ [s.clock] }
  if limit = 0 then { s with tokens := 0, lastRefill := s.clock }
  else
    let amount := refillAmount limit (s.clock - s.lastRefill)
    if amount = 0 then s
    else { s with lastRefill := s.clock, refill := .adding amount none }

/-- `saturating_add`, and the capacity. -/
def filled (limit current amount : ℕ) : ℕ :=
  min (min (current + amount) (2 ^ 64 - 1)) (capacity limit)

/-- The compare-exchange of the refill. -/
def refillAdd (limit : ℕ) (s : State) (amount current : ℕ) (spurious : Bool) : State :=
  if filled limit current amount = current then { s with refill := .waiting }
  else if spurious = false ∧ s.tokens = current then
    { s with
      tokens := filled limit current amount
      added := s.added + (filled limit current amount - current)
      refill := .waiting }
  else { s with refill := .adding amount none }

def step (limit : ℕ) (s : State) : Label → Option State
  | .time now => if s.clock ≤ now then some { s with clock := now } else none
  | .load consumer requested =>
      match s.reads.lookup consumer with
      | none => some (consumeLoad limit s consumer requested)
      | some _ => none
  | .take consumer spurious =>
      match s.reads.lookup consumer with
      | some (requested, available) => some (consumeTake s consumer requested available spurious)
      | none => none
  | .tick =>
      match s.refill with
      | .waiting => some (refillTick limit s)
      | .adding _ _ => none
  | .read =>
      match s.refill with
      | .adding amount none => some { s with refill := .adding amount (some s.tokens) }
      | _ => none
  | .add spurious =>
      match s.refill with
      | .adding amount (some current) => some (refillAdd limit s amount current spurious)
      | _ => none

/-! ## What a step does to the tokens -/

/-- The tokens that the refill task has counted and not yet added. -/
def Refill.pending : Refill → ℕ
  | .waiting => 0
  | .adding amount _ => amount

/-- The tokens granted, those in the bucket and those that the pending addition can bring. -/
def issued (limit : ℕ) (s : State) : ℕ :=
  s.granted + s.tokens + min s.refill.pending (capacity limit)

/-- A step adds nothing to the tokens issued, or it is a tick of the refill. -/
inductive Change (limit : ℕ) (s t : State) : Prop
  | quiet (hclock : s.clock ≤ t.clock) (hlast : t.lastRefill = s.lastRefill)
      (hissued : issued limit t ≤ issued limit s)
  | refilled (hclock : t.clock = s.clock) (hlast : t.lastRefill = s.clock)
      (hissued : issued limit t ≤
        issued limit s + min (refillAmount limit (s.clock - s.lastRefill)) (capacity limit))

variable {limit : ℕ} {s t : State}

theorem change_same (hclock : s.clock ≤ t.clock) (hlast : t.lastRefill = s.lastRefill)
    (hgranted : t.granted = s.granted) (htokens : t.tokens = s.tokens)
    (hpending : t.refill.pending ≤ s.refill.pending) : Change limit s t := by
  refine .quiet hclock hlast ?_
  rw [issued, issued, hgranted, htokens]
  omega

theorem change_consumeLoad (hlimit : 0 < limit) (consumer requested : ℕ) :
    Change limit s (consumeLoad limit s consumer requested) := by
  unfold consumeLoad
  split_ifs with hrequested hzero htokens
  · exact change_same le_rfl rfl rfl rfl le_rfl
  · omega
  · exact change_same le_rfl rfl rfl rfl le_rfl
  · exact change_same le_rfl rfl rfl rfl le_rfl

theorem change_consumeTake (consumer requested available : ℕ) (spurious : Bool) :
    Change limit s (consumeTake s consumer requested available spurious) := by
  unfold consumeTake
  split_ifs with htaken
  · refine .quiet le_rfl rfl ?_
    simp only [issued]
    omega
  · exact change_same le_rfl rfl rfl rfl le_rfl

theorem change_refillTick (hlimit : 0 < limit) (hwaiting : s.refill = .waiting) :
    Change limit s (refillTick limit s) := by
  unfold refillTick
  dsimp only
  split_ifs with hzero hamount
  · omega
  · exact change_same le_rfl rfl rfl rfl le_rfl
  · refine .refilled rfl rfl ?_
    simp only [issued, hwaiting, Refill.pending]
    omega

/-- An addition brings at most the amount, and at most the capacity. -/
theorem change_refillAdd {amount current : ℕ} (spurious : Bool)
    (hadding : s.refill = .adding amount (some current)) :
    Change limit s (refillAdd limit s amount current spurious) := by
  unfold refillAdd
  split_ifs with hfull hadded
  · refine change_same le_rfl rfl rfl rfl ?_
    exact Nat.zero_le _
  · refine .quiet le_rfl rfl ?_
    simp only [issued, hadding, Refill.pending, filled, hadded.2]
    omega
  · refine change_same le_rfl rfl rfl rfl ?_
    rw [hadding]
    exact le_rfl

theorem step_change (hlimit : 0 < limit) {label : Label} (h : step limit s label = some t) :
    Change limit s t := by
  cases label with
  | time now =>
    simp only [step] at h
    split_ifs at h with hclock
    cases h
    exact change_same hclock rfl rfl rfl le_rfl
  | load consumer requested =>
    simp only [step] at h
    split at h
    · cases h
      exact change_consumeLoad hlimit consumer requested
    · cases h
  | take consumer spurious =>
    simp only [step] at h
    split at h
    · cases h
      exact change_consumeTake consumer _ _ spurious
    · cases h
  | tick =>
    simp only [step] at h
    split at h
    · rename_i hwaiting
      cases h
      exact change_refillTick hlimit hwaiting
    · cases h
  | read =>
    simp only [step] at h
    split at h
    · rename_i amount hadding
      cases h
      refine change_same le_rfl rfl rfl rfl ?_
      rw [hadding]
      exact le_rfl
    · cases h
  | add spurious =>
    simp only [step] at h
    split at h
    · rename_i amount current hadding
      cases h
      exact change_refillAdd spurious hadding
    · cases h

/-! ## The content of the bucket -/

/-- The bucket is not overfull, and the last refill is over. -/
structure Held (limit : ℕ) (s : State) : Prop where
  tokens : s.tokens ≤ capacity limit
  last : s.lastRefill ≤ s.clock

theorem held_start (clock : ℕ) : Held limit (start clock) := ⟨Nat.zero_le _,le_rfl⟩

theorem filled_le (limit current amount : ℕ) : filled limit current amount ≤ capacity limit :=
  min_le_right _ _

theorem tokens_step {label : Label} (h : step limit s label = some t) :
    t.tokens ≤ s.tokens ∨ t.tokens ≤ capacity limit := by
  cases label with
  | time now =>
    simp only [step] at h
    split_ifs at h
    cases h
    exact .inl le_rfl
  | load consumer requested =>
    simp only [step, consumeLoad] at h
    split at h
    · cases h
      split_ifs
      all_goals exact .inl le_rfl
    · cases h
  | take consumer spurious =>
    simp only [step, consumeTake] at h
    split at h
    · cases h
      split_ifs with htaken
      · left
        rw [htaken.2]
        exact Nat.sub_le _ _
      · exact .inl le_rfl
    · cases h
  | tick =>
    simp only [step, refillTick] at h
    split at h
    · cases h
      split_ifs
      · exact .inl (Nat.zero_le _)
      · exact .inl le_rfl
      · exact .inl le_rfl
    · cases h
  | read =>
    simp only [step] at h
    split at h
    · cases h
      exact .inl le_rfl
    · cases h
  | add spurious =>
    simp only [step, refillAdd] at h
    split at h
    · cases h
      split_ifs
      · exact .inl le_rfl
      · exact .inr (filled_le limit _ _)
      · exact .inl le_rfl
    · cases h

theorem Held.step (hlimit : 0 < limit) (h : Held limit s) {label : Label}
    (hstep : TokenBucket.step limit s label = some t) : Held limit t := by
  constructor
  · rcases tokens_step hstep with hless | hcap
    · exact hless.trans h.tokens
    · exact hcap
  · have hlast := h.last
    cases step_change hlimit hstep with
    | quiet hclock hlast' _ => omega
    | refilled hclock hlast' _ => omega

/-! ## The tokens granted in a window -/

/-- What the refills to come add for the time that is over, in billionths of a token: the amount
that the refill task is adding, and the amount for the time since its last tick. -/
def carried (limit : ℕ) (s : State) : ℕ :=
  BILLION * min s.refill.pending (capacity limit) +
    min (limit * (s.clock - s.lastRefill)) (BILLION * capacity limit)

/-- From a state on, nothing was issued before the first tick, and after it what the time up to
the last refill is worth. -/
inductive Window (limit : ℕ) (s t : State) : Prop
  | before (hlast : t.lastRefill = s.lastRefill) (hclock : s.clock ≤ t.clock)
      (hissued : issued limit t ≤ issued limit s)
  | after (hlast : s.clock ≤ t.lastRefill)
      (hissued : BILLION * issued limit t ≤ BILLION * issued limit s +
        min (limit * (s.clock - s.lastRefill)) (BILLION * capacity limit) +
          limit * (t.lastRefill - s.clock))

theorem Window.step (hlimit : 0 < limit) {u : State} (hs : s.lastRefill ≤ s.clock)
    (ht : t.lastRefill ≤ t.clock) (h : Window limit s t) {label : Label}
    (hstep : TokenBucket.step limit t label = some u) : Window limit s u := by
  have hworth := refillAmount_le limit (t.clock - t.lastRefill)
  have hsplit : ∀ a b c : ℕ, a ≤ b → b ≤ c →
      limit * (c - a) = limit * (b - a) + limit * (c - b) := by
    intro a b c hab hbc
    rw [← Nat.mul_add]
    congr 1
    omega
  cases step_change hlimit hstep with
  | quiet hclock hlast hissued =>
    cases h with
    | before hlast' hclock' hissued' =>
      exact .before (hlast.trans hlast') (hclock'.trans hclock) (hissued.trans hissued')
    | after hlast' hissued' =>
      refine .after (hlast ▸ hlast') ?_
      rw [hlast]
      unfold BILLION at hissued' ⊢
      omega
  | refilled hclock hlast hissued =>
    cases h with
    | before hlast' hclock' hissued' =>
      refine .after (hlast ▸ hclock') ?_
      -- The time since the last refill is split at the beginning of the window.
      have hparts := hsplit _ _ _ hs hclock'
      rw [hlast'] at hworth hissued
      rw [hlast]
      unfold BILLION at hworth ⊢
      omega
    | after hlast' hissued' =>
      refine .after (hlast ▸ hlast'.trans ht) ?_
      have hparts := hsplit _ _ _ hlast' ht
      rw [hlast]
      unfold BILLION at hworth hissued' ⊢
      omega

theorem window_exec (hlimit : 0 < limit) (hs : Held limit s) {labels : List Label}
    (h : exec (step limit) s labels = some t) : Window limit s t := by
  have hboth : Held limit t ∧ Window limit s t := by
    refine @exec_invariant _ _ _ (fun t => Held limit t ∧ Window limit s t) ?_ _ _ _
      ⟨hs,.before rfl le_rfl le_rfl⟩ h
    intro t label u ht hstep
    exact ⟨ht.1.step hlimit hstep,ht.2.step hlimit hs.last ht.1.last hstep⟩
  exact hboth.2

/-- In every part of every run, the bytes granted are at most the tokens in the bucket at its
beginning, what the refills add for the time before it, and what its own time is worth. -/
theorem burst_bounded (limit clock : ℕ) (hlimit : 0 < limit) (before within : List Label)
    (s t : State) (hbefore : exec (step limit) (start clock) before = some s)
    (hwithin : exec (step limit) s within = some t) :
    s.tokens ≤ capacity limit ∧ capacity limit ≤ max (limit / 10) 1 ∧
      BILLION * t.granted ≤ BILLION * (s.granted + s.tokens) + carried limit s +
        limit * (t.clock - s.clock) := by
  have hheld : Held limit s :=
    exec_invariant (fun _ _ _ h hstep => h.step hlimit hstep) (held_start clock) hbefore
  have hheld' : Held limit t :=
    exec_invariant (fun _ _ _ h hstep => h.step hlimit hstep) hheld hwithin
  refine ⟨hheld.tokens,capacity_le limit,?_⟩
  have hwindow := window_exec hlimit hheld hwithin
  have hissued : t.granted ≤ issued limit t := by
    unfold issued
    omega
  unfold carried
  cases hwindow with
  | before _ _ h =>
    unfold BILLION
    unfold issued at h hissued
    omega
  | after hlast h =>
    have hworth : limit * (t.lastRefill - s.clock) ≤ limit * (t.clock - s.clock) :=
      Nat.mul_le_mul_left limit (Nat.sub_le_sub_right hheld'.last _)
    unfold BILLION at h ⊢
    unfold issued at h hissued
    omega

/-- A full bucket that a consumer has read, just before the refill. -/
def burstStart : State :=
  ⟨100,100000000,.waiting,[(0, 200, 100)],149000000,0,100,[100000000]⟩

def burstEnd : State :=
  ⟨0,150000000,.waiting,[],150000000,150,150,[100000000, 150000000]⟩

theorem burst_bounded_sample :
    burstStart.tokens ≤ capacity 1000 ∧ capacity 1000 ≤ max (1000 / 10) 1 ∧
      BILLION * burstEnd.granted ≤ BILLION * (burstStart.granted + burstStart.tokens) +
        carried 1000 burstStart + 1000 * (burstEnd.clock - burstStart.clock) :=
  burst_bounded 1000 0 (by decide)
    [.time 100000000, .tick, .read, .add false, .time 149000000, .load 0 200]
    [.take 0 false, .time 150000000, .tick, .read, .add false, .load 1 200, .take 1 false]
    burstStart burstEnd (by decide +kernel) (by decide +kernel)

end RinaDown.TokenBucket
