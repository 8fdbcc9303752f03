import RinaDown.BinaryFloats
import RinaDown.KeyedTable
import RinaDown.LabelledExecutions

/-!
# The switch of a task to a proxy

A task that started on the direct line may once probe the proxies and may once switch to one of
them. The decisions per host are in a cache that other tasks change at any time. The probes run
beside the task, and each tick of the ramp looks whether their results are there.
-/

namespace RinaDown.AutoSwitch

open BinaryFloats KeyedTable LabelledExecutions List Bool

/-! ## Decisions and candidates -/

inductive CandidateSource where
  | system
  | manualFields
deriving DecidableEq

inductive Decision where
  | proxy (source : CandidateSource)
  | cooldown
  | noSwitch
deriving DecidableEq

/-- Seconds. -/
def PROXY_LEASE_TTL : ℕ := 600
def COOLDOWN_TTL : ℕ := 300
def NO_SWITCH_TTL : ℕ := 1800

def Decision.ttl : Decision → ℕ
  | .proxy _ => PROXY_LEASE_TTL
  | .cooldown => COOLDOWN_TTL
  | .noSwitch => NO_SWITCH_TTL

abbrev DecisionCache := Table String (Decision × ℕ)

/-- A decision that has run out is removed on the way. -/
def lookupDecision (cache : DecisionCache) (now : ℕ) (host : String) :
    DecisionCache × Option Decision :=
  match cache.lookup host with
  | some (decision, til) =>
      if now < til then (cache, some decision) else (remove host cache, none)
  | none => (cache, none)

def setDecision (cache : DecisionCache) (now : ℕ) (host : String) (decision : Decision) :
    DecisionCache :=
  insert host (decision, now + decision.ttl) cache

variable {Config : Type}

structure ProxyCandidate (Config : Type) where
  config : Config
  source : CandidateSource
deriving DecidableEq

structure CandidateProbeOutcome (Config : Type) where
  candidate : ProxyCandidate Config
  bps : F64
  validatorsOk : Bool
deriving DecidableEq

structure AutoProxyCtx (Config : Type) where
  candidates : List (ProxyCandidate Config)
  host : String
  fastReeval : Bool
  requireValidation : Bool

/-! ## The choice of a winner -/

/-- Milliseconds. -/
def MIN_RUNTIME : ℕ := 6000
def FAST_REEVAL_MIN_RUNTIME : ℕ := 4000

def MIN_REMAINING_BYTES : ℤ := 4 * 1024 * 1024

structure TickObs where
  throughputBps : F64
  alive : ℕ
  remainingBytes : ℤ
  limiterActive : Bool
  connSensitive : Bool
deriving DecidableEq

def shouldProbe (minRuntime runtime : ℕ) (obs : TickObs) : Bool :=
  minRuntime ≤ runtime && 0 < obs.alive && MIN_REMAINING_BYTES ≤ obs.remainingBytes &&
    !obs.limiterActive && !obs.connSensitive

def proxyWins (probeBps baselinePerConnBps : F64) : Bool :=
  F64.zero.lt probeBps && baselinePerConnBps.double.le probeBps

/-- `max_by` with `total_cmp`, which keeps the last of several greatest elements. -/
def maxByBps (best : Option (CandidateProbeOutcome Config))
    (result : CandidateProbeOutcome Config) : Option (CandidateProbeOutcome Config) :=
  match best with
  | none => some result
  | some b => if b.bps.totalCmp result.bps = .gt then some b else some result

def fastestProxyWinner (outcomes : List (CandidateProbeOutcome Config)) (baseline : F64) :
    Option (CandidateProbeOutcome Config) :=
  (outcomes.filter fun r => r.validatorsOk && proxyWins r.bps baseline).foldl maxByBps none

/-! ## The state machine -/

inductive Phase (Config : Type) where
  | idle
  | probing (slot : Option (List (CandidateProbeOutcome Config))) (baseline : F64)
  | done
deriving DecidableEq

/-- What the machine does and what it is given, in the order in which it happens. -/
inductive Effect (Config : Type) where
  | probe (baseline : F64)
  | delivered (outcomes : List (CandidateProbeOutcome Config))
  | compared (baseline : F64)
  | switchToClient (candidate : ProxyCandidate Config)
  | buildFailed (candidate : ProxyCandidate Config)
  | cacheSet (decision : Decision)
  | recordProxyWin (bps : F64)
  | recordNoSwitch
  | recordCooldown
  | publish (label : String)
deriving DecidableEq

structure State (Config : Type) where
  phase : Phase Config
  cache : DecisionCache
  clock : ℕ
  log : List (Effect Config)

def start (cache : DecisionCache) (clock : ℕ) : State Config := ⟨.idle,cache,clock,[]⟩

def withSource (base : String) : CandidateSource → String
  | .system => base ++ ":system"
  | .manualFields => base ++ ":manual"

def emit (s : State Config) (effects : List (Effect Config)) : State Config :=
  { s with log := s.log ++ effects }

def cacheSet (s : State Config) (host : String) (decision : Decision) : State Config :=
  emit { s with cache := setDecision s.cache s.clock host decision } [.cacheSet decision]

/-- `built` tells whether a client for the candidate could be built. -/
def applySwitch (ctx : AutoProxyCtx Config) (s : State Config) (candidate : ProxyCandidate Config)
    (base : String) (built : Bool) : State Config :=
  if built then
    { emit s [.switchToClient candidate, .publish (withSource base candidate.source)] with
      phase := .done }
  else
    { cacheSet (emit s [.buildFailed candidate]) ctx.host .cooldown with phase := .done }

/-- The throughput of one connection, by the division that the code makes. -/
def perConn (quotient : F64 → ℕ → F64) (obs : TickObs) : F64 :=
  quotient obs.throughputBps (max obs.alive 1)

def startProbes (quotient : F64 → ℕ → F64) (s : State Config) (obs : TickObs) : State Config :=
  { emit s [.probe (perConn quotient obs)] with phase := .probing none (perConn quotient obs) }

def idleTick (ctx : AutoProxyCtx Config) (quotient : F64 → ℕ → F64) (s : State Config)
    (obs : TickObs) (runtime : ℕ) (built : Bool) : State Config :=
  if shouldProbe (if ctx.fastReeval then FAST_REEVAL_MIN_RUNTIME else MIN_RUNTIME) runtime obs then
    let found := lookupDecision s.cache s.clock ctx.host
    let s := { s with cache := found.1 }
    match found.2 with
    | some (.proxy source) =>
        if ctx.requireValidation then startProbes quotient s obs
        else
          match ctx.candidates.find? fun candidate => candidate.source = source with
          | some candidate => applySwitch ctx s candidate "proxy:cached" built
          | none => startProbes quotient s obs
    | some .cooldown | some .noSwitch => { s with phase := .done }
    | none => startProbes quotient s obs
  else s

def allMismatched (outcomes : List (CandidateProbeOutcome Config)) : Bool :=
  !outcomes.isEmpty && outcomes.all fun r => !r.validatorsOk

def landTick (ctx : AutoProxyCtx Config) (s : State Config)
    (outcomes : List (CandidateProbeOutcome Config)) (before after : F64) (built : Bool) :
    State Config :=
  let s := emit s [.compared after]
  match fastestProxyWinner outcomes (before.max after) with
  | some winner =>
      let switched := applySwitch ctx (cacheSet s ctx.host (.proxy winner.candidate.source))
        winner.candidate "proxy:sampled" built
      if built then emit switched [.recordProxyWin winner.bps] else switched
  | none =>
      if allMismatched outcomes then
        { emit (cacheSet s ctx.host .noSwitch) [.recordNoSwitch, .publish "direct:pinned"] with
          phase := .done }
      else
        { emit (cacheSet s ctx.host .cooldown) [.recordCooldown, .publish "direct:sampled"] with
          phase := .done }

def onRampTick (ctx : AutoProxyCtx Config) (quotient : F64 → ℕ → F64) (s : State Config)
    (obs : TickObs) (runtime : ℕ) (built : Bool) : State Config :=
  match s.phase with
  | .done => s
  | .idle => idleTick ctx quotient s obs runtime built
  | .probing none _ => s
  | .probing (some outcomes) before => landTick ctx s outcomes before (perConn quotient obs) built

/-- Ticks, the results of the round of probes that is under way, what other tasks leave in the
cache, and time. -/
inductive Label (Config : Type) where
  | tick (obs : TickObs) (runtime : ℕ) (built : Bool)
  | probed (outcomes : List (CandidateProbeOutcome Config))
  | siblings (cache : DecisionCache)
  | clock (now : ℕ)
deriving DecidableEq

def step (ctx : AutoProxyCtx Config) (quotient : F64 → ℕ → F64) (s : State Config) :
    Label Config → Option (State Config)
  | .tick obs runtime built => some (onRampTick ctx quotient s obs runtime built)
  | .probed outcomes =>
      match s.phase with
      | .probing none baseline =>
          some { emit s [.delivered outcomes] with phase := .probing (some outcomes) baseline }
      | _ => none
  | .siblings cache => some { s with cache := cache }
  | .clock now => some { s with clock := now }

/-! ## What is asked of the log -/

/-- The result is of a candidate whose validators matched, is at least twice each of the two
baselines, and no other such result is faster. -/
structure Winner (outcomes : List (CandidateProbeOutcome Config)) (before after : F64)
    (winner : CandidateProbeOutcome Config) : Prop where
  probed : winner ∈ outcomes
  validated : winner.validatorsOk = true
  twice : ∀ b, b = before ∨ b = after → b.isNan = false →
    b.double.le winner.bps = true ∧
      (b.isFinite = true → winner.bps.isFinite = true → 2 * b.units ≤ winner.bps.units)
  fastest : ∀ r ∈ outcomes, r.validatorsOk = true → proxyWins r.bps (before.max after) = true →
    r.bps.le winner.bps = true

def isProbe : Effect Config → Bool
  | .probe _ => true
  | _ => false

def isSwitch : Effect Config → Bool
  | .switchToClient _ => true
  | _ => false

/-- The switch is to a winner of the round of probes that was started, delivered and compared. -/
def Sampled (log : List (Effect Config)) (candidate : ProxyCandidate Config) : Prop :=
  ∃ before outcomes after winner, .probe before ∈ log ∧ .delivered outcomes ∈ log ∧
    .compared after ∈ log ∧ Winner outcomes before after winner ∧ winner.candidate = candidate

structure OneShot (ctx : AutoProxyCtx Config) (log : List (Effect Config)) : Prop where
  probes : log.countP isProbe ≤ 1
  switches : log.countP isSwitch ≤ 1
  sampled : ∀ candidate, .switchToClient candidate ∈ log →
    (∃ baseline, .probe baseline ∈ log) ∨ ctx.requireValidation = true → Sampled log candidate
  mismatched : ∀ outcomes, .delivered outcomes ∈ log → allMismatched outcomes = true →
    (∀ candidate, .switchToClient candidate ∉ log) ∧
      ((∃ baseline, .compared baseline ∈ log) → .cacheSet .noSwitch ∈ log ∧ .recordNoSwitch ∈ log)

/-! ## The winner -/

/-- The fold keeps one of the results, and none is above it. -/
theorem foldl_maxByBps (results : List (CandidateProbeOutcome Config)) :
    ∀ (best : Option (CandidateProbeOutcome Config)) (winner : CandidateProbeOutcome Config),
      results.foldl maxByBps best = some winner →
        (best = some winner ∨ winner ∈ results) ∧
          (∀ b, best = some b → b.bps.totalKey ≤ winner.bps.totalKey) ∧
          ∀ r ∈ results, r.bps.totalKey ≤ winner.bps.totalKey := by
  induction results with
  | nil =>
    intro best winner h
    have hbest : best = some winner := h
    refine ⟨.inl hbest,?_,by simp⟩
    intro b hb
    rw [Option.some.inj (hb.symm.trans hbest)]
  | cons r results ih =>
    intro best winner h
    obtain ⟨hmem,hkept,hrest⟩ := ih (maxByBps best r) winner h
    -- One comparison keeps one of the two, and the other is not above it.
    have hstep : ∃ k, maxByBps best r = some k ∧ (best = some k ∨ k = r) ∧
        (∀ b, best = some b → b.bps.totalKey ≤ k.bps.totalKey) ∧
        r.bps.totalKey ≤ k.bps.totalKey := by
      cases best with
      | none => exact ⟨r,rfl,.inr rfl,by simp,le_rfl⟩
      | some b =>
        by_cases hgt : b.bps.totalCmp r.bps = .gt
        · have hlt : r.bps.totalKey < b.bps.totalKey := compare_gt_iff_gt.1 hgt
          exact ⟨b,if_pos hgt,.inl rfl,by simp,hlt.le⟩
        · have hle : b.bps.totalKey ≤ r.bps.totalKey := not_lt.1 (mt compare_gt_iff_gt.2 hgt)
          exact ⟨r,if_neg hgt,.inr rfl,by simpa using hle,le_rfl⟩
    obtain ⟨k,hk,hfrom,hbest,hr⟩ := hstep
    have hkw : k.bps.totalKey ≤ winner.bps.totalKey := hkept k hk
    refine ⟨?_,?_,?_⟩
    · rcases hmem with hwinner | hmem
      · have hkw' : k = winner := Option.some.inj (hk.symm.trans hwinner)
        subst hkw'
        rcases hfrom with hfrom | hfrom
        · exact .inl hfrom
        · exact .inr (hfrom ▸ mem_cons_self)
      · exact .inr (mem_cons_of_mem r hmem)
    · intro b hb
      exact (hbest b hb).trans hkw
    · intro q hq
      rcases mem_cons.1 hq with rfl | hq
      · exact hr.trans hkw
      · exact hrest q hq

variable {outcomes : List (CandidateProbeOutcome Config)} {winner : CandidateProbeOutcome Config}

theorem fastestProxyWinner_eq_some {baseline : F64}
    (h : fastestProxyWinner outcomes baseline = some winner) :
    winner ∈ outcomes ∧ winner.validatorsOk = true ∧ proxyWins winner.bps baseline = true ∧
      ∀ r ∈ outcomes, r.validatorsOk = true → proxyWins r.bps baseline = true →
        r.bps.totalKey ≤ winner.bps.totalKey := by
  obtain ⟨hmem,-,hmax⟩ := foldl_maxByBps _ none winner h
  have hwinner := hmem.resolve_left (by simp)
  simp only [mem_filter, and_eq_true] at hwinner hmax
  refine ⟨hwinner.1,hwinner.2.1,hwinner.2.2,?_⟩
  intro r hr hvalid hwins
  exact hmax r ⟨hr,hvalid,hwins⟩

theorem proxyWins_iff {probe baseline : F64} :
    proxyWins probe baseline = true ↔
      F64.zero.lt probe = true ∧ baseline.double.le probe = true := by
  rw [proxyWins, and_eq_true]

theorem le_max_of_mem {before after b : F64} (hb : b = before ∨ b = after)
    (hnan : b.isNan = false) : b.le (before.max after) = true := by
  rcases hb with rfl | rfl
  · exact F64.le_max_left hnan
  · exact F64.le_max_right hnan

theorem winner_of_fastest {before after : F64}
    (h : fastestProxyWinner outcomes (before.max after) = some winner) :
    Winner outcomes before after winner := by
  obtain ⟨hmem,hvalid,hwins,hmax⟩ := fastestProxyWinner_eq_some h
  obtain ⟨hpositive,hdouble⟩ := proxyWins_iff.1 hwins
  refine ⟨hmem,hvalid,?_,?_⟩
  · intro b hb hnan
    have hle : b.double.le winner.bps = true :=
      F64.le_trans (F64.double_le (le_max_of_mem hb hnan)) hdouble
    exact ⟨hle,fun _ hfinite => F64.two_mul_units_le hle hfinite hpositive⟩
  · intro r hr hrvalid hrwins
    exact F64.le_of_totalKey_le (proxyWins_iff.1 hrwins).1 hpositive (hmax r hr hrvalid hrwins)

theorem Winner.not_allMismatched {before after : F64} (h : Winner outcomes before after winner) :
    allMismatched outcomes = false := by
  rw [allMismatched, and_eq_false_iff]
  right
  rw [all_eq_false]
  exact ⟨winner,h.probed,by simp [h.validated]⟩

/-! ## The log -/

/-- What follows the comparison of the results with the baselines. -/
inductive Verdict (outcomes : List (CandidateProbeOutcome Config)) (before after : F64) :
    List (Effect Config) → Prop
  | switched (winner : CandidateProbeOutcome Config) (h : Winner outcomes before after winner) :
      Verdict outcomes before after
        [.cacheSet (.proxy winner.candidate.source), .switchToClient winner.candidate,
          .publish (withSource "proxy:sampled" winner.candidate.source), .recordProxyWin winner.bps]
  | failed (winner : CandidateProbeOutcome Config) (h : Winner outcomes before after winner) :
      Verdict outcomes before after
        [.cacheSet (.proxy winner.candidate.source), .buildFailed winner.candidate,
          .cacheSet .cooldown]
  | mismatched (h : allMismatched outcomes = true) :
      Verdict outcomes before after [.cacheSet .noSwitch, .recordNoSwitch, .publish "direct:pinned"]
  | noAdvantage (h : allMismatched outcomes = false) :
      Verdict outcomes before after
        [.cacheSet .cooldown, .recordCooldown, .publish "direct:sampled"]

inductive Finished (ctx : AutoProxyCtx Config) : List (Effect Config) → Prop
  | refused : Finished ctx []
  | cached (candidate : ProxyCandidate Config) (h : ctx.requireValidation = false) :
      Finished ctx [.switchToClient candidate,
        .publish (withSource "proxy:cached" candidate.source)]
  | cachedFailed (candidate : ProxyCandidate Config) :
      Finished ctx [.buildFailed candidate, .cacheSet .cooldown]
  | landed (outcomes : List (CandidateProbeOutcome Config)) (before after : F64)
      (tail : List (Effect Config)) (h : Verdict outcomes before after tail) :
      Finished ctx ([.probe before, .delivered outcomes, .compared after] ++ tail)

/-- The phase determines the log up to its end. -/
def Logged (ctx : AutoProxyCtx Config) (s : State Config) : Prop :=
  match s.phase with
  | .idle => s.log = []
  | .probing none before => s.log = [.probe before]
  | .probing (some outcomes) before => s.log = [.probe before, .delivered outcomes]
  | .done => Finished ctx s.log

section Ticks

variable {ctx : AutoProxyCtx Config} {quotient : F64 → ℕ → F64} {s t : State Config}
variable {obs : TickObs} {runtime : ℕ} {built : Bool}

theorem logged_idle (hphase : s.phase = .idle) (h : s.log = []) : Logged ctx s := by
  rw [Logged, hphase]
  exact h

theorem logged_done (hphase : s.phase = .done) (h : Finished ctx s.log) : Logged ctx s := by
  rw [Logged, hphase]
  exact h

theorem logged_startProbes (h : s.log = []) : Logged ctx (startProbes quotient s obs) := by
  show s.log ++ [.probe (perConn quotient obs)] = [.probe (perConn quotient obs)]
  rw [h, nil_append]

theorem logged_applySwitch (h : s.log = []) (hvalidation : ctx.requireValidation = false)
    (candidate : ProxyCandidate Config) :
    Logged ctx (applySwitch ctx s candidate "proxy:cached" built) := by
  cases built with
  | true =>
    have hlog : (applySwitch ctx s candidate "proxy:cached" true).log =
        [.switchToClient candidate, .publish (withSource "proxy:cached" candidate.source)] := by
      simp [applySwitch, emit, h]
    exact logged_done rfl (hlog ▸ Finished.cached candidate hvalidation)
  | false =>
    have hlog : (applySwitch ctx s candidate "proxy:cached" false).log =
        [.buildFailed candidate, .cacheSet .cooldown] := by
      simp [applySwitch, cacheSet, emit, h]
    exact logged_done rfl (hlog ▸ Finished.cachedFailed candidate)

theorem logged_idleTick (hphase : s.phase = .idle) (h : s.log = []) :
    Logged ctx (idleTick ctx quotient s obs runtime built) := by
  rw [idleTick]
  by_cases hprobe : shouldProbe
      (if ctx.fastReeval then FAST_REEVAL_MIN_RUNTIME else MIN_RUNTIME) runtime obs = true
  · rw [if_pos hprobe]
    have hlog : ({ s with cache := (lookupDecision s.cache s.clock ctx.host).1 } :
        State Config).log = [] := h
    dsimp only
    split
    · by_cases hvalidation : ctx.requireValidation = true
      · rw [if_pos hvalidation]
        exact logged_startProbes hlog
      · rw [if_neg hvalidation]
        split
        · exact logged_applySwitch hlog (eq_false_of_not_eq_true hvalidation) _
        · exact logged_startProbes hlog
    · exact logged_done rfl (h ▸ Finished.refused)
    · exact logged_done rfl (h ▸ Finished.refused)
    · exact logged_startProbes hlog
  · rw [if_neg hprobe]
    exact logged_idle hphase h

theorem finished_landTick {before after : F64} (h : s.log = [.probe before, .delivered outcomes]) :
    (landTick ctx s outcomes before after built).phase = .done ∧
      Finished ctx (landTick ctx s outcomes before after built).log := by
  unfold landTick
  dsimp only
  split
  · rename_i winner hwinner
    have hspec := winner_of_fastest hwinner
    cases built with
    | true =>
      refine ⟨rfl,?_⟩
      have hlanded : Finished ctx _ := .landed outcomes before after _ (.switched winner hspec)
      simpa [applySwitch, cacheSet, emit, h] using hlanded
    | false =>
      refine ⟨rfl,?_⟩
      have hlanded : Finished ctx _ := .landed outcomes before after _ (.failed winner hspec)
      simpa [applySwitch, cacheSet, emit, h] using hlanded
  · split_ifs with hmismatched
    · refine ⟨rfl,?_⟩
      have hlanded : Finished ctx _ := .landed outcomes before after _ (.mismatched hmismatched)
      simpa [cacheSet, emit, h] using hlanded
    · refine ⟨rfl,?_⟩
      have hlanded : Finished ctx _ := .landed outcomes before after _
        (.noAdvantage (eq_false_of_not_eq_true hmismatched))
      simpa [cacheSet, emit, h] using hlanded

theorem logged_onRampTick (h : Logged ctx s) :
    Logged ctx (onRampTick ctx quotient s obs runtime built) := by
  unfold onRampTick
  split
  · exact h
  · rename_i hphase
    have hlog : s.log = [] := by simpa [Logged, hphase] using h
    exact logged_idleTick hphase hlog
  · exact h
  · rename_i outcomes before hphase
    have hlog : s.log = [.probe before, .delivered outcomes] := by
      simpa [Logged, hphase] using h
    obtain ⟨hdone,hfinished⟩ :=
      @finished_landTick _ _ ctx _ built _ (perConn quotient obs) hlog
    exact logged_done hdone hfinished

theorem logged_step {label : Label Config} (h : Logged ctx s)
    (hstep : step ctx quotient s label = some t) : Logged ctx t := by
  cases label with
  | tick obs runtime built =>
    cases hstep
    exact logged_onRampTick h
  | probed outcomes =>
    simp only [step] at hstep
    split at hstep
    · rename_i baseline hphase
      have hlog : s.log = [.probe baseline] := by simpa [Logged, hphase] using h
      cases hstep
      show s.log ++ [.delivered outcomes] = _
      rw [hlog]
      rfl
    · cases hstep
  | siblings cache =>
    cases hstep
    exact h
  | clock now =>
    cases hstep
    exact h

end Ticks

/-! ## The log is that of a one-shot machine -/

section Logs

variable {ctx : AutoProxyCtx Config} {quotient : F64 → ℕ → F64} {s t : State Config}
variable {before after : F64}

theorem oneShot_landed {tail : List (Effect Config)} (h : Verdict outcomes before after tail) :
    OneShot ctx ([.probe before, .delivered outcomes, .compared after] ++ tail) := by
  cases h with
  | switched winner h =>
    have hmismatched := h.not_allMismatched
    constructor
    · simp [countP_cons, isProbe]
    · simp [countP_cons, isSwitch]
    · intro candidate hcandidate _
      have hwinner : candidate = winner.candidate := by simpa using hcandidate
      exact ⟨before,outcomes,after,winner,by simp,by simp,by simp,h,hwinner.symm⟩
    · intro delivered hdelivered hall
      have houtcomes : delivered = outcomes := by simpa using hdelivered
      rw [houtcomes, hmismatched] at hall
      cases hall
  | failed winner h =>
    have hmismatched := h.not_allMismatched
    constructor
    · simp [countP_cons, isProbe]
    · simp [isSwitch]
    · simp
    · intro delivered hdelivered hall
      have houtcomes : delivered = outcomes := by simpa using hdelivered
      rw [houtcomes, hmismatched] at hall
      cases hall
  | mismatched h =>
    constructor
    · simp [countP_cons, isProbe]
    · simp [isSwitch]
    · simp
    · simp
  | noAdvantage h =>
    constructor
    · simp [countP_cons, isProbe]
    · simp [isSwitch]
    · simp
    · intro delivered hdelivered hall
      have houtcomes : delivered = outcomes := by simpa using hdelivered
      rw [houtcomes, h] at hall
      cases hall

theorem oneShot_finished {log : List (Effect Config)} (h : Finished ctx log) : OneShot ctx log := by
  cases h with
  | refused =>
    constructor
    all_goals simp
  | cached candidate h =>
    constructor
    · simp [isProbe]
    · simp [countP_cons, isSwitch]
    · simp [h]
    · simp
  | cachedFailed candidate =>
    constructor
    · simp [isProbe]
    · simp [isSwitch]
    · simp
    · simp
  | landed outcomes before after tail h => exact oneShot_landed h

theorem Logged.oneShot (h : Logged ctx s) : OneShot ctx s.log := by
  rw [Logged] at h
  split at h
  · rw [h]
    constructor
    all_goals simp
  · rw [h]
    constructor
    · simp [countP_cons, isProbe]
    · simp [isSwitch]
    · simp
    · simp
  · rw [h]
    constructor
    · simp [countP_cons, isProbe]
    · simp [isSwitch]
    · simp
    · simp
  · exact oneShot_finished h

/-! ## The way of the phases -/

theorem phase_landTick {built : Bool} :
    (landTick ctx s outcomes before after built).phase = .done := by
  unfold landTick
  dsimp only
  split
  · cases built
    · rfl
    · rfl
  · split_ifs
    · rfl
    · rfl

theorem phase_step {label : Label Config} (h : s.phase ≠ .idle)
    (hstep : step ctx quotient s label = some t) : t.phase ≠ .idle := by
  cases label with
  | tick obs runtime built =>
    cases hstep
    unfold onRampTick
    split
    · exact h
    · contradiction
    · exact h
    · rw [phase_landTick]
      simp
  | probed outcomes =>
    simp only [step] at hstep
    split at hstep
    · cases hstep
      simp
    · cases hstep
  | siblings cache =>
    cases hstep
    exact h
  | clock now =>
    cases hstep
    exact h

/-- What the tick leaves in the cache when no candidate serves the same file. -/
theorem landTick_mismatched {built : Bool} (h : allMismatched outcomes = true) :
    (landTick ctx s outcomes before after built).cache.lookup ctx.host =
      some (.noSwitch, s.clock + NO_SWITCH_TTL) := by
  unfold landTick
  dsimp only
  split
  · rename_i winner hwinner
    rw [(winner_of_fastest hwinner).not_allMismatched] at h
    cases h
  · rw [if_pos h]
    exact (lookup_insert ctx.host _ _ ctx.host).trans (if_pos rfl)

end Logs

/-! ## Every run -/

/-- In every run there is at most one round of probes and at most one switch, the machine never
comes back to its start, a switch after a probe goes to a fastest candidate that passed both
tests, a task that needs the validation makes no other switch, and results without one that
matched lead to no switch and to the decision never to switch for the host. -/
theorem switch_one_shot (ctx : AutoProxyCtx Config) (quotient : F64 → ℕ → F64)
    (cache : DecisionCache) (clock : ℕ) (labels : List (Label Config)) (s : State Config)
    (hrun : exec (step ctx quotient) (start cache clock) labels = some s) :
    OneShot ctx s.log ∧
      (s.phase ≠ .idle → ∀ more t, exec (step ctx quotient) s more = some t → t.phase ≠ .idle) ∧
      ∀ outcomes before obs runtime built, s.phase = .probing (some outcomes) before →
        allMismatched outcomes = true →
          .delivered outcomes ∈ s.log ∧
            (onRampTick ctx quotient s obs runtime built).cache.lookup ctx.host =
              some (.noSwitch, s.clock + NO_SWITCH_TTL) := by
  have hlogged : Logged ctx s :=
    exec_invariant (fun _ _ _ h hstep => logged_step h hstep) (logged_idle rfl rfl) hrun
  refine ⟨hlogged.oneShot,?_,?_⟩
  · intro hphase more t hmore
    exact @exec_invariant _ _ _ (fun s => s.phase ≠ .idle)
      (fun _ _ _ h hstep => phase_step h hstep) _ _ _ hphase hmore
  · intro outcomes before obs runtime built hphase hmismatched
    have hlog : s.log = [.probe before, .delivered outcomes] := by
      simpa [Logged, hphase] using hlogged
    refine ⟨by simp [hlog],?_⟩
    rw [onRampTick, hphase]
    exact landTick_mismatched hmismatched

def quickContext : AutoProxyCtx Bool :=
  ⟨[⟨false,.system⟩, ⟨true,.manualFields⟩],"host.example",true,true⟩

def one : F64 := ⟨false,1023 * 2 ^ 52,by decide⟩

def quickOutcomes : List (CandidateProbeOutcome Bool) :=
  [⟨⟨false,.system⟩,one,true⟩, ⟨⟨true,.manualFields⟩,one.double,true⟩]

def quickTick : Label Bool := .tick ⟨one,1,2 ^ 23,false,false⟩ 4000 true

def quickLabels : List (Label Bool) :=
  [quickTick, quickTick, .probed quickOutcomes, quickTick, quickTick]

theorem quick_switched :
    ∃ s, exec (step quickContext fun bps _ => bps) (start [] 0) quickLabels = some s ∧
      .switchToClient ⟨true,.manualFields⟩ ∈ s.log ∧ OneShot quickContext s.log :=
  ⟨_,rfl,by decide +kernel,(switch_one_shot quickContext _ [] 0 quickLabels _ rfl).1⟩

end RinaDown.AutoSwitch
