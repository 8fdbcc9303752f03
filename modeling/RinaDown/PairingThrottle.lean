import RinaDown.PairingDecision
import RinaDown.RecentEvents

/-!
# The throttle of a pairing

A wrong code is recorded for its source, and a source with many recent failures is refused, as
is everyone when there are many failures in all. When one hello is handled after the other,
the table of failures agrees with the log of all failures, so that no window holds more failed
checks than allowed, and no source is refused for the failures of others alone.
-/

namespace RinaDown.PairingThrottle

open LabelledExecutions LengthFraming LinkCrypto PairingResponder RecentEvents List

universe u

variable {Secret Signing Signature : Type u}

/-- A hello with a wrong code: its source, and when. -/
structure Failure where
  source : Option String
  time : ℕ
deriving DecidableEq

/-- The failed checks of the codes, and the failures that have been recorded. -/
structure Watched (Secret Signing Signature : Type u) where
  responder : Responder Secret Signing Signature
  checks : List Failure
  recorded : List Failure

/-- A check of the codes that no code passes. -/
def failedChecks (m : Responder Secret Signing Signature) : Label Secret Signature → List Failure
  | .takeCode i =>
    match m.hellos[i]? with
    | some (.unthrottled request source) =>
      if (m.pruneCodes.codes.find? (fun c => c.code = request.fields.code)).isNone then
        [⟨source,m.clock⟩]
      else []
    | _ => []
  | _ => []

def newRecords (m : Responder Secret Signing Signature) : Label Secret Signature → List Failure
  | .recordFailedHello i =>
    match m.hellos[i]? with
    | some (.failed source) => [⟨source,m.clock⟩]
    | _ => []
  | _ => []

def stepWatched (P : Primitives Secret Signing Signature) (w : Watched Secret Signing Signature)
    (label : Label Secret Signature) : Option (Watched Secret Signing Signature) :=
  (step P w.responder label).map fun n =>
    ⟨n,w.checks ++ failedChecks w.responder label,w.recorded ++ newRecords w.responder label⟩

/-- A hello comes when no other is under way, and the text of an address is not the key of the
unknown ones. -/
def OneAtATime (w : Watched Secret Signing Signature) : Label Secret Signature → Prop
  | .hello _ source => w.responder.hellos = [] ∧ source ≠ some unknownSourceKey
  | _ => True

instance (w : Watched Secret Signing Signature) (label : Label Secret Signature) :
    Decidable (OneAtATime w label) :=
  match label with
  | .hello _ source =>
    decidable_of_iff (w.responder.hellos.isEmpty = true ∧ source ≠ some unknownSourceKey)
      (and_congr_left' List.isEmpty_iff)
  | .tick _ | .generateCode _ _ | .checkThrottle _ | .takeCode _ | .recordFailedHello _
  | .openSession _ _ | .setLocalDecision _ _ | .notifyWaiters | .confirm _ | .decline _
  | .stepConfirm _ | .pruneCodes | .pruneSessions | .pruneFailures => isTrue trivial

/-- The failures as the table knows them. -/
def logOf (recorded : List Failure) : List (String × ℕ) :=
  recorded.map fun f => (Responder.failureBucketKey f.source, f.time)

/-- How many failures are recent, and how many of them are of one source. -/
def recentFailures (now : ℕ) (recorded : List Failure) : ℕ :=
  recorded.countP fun f => now - f.time < failedHelloWindow

def recentFailuresOf (now : ℕ) (recorded : List Failure) (source : Option String) : ℕ :=
  recorded.countP fun f => f.source = source ∧ now - f.time < failedHelloWindow

def HasRoom (now : ℕ) (recorded : List Failure) (source : Option String) : Prop :=
  recentFailures now recorded < maxFailedHellosGlobal ∧
    recentFailuresOf now recorded source < maxFailedHellos

def CallOk (now : ℕ) (recorded : List Failure) : HelloCall Secret Signature → Prop
  | .entered _ source => source ≠ some unknownSourceKey
  | .unthrottled _ source => source ≠ some unknownSourceKey ∧ HasRoom now recorded source
  | .failed source => source ≠ some unknownSourceKey ∧ HasRoom now recorded source
  | .opened _ _ _ => True

/-- The source of a failure that has not been recorded yet. -/
def failedSource : HelloCall Secret Signature → Option (Option String)
  | .failed source => some source
  | _ => none

/-- The failed checks are recorded in their order, but the last one may not be yet. -/
structure Matched (w : Watched Secret Signing Signature) (done pending : List Failure) : Prop where
  checks : w.checks = done ++ pending
  recorded : List.Forall₂ (fun c f => c.source = f.source ∧ c.time ≤ f.time) done w.recorded
  pending : pending.map Failure.source = w.responder.hellos.filterMap failedSource
  past : ∀ c ∈ w.checks, c.time ≤ w.responder.clock

structure Inv (w : Watched Secret Signing Signature) : Prop where
  single : w.responder.hellos.length ≤ 1
  calls : ∀ call ∈ w.responder.hellos, CallOk w.responder.clock w.recorded call
  agrees : Agrees failedHelloWindow w.responder.clock w.responder.failures (logOf w.recorded)
  bounded : total w.responder.failures ≤ maxFailedHellosGlobal
  sources : ∀ f ∈ w.recorded, f.source ≠ some unknownSourceKey
  matched : ∃ done pending, Matched w done pending
  perSource : ∀ source a b, b < a + failedHelloWindow →
    w.checks.countP (fun c => c.source = source ∧ a ≤ c.time ∧ c.time ≤ b) ≤ maxFailedHellos
  overall : ∀ a b, b < a + failedHelloWindow →
    w.checks.countP (fun c => a ≤ c.time ∧ c.time ≤ b) ≤ maxFailedHellosGlobal

variable {m n : Responder Secret Signing Signature} {w : Watched Secret Signing Signature}
  {recorded : List Failure} {source : Option String} {now now' : ℕ}

/-! ## Counts -/

theorem failureBucketKey_inj {source source' : Option String} (h : source ≠ some unknownSourceKey)
    (h' : source' ≠ some unknownSourceKey) :
    Responder.failureBucketKey source = Responder.failureBucketKey source' ↔ source = source' := by
  constructor
  · intro heq
    cases source with
    | none =>
      cases source' with
      | none => rfl
      | some key => exact absurd (congrArg some heq.symm) h'
    | some key =>
      cases source' with
      | none => exact absurd (congrArg some heq) h
      | some key' => exact congrArg some heq
  · rintro rfl
    rfl

theorem recentFailures_eq : recentFailures now recorded =
    (recent failedHelloWindow now ((logOf recorded).map Prod.snd)).length := by
  rw [recentFailures, recent, logOf, map_map, ← countP_eq_length_filter, countP_map]
  rfl

theorem recentFailuresOf_eq (h : ∀ f ∈ recorded, f.source ≠ some unknownSourceKey)
    (hsource : source ≠ some unknownSourceKey) : recentFailuresOf now recorded source =
      (recent failedHelloWindow now
        (timesOf (logOf recorded) (Responder.failureBucketKey source))).length := by
  rw [recentFailuresOf, recent, timesOf, logOf, ← countP_eq_length_filter, countP_map,
    countP_filter, countP_map]
  refine countP_congr fun f hf => ?_
  simp only [Function.comp_apply, Bool.and_eq_true, decide_eq_true_eq,
    failureBucketKey_inj (h f hf) hsource]
  exact and_comm

theorem HasRoom.later (h : HasRoom now recorded source) (hle : now ≤ now') :
    HasRoom now' recorded source := by
  refine ⟨Nat.lt_of_le_of_lt (countP_mono_left fun f _ hf => ?_) h.1,
    Nat.lt_of_le_of_lt (countP_mono_left fun f _ hf => ?_) h.2⟩
  · rw [decide_eq_true_eq] at hf ⊢
    omega
  · rw [decide_eq_true_eq] at hf ⊢
    exact ⟨hf.1,by omega⟩

theorem CallOk.later {call : HelloCall Secret Signature} (h : CallOk now recorded call)
    (hle : now ≤ now') : CallOk now' recorded call := by
  cases call with
  | entered request source => exact h
  | unthrottled request source => exact ⟨h.1,h.2.later hle⟩
  | failed source => exact ⟨h.1,h.2.later hle⟩
  | opened request secret serial => exact h
/-! ## The throttle -/

section
variable (hagrees : Agrees failedHelloWindow m.clock m.failures (logOf recorded))
include hagrees

theorem total_prune_eq :
    total (prune failedHelloWindow m.clock m.failures) = recentFailures m.clock recorded := by
  rw [recentFailures_eq, hagrees.total _ (le_refl _)]

variable (hsources : ∀ f ∈ recorded, f.source ≠ some unknownSourceKey)
  (hsource : source ≠ some unknownSourceKey)
include hsources hsource

theorem times_prune_eq : (times (prune failedHelloWindow m.clock m.failures)
    (Responder.failureBucketKey source)).length = recentFailuresOf m.clock recorded source := by
  rw [recentFailuresOf_eq hsources hsource, times_prune hagrees.nodup,
    hagrees.times _ (le_refl _)]

theorem isThrottled_iff : m.isThrottled source = true ↔
    maxFailedHellosGlobal ≤ recentFailures m.clock recorded ∨
      maxFailedHellos ≤ recentFailuresOf m.clock recorded source := by
  have hbucket : ((bucket (prune failedHelloWindow m.clock m.failures)
      (Responder.failureBucketKey source)).any fun l => l.length ≥ maxFailedHellos) = true ↔
        maxFailedHellos ≤ recentFailuresOf m.clock recorded source := by
    rw [← times_prune_eq hagrees hsources hsource, times]
    cases bucket (prune failedHelloWindow m.clock m.failures)
      (Responder.failureBucketKey source) with
    | none => exact iff_of_false Bool.false_ne_true (by decide)
    | some l => exact decide_eq_true_iff
  rw [← hbucket, ← total_prune_eq hagrees]
  exact decide_eq_true_iff

theorem hasRoom_of_not_throttled (hfree : ¬m.isThrottled source = true) :
    HasRoom m.clock recorded source := by
  rw [isThrottled_iff hagrees hsources hsource, not_or, not_le, not_le] at hfree
  exact hfree

/-- With room for it, a failure is added to the bucket of its source. -/
theorem failures_recordFailedHello (hroom : HasRoom m.clock recorded source) :
    (m.recordFailedHello source).failures = add (Responder.failureBucketKey source) m.clock
      (prune failedHelloWindow m.clock m.failures) := by
  have hpruned := hagrees.prune
  have hfew : (prune failedHelloWindow m.clock m.failures).length < maxFailureBuckets := by
    have hle := length_le_total hpruned.nonempty
    rw [total_prune_eq hagrees] at hle
    exact Nat.lt_trans (Nat.lt_of_le_of_lt hle hroom.1) (by decide)
  have hown : m.recordFailedHello source =
      m.pruneFailures.updateBucket (Responder.failureBucketKey source) fun l =>
        (if l.length ≥ maxFailedHelloRecords then l.tail else l) ++ [m.clock] := by
    rw [Responder.recordFailedHello]
    exact congrArg (fun key => m.pruneFailures.updateBucket key _) (if_pos (Or.inr hfew))
  have hbucket : m.pruneFailures.bucketOf (Responder.failureBucketKey source) =
      bucket (prune failedHelloWindow m.clock m.failures)
        (Responder.failureBucketKey source) := rfl
  rw [hown, Responder.updateBucket, add, hbucket]
  by_cases hsome : (bucket (prune failedHelloWindow m.clock m.failures)
    (Responder.failureBucketKey source)).isSome = true
  · rw [if_pos hsome, if_pos hsome]
    refine map_congr_left fun b hb => if_ctx_congr Iff.rfl (fun hkey => ?_) fun _ => rfl
    have hshort : b.2.length < maxFailedHellos := by
      rw [← times_of_mem hpruned.nodup hb, hkey, times_prune_eq hagrees hsources hsource]
      exact hroom.2
    have hsmall : maxFailedHellos ≤ maxFailedHelloRecords := by decide
    rw [if_neg (by omega)]
  · rw [if_neg hsome, if_neg hsome]
    rfl

end

/-! ## Steps -/

theorem eq_singleton_of_getElem? {α : Type*} {l : List α} {i : ℕ} {x : α} (h : l.length ≤ 1)
    (hx : l[i]? = some x) : l = [x] ∧ l.eraseIdx i = [] := by
  obtain ⟨hi,rfl⟩ := List.getElem?_eq_some_iff.mp hx
  obtain ⟨y,rfl⟩ := length_eq_one_iff.mp (by omega : l.length = 1)
  rw [length_singleton] at hi
  obtain rfl : i = 0 := by omega
  exact ⟨rfl,rfl⟩

theorem frame_recordFailedHello (m : Responder Secret Signing Signature)
    (source : Option String) : (m.recordFailedHello source).clock = m.clock ∧
      (m.recordFailedHello source).hellos = m.hellos := by
  rw [Responder.recordFailedHello, Responder.updateBucket]
  split_ifs <;> exact ⟨rfl,rfl⟩

/-- Nothing that the throttle depends on has changed. -/
structure SameThrottle (m n : Responder Secret Signing Signature) : Prop where
  clock : n.clock = m.clock
  hellos : n.hellos = m.hellos
  failures : n.failures = m.failures

theorem sameThrottle_setLocalDecision (m : Responder Secret Signing Signature)
    (sessionId : String) (accept : Bool) :
    SameThrottle m (m.setLocalDecision sessionId accept) := by
  rw [Responder.setLocalDecision]
  split <;> exact ⟨rfl,rfl,rfl⟩

theorem sameThrottle_declineSession (m : Responder Secret Signing Signature)
    (sessionId : String) : SameThrottle m (m.declineSession sessionId) := by
  rw [Responder.declineSession]
  split <;> exact ⟨rfl,rfl,rfl⟩

theorem sameThrottle_openSession (P : Primitives Secret Signing Signature)
    (m : Responder Secret Signing Signature) (request : HelloRequest Signature) (secret : Secret)
    (serial : ℕ) (sessionId : String) :
    SameThrottle m (m.openSession P request secret serial sessionId) := by
  rw [Responder.openSession]
  split_ifs <;> exact ⟨rfl,rfl,rfl⟩

theorem sameThrottle_stepConfirm {P : Primitives Secret Signing Signature} {call : ConfirmCall}
    (h : m.stepConfirm P call = some n) : SameThrottle m n := by
  cases call with
  | entered sessionId =>
    cases h
    split <;> exact ⟨rfl,rfl,rfl⟩
  | deadlineKnown sessionId deadline | looping sessionId deadline
  | undecided sessionId deadline notified | removing sessionId => cases h; exact ⟨rfl,rfl,rfl⟩
  | reading sessionId deadline notified =>
    cases h
    split <;> exact ⟨rfl,rfl,rfl⟩
  | waiting sessionId deadline notified =>
    simp only [Responder.stepConfirm] at h
    split_ifs at h <;> cases h <;> exact ⟨rfl,rfl,rfl⟩
  | decided sessionId decision =>
    cases h
    split
    · exact ⟨rfl,rfl,rfl⟩
    · split_ifs <;> exact ⟨rfl,rfl,rfl⟩

namespace Inv

theorem of_hellos (h : Inv w) (hclock : n.clock = w.responder.clock)
    (hagrees : Agrees failedHelloWindow w.responder.clock n.failures (logOf w.recorded))
    (hbounded : total n.failures ≤ maxFailedHellosGlobal) (hsingle : n.hellos.length ≤ 1)
    (hcalls : ∀ call ∈ n.hellos, CallOk w.responder.clock w.recorded call)
    (hpending : n.hellos.filterMap failedSource = w.responder.hellos.filterMap failedSource) :
    Inv ⟨n,w.checks,w.recorded⟩ where
  single := hsingle
  calls := hclock ▸ hcalls
  agrees := hclock ▸ hagrees
  bounded := hbounded
  sources := h.sources
  matched := by
    obtain ⟨done,pending,hmatched⟩ := h.matched
    exact ⟨done,pending,hmatched.checks,hmatched.recorded,hmatched.pending.trans hpending.symm,
      fun c hc => hclock ▸ hmatched.past c hc⟩
  perSource := h.perSource
  overall := h.overall

theorem same (h : Inv w) (hn : SameThrottle w.responder n) : Inv ⟨n,w.checks,w.recorded⟩ :=
  h.of_hellos hn.clock (hn.failures ▸ h.agrees) (hn.failures ▸ h.bounded) (hn.hellos ▸ h.single)
    (hn.hellos ▸ h.calls) (by rw [hn.hellos])

theorem tick (h : Inv w) (d : ℕ) : Inv ⟨{ w.responder with clock := w.responder.clock + d },
    w.checks,w.recorded⟩ where
  single := h.single
  calls call hcall := (h.calls call hcall).later (Nat.le_add_right _ d)
  agrees := h.agrees.later (Nat.le_add_right _ d)
  bounded := h.bounded
  sources := h.sources
  matched := by
    obtain ⟨done,pending,hmatched⟩ := h.matched
    exact ⟨done,pending,hmatched.checks,hmatched.recorded,hmatched.pending,
      fun c hc => Nat.le_add_right_of_le (hmatched.past c hc)⟩
  perSource := h.perSource
  overall := h.overall

theorem pruneFailures (h : Inv w) : Inv ⟨w.responder.pruneFailures,w.checks,w.recorded⟩ :=
  h.of_hellos rfl h.agrees.prune (Nat.le_trans total_prune_le h.bounded) h.single h.calls rfl

theorem hello (h : Inv w) (hnone : w.responder.hellos = []) (request : HelloRequest Signature)
    (hsource : source ≠ some unknownSourceKey) :
    Inv ⟨w.responder.addHello (.entered request source),w.checks,w.recorded⟩ := by
  have hhellos : (w.responder.addHello (.entered request source)).hellos =
      [.entered request source] := by
    rw [Responder.addHello, hnone]
    rfl
  refine h.of_hellos rfl h.agrees h.bounded ?_ (fun call hcall => ?_) ?_
  · rw [hhellos, length_singleton]
  · rw [hhellos] at hcall
    obtain rfl := mem_singleton.mp hcall
    exact hsource
  · rw [hhellos, hnone]
    rfl

variable {i : ℕ} {request : HelloRequest Signature}

theorem checkThrottle (P : Primitives Secret Signing Signature) (h : Inv w)
    (hcall : w.responder.hellos[i]? = some (.entered request source)) :
    Inv ⟨{ w.responder with hellos := w.responder.hellos.eraseIdx i }.checkThrottle P request
      source,w.checks,w.recorded⟩ := by
  obtain ⟨hone,hnone⟩ := eq_singleton_of_getElem? h.single hcall
  have hsource : source ≠ some unknownSourceKey := h.calls _ (mem_of_getElem? hcall)
  have hpruned := h.pruneFailures
  rw [Responder.checkThrottle, hnone]
  split_ifs with hthrottled
  · exact h.of_hellos rfl hpruned.agrees hpruned.bounded (Nat.zero_le 1)
      (fun _ hmem => absurd hmem not_mem_nil) (by rw [hone]; rfl)
  · exact h.of_hellos rfl hpruned.agrees hpruned.bounded (Nat.zero_le 1)
      (fun _ hmem => absurd hmem not_mem_nil) (by rw [hone]; rfl)
  · refine h.of_hellos rfl hpruned.agrees hpruned.bounded (Nat.le_refl 1) (fun call hmem => ?_)
      (by rw [hone]; rfl)
    obtain rfl := mem_singleton.mp hmem
    exact ⟨hsource,hasRoom_of_not_throttled h.agrees h.sources hsource hthrottled⟩

/-- The checks that are not past a window are among the recent failures. -/
theorem countP_checks_le {done : List Failure} (hmatched : Matched w done []) {a : ℕ}
    (hrecent : w.responder.clock < a + failedHelloWindow) (b : ℕ) :
    w.checks.countP (fun c => a ≤ c.time ∧ c.time ≤ b) ≤
        recentFailures w.responder.clock w.recorded ∧
      ∀ source, w.checks.countP (fun c => c.source = source ∧ a ≤ c.time ∧ c.time ≤ b) ≤
        recentFailuresOf w.responder.clock w.recorded source := by
  have hpos : 0 < failedHelloWindow := by decide
  rw [hmatched.checks, append_nil]
  refine ⟨countP_le_of_forall₂ hmatched.recorded fun c f hcf hc => ?_,
    fun source => countP_le_of_forall₂ hmatched.recorded fun c f hcf hc => ?_⟩
  · rw [decide_eq_true_eq] at hc ⊢
    omega
  · rw [decide_eq_true_eq] at hc ⊢
    exact ⟨hcf.1.symm.trans hc.1,by omega⟩

theorem failedCheck (h : Inv w)
    (hcall : w.responder.hellos[i]? = some (.unthrottled request source)) :
    Inv ⟨{ w.responder.pruneCodes with hellos := [.failed source] },
      w.checks ++ [⟨source,w.responder.clock⟩],w.recorded⟩ := by
  obtain ⟨hone,-⟩ := eq_singleton_of_getElem? h.single hcall
  obtain ⟨hsource,hroom⟩ := h.calls _ (mem_of_getElem? hcall)
  obtain ⟨done,pending,hmatched⟩ := h.matched
  obtain rfl : pending = [] := by
    have hpending := hmatched.pending
    rw [hone] at hpending
    exact map_eq_nil_iff.mp hpending
  refine ⟨Nat.le_refl 1,fun call hmem => ?_,h.agrees,h.bounded,h.sources,?_,
    fun source' a b hb => ?_,fun a b hb => ?_⟩
  · obtain rfl := mem_singleton.mp hmem
    exact ⟨hsource,hroom⟩
  · refine ⟨done,[⟨source,w.responder.clock⟩],?_,hmatched.recorded,rfl,fun c hc => ?_⟩
    · rw [hmatched.checks, append_nil]
    · obtain hc | hc := mem_append.mp hc
      · exact hmatched.past c hc
      · obtain rfl := mem_singleton.mp hc
        exact Nat.le_refl _
  · rw [countP_append, countP_singleton]
    split_ifs with hin
    · rw [decide_eq_true_eq] at hin
      have hle := (countP_checks_le hmatched (Nat.lt_of_le_of_lt hin.2.2 hb) b).2 source'
      obtain rfl : source = source' := hin.1
      have hlt := hroom.2
      omega
    · exact h.perSource source' a b hb
  · rw [countP_append, countP_singleton]
    split_ifs with hin
    · rw [decide_eq_true_eq] at hin
      have hle := (countP_checks_le hmatched (Nat.lt_of_le_of_lt hin.2 hb) b).1
      have hlt := hroom.1
      omega
    · exact h.overall a b hb

theorem recordFailedHello (h : Inv w) (hcall : w.responder.hellos[i]? = some (.failed source)) :
    Inv ⟨({ w.responder with hellos := w.responder.hellos.eraseIdx i }.recordFailedHello
      source).refuse .invalidCode,w.checks,
        w.recorded ++ [⟨source,w.responder.clock⟩]⟩ := by
  obtain ⟨hone,hnone⟩ := eq_singleton_of_getElem? h.single hcall
  obtain ⟨hsource,hroom⟩ := h.calls _ (mem_of_getElem? hcall)
  have hfailures := failures_recordFailedHello
    (m := { w.responder with hellos := [] }) h.agrees h.sources hsource hroom
  obtain ⟨hclock,hhellos⟩ := frame_recordFailedHello { w.responder with hellos := [] } source
  have hlog : logOf (w.recorded ++ [⟨source,w.responder.clock⟩]) =
      logOf w.recorded ++ [(Responder.failureBucketKey source, w.responder.clock)] :=
    map_append
  rw [hnone]
  refine ⟨?_,fun call hmem => ?_,?_,?_,fun f hf => ?_,?_,h.perSource,h.overall⟩
  · exact Nat.le_trans (Nat.le_of_eq (congrArg List.length hhellos)) (Nat.zero_le 1)
  · exact absurd (hhellos ▸ hmem) not_mem_nil
  · rw [hlog]
    change Agrees _ (Responder.recordFailedHello _ source).clock
      (Responder.recordFailedHello _ source).failures _
    rw [hclock, hfailures]
    exact h.agrees.prune.add _ _
  · change total (Responder.recordFailedHello _ source).failures ≤ _
    rw [hfailures, total_add h.agrees.prune.nodup]
    have hcount := total_prune_eq h.agrees
    have hlt := hroom.1
    change total (prune failedHelloWindow w.responder.clock w.responder.failures) + 1 ≤ _
    omega
  · obtain hf | hf := mem_append.mp hf
    · exact h.sources f hf
    · obtain rfl := mem_singleton.mp hf
      exact hsource
  · obtain ⟨done,pending,hmatched⟩ := h.matched
    obtain ⟨c,rfl,hc⟩ : ∃ c, pending = [c] ∧ c.source = source := by
      have hpending := hmatched.pending
      rw [hone] at hpending
      obtain ⟨c,rfl⟩ := length_eq_one_iff.mp
        ((length_map _).symm.trans (congrArg List.length hpending))
      exact ⟨c,rfl,(cons.inj hpending).1⟩
    have hpast : ∀ c ∈ w.checks, c.time ≤ w.responder.clock := hmatched.past
    refine ⟨w.checks,[],(append_nil _).symm,?_,?_,fun c' hc' => ?_⟩
    · rw [hmatched.checks]
      refine rel_append hmatched.recorded (.cons ⟨hc,hpast c ?_⟩ .nil)
      rw [hmatched.checks]
      exact mem_append_right _ mem_cons_self
    · change [] = (Responder.recordFailedHello _ source).hellos.filterMap failedSource
      rw [hhellos]
      rfl
    · change c'.time ≤ (Responder.recordFailedHello _ source).clock
      rw [hclock]
      exact hpast c' hc'

theorem takeCode (h : Inv w) (hcall : w.responder.hellos[i]? = some (.unthrottled request source)) :
    Inv ⟨{ w.responder with hellos := w.responder.hellos.eraseIdx i }.takeCode request source,
      w.checks ++ failedChecks w.responder (.takeCode i),w.recorded⟩ := by
  obtain ⟨hone,hnone⟩ := eq_singleton_of_getElem? h.single hcall
  have hfails : failedChecks w.responder (.takeCode i) =
      if (w.responder.pruneCodes.codes.find?
        (fun c => c.code = request.fields.code)).isNone then [⟨source,w.responder.clock⟩]
      else [] := by
    simp only [failedChecks, hcall]
  rw [hfails, hnone, Responder.takeCode]
  have hcodes : ({ w.responder with hellos := [] } :
      Responder Secret Signing Signature).pruneCodes.codes = w.responder.pruneCodes.codes := rfl
  rw [hcodes]
  cases w.responder.pruneCodes.codes.find? (fun c => c.code = request.fields.code) with
  | none => exact h.failedCheck hcall
  | some c =>
    rw [Option.isNone_some, if_neg Bool.false_ne_true, append_nil]
    refine h.of_hellos rfl h.agrees h.bounded (Nat.le_refl 1) (fun call hmem => ?_) ?_
    · obtain rfl := mem_singleton.mp hmem
      trivial
    · rw [hone]
      rfl

theorem openSession (P : Primitives Secret Signing Signature) (h : Inv w) {secret : Secret}
    {serial : ℕ} (hcall : w.responder.hellos[i]? = some (.opened request secret serial))
    (sessionId : String) :
    Inv ⟨{ w.responder with hellos := w.responder.hellos.eraseIdx i }.openSession P request secret
      serial sessionId,w.checks,w.recorded⟩ := by
  obtain ⟨hone,hnone⟩ := eq_singleton_of_getElem? h.single hcall
  rw [hnone]
  have hdropped : Inv ⟨{ w.responder with hellos := [] },w.checks,w.recorded⟩ :=
    h.of_hellos rfl h.agrees h.bounded (Nat.zero_le 1)
      (fun _ hmem => absurd hmem not_mem_nil) (by rw [hone]; rfl)
  exact hdropped.same (sameThrottle_openSession P _ request secret serial sessionId)

theorem quiet {P : Primitives Secret Signing Signature} {label : Label Secret Signature}
    {w' : Watched Secret Signing Signature} (hstep : stepWatched P w label = some w')
    (hchecks : failedChecks w.responder label = []) (hrecords : newRecords w.responder label = [])
    (hinv : ∀ n, step P w.responder label = some n → Inv ⟨n,w.checks,w.recorded⟩) : Inv w' := by
  obtain ⟨n,hn,rfl⟩ := Option.map_eq_some_iff.mp hstep
  rw [hchecks, hrecords, append_nil, append_nil]
  exact hinv n hn

theorem step {P : Primitives Secret Signing Signature} {label : Label Secret Signature}
    {w' : Watched Secret Signing Signature} (h : Inv w) (hone : OneAtATime w label)
    (hstep : stepWatched P w label = some w') : Inv w' := by
  cases label with
  | tick d =>
    refine quiet hstep rfl rfl fun n hn => ?_
    cases hn
    exact h.tick d
  | generateCode code secret | confirm sessionId | pruneCodes | pruneSessions =>
    refine quiet hstep rfl rfl fun n hn => ?_
    cases hn
    exact h.same ⟨rfl,rfl,rfl⟩
  | hello request source =>
    refine quiet hstep rfl rfl fun n hn => ?_
    cases hn
    exact h.hello hone.1 request hone.2
  | checkThrottle i =>
    refine quiet hstep rfl rfl fun n hn => ?_
    simp only [PairingResponder.step] at hn
    split at hn
    · next hcall =>
      cases hn
      exact h.checkThrottle P hcall
    · cases hn
  | takeCode i =>
    obtain ⟨n,hn,rfl⟩ := Option.map_eq_some_iff.mp hstep
    simp only [PairingResponder.step] at hn
    split at hn
    · next hcall =>
      cases hn
      have htaken := h.takeCode hcall
      rwa [← append_nil w.recorded] at htaken
    · cases hn
  | recordFailedHello i =>
    obtain ⟨n,hn,rfl⟩ := Option.map_eq_some_iff.mp hstep
    simp only [PairingResponder.step] at hn
    split at hn
    · next source hcall =>
      cases hn
      have hnew : newRecords w.responder (.recordFailedHello i : Label Secret Signature) =
          [⟨source,w.responder.clock⟩] := by
        simp only [newRecords, hcall]
      have hrecorded := h.recordFailedHello hcall
      rw [hnew]
      rwa [← append_nil w.checks] at hrecorded
    · cases hn
  | openSession i sessionId =>
    refine quiet hstep rfl rfl fun n hn => ?_
    simp only [PairingResponder.step] at hn
    split at hn
    · next hcall =>
      split_ifs at hn
      cases hn
      exact h.openSession P hcall sessionId
    · cases hn
  | setLocalDecision sessionId accept =>
    refine quiet hstep rfl rfl fun n hn => ?_
    cases hn
    exact h.same (sameThrottle_setLocalDecision _ sessionId accept)
  | notifyWaiters =>
    refine quiet hstep rfl rfl fun n hn => ?_
    simp only [PairingResponder.step] at hn
    split_ifs at hn
    cases hn
    exact h.same ⟨rfl,rfl,rfl⟩
  | decline sessionId =>
    refine quiet hstep rfl rfl fun n hn => ?_
    cases hn
    exact h.same (sameThrottle_declineSession _ sessionId)
  | stepConfirm i =>
    refine quiet hstep rfl rfl fun n hn => ?_
    simp only [PairingResponder.step] at hn
    split at hn
    · obtain ⟨hclock,hhellos,hfailures⟩ := sameThrottle_stepConfirm hn
      exact h.same ⟨hclock,hhellos,hfailures⟩
    · cases hn
  | pruneFailures =>
    refine quiet hstep rfl rfl fun n hn => ?_
    cases hn
    exact h.pruneFailures

end Inv
/-! ## Runs -/

/-- What the throttle guarantees. -/
structure Sound (P : Primitives Secret Signing Signature) (w : Watched Secret Signing Signature) :
    Prop where
  perSource : ∀ source a b, b < a + failedHelloWindow →
    w.checks.countP (fun c => c.source = source ∧ a ≤ c.time ∧ c.time ≤ b) ≤ maxFailedHellos
  overall : ∀ a b, b < a + failedHelloWindow →
    w.checks.countP (fun c => a ≤ c.time ∧ c.time ≤ b) ≤ maxFailedHellosGlobal
  bounded : w.responder.failures.length ≤ maxFailedHellosGlobal ∧
    total w.responder.failures ≤ maxFailedHellosGlobal
  -- a hello that is refused drops only failures that no later throttle counts
  refusal : ∀ i request source, w.responder.hellos[i]? = some (.entered request source) →
    w.responder.isThrottled source = true →
      ∃ failures, PairingResponder.step P w.responder (.checkThrottle i) =
          some { w.responder with
            hellos := w.responder.hellos.eraseIdx i
            failures := failures
            errors := .throttled :: w.responder.errors } ∧
        ∀ now, w.responder.clock ≤ now → prune failedHelloWindow now failures =
          prune failedHelloWindow now w.responder.failures
  throttled : ∀ source, source ≠ some unknownSourceKey →
    (w.responder.isThrottled source = true ↔
      maxFailedHellosGlobal ≤ recentFailures w.responder.clock w.recorded ∨
        maxFailedHellos ≤ recentFailuresOf w.responder.clock w.recorded source)
  spared : ∀ source, source ≠ some unknownSourceKey →
    recentFailuresOf w.responder.clock w.recorded source = 0 →
      w.responder.isThrottled source = true →
        maxFailedHellosGlobal ≤ recentFailures w.responder.clock w.recorded

theorem Inv.initial (hinit : Initial m) (hempty : m.failures = []) : Inv ⟨m,[],[]⟩ where
  single := by
    rw [hinit.hellos]
    exact Nat.zero_le 1
  calls call hcall := absurd (hinit.hellos ▸ hcall) not_mem_nil
  agrees := by
    rw [hempty]
    exact Agrees.nil failedHelloWindow m.clock
  bounded := by
    rw [hempty]
    exact Nat.zero_le _
  sources f hf := absurd hf not_mem_nil
  matched := by
    refine ⟨[],[],rfl,.nil,?_,fun c hc => absurd hc not_mem_nil⟩
    rw [hinit.hellos]
    rfl
  perSource _ _ _ _ := Nat.zero_le _
  overall _ _ _ := Nat.zero_le _

theorem Inv.sound (P : Primitives Secret Signing Signature) (h : Inv w) : Sound P w where
  perSource := h.perSource
  overall := h.overall
  bounded := ⟨Nat.le_trans (length_le_total h.agrees.nonempty) h.bounded,h.bounded⟩
  refusal i request source hcall hthrottled := by
    refine ⟨prune failedHelloWindow w.responder.clock w.responder.failures,?_,
      fun now hle => prune_prune hle⟩
    simp only [PairingResponder.step, hcall, Responder.checkThrottle]
    exact congrArg some (if_pos hthrottled)
  throttled source hsource := isThrottled_iff h.agrees h.sources hsource
  spared source hsource hnone hthrottled := by
    obtain hglobal | hown := (isThrottled_iff h.agrees h.sources hsource).mp hthrottled
    · exact hglobal
    · rw [hnone] at hown
      exact absurd hown (by decide)

/-- The throttle in every run that handles one hello after the other. -/
theorem throttle_sound (P : Primitives Secret Signing Signature) {labels : List (Label Secret
    Signature)} (hinit : Initial m) (hempty : m.failures = [])
    (hone : Meets (stepWatched P) OneAtATime ⟨m,[],[]⟩ labels)
    (hrun : exec (stepWatched P) ⟨m,[],[]⟩ labels = some w) : Sound P w :=
  (exec_invariant_of_meets (fun _ _ _ h hone hstep => Inv.step h hone hstep)
    (Inv.initial hinit hempty) hone hrun).sound P

def wrongCode (source : Option String) : List (Label Key (Key × Bytes)) :=
  [.hello phoneHello source, .checkThrottle 0, .takeCode 0, .recordFailedHello 0]

/-- One address fails once, and later another one until it is refused. -/
def untilRefused : List (Label Key (Key × Bytes)) :=
  wrongCode (some "10.0.0.3") ++ [.tick (seconds 100)] ++
    (List.replicate maxFailedHellos (wrongCode (some "10.0.0.4"))).flatten ++
    [.tick (seconds 30), .hello phoneHello (some "10.0.0.4")]

theorem throttle_sound_untilRefused : ∃ w,
    exec (stepWatched toy) ⟨newResponder,[],[]⟩ (untilRefused ++ [.checkThrottle 0]) = some w ∧
      w.checks.length = 1 + maxFailedHellos ∧ w.responder.errors.head? = some .throttled ∧
        Sound toy w := by
  have hone : Meets (stepWatched toy) OneAtATime ⟨newResponder,[],[]⟩
      (untilRefused ++ [.checkThrottle 0]) := by decide +kernel
  have hrun : (exec (stepWatched toy) ⟨newResponder,[],[]⟩ (untilRefused ++ [.checkThrottle 0])).map
      (fun w => (w.checks.length,w.responder.errors.head?)) =
      some (1 + maxFailedHellos,some .throttled) := by decide +kernel
  obtain ⟨w,hw,hresult⟩ := Option.map_eq_some_iff.mp hrun
  obtain ⟨hchecks,herror⟩ := Prod.mk.inj hresult
  exact ⟨w,hw,hchecks,herror,throttle_sound toy newResponder_initial rfl hone hw⟩

/-- The hello that is refused drops the failure of the first address. -/
theorem refusal_drops_expired : ∃ s t, exec (step toy) newResponder untilRefused = some s ∧
    s.isThrottled (some "10.0.0.4") = true ∧ step toy s (.checkThrottle 0) = some t ∧
      t.failures ≠ s.failures := by
  have hrun : (exec (step toy) newResponder untilRefused).map (fun s =>
      (s.isThrottled (some "10.0.0.4"), s.failures.length,
        (step toy s (.checkThrottle 0)).map fun t => t.failures.length)) =
      some (true, 2, some 1) := by decide +kernel
  obtain ⟨s,hs,hresult⟩ := Option.map_eq_some_iff.mp hrun
  obtain ⟨hthrottled,hrest⟩ := Prod.mk.inj hresult
  obtain ⟨hbefore,hstep⟩ := Prod.mk.inj hrest
  obtain ⟨t,ht,hafter⟩ := Option.map_eq_some_iff.mp hstep
  refine ⟨s,t,hs,hthrottled,ht,fun heq => ?_⟩
  rw [heq, hbefore] at hafter
  exact absurd hafter (by decide)

end RinaDown.PairingThrottle
