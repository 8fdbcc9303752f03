import RinaDown.KeyedTable
import RinaDown.LabelledExecutions
import RinaDown.MarketSources
import RinaDown.Texts

/-!
# The high-water mark of an index

A client asks its sources for the index one after the other. The first index that can be read is
compared with the mark that is stored for it; the mark is raised, and the index is returned. These
are separate steps, and calls interleave between them. What was recorded and returned is the
history of a run.
-/

namespace RinaDown.MarketWatermark

open KeyedTable LabelledExecutions MarketSources List Option
open Texts (parseUnsigned parseUnsigned_toDigits)

abbrev Config := Table String String

def sequenceKey (indexId : String) : String := "market." ++ indexId ++ ".sequence"

def formatSequence (sequence : ℕ) : String := String.ofList (Nat.toDigits 10 sequence)

def watermark (config : Config) (indexId : String) : ℕ :=
  ((config.lookup (sequenceKey indexId)).bind fun v => parseUnsigned (2 ^ 64) v.toList).getD 0

inductive FetchPhase where
  | asking (sources : List Reply) (lastErr : MarketError)
  | checking (idx : MarketIndex) (sources : List Reply)
  | raising (idx : MarketIndex) (seen : ℕ)
  | returning (idx : MarketIndex)
  | done (result : Except MarketError MarketIndex)
deriving DecidableEq

/-- A call of `fetch_index`, and what the sources of its client serve to it. -/
structure FetchCall where
  served : List Reply
  phase : FetchPhase

/-- An index was recorded or returned with this sequence number. -/
structure Event where
  indexId : String
  sequence : ℕ
deriving DecidableEq

structure Market where
  config : Config
  calls : List FetchCall
  history : List Event

/-- A call begins, or goes on; where it uses the database, that succeeds or fails. -/
inductive Label where
  | fetchIndex (served : List Reply)
  | proceed (i : ℕ) (dbOk : Bool)

def newMarket (config : Config) : Market := ⟨config,[],[]⟩

variable (fromSlice : Bytes → Except String MarketIndex) (s : Market)

def Market.setPhase (i : ℕ) (call : FetchCall) (phase : FetchPhase) : Market :=
  { s with calls := s.calls.set i { call with phase } }

/-- The first half of `check_and_update_watermark`, after the mark has been read. -/
def Market.check (i : ℕ) (call : FetchCall) (idx : MarketIndex) (seen : ℕ) : Market :=
  if idx.sequence < seen then
    s.setPhase i call (.done (.error (.sequenceRollback idx.sequence seen)))
  else if seen < idx.sequence then s.setPhase i call (.raising idx seen)
  else s.setPhase i call (.returning idx)

/-- An error of the database is ignored. -/
def Market.raise (i : ℕ) (call : FetchCall) (idx : MarketIndex) (dbOk : Bool) : Market :=
  let s := s.setPhase i call (.returning idx)
  if dbOk then
    { s with
      config := insert (sequenceKey idx.indexId) (formatSequence idx.sequence) s.config
      history := s.history ++ [⟨idx.indexId,idx.sequence⟩] }
  else s

def Market.proceed (i : ℕ) (call : FetchCall) (dbOk : Bool) : Option Market :=
  match call.phase with
  | .asking [] lastErr => some (s.setPhase i call (.done (.error lastErr)))
  | .asking (reply :: sources) _ =>
      match fetchIndexFrom fromSlice reply with
      | .ok idx => some (s.setPhase i call (.checking idx sources))
      | .error e => some (s.setPhase i call (.asking sources e))
  | .checking idx _ =>
      some (s.check i call idx (if dbOk then watermark s.config idx.indexId else 0))
  | .raising idx _ => some (s.raise i call idx dbOk)
  | .returning idx => some { s.setPhase i call (.done (.ok idx)) with
      history := s.history ++ [⟨idx.indexId,idx.sequence⟩] }
  | .done _ => none

def step (s : Market) : Label → Option Market
  | .fetchIndex served =>
      some { s with calls := s.calls ++ [⟨served,.asking served .allMirrorsFailed⟩] }
  | .proceed i dbOk => s.calls[i]?.bind fun call => s.proceed fromSlice i call dbOk

/-! ## Orderly runs -/

/-- A source serves an index that is not below its mark. -/
def Fresh (config : Config) (reply : Reply) : Prop :=
  match fetchIndexFrom fromSlice reply with
  | .ok idx => watermark config idx.indexId ≤ idx.sequence
  | .error _ => False

instance (config : Config) (reply : Reply) : Decidable (Fresh fromSlice config reply) :=
  match h : fetchIndexFrom fromSlice reply with
  | .ok idx =>
      decidable_of_iff (watermark config idx.indexId ≤ idx.sequence) (by rw [Fresh, h])
  | .error _ => isFalse (by rw [Fresh, h]; exact not_false)

/-- The index of a call that has read the mark and has not returned. -/
def FetchPhase.pending : FetchPhase → Option MarketIndex
  | .raising idx _ => some idx
  | .returning idx => some idx
  | _ => none

/-- A source that can be read serves the same index, and none that is newer. -/
def NotNewer (idx : MarketIndex) (reply : Reply) : Prop :=
  match fetchIndexFrom fromSlice reply with
  | .ok idx' => idx'.indexId = idx.indexId ∧ idx'.sequence ≤ idx.sequence
  | .error _ => True

instance (idx : MarketIndex) (reply : Reply) : Decidable (NotNewer fromSlice idx reply) := by
  unfold NotNewer
  split <;> infer_instance

/-- The mark is read and written without an error; where it is read, no call that holds another
number of the index is between its own reading and its return; and behind an index below the mark
no source serves a newer one. -/
def OrderlyPhase (s : Market) (dbOk : Bool) : FetchPhase → Prop
  | .checking idx sources =>
      dbOk = true ∧
        (∀ other ∈ s.calls, ∀ idx' ∈ other.phase.pending,
          idx'.indexId = idx.indexId → idx'.sequence = idx.sequence) ∧
        (idx.sequence < watermark s.config idx.indexId →
          ∀ reply ∈ sources, NotNewer fromSlice idx reply)
  | .raising _ _ => dbOk = true
  | _ => True

def Orderly (s : Market) : Label → Prop
  | .fetchIndex _ => True
  | .proceed i dbOk => ∀ call ∈ s.calls[i]?, OrderlyPhase fromSlice s dbOk call.phase

instance (s : Market) (dbOk : Bool) (phase : FetchPhase) :
    Decidable (OrderlyPhase fromSlice s dbOk phase) := by
  cases phase <;> unfold OrderlyPhase <;> infer_instance

instance (s : Market) (a : Label) : Decidable (Orderly fromSlice s a) := by
  cases a <;> unfold Orderly <;> infer_instance

/-- What was recorded or returned for an index is never below what was before. -/
def Monotone (history : List Event) : Prop :=
  history.Pairwise fun e e' => e.indexId = e'.indexId → e.sequence ≤ e'.sequence

instance (history : List Event) : Decidable (Monotone history) :=
  inferInstanceAs (Decidable (List.Pairwise _ _))

/-- What is true of a call while the configuration is this one. -/
def CallInv (config : Config) (call : FetchCall) : Prop :=
  match call.phase with
  | .asking sources _ =>
      ∀ reply ∈ call.served, reply ∈ sources ∨ ∀ config', ¬ Fresh fromSlice config' reply
  | .checking idx sources =>
      ∀ reply ∈ call.served, reply ∈ sources ∨ fetchIndexFrom fromSlice reply = .ok idx ∨
        ∀ config', ¬ Fresh fromSlice config' reply
  | .raising _ _ => True
  | .returning idx => idx.sequence ≤ watermark config idx.indexId
  | .done (.ok _) => True
  | .done (.error _) => ∀ reply ∈ call.served, ¬ Fresh fromSlice config reply

/-- The calls between the reading of the mark and the return: the mark is not above their indexes,
and no two of them hold different numbers of one index. -/
structure Settled (config : Config) (calls : List FetchCall) : Prop where
  bound : ∀ call ∈ calls, ∀ idx ∈ call.phase.pending, watermark config idx.indexId ≤ idx.sequence
  agree : ∀ call ∈ calls, ∀ other ∈ calls, ∀ idx ∈ call.phase.pending, ∀ idx' ∈ other.phase.pending,
    idx'.indexId = idx.indexId → idx'.sequence = idx.sequence

/-- What is true of a run that goes on from a configuration and a history. -/
structure Inv (config : Config) (history : List Event) (s : Market) : Prop where
  start : ∀ indexId, watermark config indexId ≤ watermark s.config indexId
  later : ∃ new, s.history = history ++ new ∧
    ∀ e ∈ new, watermark config e.indexId ≤ e.sequence
  shown : ∀ e ∈ s.history, e.sequence ≤ watermark s.config e.indexId
  monotone : Monotone s.history
  calls : ∀ call ∈ s.calls, CallInv fromSlice s.config call
  settled : Settled s.config s.calls

variable {fromSlice} {config config' : Config}

theorem sequenceKey_inj {id id' : String} : sequenceKey id = sequenceKey id' ↔ id = id' := by
  rw [sequenceKey, sequenceKey, String.append_left_inj, String.append_right_inj]

variable {idx : MarketIndex} {call : FetchCall} {i : ℕ} {calls : List FetchCall}

theorem watermark_insert (indexId : String) :
    watermark (insert (sequenceKey idx.indexId) (formatSequence idx.sequence) config) indexId =
      if indexId = idx.indexId then idx.sequence else watermark config indexId := by
  rw [watermark, watermark, lookup_insert]
  by_cases hid : indexId = idx.indexId
  · rw [if_pos (sequenceKey_inj.mpr hid), if_pos hid, bind_some, formatSequence,
      String.toList_ofList, parseUnsigned_toDigits, if_pos idx.sequence_lt]
    rfl
  · rw [if_neg fun hkey => hid (sequenceKey_inj.mp hkey), if_neg hid]

theorem not_fresh_of_error {reply : Reply} {e : MarketError}
    (h : fetchIndexFrom fromSlice reply = .error e) (config : Config) :
    ¬ Fresh fromSlice config reply := by
  rw [Fresh, h]
  exact not_false

theorem Fresh.anti {reply : Reply}
    (hle : ∀ indexId, watermark config indexId ≤ watermark config' indexId)
    (h : Fresh fromSlice config' reply) : Fresh fromSlice config reply := by
  rw [Fresh] at h ⊢
  cases hfetch : fetchIndexFrom fromSlice reply with
  | error e => simp only [hfetch] at h
  | ok idx =>
      simp only [hfetch] at h
      exact (hle idx.indexId).trans h

theorem CallInv.mono (h : CallInv fromSlice config call)
    (hle : ∀ indexId, watermark config indexId ≤ watermark config' indexId) :
    CallInv fromSlice config' call := by
  rw [CallInv] at h ⊢
  cases hphase : call.phase with
  | asking sources lastErr => simpa only [hphase] using h
  | checking idx sources => simpa only [hphase] using h
  | raising idx seen => trivial
  | returning idx =>
      simp only [hphase] at h
      exact h.trans (hle idx.indexId)
  | done result =>
      cases result with
      | ok idx => trivial
      | error e =>
          simp only [hphase] at h
          exact fun reply hreply hfresh => h reply hreply (hfresh.anti hle)

variable {s t : Market} {history : List Event}

theorem Inv.refl (h : Inv fromSlice config history s) :
    Inv fromSlice s.config s.history s where
  start _ := le_rfl
  later := ⟨[],(append_nil _).symm,fun _ he => absurd he not_mem_nil⟩
  shown := h.shown
  monotone := h.monotone
  calls := h.calls
  settled := h.settled

theorem forall_mem_set {P : FetchCall → Prop} (h : ∀ c ∈ calls, P c) (hcall : P call) :
    ∀ c ∈ calls.set i call, P c := by
  intro c hc
  rcases mem_or_eq_of_mem_set hc with hc | rfl
  · exact h c hc
  · exact hcall

theorem Settled.set (h : Settled config calls)
    (hcall : ∀ idx ∈ call.phase.pending, watermark config idx.indexId ≤ idx.sequence ∧
      ∀ other ∈ calls, ∀ idx' ∈ other.phase.pending, idx'.indexId = idx.indexId →
      idx'.sequence = idx.sequence) :
    Settled config (calls.set i call) where
  bound := forall_mem_set h.bound fun idx hidx => (hcall idx hidx).1
  agree := by
    refine forall_mem_set (fun c hc => forall_mem_set (h.agree c hc) fun idx hidx idx' hidx' hid =>
      ((hcall idx' hidx').2 c hc idx hidx hid.symm).symm)
      (forall_mem_set (fun other hother idx hidx => (hcall idx hidx).2 other hother) ?_)
    intro idx hidx idx' hidx' _
    rw [mem_unique hidx hidx']

/-- The mark may rise to the number of a call that holds it. -/
theorem Settled.raise (h : Settled config calls) (hmem : call ∈ calls)
    (hidx : idx ∈ call.phase.pending) :
    Settled (insert (sequenceKey idx.indexId) (formatSequence idx.sequence) config) calls where
  bound other hother idx' hidx' := by
    rw [watermark_insert]
    split_ifs with hid
    · exact (h.agree call hmem other hother idx hidx idx' hidx' hid).ge
    · exact h.bound other hother idx' hidx'
  agree := h.agree

theorem Inv.setPhase (h : Inv fromSlice config history s) {phase : FetchPhase}
    (hcall : CallInv fromSlice s.config { call with phase })
    (hpending : ∀ idx ∈ phase.pending, watermark s.config idx.indexId ≤ idx.sequence ∧
      ∀ other ∈ s.calls, ∀ idx' ∈ other.phase.pending, idx'.indexId = idx.indexId →
      idx'.sequence = idx.sequence) :
    Inv fromSlice config history (s.setPhase i call phase) :=
  { h with calls := forall_mem_set h.calls hcall, settled := h.settled.set hpending }

theorem Inv.record (h : Inv fromSlice config history s) {e : Event}
    (hle : ∀ indexId, watermark s.config indexId ≤ watermark config' indexId)
    (hbefore : watermark s.config e.indexId ≤ e.sequence)
    (hafter : e.sequence ≤ watermark config' e.indexId)
    (hcalls : ∀ call ∈ calls, CallInv fromSlice config' call) (hsettled : Settled config' calls) :
    Inv fromSlice config history ⟨config',calls,s.history ++ [e]⟩ where
  start indexId := (h.start indexId).trans (hle indexId)
  later := by
    obtain ⟨new,hnew,hnewer⟩ := h.later
    refine ⟨new ++ [e],by rw [hnew, append_assoc],fun e' he' => ?_⟩
    rcases mem_append.mp he' with he' | he'
    · exact hnewer e' he'
    · rw [mem_singleton.mp he']
      exact (h.start e.indexId).trans hbefore
  shown e' he' := by
    rcases mem_append.mp he' with he' | he'
    · exact (h.shown e' he').trans (hle e'.indexId)
    · rw [mem_singleton.mp he']
      exact hafter
  monotone := by
    refine pairwise_append.mpr ⟨h.monotone,pairwise_singleton _ _,?_⟩
    intro e' he' e'' he'' hid
    rw [mem_singleton.mp he''] at hid ⊢
    exact (h.shown e' he').trans (hid ▸ hbefore)
  calls := hcalls
  settled := hsettled

theorem Inv.check (h : Inv fromSlice config history s) {sources : List Reply}
    (hcall : CallInv fromSlice s.config call) (hphase : call.phase = .checking idx sources)
    (horderly : OrderlyPhase fromSlice s true (.checking idx sources)) :
    Inv fromSlice config history (s.check i call idx (watermark s.config idx.indexId)) := by
  obtain ⟨-,hothers,hlater⟩ := horderly
  rw [CallInv, hphase] at hcall
  rw [Market.check]
  split_ifs with hstale hraise
  · refine h.setPhase (fun reply hreply hfresh => ?_) nofun
    rcases hcall reply hreply with hsource | hidx | hunread
    · have hnewer := hlater hstale reply hsource
      rw [NotNewer] at hnewer
      rw [Fresh] at hfresh
      cases hfetch : fetchIndexFrom fromSlice reply with
      | error e => simp only [hfetch] at hfresh
      | ok idx' =>
          simp only [hfetch] at hfresh hnewer
          rw [hnewer.1] at hfresh
          omega
    · simp only [Fresh, hidx] at hfresh
      omega
    · exact hunread s.config hfresh
  · refine h.setPhase trivial fun idx' hidx' => ?_
    obtain rfl := some.inj hidx'
    exact ⟨hraise.le,hothers⟩
  · have hmark : idx.sequence ≤ watermark s.config idx.indexId := by omega
    refine h.setPhase hmark fun idx' hidx' => ?_
    obtain rfl := some.inj hidx'
    exact ⟨by omega,hothers⟩

theorem Inv.raise (h : Inv fromSlice config history s) {seen : ℕ} (hmem : call ∈ s.calls)
    (hphase : call.phase = .raising idx seen) :
    Inv fromSlice config history (s.raise i call idx true) := by
  have hidx : idx ∈ call.phase.pending := by
    rw [hphase]
    rfl
  have hmark := h.settled.bound call hmem idx hidx
  have hraised := h.settled.raise hmem hidx
  have hle : ∀ indexId, watermark s.config indexId ≤ watermark
      (insert (sequenceKey idx.indexId) (formatSequence idx.sequence) s.config) indexId := by
    intro indexId
    rw [watermark_insert]
    split_ifs with hid
    · rw [hid]
      exact hmark
    · exact le_rfl
  have hnew : idx.sequence ≤ watermark
      (insert (sequenceKey idx.indexId) (formatSequence idx.sequence) s.config) idx.indexId := by
    rw [watermark_insert, if_pos rfl]
  refine h.record hle hmark hnew
    (forall_mem_set (fun call hcall => (h.calls call hcall).mono hle) hnew) (hraised.set ?_)
  intro idx' hidx'
  obtain rfl := some.inj hidx'
  exact ⟨hraised.bound call hmem _ hidx,fun other hother => h.settled.agree call hmem other hother _ hidx⟩

theorem Inv.returns (h : Inv fromSlice config history s) (hmem : call ∈ s.calls)
    (hphase : call.phase = .returning idx) :
    Inv fromSlice config history { s.setPhase i call (.done (.ok idx)) with
      history := s.history ++ [⟨idx.indexId,idx.sequence⟩] } := by
  have hcall := h.calls call hmem
  rw [CallInv, hphase] at hcall
  have hmark := h.settled.bound call hmem idx (by rw [hphase]; rfl)
  exact h.record (fun _ => le_rfl) hmark hcall (forall_mem_set h.calls trivial) (h.settled.set nofun)

theorem proceed_inv (h : Inv fromSlice config history s) {dbOk : Bool} (hmem : call ∈ s.calls)
    (horderly : OrderlyPhase fromSlice s dbOk call.phase)
    (hstep : s.proceed fromSlice i call dbOk = some t) : Inv fromSlice config history t := by
  have hcall := h.calls call hmem
  rw [Market.proceed] at hstep
  cases hphase : call.phase with
  | asking sources lastErr =>
      rw [CallInv, hphase] at hcall
      cases sources with
      | nil =>
          simp only [hphase] at hstep
          rw [← some.inj hstep]
          refine h.setPhase (fun reply hreply => ?_) nofun
          exact (hcall reply hreply).resolve_left not_mem_nil s.config
      | cons reply sources =>
          simp only [hphase] at hstep
          cases hfetch : fetchIndexFrom fromSlice reply with
          | ok idx =>
              simp only [hfetch] at hstep
              rw [← some.inj hstep]
              refine h.setPhase (fun reply' hreply' => ?_) nofun
              rcases hcall reply' hreply' with hsource | hunread
              · rcases mem_cons.mp hsource with rfl | hsource
                · exact .inr (.inl hfetch)
                · exact .inl hsource
              · exact .inr (.inr hunread)
          | error e =>
              simp only [hfetch] at hstep
              rw [← some.inj hstep]
              refine h.setPhase (fun reply' hreply' => ?_) nofun
              rcases hcall reply' hreply' with hsource | hunread
              · rcases mem_cons.mp hsource with rfl | hsource
                · exact .inr (not_fresh_of_error hfetch)
                · exact .inl hsource
              · exact .inr hunread
  | checking idx sources =>
      rw [hphase] at horderly
      obtain rfl : dbOk = true := horderly.1
      simp only [hphase, if_true] at hstep
      rw [← some.inj hstep]
      exact h.check hcall hphase horderly
  | raising idx seen =>
      rw [hphase] at horderly
      obtain rfl : dbOk = true := horderly
      simp only [hphase] at hstep
      rw [← some.inj hstep]
      exact h.raise hmem hphase
  | returning idx =>
      simp only [hphase] at hstep
      rw [← some.inj hstep]
      exact h.returns hmem hphase
  | done result =>
      simp only [hphase] at hstep
      exact absurd hstep.symm (some_ne_none _)

theorem step_inv (a : Label) (h : Inv fromSlice config history s) (horderly : Orderly fromSlice s a)
    (hstep : step fromSlice s a = some t) : Inv fromSlice config history t := by
  cases a with
  | fetchIndex served =>
      rw [← some.inj hstep]
      have hsettled : Settled s.config (s.calls ++ [⟨served,.asking served .allMirrorsFailed⟩]) :=
        ⟨forall_mem_append.mpr ⟨h.settled.bound,by simp [FetchPhase.pending]⟩,
          forall_mem_append.mpr ⟨fun call hcall => forall_mem_append.mpr
            ⟨h.settled.agree call hcall,by simp [FetchPhase.pending]⟩,by simp [FetchPhase.pending]⟩⟩
      refine { h with calls := fun call hcall => ?_, settled := hsettled }
      rcases mem_append.mp hcall with hcall | hcall
      · exact h.calls call hcall
      · rw [mem_singleton.mp hcall]
        exact fun reply hreply => .inl hreply
  | proceed i dbOk =>
      obtain ⟨call,hcall,hstep⟩ := bind_eq_some_iff.mp hstep
      exact proceed_inv h (mem_of_getElem? hcall) (horderly call hcall) hstep

theorem newMarket_inv (config : Config) : Inv fromSlice config [] (newMarket config) where
  start _ := le_rfl
  later := ⟨[],rfl,fun _ he => absurd he not_mem_nil⟩
  shown _ he := absurd he not_mem_nil
  monotone := List.Pairwise.nil
  calls _ hcall := absurd hcall not_mem_nil
  settled := ⟨nofun,nofun⟩

/-! ## Every call ends -/

def FetchPhase.rank : FetchPhase → ℕ
  | .asking sources _ => sources.length + 4
  | .checking _ _ => 3
  | .raising _ _ => 2
  | .returning _ => 1
  | .done _ => 0

/-- A call that has not ended goes on, whatever the database does, and comes closer to its
end. -/
theorem proceed_rank (i : ℕ) (call : FetchCall) (dbOk : Bool) (hrank : call.phase.rank ≠ 0) :
    ∃ t phase, s.proceed fromSlice i call dbOk = some t ∧
      t.calls = s.calls.set i { call with phase } ∧ phase.rank < call.phase.rank := by
  rw [Market.proceed]
  cases hphase : call.phase with
  | asking sources lastErr =>
      cases sources with
      | nil => exact ⟨_,_,rfl,rfl,by simp only [FetchPhase.rank]; omega⟩
      | cons reply sources =>
          cases hfetch : fetchIndexFrom fromSlice reply with
          | ok idx =>
              refine ⟨s.setPhase i call (.checking idx sources),_,?_,rfl,?_⟩
              · simp only [hfetch]
              · simp only [FetchPhase.rank]
                omega
          | error e =>
              refine ⟨s.setPhase i call (.asking sources e),_,?_,rfl,?_⟩
              · simp only [hfetch]
              · simp only [FetchPhase.rank, length_cons]
                omega
  | checking idx sources =>
      simp only [Market.check]
      split_ifs
      all_goals exact ⟨_,_,rfl,rfl,by simp [FetchPhase.rank]⟩
  | raising idx seen =>
      simp only [Market.raise]
      split_ifs
      all_goals exact ⟨_,_,rfl,rfl,by simp [FetchPhase.rank]⟩
  | returning idx => exact ⟨_,_,rfl,rfl,by simp [FetchPhase.rank]⟩
  | done result =>
      rw [hphase] at hrank
      exact absurd rfl hrank

/-! ## Runs -/

/-- In an orderly run, whatever comes after a state shows no index below the mark that is stored
in it, the marks only rise, and the calls that have failed have no source that serves an index
that is not below its mark. -/
theorem run_watermark {as bs : List Label}
    (hm : Meets (step fromSlice) (Orderly fromSlice) (newMarket config) (as ++ bs))
    (hs : exec (step fromSlice) (newMarket config) as = some s)
    (ht : exec (step fromSlice) s bs = some t) :
    (∀ indexId, watermark s.config indexId ≤ watermark t.config indexId) ∧
      (∃ new, t.history = s.history ++ new ∧
        ∀ e ∈ new, watermark s.config e.indexId ≤ e.sequence) ∧
      Monotone t.history ∧
      (∀ e ∈ t.history, e.sequence ≤ watermark t.config e.indexId) ∧
      (∀ call ∈ t.calls, ∀ e, call.phase = .done (.error e) →
        ∀ reply ∈ call.served, ¬ Fresh fromSlice t.config reply) ∧
      ∀ i, ∀ call ∈ t.calls[i]?, call.phase.rank ≠ 0 → ∀ dbOk,
        ∃ t' phase, step fromSlice t (.proceed i dbOk) = some t' ∧
          t'.calls = t.calls.set i { call with phase } ∧ phase.rank < call.phase.rank := by
  obtain ⟨hmas,hmbs⟩ := meets_append hm hs
  have hinv : Inv fromSlice config [] s :=
    exec_invariant_of_meets (fun s a t h horderly => step_inv a h horderly)
      (newMarket_inv config) hmas hs
  have hlater : Inv fromSlice s.config s.history t :=
    exec_invariant_of_meets (fun s a t h horderly => step_inv a h horderly) hinv.refl hmbs ht
  refine ⟨hlater.start,hlater.later,hlater.monotone,hlater.shown,?_,?_⟩
  · intro call hcall e hphase
    have hfailed := hlater.calls call hcall
    rw [CallInv, hphase] at hfailed
    exact hfailed
  · intro i call hcall hrank dbOk
    obtain ⟨t',phase,hproceed,hrest⟩ := proceed_rank i call dbOk hrank
    exact ⟨t',phase,bind_eq_some_iff.mpr ⟨call,hcall,hproceed⟩,hrest⟩

/-! ## The code at its limits -/

def sampleText (sequence : ℕ) : Bytes :=
  ("\x7b\"indexId\":\"a\",\"sequence\":" ++ formatSequence sequence ++
    ",\"entries\":[]\x7d").toUTF8.data.toList

def sampleIndex (sequence : ℕ) (h : sequence < 2 ^ 64) : MarketIndex := ⟨"a",sequence,[],h⟩

def sampleFromSlice (body : Bytes) : Except String MarketIndex :=
  if body = sampleText 6 then .ok (sampleIndex 6 (by decide))
  else if body = sampleText 7 then .ok (sampleIndex 7 (by decide))
  else .error "expected value"

def serves (sequence : ℕ) : Reply := .ok [.ok (sampleText sequence)]

/-- Two clients one after the other; a source of the second cannot be reached. -/
def oneByOne : List Label :=
  [.fetchIndex [serves 6], .proceed 0 true, .proceed 0 true, .proceed 0 true, .proceed 0 true,
    .fetchIndex [.error "unreachable", serves 7], .proceed 1 true, .proceed 1 true,
    .proceed 1 true, .proceed 1 true, .proceed 1 true]

/-- Two clients at once: the one with the lower number writes last. -/
def atOnce : List Label :=
  [.fetchIndex [serves 6], .proceed 0 true, .proceed 0 true, .fetchIndex [serves 7],
    .proceed 1 true, .proceed 1 true, .proceed 1 true, .proceed 1 true, .proceed 0 true,
    .proceed 0 true]

/-- The first source is stale, and the second is not asked. -/
def staleFirst : List Label :=
  [.fetchIndex [serves 7], .proceed 0 true, .proceed 0 true, .proceed 0 true, .proceed 0 true,
    .fetchIndex [serves 6, serves 7], .proceed 1 true, .proceed 1 true]

theorem run_watermark_oneByOne : ∃ s t,
    Meets (step sampleFromSlice) (Orderly sampleFromSlice) (newMarket []) (oneByOne.take 5 ++
      oneByOne.drop 5) ∧
    exec (step sampleFromSlice) (newMarket []) (oneByOne.take 5) = some s ∧
    exec (step sampleFromSlice) s (oneByOne.drop 5) = some t ∧
    (∀ indexId, watermark s.config indexId ≤ watermark t.config indexId) ∧
    t.history = [⟨"a",6⟩, ⟨"a",6⟩, ⟨"a",7⟩, ⟨"a",7⟩] ∧ Monotone t.history := by
  have hm : Meets (step sampleFromSlice) (Orderly sampleFromSlice) (newMarket [])
      (oneByOne.take 5 ++ oneByOne.drop 5) := by decide +kernel
  have hrun : (exec (step sampleFromSlice) (newMarket []) (oneByOne.take 5)).any (fun s =>
      (exec (step sampleFromSlice) s (oneByOne.drop 5)).any fun t =>
        t.history = [⟨"a",6⟩, ⟨"a",6⟩, ⟨"a",7⟩, ⟨"a",7⟩]) = true := by decide +kernel
  obtain ⟨s,hs,hrest⟩ := (any_eq_true _ _).mp hrun
  obtain ⟨t,ht,hhistory⟩ := (any_eq_true _ _).mp hrest
  obtain ⟨hmarks,-,hmonotone,-⟩ := run_watermark hm hs ht
  exact ⟨s,t,hm,hs,ht,hmarks,of_decide_eq_true hhistory,hmonotone⟩

/-- Two calls at once return and record a lower number after a higher one; and a call whose
first source is stale fails, although the next one serves the index of the mark. -/
theorem index_rolled_back :
    (∃ s, exec (step sampleFromSlice) (newMarket []) atOnce = some s ∧
      ¬ Monotone s.history ∧ ⟨"a",7⟩ ∈ s.history ∧ watermark s.config "a" = 6) ∧
    ∃ s, exec (step sampleFromSlice) (newMarket []) staleFirst = some s ∧
      ∃ call ∈ s.calls, call.phase = .done (.error (.sequenceRollback 6 7)) ∧
        ∃ reply ∈ call.served, Fresh sampleFromSlice s.config reply := by
  constructor
  · have hrun : (exec (step sampleFromSlice) (newMarket []) atOnce).any (fun s =>
        ¬ Monotone s.history ∧ ⟨"a",7⟩ ∈ s.history ∧ watermark s.config "a" = 6) = true := by
      decide +kernel
    obtain ⟨s,hs,hlower⟩ := (any_eq_true _ _).mp hrun
    exact ⟨s,hs,of_decide_eq_true hlower⟩
  · have hrun : (exec (step sampleFromSlice) (newMarket []) staleFirst).any (fun s =>
        ∃ call ∈ s.calls, call.phase = .done (.error (.sequenceRollback 6 7)) ∧
          ∃ reply ∈ call.served, Fresh sampleFromSlice s.config reply) = true := by
      decide +kernel
    obtain ⟨s,hs,hfailed⟩ := (any_eq_true _ _).mp hrun
    exact ⟨s,hs,of_decide_eq_true hfailed⟩

end RinaDown.MarketWatermark
