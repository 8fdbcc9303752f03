import RinaDown.AgentSync
import RinaDown.DesktopReplica
import RinaDown.LabelledExecutions

/-!
# Configuration sync between devices

Any number of agents and desktops sync with one server, in any order of their
requests. A request that fails either was served or never will be. What a device
has been delivered is recorded beside its state.
-/

namespace RinaDown.ConfigSync
open RevisionLog CursorReplica ConfigSyncService AgentSync LabelledExecutions Std List Option

variable {K V : Type} [Ord K]

abbrev SyncItem (K V : Type) := Item K ℕ (Content V)

abbrev Server (K V : Type) := Log K ℕ (Content V)

inductive AgentRound (K V : Type) where
  | idle
  | pulled (items : List (SyncItem K V)) (resync : Bool) (revision : ℕ)
  | pushing (sent : List (K × SentEntry V))
  | pushed (sent : List (K × SentEntry V)) (revision : ℕ)

inductive DesktopRound (K V : Type) where
  | idle
  | pulled (since : ℕ) (items : List (SyncItem K V)) (resync : Bool) (revision : ℕ)
  | pushing (request : PushRequest K V)
  | pushed (request : PushRequest K V) (revision : ℕ)

inductive Party (K V : Type) [Ord K] where
  | agent (state : AgentState K V) (round : AgentRound K V)
  | desktop (service : Service K V) (round : DesktopRound K V)

structure Device (K V : Type) [Ord K] where
  party : Party K V
  delivered : List (SyncItem K V)

structure Network (K V : Type) [Ord K] where
  server : Server K V
  devices : List (Device K V)

structure Config (K V : Type) where
  settings : Settings K V
  catalog : Catalog K V

/-- What a device does, or the server for it; the stamps are those of the items it accepts. -/
inductive Action (K V : Type) where
  | markLocal (key : K) (value : V) (deleted : Bool)
  | localChange (values : K → V)
  | pull (resync : Bool)
  | applyPull
  | push
  | serve (stamps : List (Option (ℕ × ℕ)))
  | replied
  | fail

def Party.cursor : Party K V → ℕ
  | .agent state _ => state.revision
  | .desktop service _ => service.watermark

def pullAnswer (server : Server K V) (cursor : ℕ) (resync : Bool) : List (SyncItem K V) :=
  itemsSince server (if resync then 0 else cursor)

section Step
variable [Inhabited V] [DecidableEq K] [DecidableEq V] (cfg : Config K V)

/-- What the agent sends when its answer is applied; without dirty entries the round is over. -/
def nextRound (state : AgentState K V) : AgentRound K V :=
  if sentEntries state = [] then .idle else .pushing (sentEntries state)

def agentStep (i : ℕ) (server : Server K V) (delivered : List (SyncItem K V))
    (state : AgentState K V) : AgentRound K V → Action K V → Option (Server K V × Device K V)
  | round, .markLocal key value deleted =>
    some (server, ⟨.agent (markLocal cfg.settings key value deleted state) round,delivered⟩)
  | .idle, .pull resync =>
    some (server, ⟨.agent state
      (.pulled (pullAnswer server state.revision resync) resync server.revision),delivered⟩)
  | .pulled items resync revision, .applyPull =>
    let r := AgentSync.applyPull cfg.settings i items resync revision state
    if r.2 then some (server, ⟨.agent r.1 (nextRound r.1),delivered ++ items⟩)
    else some (server, ⟨.agent r.1 .idle,delivered⟩)
  | .pushing sent, .serve stamps =>
    (push server i (AgentSync.contents sent) stamps).map (fun next =>
      (next, ⟨.agent state (.pushed sent next.revision),delivered⟩))
  | .pushed sent revision, .replied =>
    some (server, ⟨.agent (confirmPushed sent revision state) .idle,delivered⟩)
  | _, .fail => some (server, ⟨.agent state .idle,delivered⟩)
  | _, _ => none

def desktopStep (i : ℕ) (server : Server K V) (delivered : List (SyncItem K V))
    (service : Service K V) : DesktopRound K V → Action K V → Option (Server K V × Device K V)
  | round, .localChange values =>
    some (server, ⟨.desktop (localChange cfg.catalog service values) round,delivered⟩)
  | .idle, .pull resync =>
    some (server, ⟨.desktop service (.pulled service.watermark
      (pullAnswer server service.watermark resync) resync server.revision),delivered⟩)
  | .pulled since items resync revision, .applyPull =>
    some (server, ⟨.desktop
      (ConfigSyncService.applyPull cfg.catalog since items resync revision service) .idle,
      delivered ++ items⟩)
  | .idle, .push =>
    match pushDirtyNow cfg.catalog service with
    | (next, some request) => some (server, ⟨.desktop next (.pushing request),delivered⟩)
    | (next, none) => some (server, ⟨.desktop next .idle,delivered⟩)
  | .pushing request, .serve stamps =>
    (push server i (ConfigSyncService.contents request.items) stamps).map (fun next =>
      (next, ⟨.desktop service (.pushed request next.revision),delivered⟩))
  | .pushed request revision, .replied =>
    some (server, ⟨.desktop (pushReplied request revision service) .idle,delivered⟩)
  | _, .fail => some (server, ⟨.desktop service .idle,delivered⟩)
  | _, _ => none

def deviceStep (i : ℕ) (server : Server K V) (device : Device K V) (a : Action K V) :
    Option (Server K V × Device K V) :=
  match device.party with
  | .agent state round => agentStep cfg i server device.delivered state round a
  | .desktop service round => desktopStep cfg i server device.delivered service round a

def step (net : Network K V) (a : ℕ × Action K V) : Option (Network K V) :=
  match net.devices[a.1]? with
  | none => none
  | some device =>
    (deviceStep cfg a.1 net.server device a.2).map (fun r =>
      ⟨r.1,net.devices.set a.1 r.2⟩)

end Step

/-! ## The start -/

/-- A device that has not synced yet; a desktop holds some values of its own. -/
inductive Fresh (K V : Type) where
  | agent
  | desktop (values : K → V)

def freshDevice : Fresh K V → Device K V
  | .agent => ⟨.agent (emptyState K V) .idle,[]⟩
  | .desktop values => ⟨.desktop ⟨true,values,values,[],0⟩ .idle,[]⟩

def start (fleet : List (Fresh K V)) : Network K V := ⟨⟨[],0⟩,fleet.map freshDevice⟩

/-! ## What must hold -/

/-- Every item at or below the cursor was delivered or is the device's own. -/
def CursorSafe (server : Server K V) (i : ℕ) (device : Device K V) : Prop :=
  ∀ x ∈ server.items, x.revision ≤ device.party.cursor → x.origin = i ∨ x ∈ device.delivered

def Party.Clean : Party K V → Prop
  | .agent state _ => sentEntries state = []
  | .desktop service _ => service.dirty = []

/-- The party holds the key as the item has it. -/
def Party.Holds (cfg : Config K V) (x : SyncItem K V) : Party K V → Prop
  | .agent state _ =>
    (state.syncEntries[x.key]?).map (fun e => (e.value, e.deleted)) =
      some (x.content.value, x.content.deleted)
  | .desktop service _ =>
    x.content.deleted = false → x.key ∈ cfg.catalog.keys → service.current x.key = x.content.value

def CaughtUp (server : Server K V) (device : Device K V) : Prop :=
  device.party.Clean ∧ device.party.cursor = server.revision

/-- No device's cursor is over an item it was not given, and if all have caught up they hold what
the server holds. -/
structure Consistent (cfg : Config K V) (net : Network K V) : Prop where
  cursorSafe : ∀ i device, net.devices[i]? = some device → CursorSafe net.server i device
  sameValues : (∀ device ∈ net.devices, CaughtUp net.server device) →
    ∀ device ∈ net.devices, ∀ x ∈ net.server.items, device.party.Holds cfg x

/-! ## The condition -/

/-- No item of another device is above the cursor. -/
def NoneAbove (server : Server K V) (i cursor : ℕ) : Prop :=
  ∀ x ∈ server.items, x.origin = i ∨ x.revision ≤ cursor

instance (server : Server K V) (i cursor : ℕ) : Decidable (NoneAbove server i cursor) :=
  inferInstanceAs (Decidable (∀ x ∈ server.items, x.origin = i ∨ x.revision ≤ cursor))

/-- The reply of an agent's push moves the cursor in any case. -/
def AgentCond (server : Server K V) (i : ℕ) (state : AgentState K V) : Action K V → Prop
  | .serve _ => NoneAbove server i state.revision
  | _ => True

instance (server : Server K V) (i : ℕ) (state : AgentState K V) (a : Action K V) :
    Decidable (AgentCond server i state a) := by
  cases a <;> unfold AgentCond <;> infer_instance

section Cond
variable [DecidableEq K] [DecidableEq V]

/-- The reply of a desktop's push moves the cursor if it is the next revision. -/
def DesktopCond (cfg : Config K V) (server : Server K V) (i : ℕ) (service : Service K V) :
    DesktopRound K V → Action K V → Prop
  | .pushing request, .serve stamps =>
    ∀ next ∈ push server i (ConfigSyncService.contents request.items) stamps,
      next.revision = request.before + 1 → NoneAbove server i service.watermark
  | .pushed request _, .replied => ∀ p ∈ request.items, service.current p.1 = p.2
  | .pulled _ items _ _, .applyPull => StoresAll cfg.catalog service items
  | _, _ => True

instance (cfg : Config K V) (server : Server K V) (i : ℕ) (service : Service K V)
    (round : DesktopRound K V) (a : Action K V) :
    Decidable (DesktopCond cfg server i service round a) := by
  cases round <;> cases a <;> unfold DesktopCond <;> infer_instance

/-- A push whose reply moves the cursor is served while no item of another device is above it.
On a desktop, what was sent is not changed before the reply comes, and the values of a pull are
stored as they are. -/
def Undisturbed (cfg : Config K V) (net : Network K V) (a : ℕ × Action K V) : Prop :=
  match net.devices[a.1]? with
  | some ⟨.agent state _,_⟩ => AgentCond net.server a.1 state a.2
  | some ⟨.desktop service round,_⟩ => DesktopCond cfg net.server a.1 service round a.2
  | none => True

instance (cfg : Config K V) (net : Network K V) (a : ℕ × Action K V) :
    Decidable (Undisturbed cfg net a) := by
  unfold Undisturbed
  split <;> infer_instance

end Cond

/-! ## Every device follows the server -/

def Party.view (cfg : Config K V) : Party K V → Replica K (Content V)
  | .agent state _ => AgentSync.view state
  | .desktop service _ => ConfigSyncService.view cfg.catalog service

def Party.phase : Party K V → Phase K ℕ (Content V)
  | .agent _ .idle => .idle
  | .agent _ (.pulled items _ revision) => .pulled items revision
  | .agent _ (.pushing sent) => .pushing (AgentSync.contents sent)
  | .agent _ (.pushed sent revision) => .pushed (AgentSync.contents sent) revision True
  | .desktop _ .idle => .idle
  | .desktop _ (.pulled _ items _ revision) => .pulled items revision
  | .desktop _ (.pushing request) => .pushing (ConfigSyncService.contents request.items)
  | .desktop _ (.pushed request revision) =>
    .pushed (ConfigSyncService.contents request.items) revision (revision = request.before + 1)

/-- The service is in step with its providers, and its request clears only what it sends. -/
def Party.InOrder (cfg : Config K V) : Party K V → Prop
  | .agent _ _ => True
  | .desktop service (.pushing request) => InStep cfg.catalog service ∧ ClearsSent cfg.catalog request
  | .desktop service (.pushed request _) =>
    InStep cfg.catalog service ∧ ClearsSent cfg.catalog request
  | .desktop service _ => InStep cfg.catalog service

structure Sound (cfg : Config K V) (server : Server K V) (i : ℕ) (device : Device K V) : Prop where
  follows : Follows server i device.delivered (device.party.view cfg) device.party.phase
  inOrder : device.party.InOrder cfg

variable {server : Server K V} {cfg : Config K V} {service : Service K V} {round : DesktopRound K V}

theorem Sound.other {next : Server K V} {i j : ℕ} {device : Device K V}
    {sent : List (K × Content V)} (h : Sound cfg server i device) (hp : Pushed server j sent next)
    (hne : j ≠ i) : Sound cfg next i device :=
  ⟨h.follows.other hp hne,h.inOrder⟩

theorem inStep_of_inOrder (h : (Party.desktop service round).InOrder cfg) :
    InStep cfg.catalog service := by
  cases round with
  | idle => exact h
  | pulled => exact h
  | pushing => exact h.1
  | pushed => exact h.1

theorem inOrder_localChange {next : Service K V} (h : (Party.desktop service round).InOrder cfg)
    (hn : InStep cfg.catalog next) :
    (Party.desktop next round).InOrder cfg := by
  cases round with
  | idle => exact hn
  | pulled => exact hn
  | pushing => exact ⟨hn,h.2⟩
  | pushed => exact ⟨hn,h.2⟩

theorem freshDevice_sound (fresh : Fresh K V) (i : ℕ) :
    Sound cfg ⟨[],0⟩ i (freshDevice fresh) := by
  cases fresh with
  | agent => exact ⟨follows_new rfl (by simp) (by simp),trivial⟩
  | desktop values =>
    exact ⟨follows_new rfl (by simp) (by simp),⟨rfl,fun _ _ => rfl,nodup_nil⟩⟩

theorem Sound.cursorSafe {i : ℕ} {device : Device K V} (h : Sound cfg server i device) :
    CursorSafe server i device := by
  obtain ⟨party,delivered⟩ := device
  cases party with
  | agent state round => exact h.follows.tracks.seen
  | desktop service round => exact h.follows.tracks.seen

omit [Ord K] in
theorem itemsSince_covers (server : Server K V) (cursor : ℕ) (resync : Bool) :
    ∀ x ∈ server.items, x.revision ≤ cursor ∨ x ∈ pullAnswer server cursor resync := by
  intro x hx
  by_cases hle : x.revision ≤ cursor
  · exact .inl hle
  · refine .inr (mem_filter.mpr ⟨hx,?_⟩)
    simp only [decide_eq_true_eq]
    split <;> omega

omit [Ord K] in
theorem mem_of_mem_pullAnswer {server : Server K V} {cursor : ℕ} {resync : Bool} :
    ∀ x ∈ pullAnswer server cursor resync, x ∈ server.items :=
  fun _ hx => (mem_filter.mp hx).1

/-- A step of a device keeps it sound, and changes the server only by its own push. -/
def Stepped (cfg : Config K V) (server : Server K V) (i : ℕ) (r : Server K V × Device K V) :
    Prop :=
  Sound cfg r.1 i r.2 ∧ (r.1 = server ∨ ∃ sent, Pushed server i sent r.1)

structure NetworkSound (cfg : Config K V) (net : Network K V) : Prop where
  wellFormed : WellFormed net.server
  devices : ∀ i device, net.devices[i]? = some device → Sound cfg net.server i device

theorem start_sound (fleet : List (Fresh K V)) :
    NetworkSound cfg (start fleet) := by
  refine ⟨wellFormed_empty,fun i device hi => ?_⟩
  rw [start, getElem?_map] at hi
  obtain ⟨fresh,-,rfl⟩ := map_eq_some_iff.mp hi
  exact freshDevice_sound fresh i

theorem desktopStep_sound [DecidableEq K] [DecidableEq V] {i : ℕ} {delivered : List (SyncItem K V)}
    {a : Action K V} {r : Server K V × Device K V} (hw : WellFormed server)
    (h : Sound cfg server i ⟨.desktop service round,delivered⟩)
    (hcond : DesktopCond cfg server i service round a)
    (hstep : desktopStep cfg i server delivered service round a = some r) :
    Stepped cfg server i r := by
  have hf := h.follows
  have hin : InStep cfg.catalog service := inStep_of_inOrder h.inOrder
  cases a with
  | localChange values =>
    have hn := inStep_localChange hin values
    have horder := inOrder_localChange h.inOrder hn
    have he := edits_localChange hin values
    cases round <;> cases hstep <;> exact ⟨⟨hf.edit he,horder⟩,.inl rfl⟩
  | fail =>
    cases round <;> cases hstep <;> exact ⟨⟨hf.fail,hin⟩,.inl rfl⟩
  | pull resync =>
    cases round with
    | idle =>
      cases hstep
      exact ⟨⟨hf.pull hw mem_of_mem_pullAnswer (itemsSince_covers _ _ _),hin⟩,.inl rfl⟩
    | _ => cases hstep
  | applyPull =>
    cases round with
    | pulled since items resync revision =>
      cases hstep
      obtain ⟨hn,hfollows⟩ := follows_applyPull since resync hin hcond hf
      exact ⟨⟨hfollows,hn⟩,.inl rfl⟩
    | _ => cases hstep
  | push =>
    cases round with
    | idle =>
      rw [desktopStep] at hstep
      unfold pushDirtyNow at hstep
      by_cases hd : service.dirty = []
      · rw [if_pos hd] at hstep
        cases hstep
        exact ⟨⟨hf,hin⟩,.inl rfl⟩
      by_cases hp : payload cfg.catalog service = []
      · rw [if_neg hd, if_pos hp] at hstep
        cases hstep
        refine ⟨⟨hf.keep rfl (fun k c hor => .inr (held_of_payload_nil hp hor)),?_⟩,.inl rfl⟩
        exact ⟨hin.listening,hin.snapshot,nodup_nil⟩
      · rw [if_neg hd, if_neg hp] at hstep
        cases hstep
        exact ⟨⟨hf.send (sends_payload hin),hin,clearsSent_payload _⟩,.inl rfl⟩
    | _ => cases hstep
  | serve stamps =>
    cases round with
    | pushing request =>
      obtain ⟨next,hpush,rfl⟩ := map_eq_some_iff.mp hstep
      have hp := push_pushed hw hf.inPhase.nodup hpush
      exact ⟨⟨hf.serve hp (hcond next hpush),h.inOrder⟩,.inr ⟨_,hp⟩⟩
    | _ => cases hstep
  | replied =>
    cases round with
    | pushed request revision =>
      cases hstep
      exact ⟨⟨hf.confirm (confirms_pushReplied revision h.inOrder.2 hcond),hin.pushReplied⟩,
        .inl rfl⟩
    | _ => cases hstep
  | markLocal key value deleted => cases round <;> cases hstep

section Proof
variable [TransOrd K] [LawfulEqOrd K] {cfg : Config K V} {server : Server K V} {i : ℕ}
  {delivered : List (SyncItem K V)}

theorem nextRound_sound {state : AgentState K V}
    (h : Follows server i delivered (AgentSync.view state) .idle) :
    Sound cfg server i ⟨.agent state (nextRound state),delivered⟩ := by
  unfold nextRound
  by_cases hs : sentEntries state = []
  · rw [if_pos hs]
    exact ⟨h,trivial⟩
  · rw [if_neg hs]
    exact ⟨h.send (sends_sentEntries state),trivial⟩

theorem Sound.holds {device : Device K V} (h : Sound cfg server i device)
    (hw : WellFormed server) (hcaught : CaughtUp server device) {x : SyncItem K V}
    (hx : x ∈ server.items) : device.party.Holds cfg x := by
  obtain ⟨party,delivered⟩ := device
  obtain ⟨hclean,hcursor⟩ := hcaught
  cases party with
  | agent state round =>
    have hnone : ∀ k, ¬ (AgentSync.view state).dirty k := by
      rintro k ⟨e,he,hd⟩
      have hmem : (k, ⟨e.value,e.deleted,e.version⟩) ∈ sentEntries state := by
        rw [mem_sentEntries, he, ← hd]
      rw [show sentEntries state = [] from hclean] at hmem
      exact not_mem_nil hmem
    obtain ⟨e,he,hval,hdel⟩ := h.follows.caught_up hw hnone hcursor x hx
    show (state.syncEntries[x.key]?).map _ = _
    rw [he, map_some, hval, hdel]
  | desktop service round =>
    have hnone : ∀ k, ¬ (ConfigSyncService.view cfg.catalog service).dirty k := by
      intro k (hk : k ∈ service.dirty)
      rw [show service.dirty = [] from hclean] at hk
      exact not_mem_nil hk
    intro hlive hkey
    rcases h.follows.caught_up hw hnone hcursor x hx with hdel | hcat | hval
    · rw [hlive] at hdel
      cases hdel
    · exact absurd hkey hcat
    · exact hval

variable [Inhabited V] [DecidableEq K] [DecidableEq V]

theorem agentStep_sound {state : AgentState K V} {round : AgentRound K V} {a : Action K V}
    {r : Server K V × Device K V} (hw : WellFormed server)
    (h : Sound cfg server i ⟨.agent state round,delivered⟩)
    (hcond : AgentCond server i state a)
    (hstep : agentStep cfg i server delivered state round a = some r) :
    Stepped cfg server i r := by
  have hf := h.follows
  cases a with
  | markLocal key value deleted =>
    have he : Edits (AgentSync.view state)
        (AgentSync.view (markLocal cfg.settings key value deleted state)) :=
      edits_markLocal key value deleted state
    cases round <;> cases hstep <;> exact ⟨⟨hf.edit he,trivial⟩,.inl rfl⟩
  | fail =>
    cases round <;> cases hstep <;> exact ⟨⟨hf.fail,trivial⟩,.inl rfl⟩
  | pull resync =>
    cases round with
    | idle =>
      cases hstep
      exact ⟨⟨hf.pull hw mem_of_mem_pullAnswer (itemsSince_covers _ _ _),trivial⟩,.inl rfl⟩
    | _ => cases hstep
  | applyPull =>
    cases round with
    | pulled items resync revision =>
      have happlied : Follows server i
          (if (AgentSync.applyPull cfg.settings i items resync revision state).2 then
            delivered ++ items else delivered)
          (AgentSync.view (AgentSync.applyPull cfg.settings i items resync revision state).1)
          .idle := follows_applyPull hf
      rw [agentStep] at hstep
      by_cases hok : (AgentSync.applyPull cfg.settings i items resync revision state).2 = true
      · rw [if_pos hok] at hstep happlied
        cases hstep
        exact ⟨nextRound_sound happlied,.inl rfl⟩
      · rw [if_neg hok] at hstep happlied
        cases hstep
        exact ⟨⟨happlied,trivial⟩,.inl rfl⟩
    | _ => cases hstep
  | serve stamps =>
    cases round with
    | pushing sent =>
      obtain ⟨next,hpush,rfl⟩ := map_eq_some_iff.mp hstep
      have hp := push_pushed hw hf.inPhase.nodup hpush
      exact ⟨⟨hf.serve hp (fun _ => hcond),trivial⟩,.inr ⟨_,hp⟩⟩
    | _ => cases hstep
  | replied =>
    cases round with
    | pushed sent revision =>
      cases hstep
      exact ⟨⟨hf.confirm (confirms_confirmPushed revision hf.inPhase.sends),trivial⟩,.inl rfl⟩
    | _ => cases hstep
  | localChange values => cases round <;> cases hstep
  | push => cases round <;> cases hstep

/-! ## Runs of the network -/

theorem deviceStep_sound {net : Network K V} {a : ℕ × Action K V} {device : Device K V}
    {r : Server K V × Device K V} (h : NetworkSound cfg net)
    (hdevice : net.devices[a.1]? = some device) (hcond : Undisturbed cfg net a)
    (hstep : deviceStep cfg a.1 net.server device a.2 = some r) :
    Stepped cfg net.server a.1 r := by
  obtain ⟨i,a⟩ := a
  obtain ⟨party,delivered⟩ := device
  have hs := h.devices i _ hdevice
  unfold Undisturbed at hcond
  simp only [hdevice] at hcond
  cases party with
  | agent state round => exact agentStep_sound h.wellFormed hs hcond hstep
  | desktop service round => exact desktopStep_sound h.wellFormed hs hcond hstep

theorem step_sound {net t : Network K V} {a : ℕ × Action K V} (h : NetworkSound cfg net)
    (hcond : Undisturbed cfg net a) (hstep : step cfg net a = some t) : NetworkSound cfg t := by
  unfold step at hstep
  cases hdevice : net.devices[a.1]? with
  | none =>
    rw [hdevice] at hstep
    cases hstep
  | some device =>
    rw [hdevice] at hstep
    obtain ⟨r,hr,rfl⟩ := map_eq_some_iff.mp hstep
    obtain ⟨hsound,hserver⟩ := deviceStep_sound h hdevice hcond hr
    refine ⟨?_,fun j other hj => ?_⟩
    · rcases hserver with heq | ⟨sent,hp⟩
      · show WellFormed r.1
        rw [heq]
        exact h.wellFormed
      · exact hp.wellFormed
    · by_cases hji : j = a.1
      · have hlt := (List.getElem?_eq_some_iff.mp hdevice).1
        rw [hji, getElem?_set_self hlt] at hj
        cases hj
        rw [hji]
        exact hsound
      · rw [getElem?_set_ne (Ne.symm hji)] at hj
        have hold := h.devices j other hj
        rcases hserver with heq | ⟨sent,hp⟩
        · show Sound cfg r.1 j other
          rw [heq]
          exact hold
        · exact hold.other hp (Ne.symm hji)

/-- In every run in which no push moves a cursor over another device's item, no item is lost and
the devices agree once they have caught up. -/
theorem sync_loses_no_update {fleet : List (Fresh K V)} {as : List (ℕ × Action K V)}
    {net : Network K V} (hm : Meets (step cfg) (Undisturbed cfg) (start fleet) as)
    (hrun : exec (step cfg) (start fleet) as = some net) : Consistent cfg net := by
  have hstep : ∀ s a t, NetworkSound cfg s → Undisturbed cfg s a → step cfg s a = some t →
      NetworkSound cfg t := fun _ _ _ hs hc h => step_sound hs hc h
  have h : NetworkSound cfg net := exec_invariant_of_meets hstep (start_sound fleet) hm hrun
  refine ⟨fun i device hi => (h.devices i device hi).cursorSafe,?_⟩
  intro hcaught device hdevice x hx
  obtain ⟨i,hi⟩ := mem_iff_getElem?.mp hdevice
  exact (h.devices i device hi).holds h.wellFormed (hcaught device hdevice) hx

end Proof

/-! ## Cursors that jump -/

def sampleConfig : Config ℕ ℕ where
  settings := ⟨fun _ => .preferences,fun _ => true,fun _ _ => true⟩
  catalog := ⟨[0, 1],fun k v values => Function.update values k v,by decide⟩

/-- The second agent's item is served between the pull and the push of the first. -/
def jumpRun : List (ℕ × Action ℕ ℕ) :=
  [(0, .markLocal 0 5 false), (1, .markLocal 1 7 false),
    (0, .pull false), (0, .applyPull),
    (1, .pull false), (1, .applyPull), (1, .serve [some (1, 1)]), (1, .replied),
    (0, .serve [some (2, 1)]), (0, .replied),
    (1, .pull false), (1, .applyPull), (0, .pull false), (0, .applyPull)]

/-- The desktop sends a value the server has already, and the answer is the revision of an item
of the agent that it has not seen. -/
def fastForwardRun : List (ℕ × Action ℕ ℕ) :=
  [(0, .pull false), (0, .applyPull), (0, .push), (0, .serve [some (1, 1), some (2, 1)]),
    (0, .replied), (0, .pull false), (0, .applyPull),
    (0, .localChange (fun k => if k = 0 then 1 else 0)), (0, .localChange (fun _ => 0)), (0, .push),
    (1, .markLocal 1 7 false), (1, .pull false), (1, .applyPull),
    (1, .serve [some (3, 1)]), (1, .replied),
    (0, .serve [none]), (0, .replied), (0, .pull false), (0, .applyPull)]

section Decide
variable [DecidableEq K] [DecidableEq V]

instance (server : Server K V) (i : ℕ) (device : Device K V) :
    Decidable (CursorSafe server i device) :=
  inferInstanceAs (Decidable (∀ x ∈ server.items, _ → _ ∨ _))

instance (party : Party K V) : Decidable party.Clean := by
  cases party <;> unfold Party.Clean <;> infer_instance

instance (cfg : Config K V) (x : SyncItem K V) (party : Party K V) :
    Decidable (party.Holds cfg x) := by
  cases party <;> unfold Party.Holds <;> infer_instance

instance (server : Server K V) (device : Device K V) : Decidable (CaughtUp server device) :=
  inferInstanceAs (Decidable (_ ∧ _))

end Decide

/-- A cursor over an item that was not delivered, and all caught up with different values. -/
def Lost (cfg : Config ℕ ℕ) (net : Network ℕ ℕ) : Prop :=
  (∃ device ∈ net.devices.head?, ¬ CursorSafe net.server 0 device) ∧
    (∀ device ∈ net.devices, CaughtUp net.server device) ∧
    ∃ device ∈ net.devices, ∃ x ∈ net.server.items, ¬ device.party.Holds cfg x

instance (cfg : Config ℕ ℕ) (net : Network ℕ ℕ) : Decidable (Lost cfg net) := by
  unfold Lost
  infer_instance

/-- In both runs the first device's cursor passes the second's item, which it is never given. -/
theorem cursor_jumps :
    (exec (step sampleConfig) (start [.agent, .agent]) jumpRun).any (Lost sampleConfig) = true ∧
      (exec (step sampleConfig) (start [.desktop (fun _ => 0), .agent]) fastForwardRun).any
        (Lost sampleConfig) = true := by
  decide +kernel

def orderedRun : List (ℕ × Action ℕ ℕ) :=
  [(0, .markLocal 0 5 false), (0, .pull false), (0, .applyPull), (0, .serve [some (1, 1)]),
    (0, .replied), (1, .pull false), (1, .applyPull), (1, .push), (1, .serve [some (2, 1)]),
    (1, .replied), (0, .pull false), (0, .applyPull)]

theorem sync_loses_no_update_sample :
    ∃ net, exec (step sampleConfig) (start [.agent, .desktop (fun _ => 0)]) orderedRun = some net ∧
      Consistent sampleConfig net := by
  have hm : Meets (step sampleConfig) (Undisturbed sampleConfig)
      (start [.agent, .desktop (fun _ => 0)]) orderedRun := by
    decide +kernel
  have hrun : (exec (step sampleConfig) (start [.agent, .desktop (fun _ => 0)])
      orderedRun).isSome := by
    decide +kernel
  exact (isSome_iff_exists.mp hrun).imp (fun _ h => ⟨h,sync_loses_no_update hm h⟩)

end RinaDown.ConfigSync
