import RinaDown.Lists
import RinaDown.NativeMessaging

/-!
# What the relay answers

The pipe is kept only when every frame on it has been answered, so that the next answer on it
is the answer to the next frame. A message is written a second time only if the App has not
received it, and the App is started only after the time that must pass.
-/

namespace RinaDown.RelayPairing

open LengthFraming RinaDown.Lists NativeMessaging List Option

/-! ## The world -/

def delivered (w : World) : List Frame := w.connections.flatMap Connection.frames

/-- Every frame on the connection has been answered. -/
def Clean (w : World) (p : ℕ) : Prop :=
  ∃ conn, w.connections[p]? = some conn ∧ conn.taken = conn.frames.length

/-- What the App has received stays in place. -/
def Grows (w w' : World) : Prop :=
  ∀ (c : ℕ) (conn : Connection), w.connections[c]? = some conn →
    ∃ conn' : Connection, w'.connections[c]? = some conn' ∧ conn.frames <+: conn'.frames

/-- Only time has passed. -/
structure Quiet (w w' : World) : Prop where
  clock : w.clock ≤ w'.clock
  connections : w'.connections = w.connections
  launches : w'.launches = w.launches

/-- A connection has been opened, or nothing has. -/
def Opens (w : World) (p : Option ℕ) (w' : World) : Prop :=
  (p = none ∧ w'.connections = w.connections) ∨
    (p = some w.connections.length ∧ w'.connections = w.connections ++ [⟨[],0⟩])

/-- The App has been started long enough after each start before, and the last start is known. -/
structure Timed (lastLaunch : Option ℕ) (w : World) : Prop where
  past : ∀ t ∈ lastLaunch, t ≤ w.clock
  latest : ∀ l ∈ w.launches, ∃ t ∈ lastLaunch, l.time ≤ t
  apart : w.launches.Pairwise fun a b => a.time + millis appLaunchCooldownMs ≤ b.time

variable {env : Environment} {w w' w'' : World} {p : Option ℕ} {lastLaunch : Option ℕ}
  {raws : List Bytes} {n : ℕ} {raw : Bytes}

theorem Grows.refl (w : World) : Grows w w := fun _ conn h => ⟨conn,h,prefix_refl _⟩

theorem Grows.trans (h : Grows w w') (h' : Grows w' w'') : Grows w w'' := by
  intro c conn hc
  obtain ⟨conn',hc',hpre⟩ := h c conn hc
  obtain ⟨conn'',hc'',hpre'⟩ := h' c conn' hc'
  exact ⟨conn'',hc'',hpre.trans hpre'⟩

theorem Grows.of_eq (h : w'.connections = w.connections) : Grows w w' := by
  intro c conn hc
  exact ⟨conn,by rw [h, hc],prefix_refl _⟩

theorem Quiet.refl (w : World) : Quiet w w := ⟨Nat.le_refl _,rfl,rfl⟩

theorem Quiet.trans (h : Quiet w w') (h' : Quiet w' w'') : Quiet w w'' :=
  ⟨Nat.le_trans h.clock h'.clock,h'.connections.trans h.connections,
    h'.launches.trans h.launches⟩

theorem quiet_next (env : Environment) (w : World) : Quiet w (w.next env) :=
  ⟨clock_next_le env w,rfl,rfl⟩

theorem quiet_sleep (env : Environment) (w : World) (d : ℕ) : Quiet w (sleep env w d) :=
  ⟨Nat.le_trans (clock_next_le env w) (Nat.le_add_right _ _),rfl,rfl⟩

theorem Quiet.opens (h : Quiet w w') (hopens : Opens w' p w'') : Opens w p w'' := by
  rwa [Opens, h.connections] at hopens

theorem Opens.grows (h : Opens w p w') : Grows w w' := by
  obtain ⟨-,heq⟩ | ⟨-,heq⟩ := h
  · exact .of_eq heq
  · intro c conn hc
    refine ⟨conn,?_,prefix_refl _⟩
    rw [heq, List.getElem?_append_left (List.getElem?_eq_some_iff.mp hc).1, hc]

theorem Opens.delivered (h : Opens w p w') : delivered w' = delivered w := by
  obtain ⟨-,heq⟩ | ⟨-,heq⟩ := h
  · rw [RelayPairing.delivered, heq]
    rfl
  · rw [RelayPairing.delivered, heq, flatMap_append]
    exact append_nil _

theorem Opens.clean {c : ℕ} (h : Opens w (some c) w') : Clean w' c := by
  obtain ⟨hnone,-⟩ | ⟨hsome,heq⟩ := h
  · cases hnone
  · obtain rfl := some.inj hsome
    exact ⟨⟨[],0⟩,by rw [heq, getElem?_concat_length],rfl⟩

theorem Timed.later (h : Timed lastLaunch w) (hclock : w.clock ≤ w'.clock)
    (hlaunches : w'.launches = w.launches) : Timed lastLaunch w' where
  past t ht := Nat.le_trans (h.past t ht) hclock
  latest := hlaunches ▸ h.latest
  apart := hlaunches ▸ h.apart

/-- The App is started, and the time of the start is read. -/
theorem Timed.launch {time message launched : ℕ} (h : Timed lastLaunch w)
    (hcooled : ∀ t ∈ lastLaunch, t + millis appLaunchCooldownMs ≤ time)
    (hlaunches : w'.launches = w.launches ++ [⟨time,message⟩]) (hafter : time ≤ launched)
    (hclock : launched ≤ w'.clock) : Timed (some launched) w' where
  past t ht := by
    obtain rfl := mem_some.mp ht
    exact hclock
  latest l hl := by
    refine ⟨launched,rfl,?_⟩
    rw [hlaunches] at hl
    obtain hl | hl := mem_append.mp hl
    · obtain ⟨t,ht,hle⟩ := h.latest l hl
      have := hcooled t ht
      omega
    · obtain rfl := mem_singleton.mp hl
      exact hafter
  apart := by
    rw [hlaunches, pairwise_append]
    refine ⟨h.apart,pairwise_singleton _ _,fun l hl l' hl' => ?_⟩
    obtain rfl := mem_singleton.mp hl'
    obtain ⟨t,ht,hle⟩ := h.latest l hl
    exact Nat.le_trans (Nat.add_le_add_right hle _) (hcooled t ht)

/-! ## Connecting -/

theorem connect_opens (env : Environment) (w : World) :
    Opens w (connect env w).1 (connect env w).2 ∧ w.clock ≤ (connect env w).2.clock ∧
      (connect env w).2.launches = w.launches := by
  refine ⟨?_,Nat.le_trans (clock_next_le env w) (Nat.le_of_eq (clock_connect env w).symm),?_⟩
  · rw [connect]
    split_ifs
    · exact .inr ⟨rfl,rfl⟩
    · exact .inl ⟨rfl,rfl⟩
  · rw [connect]
    split_ifs <;> rfl

theorem connect_quiet (h : (connect env w).1 = none) : Quiet w (connect env w).2 := by
  obtain ⟨hopens,hclock,hlaunches⟩ := connect_opens env w
  obtain ⟨-,heq⟩ | ⟨hsome,-⟩ := hopens
  · exact ⟨hclock,heq,hlaunches⟩
  · rw [h] at hsome
    cases hsome

theorem pollConnect_opens (env : Environment) (deadline : ℕ) (w : World) :
    Opens w (pollConnect env deadline w).1 (pollConnect env deadline w).2 ∧
      w.clock ≤ (pollConnect env deadline w).2.clock ∧
        (pollConnect env deadline w).2.launches = w.launches := by
  fun_induction pollConnect env deadline w with
  | case1 w opened hsome => exact connect_opens env w
  | case2 w opened hnone t hlate =>
    have hquiet := (connect_quiet (not_isSome_iff_eq_none.mp hnone)).trans
      (quiet_next env _)
    exact ⟨.inl ⟨rfl,hquiet.connections⟩,hquiet.clock,hquiet.launches⟩
  | case3 w opened hnone t hearly ih =>
    have hquiet := ((connect_quiet (not_isSome_iff_eq_none.mp hnone)).trans
      (quiet_next env _)).trans (quiet_sleep env _ (millis pipePollIntervalMs))
    exact ⟨hquiet.opens ih.1,Nat.le_trans hquiet.clock ih.2.1,ih.2.2.trans hquiet.launches⟩

/-- What connecting does, and how it starts the App. -/
structure Reached (w : World) (message : ℕ) (isNoLaunch : Bool) (lastLaunch : Option ℕ)
    (result : Option ℕ × Option ℕ × World) : Prop where
  opens : Opens w result.1 result.2.2
  timed : Timed lastLaunch w → Timed result.2.1 result.2.2
  launches : result.2.2.launches = w.launches ∨
    isNoLaunch = false ∧ ∃ t, result.2.2.launches = w.launches ++ [⟨t,message⟩]

theorem Quiet.reached (h : Quiet w w') (message : ℕ) (isNoLaunch : Bool) :
    Reached w message isNoLaunch lastLaunch (none, lastLaunch, w') :=
  ⟨.inl ⟨rfl,h.connections⟩,fun htimed => htimed.later h.clock h.launches,
    .inl h.launches⟩

theorem coolingDown_spec (env : Environment) (w : World) (lastLaunch : Option ℕ) :
    Quiet w (coolingDown env w lastLaunch).2 ∧ ((coolingDown env w lastLaunch).1 = false →
      ∀ t ∈ lastLaunch, t + millis appLaunchCooldownMs ≤ (coolingDown env w lastLaunch).2.clock) := by
  cases lastLaunch with
  | none => exact ⟨Quiet.refl w,fun _ t ht => absurd ht (by simp)⟩
  | some prev =>
    refine ⟨quiet_next env w,fun hcooled t ht => ?_⟩
    obtain rfl := mem_some.mp ht
    have hpassed : appLaunchCooldownMs ≤ ((w.next env).clock - prev) / 10 ^ 6 :=
      Nat.le_of_not_lt (of_decide_eq_false hcooled)
    rw [Nat.le_div_iff_mul_le (by decide)] at hpassed
    have hworld : (coolingDown env w (some prev)).2 = w.next env := rfl
    have hpositive : 0 < millis appLaunchCooldownMs := by decide
    rw [hworld]
    rw [← millis] at hpassed
    omega

theorem launchApp_spec {message : ℕ} (h : (launchApp env w message).1 = true) :
    (launchApp env w message).2.connections = w.connections ∧
      w.clock ≤ (launchApp env w message).2.clock ∧ (launchApp env w message).2.launches =
        w.launches ++ [⟨(launchApp env w message).2.clock,message⟩] := by
  rw [launchApp] at h ⊢
  split_ifs at h ⊢
  exact ⟨rfl,clock_next_le env w,rfl⟩

theorem launchApp_quiet {message : ℕ} (h : (launchApp env w message).1 = false) :
    Quiet w (launchApp env w message).2 := by
  rw [launchApp] at h ⊢
  split_ifs at h ⊢
  exact quiet_next env w

theorem awaitPipe_spec {deadline launched : ℕ} (hquiet : Quiet w w')
    (hafter : w.clock ≤ launched) (hbefore : launched ≤ w'.clock) :
    Opens w (awaitPipe env w' deadline launched).1 (awaitPipe env w' deadline launched).2.2 ∧
      (awaitPipe env w' deadline launched).2.2.launches = w.launches ∧
        ∃ launched', (awaitPipe env w' deadline launched).2.1 = some launched' ∧
          w.clock ≤ launched' ∧ launched' ≤ (awaitPipe env w' deadline launched).2.2.clock := by
  obtain ⟨hopens,hclock,hlaunches⟩ := pollConnect_opens env deadline w'
  exact ⟨hquiet.opens hopens,hlaunches.trans hquiet.launches,launched,rfl,hafter,
    Nat.le_trans hbefore hclock⟩

theorem awaitApp_spec (env : Environment) (w : World) :
    Opens w (awaitApp env w).1 (awaitApp env w).2.2 ∧
      (awaitApp env w).2.2.launches = w.launches ∧ ∃ launched, (awaitApp env w).2.1 = some launched ∧
        w.clock ≤ launched ∧ launched ≤ (awaitApp env w).2.2.clock := by
  have hlaunched := quiet_next env w
  have hwaiting := quiet_next env (w.next env)
  exact awaitPipe_spec (hlaunched.trans hwaiting) hlaunched.clock hwaiting.clock

theorem reached_autoLaunch (env : Environment) (w : World) (message : ℕ) :
    Reached w message false lastLaunch (connectWithAutoLaunch env w message lastLaunch) := by
  obtain ⟨hopens,hclock,hlaunches⟩ := connect_opens env w
  have hfailed : (connect env w).1 = none → _ := connect_quiet
  rw [connectWithAutoLaunch]
  cases hconnect : connect env w with
  | mk p w₁ =>
  rw [hconnect] at hopens hclock hlaunches hfailed
  cases p with
  | some p => exact ⟨hopens,fun htimed => htimed.later hclock hlaunches,.inl hlaunches⟩
  | none =>
  obtain ⟨hwaited,hcooled⟩ := coolingDown_spec env w₁ lastLaunch
  dsimp only
  cases hdown : coolingDown env w₁ lastLaunch with
  | mk cooling w₂ =>
  rw [hdown] at hwaited hcooled
  have hquiet : Quiet w w₂ := (hfailed rfl).trans hwaited
  cases cooling with
  | true => exact hquiet.reached message false
  | false =>
  dsimp only [findAppExe]
  have hfound := quiet_next env w₂
  cases env.executables w₂.operations with
  | false => exact (hquiet.trans hfound).reached message false
  | true =>
  have hlaunched : (launchApp env (w₂.next env) message).1 = true → _ := launchApp_spec
  have hnot : (launchApp env (w₂.next env) message).1 = false → _ := launchApp_quiet
  dsimp only
  cases hspawn : launchApp env (w₂.next env) message with
  | mk spawned w₃ =>
  rw [hspawn] at hlaunched hnot
  cases spawned with
  | false => exact ((hquiet.trans hfound).trans (hnot rfl)).reached message false
  | true =>
  obtain ⟨hconnections,hspent,hlaunches⟩ := hlaunched rfl
  obtain ⟨hopens,hsame,launched,hread,hafter,hlater⟩ := awaitApp_spec env w₃
  have hquiet := hquiet.trans hfound
  have hall : (awaitApp env w₃).2.2.launches = w.launches ++ [⟨w₃.clock,message⟩] := by
    rw [hsame, hlaunches, hquiet.launches]
  refine ⟨?_,fun htimed => ?_,.inr ⟨rfl,w₃.clock,hall⟩⟩
  · rwa [Opens, hconnections, hquiet.connections] at hopens
  · have hcooled' : ∀ t ∈ lastLaunch, t + millis appLaunchCooldownMs ≤ w₃.clock := fun t ht =>
      Nat.le_trans (hcooled rfl t ht) (Nat.le_trans hfound.clock hspent)
    dsimp only
    rw [hread]
    exact htimed.launch hcooled' hall hafter hlater

theorem reached_reach (env : Environment) (w : World) (message : ℕ) (isNoLaunch : Bool) :
    Reached w message isNoLaunch lastLaunch (reach env w message isNoLaunch lastLaunch) := by
  rw [reach]
  cases isNoLaunch with
  | false => exact reached_autoLaunch env w message
  | true =>
    obtain ⟨hopens,hclock,hlaunches⟩ := connect_opens env w
    exact ⟨hopens,fun htimed => htimed.later hclock hlaunches,.inl hlaunches⟩
/-! ## Frames -/

/-- What holds of the world when the messages before a place are done. -/
structure WorldOk (env : Environment) (raws : List Bytes) (n : ℕ) (lastLaunch : Option ℕ)
    (w : World) : Prop where
  frames : ∀ f ∈ delivered w, f.message < n ∧ raws[f.message]? = some f.raw
  once : ((delivered w).map Frame.message).Nodup
  timed : Timed lastLaunch w
  launches : ∀ l ∈ w.launches, ∃ raw, raws[l.message]? = some raw ∧
    isNoLaunchAction (actionOf env raw) = false

theorem WorldOk.later (h : WorldOk env raws n lastLaunch w) (hclock : w.clock ≤ w'.clock)
    (hlaunches : w'.launches = w.launches) (hdelivered : delivered w' = delivered w) :
    WorldOk env raws n lastLaunch w' where
  frames := hdelivered ▸ h.frames
  once := hdelivered ▸ h.once
  timed := h.timed.later hclock hlaunches
  launches := hlaunches ▸ h.launches

theorem WorldOk.mono {n' : ℕ} (h : WorldOk env raws n lastLaunch w) (hle : n ≤ n') :
    WorldOk env raws n' lastLaunch w where
  frames f hf := ⟨Nat.lt_of_lt_of_le (h.frames f hf).1 hle,(h.frames f hf).2⟩
  once := h.once
  timed := h.timed
  launches := h.launches

theorem WorldOk.reached {result : Option ℕ × Option ℕ × World}
    (h : WorldOk env raws n lastLaunch w) (hraw : raws[n]? = some raw)
    (hreached : Reached w n (isNoLaunchAction (actionOf env raw)) lastLaunch result) :
    WorldOk env raws n result.2.1 result.2.2 where
  frames := hreached.opens.delivered ▸ h.frames
  once := hreached.opens.delivered ▸ h.once
  timed := hreached.timed h.timed
  launches l hl := by
    obtain hsame | ⟨hmay,t,hmore⟩ := hreached.launches
    · rw [hsame] at hl
      exact h.launches l hl
    · rw [hmore] at hl
      obtain hl | hl := mem_append.mp hl
      · exact h.launches l hl
      · obtain rfl := mem_singleton.mp hl
        exact ⟨raw,hraw,hmay⟩

theorem flatMap_modify_taken (l : List Connection) (c : ℕ) :
    (l.modify c fun conn => { conn with taken := conn.taken + 1 }).flatMap Connection.frames =
      l.flatMap Connection.frames := by
  induction l generalizing c with
  | nil => cases c <;> rfl
  | cons conn l ih =>
    cases c with
    | zero => rfl
    | succ c => rw [modify_succ_cons, flatMap_cons, flatMap_cons, ih]

theorem Grows.modify {c : ℕ} {f : Connection → Connection}
    (hf : ∀ conn : Connection, conn.frames <+: (f conn).frames)
    (h : w'.connections = w.connections.modify c f) : Grows w w' := by
  intro c' conn hconn
  rw [h]
  by_cases hc : c = c'
  · subst hc
    refine ⟨f conn,?_,hf conn⟩
    rw [getElem?_modify_eq, hconn]
    rfl
  · refine ⟨conn,?_,prefix_refl _⟩
    rw [getElem?_modify_ne _ _ hc, hconn]

theorem writeMessage_failed {c : ℕ} {f : Frame} (h : (writeMessage env w c f).1 = false) :
    Quiet w (writeMessage env w c f).2 := by
  rw [writeMessage] at h ⊢
  split_ifs at h ⊢
  exact quiet_next env w

/-- The frame waits for its answer after all others of the connection. -/
def Waiting (w : World) (c : ℕ) (f : Frame) : Prop :=
  ∃ front : List Frame, w.connections[c]? = some ⟨front ++ [f],front.length⟩

theorem WorldOk.written {c : ℕ} (h : WorldOk env raws n lastLaunch w) (hclean : Clean w c)
    (hraw : raws[n]? = some raw) (hwritten : (writeMessage env w c ⟨n,raw⟩).1 = true) :
    WorldOk env raws (n + 1) lastLaunch (writeMessage env w c ⟨n,raw⟩).2 ∧
      Grows w (writeMessage env w c ⟨n,raw⟩).2 ∧
        Waiting (writeMessage env w c ⟨n,raw⟩).2 c ⟨n,raw⟩ := by
  obtain ⟨⟨front,taken⟩,hconn,htaken⟩ := hclean
  obtain rfl : taken = front.length := htaken
  rw [writeMessage] at hwritten ⊢
  split_ifs at hwritten ⊢
  have hpushed : ∀ conn : Connection,
      Connection.frames { conn with frames := conn.frames ++ [⟨n,raw⟩] } =
        conn.frames ++ [⟨n,raw⟩] := fun _ => rfl
  have hperm := flatMap_modify_perm hpushed hconn
  refine ⟨⟨fun f hf => ?_,?_,h.timed.later (clock_next_le env w) rfl,h.launches⟩,
    .modify (fun conn => prefix_append _ _) rfl,front,?_⟩
  · obtain rfl | hf := mem_cons.mp (hperm.subset hf)
    · exact ⟨Nat.lt_succ_self n,hraw⟩
    · obtain ⟨hlt,hsame⟩ := h.frames f hf
      exact ⟨Nat.lt_succ_of_lt hlt,hsame⟩
  · refine (hperm.map Frame.message).nodup_iff.mpr (nodup_cons.mpr ⟨fun hmem => ?_,h.once⟩)
    obtain ⟨f,hf,heq⟩ := mem_map.mp hmem
    exact absurd heq (Nat.ne_of_lt (h.frames f hf).1)
  · rw [getElem?_modify_eq, hconn]
    rfl

/-- What forwarding a message does. Without a pipe the App has not received it. -/
structure Forwarded (env : Environment) (raws : List Bytes) (n : ℕ) (raw : Bytes) (w : World)
    (result : Option ℕ × Option ℕ × World) : Prop where
  world : WorldOk env raws (n + 1) result.2.1 result.2.2
  grows : Grows w result.2.2
  waiting : ∀ p ∈ result.1, Waiting result.2.2 p ⟨n,raw⟩

theorem forwarded_resend (h : WorldOk env raws n lastLaunch w) (hraw : raws[n]? = some raw) :
    Forwarded env raws n raw w (reconnectAndResend env w ⟨n,raw⟩
      (isNoLaunchAction (actionOf env raw)) lastLaunch) := by
  have hreached := @reached_reach lastLaunch env w n (isNoLaunchAction (actionOf env raw))
  have hworld := h.reached hraw hreached
  have hopens := hreached.opens
  rw [reconnectAndResend]
  dsimp only
  generalize reach env w n (isNoLaunchAction (actionOf env raw)) lastLaunch = result at hworld hopens ⊢
  obtain ⟨p,lastLaunch',w₁⟩ := result
  cases p with
  | none => exact ⟨hworld.mono (Nat.le_succ n),hopens.grows,fun p hp => absurd hp (by simp)⟩
  | some p =>
    have hwritten := hworld.written (c := p) hopens.clean hraw
    have hfailed : (writeMessage env w₁ p ⟨n,raw⟩).1 = false → _ := writeMessage_failed
    dsimp only at hwritten ⊢
    generalize writeMessage env w₁ p ⟨n,raw⟩ = written at hwritten hfailed ⊢
    obtain ⟨done,w₂⟩ := written
    cases done with
    | true =>
      obtain ⟨hworld',hgrows,hwaiting⟩ := hwritten rfl
      refine ⟨hworld',hopens.grows.trans hgrows,fun q hq => ?_⟩
      obtain rfl := mem_some.mp hq
      exact hwaiting
    | false =>
      have hquiet := hfailed rfl
      refine ⟨(hworld.later hquiet.clock hquiet.launches ?_).mono (Nat.le_succ n),
        hopens.grows.trans (.of_eq hquiet.connections),fun p hp => absurd hp (by simp)⟩
      exact congrArg (flatMap Connection.frames) hquiet.connections

theorem forwarded_forward {p : ℕ} (h : WorldOk env raws n lastLaunch w) (hclean : Clean w p)
    (hraw : raws[n]? = some raw) : Forwarded env raws n raw w
      (forward env w p ⟨n,raw⟩ (isNoLaunchAction (actionOf env raw)) lastLaunch) := by
  have hwritten := h.written hclean hraw
  have hfailed : (writeMessage env w p ⟨n,raw⟩).1 = false → _ := writeMessage_failed
  rw [forward]
  generalize writeMessage env w p ⟨n,raw⟩ = written at hwritten hfailed ⊢
  obtain ⟨done,w₁⟩ := written
  cases done with
  | true =>
    obtain ⟨hworld,hgrows,hwaiting⟩ := hwritten rfl
    refine ⟨hworld,hgrows,fun q hq => ?_⟩
    obtain rfl := mem_some.mp hq
    exact hwaiting
  | false =>
    have hquiet := hfailed rfl
    have hworld : WorldOk env raws n lastLaunch w₁ := h.later hquiet.clock hquiet.launches
      (congrArg (flatMap Connection.frames) hquiet.connections)
    obtain ⟨hworld',hgrows,hwaiting⟩ := forwarded_resend hworld hraw
    exact ⟨hworld',(Grows.of_eq hquiet.connections).trans hgrows,hwaiting⟩

/-- What reading does when one frame waits for its answer. -/
theorem readMessage_spec {c : ℕ} {m : ℕ} (h : WorldOk env raws n lastLaunch w)
    (hwaiting : Waiting w c ⟨m,raw⟩) :
    WorldOk env raws n lastLaunch (readMessage env w c).2 ∧ Grows w (readMessage env w c).2 ∧
      ∀ e ∈ (readMessage env w c).1, Clean (readMessage env w c).2 c ∧ e.2 = env.replies c e.1 ∧
        ∃ conn, (readMessage env w c).2.connections[c]? = some conn ∧
          conn.frames[e.1]? = some ⟨m,raw⟩ := by
  obtain ⟨front,hconn⟩ := hwaiting
  rw [readMessage, hconn]
  dsimp only
  split_ifs with hread
  · have hflat := flatMap_modify_taken w.connections c
    refine ⟨h.later (clock_next_le env w) rfl hflat,
      .modify (f := fun conn => { conn with taken := conn.taken + 1 })
        (fun conn => prefix_refl _) rfl,fun e he => ?_⟩
    obtain rfl := mem_some.mp he
    have hafter : (w.connections.modify c fun conn => { conn with taken := conn.taken + 1 })[c]? =
        some ⟨front ++ [⟨m,raw⟩],front.length + 1⟩ := by
      rw [getElem?_modify_eq, hconn]
      rfl
    refine ⟨⟨_,hafter,?_⟩,rfl,_,hafter,getElem?_concat_length⟩
    rw [length_append]
    rfl
  · exact ⟨h.later (clock_next_le env w) rfl rfl,.of_eq rfl,fun e he => absurd he (by simp)⟩

/-! ## Messages -/

/-- The relay before the message at a place, with an answer for each message before it. -/
structure Inv (env : Environment) (raws : List Bytes) (n : ℕ) (s : Relay) : Prop where
  length : s.answers.length = n
  stdout : s.stdout = frames (s.answers.map (Answer.data env))
  clean : ∀ p ∈ s.pipe, Clean s.world p
  answered : ∀ i c k data, s.answers[i]? = some (.relayed c k data) →
    data = env.replies c k ∧ ∃ conn raw, s.world.connections[c]? = some conn ∧
      conn.frames[k]? = some ⟨i,raw⟩ ∧ raws[i]? = some raw
  statuses : ∀ (i : ℕ) (response : HostResponse), s.answers[i]? = some (.status response) →
    ∃ raw, raws[i]? = some raw ∧ response.msgId = msgIdOf env raw
  world : WorldOk env raws n s.lastLaunch s.world

variable {s : Relay}

theorem Inv.answered_later (h : Inv env raws n s) (hgrows : Grows s.world w) {i c k : ℕ}
    {data : Bytes} (hanswer : s.answers[i]? = some (.relayed c k data)) :
    data = env.replies c k ∧ ∃ conn raw, w.connections[c]? = some conn ∧
      conn.frames[k]? = some ⟨i,raw⟩ ∧ raws[i]? = some raw := by
  obtain ⟨hdata,conn,raw,hconn,hframe,hraw⟩ := h.answered i c k data hanswer
  obtain ⟨conn',hconn',hbegins⟩ := hgrows c conn hconn
  refine ⟨hdata,conn',raw,hconn',?_,hraw⟩
  obtain ⟨rest,hrest⟩ := hbegins
  rw [← hrest, List.getElem?_append_left (List.getElem?_eq_some_iff.mp hframe).1, hframe]

theorem Inv.respond (h : Inv env raws n s) {pipe lastLaunch : Option ℕ} (answer : Answer)
    (hworld : WorldOk env raws (n + 1) lastLaunch w) (hgrows : Grows s.world w)
    (hclean : ∀ p ∈ pipe, Clean w p)
    (hanswer : ∀ c k data, answer = .relayed c k data → data = env.replies c k ∧
      ∃ conn raw, w.connections[c]? = some conn ∧ conn.frames[k]? = some ⟨n,raw⟩ ∧
        raws[n]? = some raw)
    (hstatus : ∀ response, answer = .status response →
      ∃ raw, raws[n]? = some raw ∧ response.msgId = msgIdOf env raw) :
    Inv env raws (n + 1)
      ({ s with pipe := pipe, lastLaunch := lastLaunch, world := w }.respond env answer) where
  length := by
    change (s.answers ++ [answer]).length = n + 1
    rw [length_append, h.length, length_singleton]
  stdout := by
    change s.stdout ++ frame (answer.data env) = frames ((s.answers ++ [answer]).map _)
    rw [h.stdout, map_append, frames, frames, flatMap_append]
    simp
  clean := hclean
  answered i c k data hdata := by
    change (s.answers ++ [answer])[i]? = _ at hdata
    obtain hlt | rfl | hlt := Nat.lt_trichotomy i n
    · rw [getElem?_append_left (by rwa [h.length])] at hdata
      exact h.answered_later hgrows hdata
    · rw [← h.length, getElem?_concat_length] at hdata
      exact hanswer c k data (some.inj hdata)
    · rw [getElem?_eq_none (by rw [length_append, h.length]; exact hlt)] at hdata
      cases hdata
  statuses i response hresponse := by
    change (s.answers ++ [answer])[i]? = _ at hresponse
    obtain hlt | rfl | hlt := Nat.lt_trichotomy i n
    · rw [getElem?_append_left (by rwa [h.length])] at hresponse
      exact h.statuses i response hresponse
    · rw [← h.length, getElem?_concat_length] at hresponse
      exact hstatus response (some.inj hresponse)
    · rw [getElem?_eq_none (by rw [length_append, h.length]; exact hlt)] at hresponse
      cases hresponse
  world := hworld

theorem Inv.respondStatus (h : Inv env raws n s) {pipe lastLaunch : Option ℕ}
    (hworld : WorldOk env raws (n + 1) lastLaunch w) (hgrows : Grows s.world w)
    (hclean : ∀ p ∈ pipe, Clean w p) (hraw : raws[n]? = some raw) (success : Bool)
    (message : String) : Inv env raws (n + 1) (NativeMessaging.respondStatus env
      { s with pipe := pipe, lastLaunch := lastLaunch, world := w } success message
        (msgIdOf env raw)) := by
  refine h.respond _ hworld hgrows hclean (fun _ _ _ heq => by cases heq) fun response heq => ?_
  obtain rfl := Answer.status.inj heq
  exact ⟨raw,hraw,rfl⟩

theorem Inv.ensurePipe (h : Inv env raws n s) (hraw : raws[n]? = some raw) :
    Inv env raws n (ensurePipe env n raw s) := by
  have hreached := @reached_reach s.lastLaunch env s.world n (isNoLaunchAction (actionOf env raw))
  rw [NativeMessaging.ensurePipe]
  split_ifs
  · exact h
  · refine ⟨h.length,h.stdout,fun p hp => ?_,fun i c k data hanswer =>
      h.answered_later hreached.opens.grows hanswer,h.statuses,h.world.reached hraw hreached⟩
    have hopens := hreached.opens
    have hp : (reach env s.world n (isNoLaunchAction (actionOf env raw)) s.lastLaunch).1 =
        some p := hp
    rw [hp] at hopens
    exact hopens.clean

theorem Inv.roundTrip {p : ℕ} (h : Inv env raws n s) (hraw : raws[n]? = some raw)
    (hclean : Clean s.world p) : Inv env raws (n + 1) (roundTrip env p n raw s) := by
  obtain hforwarded := forwarded_forward h.world hclean hraw
  rw [NativeMessaging.roundTrip]
  generalize forward env s.world p ⟨n,raw⟩ (isNoLaunchAction (actionOf env raw)) s.lastLaunch =
    result at hforwarded ⊢
  obtain ⟨q,lastLaunch,w⟩ := result
  obtain ⟨hworld,hgrows,hwaiting⟩ := hforwarded
  cases q with
  | none => exact h.respondStatus hworld hgrows (fun p hp => absurd hp (by simp)) hraw _ _
  | some q =>
    have hread := readMessage_spec hworld (hwaiting q rfl)
    dsimp only at hread ⊢
    generalize readMessage env w q = result at hread ⊢
    obtain ⟨answer,w'⟩ := result
    obtain ⟨hworld',hgrows',hanswer⟩ := hread
    cases answer with
    | none =>
      exact h.respondStatus hworld' (hgrows.trans hgrows') (fun p hp => absurd hp (by simp)) hraw
        _ _
    | some e =>
      obtain ⟨hclean',hdata,conn,hconn,hframe⟩ := hanswer e rfl
      refine h.respond _ hworld' (hgrows.trans hgrows') (fun p hp => ?_) (fun c k data heq => ?_)
        fun _ heq => by cases heq
      · obtain rfl := mem_some.mp hp
        exact hclean'
      · obtain ⟨rfl,rfl,rfl⟩ := Answer.relayed.inj heq
        exact ⟨hdata,conn,raw,hconn,hframe,hraw⟩

theorem Inv.handleMessage (h : Inv env raws n s) (hraw : raws[n]? = some raw) :
    Inv env raws (n + 1) (handleMessage env n raw s) := by
  have hensured := h.ensurePipe hraw
  rw [NativeMessaging.handleMessage]
  generalize NativeMessaging.ensurePipe env n raw s = s' at hensured ⊢
  have hstatus (success : Bool) (message : String) : Inv env raws (n + 1)
      (NativeMessaging.respondStatus env s' success message (msgIdOf env raw)) :=
    hensured.respondStatus (hensured.world.mono (Nat.le_succ n)) (.refl _) hensured.clean hraw _ _
  split_ifs
  · exact hstatus _ _
  · exact hstatus _ _
  · cases hpipe : s'.pipe with
    | none => exact hstatus _ _
    | some p => exact hensured.roundTrip hraw (hensured.clean p hpipe)

/-! ## Streams -/

theorem inv_start (env : Environment) (raws : List Bytes) : Inv env raws 0 start where
  length := rfl
  stdout := rfl
  clean p hp := absurd hp (by simp [start])
  answered i c k data hanswer := by cases hanswer
  statuses i response hanswer := by cases hanswer
  world := ⟨fun f hf => (not_mem_nil hf).elim,nodup_nil,
    ⟨fun t ht => absurd ht (by simp [start]),fun l hl => (not_mem_nil hl).elim,
      List.Pairwise.nil⟩,fun l hl => (not_mem_nil hl).elim⟩

theorem Inv.messages {rest : List Bytes} (h : Inv env raws n s) (hrest : raws.drop n = rest) :
    Inv env raws (n + rest.length)
      ((rest.zipIdx n).foldl (fun s e => NativeMessaging.handleMessage env e.2 e.1 s) s) := by
  induction rest generalizing n s with
  | nil => exact h
  | cons raw rest ih =>
    have hraw : raws[n]? = some raw := by
      rw [← head?_drop, hrest]
      rfl
    have htail : raws.drop (n + 1) = rest := by
      rw [← tail_drop, hrest]
      rfl
    have hnext := ih (h.handleMessage hraw) htail
    rw [Nat.succ_add] at hnext
    exact hnext

/-- What the relay does with the messages of a stream. -/
structure Paired (env : Environment) (raws : List Bytes) (s : Relay) : Prop where
  answers : s.answers.length = raws.length
  stdout : s.stdout = frames (s.answers.map (Answer.data env))
  own : ∀ i c k data, s.answers[i]? = some (.relayed c k data) →
    data = env.replies c k ∧ ∃ conn raw, s.world.connections[c]? = some conn ∧
      conn.frames[k]? = some ⟨i,raw⟩ ∧ raws[i]? = some raw
  statuses : ∀ (i : ℕ) (response : HostResponse), s.answers[i]? = some (.status response) →
    ∃ raw, raws[i]? = some raw ∧ response.msgId = msgIdOf env raw
  once : ((delivered s.world).map Frame.message).Nodup
  received : ∀ f ∈ delivered s.world, raws[f.message]? = some f.raw
  launches : ∀ l ∈ s.world.launches, ∃ raw, raws[l.message]? = some raw ∧
    isNoLaunchAction (actionOf env raw) = false
  apart : s.world.launches.Pairwise fun a b => a.time + millis appLaunchCooldownMs ≤ b.time

/-- Every message has one answer, which is the relay's or the App's own answer to it, the App
receives it at most once, and is started only for messages that allow it and not too often. -/
theorem main_paired (env : Environment) {raws : List Bytes}
    (h : ∀ raw ∈ raws, 0 < raw.length ∧ raw.length ≤ maxMessageSize) :
    Paired env raws (main env 0 (frames raws) start) := by
  have hinv := (inv_start env raws).messages (drop_zero (l := raws))
  rw [main_frames env h, Nat.zero_add] at *
  exact ⟨hinv.length,hinv.stdout,hinv.answered,hinv.statuses,hinv.world.once,
    fun f hf => (hinv.world.frames f hf).2,hinv.world.launches,hinv.world.timed.apart⟩

/-- An App that runs, and answers each frame by its place. -/
def running : Environment where
  parse _ := some ⟨"download",7⟩
  toVec _ := []
  connects _ := true
  writes _ := true
  reads _ := true
  replies _ k := [UInt8.ofNat k]
  executables _ := true
  spawns _ := true
  delays _ := 1

theorem main_paired_running :
    Paired running [[1], [2, 3]] (main running 0 (frames [[1], [2, 3]]) start) :=
  main_paired running (by decide)

end RinaDown.RelayPairing
