import RinaDown.RevisionLog

/-!
# Replicas of a log that keep a cursor

A replica pulls the items above its cursor, pushes the contents of its dirty
keys, and moves the cursor to the revision it is answered with. What it holds is
given by two predicates only, so that replicas of any make can follow one log:
`dirty k`, and `agrees k c`, which says that `k` has the content `c` there.
-/

namespace RinaDown.CursorReplica
open RevisionLog List

variable {K D C : Type*}

structure Replica (K C : Type*) where
  cursor : ℕ
  dirty : K → Prop
  agrees : K → C → Prop

/-- What a replica waits for: nothing, to take in an answer, that a push is served, or its
reply, which moves the cursor if `moves` holds. -/
inductive Phase (K D C : Type*) where
  | idle
  | pulled (answer : List (Item K D C)) (revision : ℕ)
  | pushing (sent : List (K × C))
  | pushed (sent : List (K × C)) (revision : ℕ) (moves : Prop)

/-- What the log holds up to the cursor was delivered or comes from the replica itself, and the
replica agrees with that and with its own items wherever it is clean. -/
structure Tracks (log : Log K D C) (d : D) (delivered : List (Item K D C)) (r : Replica K C) :
    Prop where
  cursor_le : r.cursor ≤ log.revision
  seen : ∀ x ∈ log.items, x.revision ≤ r.cursor → x.origin = d ∨ x ∈ delivered
  agree : ∀ x ∈ log.items, x.origin = d ∨ x.revision ≤ r.cursor →
    r.dirty x.key ∨ r.agrees x.key x.content

structure Awaits (log : Log K D C) (d : D) (r : Replica K C) (answer : List (Item K D C))
    (revision : ℕ) : Prop where
  cursor_le : r.cursor ≤ revision
  revision_le : revision ≤ log.revision
  covers : ∀ x ∈ log.items, x.revision ≤ revision → x.revision ≤ r.cursor ∨ x ∈ answer
  own : ∀ x ∈ log.items, x.origin = d → x.revision ≤ revision
  unique : ∀ x ∈ answer, ∀ y ∈ answer, x.key = y.key → x = y
  newest : ∀ x ∈ answer, ∀ y ∈ log.items, x.key = y.key → y = x ∨ revision < y.revision
  held : ∀ x ∈ answer, x.origin = d → r.dirty x.key ∨ r.agrees x.key x.content

structure Sends (r : Replica K C) (sent : List (K × C)) : Prop where
  nodup : (sent.map Prod.fst).Nodup
  dirty : ∀ p ∈ sent, r.dirty p.1

structure Answered (log : Log K D C) (d : D) (r : Replica K C) (sent : List (K × C))
    (revision : ℕ) (moves : Prop) : Prop where
  sends : Sends r sent
  cursor_le : r.cursor ≤ revision
  revision_le : revision ≤ log.revision
  own : ∀ x ∈ log.items, x.origin = d → x.revision ≤ revision
  holds : ∀ p ∈ sent, ∀ x ∈ log.items, x.key = p.1 → x.revision ≤ revision → x.content = p.2
  clear : moves → ∀ x ∈ log.items, x.revision ≤ revision → x.origin = d ∨ x.revision ≤ r.cursor

def InPhase (log : Log K D C) (d : D) (r : Replica K C) : Phase K D C → Prop
  | .idle => True
  | .pulled answer revision => Awaits log d r answer revision
  | .pushing sent => Sends r sent
  | .pushed sent revision moves => Answered log d r sent revision moves

/-- The invariant of a replica between any two steps. -/
structure Follows (log : Log K D C) (d : D) (delivered : List (Item K D C)) (r : Replica K C)
    (phase : Phase K D C) : Prop where
  tracks : Tracks log d delivered r
  inPhase : InPhase log d r phase

variable {log next : Log K D C} {d : D} {delivered answer : List (Item K D C)}
  {r t : Replica K C} {phase : Phase K D C} {sent : List (K × C)} {revision : ℕ} {moves : Prop}

theorem follows_new (h : r.cursor = 0) (hlog : ∀ x ∈ log.items, 0 < x.revision)
    (hown : ∀ x ∈ log.items, x.origin ≠ d) : Follows log d delivered r .idle := by
  have hnone : ∀ x ∈ log.items, ¬ x.revision ≤ r.cursor := by
    intro x hx hle
    have hpos := hlog x hx
    omega
  refine ⟨⟨by omega,fun x hx hle => absurd hle (hnone x hx),fun x hx hor => ?_⟩,trivial⟩
  rcases hor with ho | hle
  · exact absurd ho (hown x hx)
  · exact absurd hle (hnone x hx)

theorem Follows.fail (h : Follows log d delivered r phase) : Follows log d delivered r .idle :=
  ⟨h.tracks,trivial⟩

/-! ## Local edits -/

/-- A step that makes keys dirty and changes dirty keys only. -/
structure Edits (r t : Replica K C) : Prop where
  cursor : t.cursor = r.cursor
  dirty : ∀ k, r.dirty k → t.dirty k
  agrees : ∀ k c, ¬ t.dirty k → r.agrees k c → t.agrees k c

theorem Edits.held (h : Edits r t) {k : K} {c : C} (hr : r.dirty k ∨ r.agrees k c) :
    t.dirty k ∨ t.agrees k c := by
  rcases hr with hd | ha
  · exact .inl (h.dirty k hd)
  · by_cases hd : t.dirty k
    · exact .inl hd
    · exact .inr (h.agrees k c hd ha)

theorem Tracks.edit (h : Tracks log d delivered r) (he : Edits r t) :
    Tracks log d delivered t where
  cursor_le := by
    rw [he.cursor]
    exact h.cursor_le
  seen := by
    rw [he.cursor]
    exact h.seen
  agree := by
    rw [he.cursor]
    exact fun x hx hor => he.held (h.agree x hx hor)

theorem Sends.edit (h : Sends r sent) (he : Edits r t) : Sends t sent :=
  ⟨h.nodup,fun p hp => he.dirty _ (h.dirty p hp)⟩

theorem Follows.edit (h : Follows log d delivered r phase) (he : Edits r t) :
    Follows log d delivered t phase := by
  refine ⟨h.tracks.edit he,?_⟩
  cases phase with
  | idle => trivial
  | pulled answer revision =>
    obtain ⟨h1,h2,h3,h4,h5,h6,h7⟩ := h.inPhase
    exact ⟨he.cursor ▸ h1,h2,he.cursor ▸ h3,h4,h5,h6,fun x hx ho => he.held (h7 x hx ho)⟩
  | pushing sent => exact Sends.edit h.inPhase he
  | pushed sent revision moves =>
    obtain ⟨h1,h2,h3,h4,h5,h6⟩ := h.inPhase
    exact ⟨h1.edit he,he.cursor ▸ h2,h3,h4,h5,he.cursor ▸ h6⟩

theorem Follows.keep (h : Follows log d delivered r .idle) (hcursor : t.cursor = r.cursor)
    (hheld : ∀ k c, r.dirty k ∨ r.agrees k c → t.dirty k ∨ t.agrees k c) :
    Follows log d delivered t .idle := by
  refine ⟨⟨?_,?_,?_⟩,trivial⟩
  · rw [hcursor]
    exact h.tracks.cursor_le
  · rw [hcursor]
    exact h.tracks.seen
  · rw [hcursor]
    exact fun x hx hor => hheld _ _ (h.tracks.agree x hx hor)

/-! ## Pulls -/

theorem Follows.pull (h : Follows log d delivered r .idle) (hw : WellFormed log)
    (hsub : ∀ x ∈ answer, x ∈ log.items)
    (hall : ∀ x ∈ log.items, x.revision ≤ r.cursor ∨ x ∈ answer) :
    Follows log d delivered r (.pulled answer log.revision) where
  tracks := h.tracks
  inPhase :=
    { cursor_le := h.tracks.cursor_le
      revision_le := le_rfl
      covers := fun x hx _ => hall x hx
      own := fun x hx _ => hw.bounded x hx
      unique := fun x hx y hy hk => hw.unique x (hsub x hx) y (hsub y hy) hk
      newest := fun x hx y hy hk => .inl (hw.unique y hy x (hsub x hx) hk.symm)
      held := fun x hx ho => h.tracks.agree x (hsub x hx) (.inl ho) }

/-- A step that takes in one item of the answer, or leaves a dirty key as it is. -/
structure Absorbs (r t : Replica K C) (x : Item K D C) : Prop where
  cursor : t.cursor = r.cursor
  item : t.dirty x.key ∨ t.agrees x.key x.content
  others : ∀ k c, k ≠ x.key → r.dirty k ∨ r.agrees k c → t.dirty k ∨ t.agrees k c

theorem Absorbs.held {x y : Item K D C} (ha : Absorbs r t x) (hxy : y.key = x.key → y = x)
    (hy : r.dirty y.key ∨ r.agrees y.key y.content) : t.dirty y.key ∨ t.agrees y.key y.content := by
  by_cases hk : y.key = x.key
  · rw [hxy hk]
    exact ha.item
  · exact ha.others _ _ hk hy

theorem Awaits.absorb {x : Item K D C} (h : Awaits log d r answer revision) (hx : x ∈ answer)
    (ha : Absorbs r t x) : Awaits log d t answer revision := by
  obtain ⟨h1,h2,h3,h4,h5,h6,h7⟩ := h
  exact ⟨ha.cursor ▸ h1,h2,ha.cursor ▸ h3,h4,h5,h6,
    fun y hy ho => ha.held (h5 y hy x hx) (h7 y hy ho)⟩

theorem Tracks.absorb {x : Item K D C} (h : Tracks log d delivered r)
    (hawaits : Awaits log d r answer revision) (hx : x ∈ answer) (ha : Absorbs r t x) :
    Tracks log d delivered t where
  cursor_le := by
    rw [ha.cursor]
    exact h.cursor_le
  seen := by
    rw [ha.cursor]
    exact h.seen
  agree := by
    intro y hy hor
    rw [ha.cursor] at hor
    by_cases hk : y.key = x.key
    · -- what the log holds for the key now is the item, or is too new to matter
      rcases hawaits.newest x hx y hy hk.symm with rfl | hlt
      · exact ha.item
      · rcases hor with ho | hle
        · exact absurd (hawaits.own y hy ho) (by omega)
        · exact absurd (hle.trans hawaits.cursor_le) (by omega)
    · exact ha.others _ _ hk (h.agree y hy hor)

theorem Follows.absorb {x : Item K D C} (h : Follows log d delivered r (.pulled answer revision))
    (hx : x ∈ answer) (ha : Absorbs r t x) :
    Follows log d delivered t (.pulled answer revision) :=
  ⟨h.tracks.absorb h.inPhase hx ha,h.inPhase.absorb hx ha⟩

theorem Follows.advance (h : Follows log d delivered r (.pulled answer revision))
    (hall : ∀ x ∈ answer, r.dirty x.key ∨ r.agrees x.key x.content) :
    Follows log d (delivered ++ answer) { r with cursor := revision } .idle := by
  have hw : Awaits log d r answer revision := h.inPhase
  refine ⟨⟨hw.revision_le,fun x hx hle => ?_,fun x hx hor => ?_⟩,trivial⟩
  · rcases hw.covers x hx hle with hold | hnew
    · exact (h.tracks.seen x hx hold).imp id (mem_append_left _)
    · exact .inr (mem_append_right _ hnew)
  · have hle : x.revision ≤ revision := hor.elim (hw.own x hx) id
    rcases hw.covers x hx hle with hold | hnew
    · exact h.tracks.agree x hx (.inr hold)
    · exact hall x hnew

theorem Follows.rewind (h : Follows log d delivered r phase) :
    Follows log d delivered { r with cursor := 0 } .idle := by
  refine ⟨⟨Nat.zero_le _,fun x hx hle => ?_,fun x hx hor => ?_⟩,trivial⟩
  · exact h.tracks.seen x hx (hle.trans (Nat.zero_le _))
  · exact h.tracks.agree x hx (hor.imp id (fun hle => hle.trans (Nat.zero_le _)))

/-! ## Pushes -/

theorem Follows.send (h : Follows log d delivered r .idle) (hs : Sends r sent) :
    Follows log d delivered r (.pushing sent) :=
  ⟨h.tracks,hs⟩

theorem Follows.other {o : D} {pushed : List (K × C)} (h : Follows log d delivered r phase)
    (hp : Pushed log o pushed next) (hne : o ≠ d) : Follows next d delivered r phase := by
  -- an item that is new is neither the replica's own nor at or below a revision of the old log
  have hold : ∀ x ∈ next.items, x.origin = d ∨ x.revision ≤ log.revision → x ∈ log.items := by
    intro x hx hor
    rcases hp.new x hx with hmem | ⟨ho,hlt⟩
    · exact hmem
    · rcases hor with hd | hle
      · exact absurd (ho.symm.trans hd) hne
      · omega
  have hcur := h.tracks.cursor_le
  refine ⟨⟨hcur.trans hp.le,fun x hx hle => ?_,fun x hx hor => ?_⟩,?_⟩
  · exact h.tracks.seen x (hold x hx (.inr (hle.trans hcur))) hle
  · exact h.tracks.agree x (hold x hx (hor.imp id (fun hle => hle.trans hcur))) hor
  cases phase with
  | idle => trivial
  | pushing sent => exact h.inPhase
  | pulled answer revision =>
    have hw : Awaits log d r answer revision := h.inPhase
    refine ⟨hw.cursor_le,hw.revision_le.trans hp.le,fun x hx hle => ?_,fun x hx ho => ?_,
      hw.unique,fun x hx y hy hk => ?_,hw.held⟩
    · exact hw.covers x (hold x hx (.inr (hle.trans hw.revision_le))) hle
    · exact hw.own x (hold x hx (.inl ho)) ho
    · by_cases hle : y.revision ≤ revision
      · exact hw.newest x hx y (hold y hy (.inr (hle.trans hw.revision_le))) hk
      · exact .inr (not_le.mp hle)
  | pushed sent revision moves =>
    have hw : Answered log d r sent revision moves := h.inPhase
    refine ⟨hw.sends,hw.cursor_le,hw.revision_le.trans hp.le,fun x hx ho => ?_,
      fun p hpm x hx hk hle => ?_,fun had x hx hle => ?_⟩
    · exact hw.own x (hold x hx (.inl ho)) ho
    · exact hw.holds p hpm x (hold x hx (.inr (hle.trans hw.revision_le))) hk hle
    · exact hw.clear had x (hold x hx (.inr (hle.trans hw.revision_le))) hle

/-- The replica's own push is served; before it, no item of another replica is above the cursor
if the reply will move it. -/
theorem Follows.serve (h : Follows log d delivered r (.pushing sent)) (hp : Pushed log d sent next)
    (hclear : moves → ∀ x ∈ log.items, x.origin = d ∨ x.revision ≤ r.cursor) :
    Follows next d delivered r (.pushed sent next.revision moves) := by
  have hs : Sends r sent := h.inPhase
  have hcur := h.tracks.cursor_le
  refine ⟨⟨hcur.trans hp.le,fun x hx hle => ?_,fun x hx hor => ?_⟩,hs,hcur.trans hp.le,le_rfl,
    fun x hx _ => hp.wellFormed.bounded x hx,fun p hpm x hx hk _ => hp.holds p hpm x hx hk,
    fun had x hx _ => ?_⟩
  · rcases hp.new x hx with hold | ⟨ho,-⟩
    · exact h.tracks.seen x hold hle
    · exact .inl ho
  · by_cases hk : x.key ∈ sent.map Prod.fst
    · obtain ⟨p,hpm,hpk⟩ := mem_map.mp hk
      exact .inl (hpk ▸ hs.dirty p hpm)
    · exact h.tracks.agree x (hp.others x hx hk) hor
  · rcases hp.new x hx with hold | ⟨ho,-⟩
    · exact hclear had x hold
    · exact .inl ho

/-- A step that takes the reply of a push: it may clean the keys that were sent if they still
agree with it. -/
structure Confirms (r t : Replica K C) (sent : List (K × C)) (revision : ℕ) (moves : Prop) :
    Prop where
  cursor : t.cursor = r.cursor ∨ moves ∧ t.cursor = revision
  kept : ∀ p ∈ sent, t.dirty p.1 ∨ t.agrees p.1 p.2
  others : ∀ k c, k ∉ sent.map Prod.fst → r.dirty k ∨ r.agrees k c → t.dirty k ∨ t.agrees k c

theorem Follows.confirm (h : Follows log d delivered r (.pushed sent revision moves))
    (hc : Confirms r t sent revision moves) : Follows log d delivered t .idle := by
  have hw : Answered log d r sent revision moves := h.inPhase
  have hle : t.cursor ≤ revision := by
    rcases hc.cursor with heq | ⟨-,heq⟩
    · exact heq ▸ hw.cursor_le
    · exact heq.le
  -- whatever lies under the new cursor is the replica's own or lay under the old one
  have hunder : ∀ x ∈ log.items, x.origin = d ∨ x.revision ≤ t.cursor →
      x.origin = d ∨ x.revision ≤ r.cursor := by
    intro x hx hor
    rcases hc.cursor with heq | ⟨had,heq⟩
    · rwa [heq] at hor
    · rw [heq] at hor
      exact hor.elim .inl (hw.clear had x hx)
  refine ⟨⟨hle.trans hw.revision_le,fun x hx hxc => ?_,fun x hx hor => ?_⟩,trivial⟩
  · rcases hunder x hx (.inr hxc) with ho | hold
    · exact .inl ho
    · exact h.tracks.seen x hx hold
  · by_cases hk : x.key ∈ sent.map Prod.fst
    · obtain ⟨p,hpm,hpk⟩ := mem_map.mp hk
      have hrev : x.revision ≤ revision := hor.elim (hw.own x hx) (fun h => h.trans hle)
      rw [← hpk, hw.holds p hpm x hx hpk.symm hrev]
      exact hc.kept p hpm
    · exact hc.others _ _ hk (h.tracks.agree x hx (hunder x hx hor))

/-! ## Replicas that have caught up -/

/-- A clean replica whose cursor is the revision of the log agrees with all of it. -/
theorem Follows.caught_up (h : Follows log d delivered r phase) (hw : WellFormed log)
    (hclean : ∀ k, ¬ r.dirty k) (hcur : r.cursor = log.revision) :
    ∀ x ∈ log.items, r.agrees x.key x.content := by
  intro x hx
  have hle : x.revision ≤ r.cursor := by
    rw [hcur]
    exact hw.bounded x hx
  exact (h.tracks.agree x hx (.inr hle)).resolve_left (hclean _)

end RinaDown.CursorReplica
