import RinaDown.KadContacts
import RinaDown.NearestLists

/-!
# The candidates of a Kad lookup

A lookup keeps the candidates nearest to its target. It starts from the contacts of `nodes.dat`,
merges those that the bootstrap answers bring, and then asks the nearest unqueried candidates in
rounds. An address whose candidate was cut off stays seen; it was beaten by a full list, and the
list only gets nearer.
-/

namespace RinaDown.KadLookup

open KadContacts NearestLists List

def branch : ℕ := 5
def maxCandidates : ℕ := 100
def maxStalls : ℕ := 3

structure SocketAddrV4 where
  ip : Ipv4Addr
  port : UInt16
  deriving DecidableEq, Repr

structure Candidate where
  addr : SocketAddrV4
  id : KadId
  queried : Bool
  deriving DecidableEq

/-- A contact without a UDP port or with the unspecified address is of no use. -/
def Candidate.fromContact (c : Contact) : Option Candidate :=
  if c.endpoint.udpPort = 0 ∨ c.endpoint.ip = 0 then
    none
  else
    some
      { addr := { ip := c.endpoint.ip, port := c.endpoint.udpPort }, id := c.id, queried := false }

/-- What a received datagram is decoded to. -/
inductive Datagram
  | bootstrapRes (contacts : List Contact)
  | res (contacts : List Contact)
  | other

def Datagram.bootstrapContacts : Datagram → List Contact
  | bootstrapRes contacts => contacts
  | _ => []

def Datagram.findNodeContacts : Datagram → List Contact
  | res contacts => contacts
  | _ => []

structure Known where
  candidates : List Candidate
  seen : List SocketAddrV4

def Known.learn (k : Known) (c : Contact) : Known :=
  match Candidate.fromContact c with
  | none => k
  | some cand =>
    if cand.addr ∈ k.seen then
      k
    else
      { candidates := k.candidates ++ [cand], seen := cand.addr :: k.seen }

def sortCandidates (target : KadId) (candidates : List Candidate) : List Candidate :=
  candidates.mergeSort (fun a b => (xorCmp a.id b.id target).isLE)

/-- Learn the contacts of a window, sort, and cut. -/
def Known.merge (target : KadId) (k : Known) (contacts : List Contact) : Known :=
  let learned := contacts.foldl Known.learn k
  { learned with
    candidates := (sortCandidates target learned.candidates).take maxCandidates }

/-- The initial candidates, sorted but not cut; without any there is no lookup. -/
def start (target : KadId) (bootstrap : List Contact) : Option Known :=
  let learned := bootstrap.foldl Known.learn { candidates := [], seen := [] }
  if learned.candidates = [] then
    none
  else
    some { learned with candidates := sortCandidates target learned.candidates }

/-- The first `n` unqueried candidates, and all candidates with these marked. -/
def takeUnqueried : ℕ → List Candidate → List Candidate × List Candidate
  | 0, candidates => ([], candidates)
  | _ + 1, [] => ([], [])
  | n + 1, c :: candidates =>
    if c.queried then
      let rest := takeUnqueried (n + 1) candidates
      (rest.1, c :: rest.2)
    else
      let rest := takeUnqueried n candidates
      ({ c with queried := true } :: rest.1, { c with queried := true } :: rest.2)

structure Lookup where
  known : Known
  stalls : ℕ
  running : Bool
  asked : List SocketAddrV4

/-- The bootstrap answers are merged before the first round. -/
def bootstrapped (target : KadId) (k : Known) (window : List Datagram) : Lookup where
  known := k.merge target (window.flatMap Datagram.bootstrapContacts)
  stalls := 0
  running := true
  asked := []

def improved (target : KadId) : Option Candidate → Option Candidate → Bool
  | some prev, some now => xorCmp now.id prev.id target = .lt
  | _, _ => false

/-- One round: ask a batch and merge what its window brings. Without a batch, or
after the last stall, there is no further round. -/
def findNodeRound (target : KadId) (s : Lookup) (window : List Datagram) : Option Lookup :=
  if s.running = false then
    none
  else
    let batch := takeUnqueried branch s.known.candidates
    if batch.1 = [] then
      none
    else
      let known := { s.known with candidates := batch.2 }.merge target
        (window.flatMap Datagram.findNodeContacts)
      let asked := s.asked ++ batch.1.map Candidate.addr
      if improved target batch.2.head? known.candidates.head? then
        some { known := known, stalls := 0, running := true, asked := asked }
      else
        some
          { known := known, stalls := s.stalls + 1, running := s.stalls + 1 < maxStalls,
            asked := asked }

/-- The lookup after `n` rounds, if it makes that many. -/
def findNodes (target : KadId) (s : Lookup) (windows : ℕ → List Datagram) : ℕ → Option Lookup
  | 0 => some s
  | n + 1 => (findNodes target s windows n).bind (fun s => findNodeRound target s (windows n))

/-- The lookup after the bootstrap phase and `n` rounds. -/
def lookup (target : KadId) (bootstrap : List Contact) (boot : List Datagram)
    (windows : ℕ → List Datagram) (n : ℕ) : Option Lookup :=
  (start target bootstrap).bind (fun k => findNodes target (bootstrapped target k boot) windows n)

/-- The contacts received until after round `n`, in their order. -/
def heard (bootstrap : List Contact) (boot : List Datagram) (windows : ℕ → List Datagram) :
    ℕ → List Contact
  | 0 => bootstrap ++ boot.flatMap Datagram.bootstrapContacts
  | n + 1 => heard bootstrap boot windows n ++ (windows n).flatMap Datagram.findNodeContacts

/-! ## Who was learned -/

abbrev Entry := SocketAddrV4 × KadId

def Candidate.entry (c : Candidate) : Entry := (c.addr, c.id)

def dist (target : KadId) (e : Entry) : ℕ := distance target e.2

/-- The first usable contact with this address carries this identifier. -/
def Learned (contacts : List Contact) (e : Entry) : Prop :=
  ((contacts.filterMap Candidate.fromContact).find? (fun c => c.addr = e.1)).map Candidate.entry =
    some e

variable {contacts more bootstrap : List Contact} {c : Contact} {k : Known} {n : ℕ}
  {l : List Candidate} {target : KadId} {window : List Datagram} {s : Lookup}

theorem learned_append {e : Entry} :
    Learned (contacts ++ more) e ↔
      Learned contacts e ∨ ((∀ id, ¬ Learned contacts (e.1, id)) ∧ Learned more e) := by
  unfold Learned
  rw [filterMap_append, find?_append]
  cases hfind : (contacts.filterMap Candidate.fromContact).find? (fun c => c.addr = e.1) with
  | none =>
    simp only [hfind, Option.none_or, Option.map_none]
    refine ⟨fun h => .inr ⟨fun id => nofun,h⟩,?_⟩
    rintro (h | ⟨-,h⟩)
    · cases h
    · exact h
  | some c =>
    have haddr : c.addr = e.1 := by simpa using find?_some hfind
    simp only [Option.some_or, Option.map_some, Option.some.injEq, Candidate.entry]
    constructor
    · exact .inl
    · rintro (h | ⟨hnone,-⟩)
      · exact h
      · exact absurd (by rw [hfind, ← haddr]; rfl) (hnone c.id)

theorem learned_singleton {e : Entry} :
    Learned [c] e ↔ ∃ cand, Candidate.fromContact c = some cand ∧ cand.entry = e := by
  unfold Learned
  cases hc : Candidate.fromContact c with
  | none => simp [hc]
  | some cand =>
    by_cases haddr : cand.addr = e.1
    · simp [hc, haddr]
    · have hne : cand.entry ≠ e := fun h => haddr (by rw [← h]; rfl)
      simp [hc, haddr, hne]

theorem Candidate.fromContact_unqueried {cand : Candidate} (h : Candidate.fromContact c = some cand)
    : cand.queried = false := by
  unfold Candidate.fromContact at h
  split at h
  · cases h
  · cases h
    rfl

/-- The seen addresses are those of the usable contacts received. -/
def Seen (contacts : List Contact) (seen : List SocketAddrV4) : Prop :=
  ∀ a, a ∈ seen ↔ ∃ id, Learned contacts (a, id)

theorem Seen.mem {seen : List SocketAddrV4} (h : Seen contacts seen) {e : Entry}
    (he : Learned contacts e) : e.1 ∈ seen :=
  (h e.1).mpr ⟨e.2,he⟩

/-- Learning `more` after `contacts` appends the `fresh` candidates. -/
structure Learns (contacts more : List Contact) (k k' : Known) (fresh : List Candidate) : Prop where
  seen : Seen (contacts ++ more) k'.seen
  candidates : k'.candidates = k.candidates ++ fresh
  unqueried : ∀ c ∈ fresh, c.queried = false
  nodup : (fresh.map Candidate.addr).Nodup
  unseen : ∀ c ∈ fresh, c.addr ∉ k.seen
  learned : ∀ e, Learned (contacts ++ more) e ↔
    Learned contacts e ∨ e ∈ fresh.map Candidate.entry

theorem learns_nil (h : Seen contacts k.seen) :
    Learns contacts [] k k [] where
  seen := by rwa [append_nil]
  candidates := by rw [append_nil]
  unqueried _ hc := nomatch hc
  nodup := nodup_nil
  unseen _ hc := nomatch hc
  learned e := by simp

theorem learns_skip (h : Seen contacts k.seen) (hskip : ∀ e, Learned [c] e → e.1 ∈ k.seen) :
    Learns contacts [c] k k [] := by
  have hlearned : ∀ e, Learned (contacts ++ [c]) e ↔ Learned contacts e := by
    intro e
    rw [learned_append]
    refine ⟨?_,.inl⟩
    rintro (he | ⟨hnone,he⟩)
    · exact he
    · obtain ⟨id,hid⟩ := (h e.1).mp (hskip e he)
      exact absurd hid (hnone id)
  refine ⟨?_,by rw [append_nil],nofun,nodup_nil,nofun,?_⟩
  · intro a
    simp only [hlearned]
    exact h a
  · intro e
    simpa using hlearned e

theorem learns_push {cand : Candidate} (h : Seen contacts k.seen)
    (hcand : Candidate.fromContact c = some cand) (hnew : cand.addr ∉ k.seen) :
    Learns contacts [c] k
      { candidates := k.candidates ++ [cand], seen := cand.addr :: k.seen } [cand] := by
  have hlearned : ∀ e, Learned (contacts ++ [c]) e ↔ Learned contacts e ∨ e = cand.entry := by
    intro e
    rw [learned_append, learned_singleton]
    refine or_congr_right ⟨?_,?_⟩
    · rintro ⟨-,cand',hcand',rfl⟩
      rw [hcand] at hcand'
      cases hcand'
      rfl
    · rintro rfl
      exact ⟨fun id hid => hnew (h.mem hid),cand,hcand,rfl⟩
  refine ⟨?_,rfl,?_,?_,?_,?_⟩
  · intro a
    simp only [hlearned, exists_or, mem_cons, h a]
    rw [or_comm]
    refine or_congr_right ⟨?_,?_⟩
    · rintro rfl
      exact ⟨cand.id,rfl⟩
    · rintro ⟨id,hid⟩
      exact congrArg Prod.fst hid
  · intro d hd
    rw [mem_singleton.mp hd]
    exact Candidate.fromContact_unqueried hcand
  · simp
  · intro d hd
    rwa [mem_singleton.mp hd]
  · intro e
    simpa using hlearned e

theorem learn_learns (h : Seen contacts k.seen) (c : Contact) :
    ∃ fresh, Learns contacts [c] k (k.learn c) fresh := by
  unfold Known.learn
  cases hcand : Candidate.fromContact c with
  | none =>
    refine ⟨[],learns_skip h ?_⟩
    intro e he
    obtain ⟨cand,hc,-⟩ := learned_singleton.mp he
    rw [hcand] at hc
    cases hc
  | some cand =>
    dsimp only
    split
    · refine ⟨[],learns_skip h ?_⟩
      intro e he
      obtain ⟨cand',hc,rfl⟩ := learned_singleton.mp he
      rw [hcand] at hc
      cases hc
      assumption
    · exact ⟨[cand],learns_push h hcand (by assumption)⟩

theorem Learns.trans {later : List Contact} {k' k'' : Known} {fresh fresh' : List Candidate}
    (hseen : Seen contacts k.seen) (h : Learns contacts more k k' fresh)
    (h' : Learns (contacts ++ more) later k' k'' fresh') :
    Learns contacts (more ++ later) k k'' (fresh ++ fresh') where
  seen := by
    rw [← append_assoc]
    exact h'.seen
  candidates := by rw [h'.candidates, h.candidates, append_assoc]
  unqueried c hc := (mem_append.mp hc).elim (h.unqueried c) (h'.unqueried c)
  nodup := by
    rw [map_append]
    refine nodup_append.mpr ⟨h.nodup,h'.nodup,?_⟩
    intro a ha b hb hab
    obtain ⟨c,hc,rfl⟩ := mem_map.mp ha
    obtain ⟨d,hd,rfl⟩ := mem_map.mp hb
    refine h'.unseen d hd ?_
    rw [← hab]
    exact h.seen.mem ((h.learned c.entry).mpr (.inr (mem_map_of_mem hc)))
  unseen c hc := by
    rcases mem_append.mp hc with hc | hc
    · exact h.unseen c hc
    · intro hold
      obtain ⟨id,hid⟩ := (hseen c.addr).mp hold
      exact h'.unseen c hc (h.seen.mem ((h.learned _).mpr (.inl hid)))
  learned e := by
    rw [← append_assoc, h'.learned, h.learned, map_append, mem_append, or_assoc]

theorem foldl_learns (h : Seen contacts k.seen) (more : List Contact) :
    ∃ fresh, Learns contacts more k (more.foldl Known.learn k) fresh := by
  induction more generalizing contacts k with
  | nil => exact ⟨[],learns_nil h⟩
  | cons c more ih =>
    obtain ⟨fresh,hfresh⟩ := learn_learns h c
    obtain ⟨fresh',hfresh'⟩ := ih hfresh.seen
    exact ⟨fresh ++ fresh',hfresh.trans h hfresh'⟩

/-! ## The batches -/

theorem takeUnqueried_entry (n : ℕ) (l : List Candidate) :
    (takeUnqueried n l).2.map Candidate.entry = l.map Candidate.entry := by
  fun_induction takeUnqueried n l with
  | case1 => rfl
  | case2 => rfl
  | case3 n c l hc rest ih => exact congrArg (c.entry :: ·) ih
  | case4 n c l hc rest ih => exact congrArg (c.entry :: ·) ih

theorem takeUnqueried_addr (n : ℕ) (l : List Candidate) :
    (takeUnqueried n l).2.map Candidate.addr = l.map Candidate.addr := by
  have h := congrArg (List.map Prod.fst) (takeUnqueried_entry n l)
  rwa [map_map, map_map] at h

theorem takeUnqueried_addr_sublist (n : ℕ) (l : List Candidate) :
    ((takeUnqueried n l).1.map Candidate.addr).Sublist (l.map Candidate.addr) := by
  fun_induction takeUnqueried n l with
  | case1 => exact nil_sublist _
  | case2 => exact nil_sublist _
  | case3 n c l hc rest ih => exact ih.cons _
  | case4 n c l hc rest ih => exact ih.cons_cons _

theorem unqueried_of_mem_batch {b : Candidate} (hb : b ∈ (takeUnqueried n l).1) :
    ∃ c ∈ l, c.queried = false ∧ c.addr = b.addr := by
  fun_induction takeUnqueried n l with
  | case1 => cases hb
  | case2 => cases hb
  | case3 n c l hc rest ih =>
    obtain ⟨d,hd,h⟩ := ih hb
    exact ⟨d,mem_cons_of_mem _ hd,h⟩
  | case4 n c l hc rest ih =>
    rcases mem_cons.mp hb with rfl | hb
    · exact ⟨c,mem_cons_self,by simpa using hc,rfl⟩
    · obtain ⟨d,hd,h⟩ := ih hb
      exact ⟨d,mem_cons_of_mem _ hd,h⟩

/-- What is asked stands marked among the candidates, and no mark is taken off. -/
theorem mem_takeUnqueried {c : Candidate} (hc : c ∈ (takeUnqueried n l).2) :
    c.queried = true ∨ c ∈ l := by
  fun_induction takeUnqueried n l with
  | case1 => exact .inr hc
  | case2 => cases hc
  | case3 n d l hd rest ih =>
    rcases mem_cons.mp hc with rfl | hc
    · exact .inl hd
    · exact (ih hc).imp_right (mem_cons_of_mem _)
  | case4 n d l hd rest ih =>
    rcases mem_cons.mp hc with rfl | hc
    · exact .inl rfl
    · exact (ih hc).imp_right (mem_cons_of_mem _)

theorem mem_marked_of_mem_batch {b : Candidate} (hb : b ∈ (takeUnqueried n l).1) :
    b.queried = true ∧ b ∈ (takeUnqueried n l).2 := by
  fun_induction takeUnqueried n l with
  | case1 => cases hb
  | case2 => cases hb
  | case3 n c l hc rest ih => exact (ih hb).imp_right (mem_cons_of_mem _)
  | case4 n c l hc rest ih =>
    rcases mem_cons.mp hb with rfl | hb
    · exact ⟨rfl,mem_cons_self⟩
    · exact (ih hb).imp_right (mem_cons_of_mem _)

/-! ## The merge -/

theorem dist_entry (target : KadId) (c : Candidate) :
    dist target c.entry = distance target c.id := rfl

theorem sortCandidates_entry (target : KadId) (l : List Candidate) :
    (sortCandidates target l).map Candidate.entry =
      (l.map Candidate.entry).mergeSort (fun a b => dist target a ≤ dist target b) := by
  unfold sortCandidates
  refine map_mergeSort ?_
  intro a _ b _
  rw [Bool.eq_iff_iff, xorCmp_isLE_iff, decide_eq_true_iff]
  rfl

theorem mem_sortCandidates {c : Candidate} :
    c ∈ sortCandidates target l ↔ c ∈ l :=
  mem_mergeSort

structure KnownInv (target : KadId) (contacts : List Contact) (k : Known) : Prop where
  seen : Seen contacts k.seen
  nodup : (k.candidates.map Candidate.addr).Nodup
  nearest : IsNearest (dist target) maxCandidates (Learned contacts)
    (k.candidates.map Candidate.entry)

theorem nodup_entry (h : (l.map Candidate.addr).Nodup) :
    (l.map Candidate.entry).Nodup := by
  refine List.Nodup.of_map Prod.fst ?_
  rwa [map_map]

theorem KnownInv.learned (h : KnownInv target contacts k) {c : Candidate} (hc : c ∈ k.candidates) :
    Learned contacts c.entry :=
  h.nearest.arrived _ (mem_map_of_mem hc)

theorem KnownInv.learns_nodup {k' : Known} {fresh : List Candidate} (h : KnownInv target contacts k)
    (hfresh : Learns contacts more k k' fresh) : (k'.candidates.map Candidate.addr).Nodup := by
  rw [hfresh.candidates, map_append]
  refine nodup_append.mpr ⟨h.nodup,hfresh.nodup,?_⟩
  intro a ha b hb hab
  obtain ⟨c,hc,rfl⟩ := mem_map.mp ha
  obtain ⟨d,hd,rfl⟩ := mem_map.mp hb
  exact hfresh.unseen d hd (hab ▸ h.seen.mem (h.learned hc))

theorem merge_known (h : KnownInv target contacts k) (more : List Contact) :
    KnownInv target (contacts ++ more) (k.merge target more) ∧
      (∀ a ∈ k.seen, a ∈ (k.merge target more).seen) ∧
      ∀ c ∈ (k.merge target more).candidates, c ∈ k.candidates ∨ c.addr ∉ k.seen := by
  obtain ⟨fresh,hfresh⟩ := foldl_learns h.seen more
  have hnodup := h.learns_nodup hfresh
  have hentry : (k.merge target more).candidates.map Candidate.entry =
      nearest (dist target) maxCandidates
        (k.candidates.map Candidate.entry ++ fresh.map Candidate.entry) := by
    unfold Known.merge nearest
    rw [map_take, sortCandidates_entry, hfresh.candidates, map_append]
  refine ⟨⟨hfresh.seen,?_,?_⟩,?_,?_⟩
  · have hperm := (mergeSort_perm (more.foldl Known.learn k).candidates
      (fun a b => (xorCmp a.id b.id target).isLE)).map Candidate.addr
    exact (hperm.nodup_iff.mpr hnodup).sublist ((take_sublist _ _).map _)
  · rw [hentry]
    have hall := nodup_entry hnodup
    rw [hfresh.candidates, map_append] at hall
    have hmerge := h.nearest.merge hall
    have hlearned : Learned (contacts ++ more) =
        fun e => Learned contacts e ∨ e ∈ fresh.map Candidate.entry :=
      funext fun e => propext (hfresh.learned e)
    rwa [hlearned]
  · intro a ha
    obtain ⟨id,hid⟩ := (h.seen a).mp ha
    exact hfresh.seen.mem ((hfresh.learned _).mpr (.inl hid))
  · intro c hc
    have hmem := mem_sortCandidates.mp (mem_of_mem_take hc)
    rw [hfresh.candidates] at hmem
    exact (mem_append.mp hmem).imp_right (hfresh.unseen c)

theorem start_known (h : start target bootstrap = some k) : KnownInv target bootstrap k := by
  have hempty : Seen [] ([] : List SocketAddrV4) := by
    intro a
    simp [Learned]
  obtain ⟨fresh,hfresh⟩ := foldl_learns (k := { candidates := [], seen := [] }) hempty bootstrap
  unfold start at h
  dsimp only at h
  split at h
  · cases h
  · cases h
    have hlearned : Learned bootstrap = fun e => e ∈ fresh.map Candidate.entry := by
      funext e
      refine propext ((hfresh.learned e).trans ⟨?_,.inr⟩)
      rintro (he | he)
      · simp [Learned] at he
      · exact he
    refine ⟨hfresh.seen,?_,?_⟩
    · have hperm := (mergeSort_perm fresh
        (fun a b => (xorCmp a.id b.id target).isLE)).map Candidate.addr
      rw [hfresh.candidates]
      exact hperm.nodup_iff.mpr hfresh.nodup
    · rw [hlearned, hfresh.candidates, sortCandidates_entry]
      exact isNearest_mergeSort _ _ _

/-! ## The rounds -/

def bestDistance (target : KadId) (candidates : List Candidate) : ℕ :=
  (candidates.head?.map (fun c => distance target c.id)).getD 0

/-- Falls with every round: a round that brings nothing nearer is a stall. -/
def roundsLeft (target : KadId) (s : Lookup) : ℕ :=
  maxStalls * bestDistance target s.known.candidates + (maxStalls - s.stalls)

theorem improved_some {prev now : Candidate} :
    improved target (some prev) (some now) = true ↔
      distance target now.id < distance target prev.id := by
  rw [← xorCmp_eq_lt_iff]
  exact decide_eq_true_iff

structure Inv (target : KadId) (contacts : List Contact) (s : Lookup) : Prop where
  known : KnownInv target contacts s.known
  stalls : s.running = true → s.stalls < maxStalls
  asked_nodup : s.asked.Nodup
  asked_seen : ∀ a ∈ s.asked, a ∈ s.known.seen
  asked_queried : ∀ c ∈ s.known.candidates, c.addr ∈ s.asked → c.queried = true

theorem bootstrapped_inv (h : start target bootstrap = some k) (boot : List Datagram) :
    Inv target (bootstrap ++ boot.flatMap Datagram.bootstrapContacts)
      (bootstrapped target k boot) where
  known := (merge_known (start_known h) _).1
  stalls _ := Nat.succ_pos 2
  asked_nodup := nodup_nil
  asked_seen _ ha := nomatch ha
  asked_queried _ _ ha := nomatch ha

theorem KnownInv.marked (h : KnownInv target contacts k) (n : ℕ) :
    KnownInv target contacts { k with candidates := (takeUnqueried n k.candidates).2 } where
  seen := h.seen
  nodup := by
    rw [takeUnqueried_addr]
    exact h.nodup
  nearest := by
    rw [takeUnqueried_entry]
    exact h.nearest

theorem eq_of_addr_eq (h : (l.map Candidate.addr).Nodup) {a b : Candidate} (ha : a ∈ l) (hb : b ∈ l)
    (heq : a.addr = b.addr) : a = b :=
  inj_on_of_nodup_map h ha hb heq

theorem findNodeRound_some {s' : Lookup} (h : findNodeRound target s window = some s') :
    s.running = true ∧ (takeUnqueried branch s.known.candidates).1 ≠ [] ∧
      s'.known = { s.known with candidates := (takeUnqueried branch s.known.candidates).2 }.merge
        target (window.flatMap Datagram.findNodeContacts) ∧
      s'.asked = s.asked ++ (takeUnqueried branch s.known.candidates).1.map Candidate.addr ∧
      ((improved target (takeUnqueried branch s.known.candidates).2.head?
          s'.known.candidates.head? = true ∧ s'.stalls = 0) ∨
        (s'.stalls = s.stalls + 1 ∧ (s'.running = true → s.stalls + 1 < maxStalls))) := by
  unfold findNodeRound at h
  dsimp only at h
  split at h
  · cases h
  · split at h
    · cases h
    · rename_i hrunning hbatch
      split at h
      · cases h
        exact ⟨by simpa using hrunning,hbatch,rfl,rfl,.inl ⟨by assumption,rfl⟩⟩
      · cases h
        exact ⟨by simpa using hrunning,hbatch,rfl,rfl,.inr ⟨rfl,by simp⟩⟩

theorem findNodeRound_inv {s' : Lookup} (hs : Inv target contacts s)
    (h : findNodeRound target s window = some s') :
    Inv target (contacts ++ window.flatMap Datagram.findNodeContacts) s' := by
  obtain ⟨hrunning,hbatch,hknown,hasked,hstalls⟩ := findNodeRound_some h
  have hmarked := hs.known.marked branch
  obtain ⟨hmerged,hseen,hcandidates⟩ :=
    merge_known hmarked (window.flatMap Datagram.findNodeContacts)
  rw [← hknown] at hmerged hseen hcandidates
  have hbatch_seen : ∀ b ∈ (takeUnqueried branch s.known.candidates).1,
      b.addr ∈ s.known.seen := by
    intro b hb
    obtain ⟨c,hc,-,haddr⟩ := unqueried_of_mem_batch hb
    rw [← haddr]
    exact hs.known.seen.mem (hs.known.learned hc)
  refine ⟨hmerged,?_,?_,?_,?_⟩
  · intro hrun
    rcases hstalls with ⟨-,hzero⟩ | ⟨hstall,hlt⟩
    · rw [hzero]
      decide
    · rw [hstall]
      exact hlt hrun
  · rw [hasked]
    refine nodup_append.mpr ⟨hs.asked_nodup,?_,?_⟩
    · exact hs.known.nodup.sublist (takeUnqueried_addr_sublist _ _)
    · intro a ha b hb hab
      obtain ⟨c,hc,rfl⟩ := mem_map.mp hb
      obtain ⟨d,hd,hunqueried,haddr⟩ := unqueried_of_mem_batch hc
      rw [hs.asked_queried d hd (by rwa [haddr, ← hab])] at hunqueried
      cases hunqueried
  · intro a ha
    rw [hasked] at ha
    refine hseen a ?_
    rcases mem_append.mp ha with ha | ha
    · exact hs.asked_seen a ha
    · obtain ⟨b,hb,rfl⟩ := mem_map.mp ha
      exact hbatch_seen b hb
  · intro c hc ha
    rw [hasked] at ha
    have hold : c.addr ∈ s.known.seen := by
      rcases mem_append.mp ha with ha | ha
      · exact hs.asked_seen _ ha
      · obtain ⟨b,hb,haddr⟩ := mem_map.mp ha
        rw [← haddr]
        exact hbatch_seen b hb
    have hkept := (hcandidates c hc).resolve_right (fun hnew => hnew hold)
    rcases mem_append.mp ha with ha | ha
    · rcases mem_takeUnqueried hkept with hqueried | hbefore
      · exact hqueried
      · exact hs.asked_queried c hbefore ha
    · obtain ⟨b,hb,haddr⟩ := mem_map.mp ha
      obtain ⟨hqueried,hmem⟩ := mem_marked_of_mem_batch hb
      rwa [← eq_of_addr_eq hmarked.nodup hmem hkept haddr]

/-- The nearest candidate is never lost for a farther one. -/
theorem bestDistance_le {k' : Known} (h : KnownInv target contacts k)
    (h' : KnownInv target (contacts ++ more) k') (hne : k.candidates ≠ []) :
    ∃ best best' : Candidate, k.candidates.head? = some best ∧ k'.candidates.head? = some best' ∧
      distance target best'.id ≤ distance target best.id := by
  obtain ⟨best,rest,hcons⟩ := exists_cons_of_ne_nil hne
  have hlearned : Learned (contacts ++ more) best.entry :=
    learned_append.mpr (.inl (h.learned (by rw [hcons]; exact mem_cons_self)))
  cases hk : k'.candidates with
  | nil =>
    have hfull := h'.nearest.full _ hlearned (by rw [hk]; exact not_mem_nil)
    rw [hk] at hfull
    exact absurd hfull (by decide)
  | cons best' rest' =>
    refine ⟨best,best',by rw [hcons]; rfl,rfl,?_⟩
    rw [← dist_entry, ← dist_entry]
    have hsorted := h'.nearest.sorted
    by_cases hmem : best.entry ∈ k'.candidates.map Candidate.entry
    · rw [hk] at hsorted hmem
      rcases mem_cons.mp hmem with heq | hrest
      · rw [heq]
      · exact (pairwise_cons.mp hsorted).1 _ hrest
    · refine h'.nearest.nearer _ hlearned hmem best'.entry ?_
      rw [hk]
      exact mem_cons_self

theorem findNodeRound_roundsLeft {s' : Lookup} (hs : Inv target contacts s)
    (h : findNodeRound target s window = some s') : roundsLeft target s' < roundsLeft target s := by
  have hs' := findNodeRound_inv hs h
  obtain ⟨hrunning,hbatch,hknown,-,hstalls⟩ := findNodeRound_some h
  have hlt := hs.stalls hrunning
  have hmarked := hs.known.marked branch
  have hne : (takeUnqueried branch s.known.candidates).2 ≠ [] := by
    obtain ⟨b,hb⟩ := exists_mem_of_ne_nil _ hbatch
    exact ne_nil_of_mem (mem_marked_of_mem_batch hb).2
  obtain ⟨best,best',hbest,hbest',hle⟩ := bestDistance_le hmarked hs'.known hne
  have hhead : bestDistance target s.known.candidates = distance target best.id := by
    have hentry := congrArg head? (takeUnqueried_entry branch s.known.candidates)
    rw [head?_map, head?_map, hbest] at hentry
    unfold bestDistance
    cases hs : s.known.candidates.head? with
    | none =>
      rw [hs] at hentry
      cases hentry
    | some c =>
      rw [hs] at hentry
      have hid : best.id = c.id := congrArg Prod.snd (Option.some.inj hentry)
      rw [hid]
      rfl
  have hhead' : bestDistance target s'.known.candidates = distance target best'.id := by
    unfold bestDistance
    rw [hbest']
    rfl
  unfold roundsLeft
  rw [hhead, hhead']
  unfold maxStalls at *
  rcases hstalls with ⟨himproved,hzero⟩ | ⟨hstall,-⟩
  · rw [hbest, hbest'] at himproved
    have hnearer := improved_some.mp himproved
    omega
  · omega

/-! ## The lookup -/

theorem lookup_inv {boot : List Datagram} {windows : ℕ → List Datagram}
    (h : lookup target bootstrap boot windows n = some s) :
    Inv target (heard bootstrap boot windows n) s ∧ n + roundsLeft target s ≤ 3 * 2 ^ 128 := by
  obtain ⟨k,hstart,hrun⟩ := Option.bind_eq_some_iff.mp h
  clear h
  induction n generalizing s with
  | zero =>
    cases hrun
    refine ⟨bootstrapped_inv hstart boot,?_⟩
    have hbest : bestDistance target (bootstrapped target k boot).known.candidates < 2 ^ 128 := by
      unfold bestDistance
      cases (bootstrapped target k boot).known.candidates.head? with
      | none => exact Nat.two_pow_pos 128
      | some c => exact distance_lt target c.id
    unfold roundsLeft maxStalls
    omega
  | succ n ih =>
    obtain ⟨before,hbefore,hround⟩ := Option.bind_eq_some_iff.mp hrun
    obtain ⟨hinv,hleft⟩ := ih hbefore
    have hfall := findNodeRound_roundsLeft hinv hround
    exact ⟨findNodeRound_inv hinv hround,by omega⟩

theorem merge_length_le (target : KadId) (k : Known) (contacts : List Contact) :
    (k.merge target contacts).candidates.length ≤ maxCandidates :=
  length_take_le _ _

theorem lookup_length_le {boot : List Datagram} {windows : ℕ → List Datagram}
    (h : lookup target bootstrap boot windows n = some s) :
    s.known.candidates.length ≤ maxCandidates := by
  obtain ⟨k,-,hrun⟩ := Option.bind_eq_some_iff.mp h
  cases n with
  | zero =>
    cases hrun
    exact merge_length_le target k _
  | succ n =>
    obtain ⟨before,-,hround⟩ := Option.bind_eq_some_iff.mp hrun
    rw [(findNodeRound_some hround).2.2.1]
    exact merge_length_le target _ _

/-- After each merge the candidates are the nearest of all usable contacts that were
received, each is asked once, and there are finitely many rounds whatever is answered. -/
theorem lookup_keeps_nearest (target : KadId) (bootstrap : List Contact) (boot : List Datagram)
    (windows : ℕ → List Datagram) :
    (∀ n s, lookup target bootstrap boot windows n = some s →
      s.known.candidates.Pairwise (fun a b => distance target a.id ≤ distance target b.id) ∧
      (s.known.candidates.map Candidate.addr).Nodup ∧
      s.known.candidates.length ≤ maxCandidates ∧
      (∀ c ∈ s.known.candidates, Learned (heard bootstrap boot windows n) c.entry) ∧
      (∀ e, Learned (heard bootstrap boot windows n) e →
        e ∉ s.known.candidates.map Candidate.entry →
          s.known.candidates.length = maxCandidates ∧
          ∀ c ∈ s.known.candidates, distance target c.id ≤ distance target e.2) ∧
      s.asked.Nodup) ∧
    ∀ n, 3 * 2 ^ 128 < n → lookup target bootstrap boot windows n = none := by
  constructor
  · intro n s h
    obtain ⟨hinv,-⟩ := lookup_inv h
    have hnearest := hinv.known.nearest
    refine ⟨?_,hinv.known.nodup,?_,?_,?_,hinv.asked_nodup⟩
    · have hsorted := pairwise_map.mp hnearest.sorted
      simpa only [dist_entry] using hsorted
    · exact lookup_length_le h
    · intro c hc
      exact hinv.known.learned hc
    · intro e he hout
      refine ⟨?_,?_⟩
      · have hfull := hnearest.full e he hout
        rwa [length_map] at hfull
      · intro c hc
        have hle := hnearest.nearer e he hout c.entry (mem_map_of_mem hc)
        rwa [dist_entry] at hle
  · intro n hn
    cases h : lookup target bootstrap boot windows n with
    | none => rfl
    | some s =>
      have hbound := (lookup_inv h).2
      omega

end RinaDown.KadLookup
