import RinaDown.CapacityCuts
import RinaDown.RoutePriors

/-!
# What pruning changes

The hint for a host comes from what is fresh in its entry, and pruning clears what is not. A
host is dropped for its age only if there is no hint for it. If too many hosts are left, the
table is cut by the latest observations. The cut drops no later host for an earlier one
unless hosts tie at the cutoff, are too many, and come before a later host in the table.
-/

namespace RinaDown.RoutePruning

open CapacityCuts KeyedTable RoutePriors List

variable {Bps : Type}

/-! ## Hints -/

inductive RouteHint where
  | suppressProbe
  | fastReeval
  | adoptProxy
deriving DecidableEq

def cooldownBaseSecs : ℕ := 300

def cooldownMaxShift : ℕ := 8

def adoptMinConfirms : ℕ := 2

def winRevalidateSecs : ℕ := 72 * 3600

def cooldownWindowSecs (coolN : ℕ) : ℕ :=
  min (cooldownBaseSecs * 2 ^ min coolN cooldownMaxShift) routeTtl

def hintFor (entry : HostRoute Bps) (now : ℕ) : Option RouteHint :=
  if fresh entry.noswTs now then some .suppressProbe
  else if freshWithin entry.coolTs (cooldownWindowSecs entry.coolN) now then some .suppressProbe
  else if freshWithin entry.proxyTs (proxyTtlSecs entry.proxyN) now then
    if entry.proxyN ≥ adoptMinConfirms ∧ freshWithin entry.winTs winRevalidateSecs now then
      some .adoptProxy
    else some .fastReeval
  else none

theorem freshWithin_zero (ttl now : ℕ) : freshWithin 0 ttl now = false := rfl

theorem freshWithin_mono {recorded ttl ttl' now : ℕ} (h : freshWithin recorded ttl now = true)
    (hle : ttl ≤ ttl') : freshWithin recorded ttl' now = true := by
  unfold freshWithin at *
  simp only [Bool.and_eq_true, decide_eq_true_eq] at *
  omega

section
variable [Zero Bps] {e : HostRoute Bps} {now : ℕ}

theorem expire_eq (e : HostRoute Bps) (now : ℕ) : e.expire now =
    { proxyTs := if freshWithin e.proxyTs (proxyTtlSecs e.proxyN) now then e.proxyTs else 0
      proxyBps := if freshWithin e.proxyTs (proxyTtlSecs e.proxyN) now then e.proxyBps else 0
      proxyN := if freshWithin e.proxyTs (proxyTtlSecs e.proxyN) now then e.proxyN else 0
      confirmTs := if freshWithin e.proxyTs (proxyTtlSecs e.proxyN) now then e.confirmTs else 0
      coolN := if fresh e.coolTs now then e.coolN else 0
      coolTs := if fresh e.coolTs now then e.coolTs else 0
      noswTs := if fresh e.noswTs now then e.noswTs else 0
      winTs := if freshWithin e.proxyTs (proxyTtlSecs e.proxyN) now then e.winTs else 0 } := by
  unfold HostRoute.expire HostRoute.clearProxy
  split_ifs <;> simp_all

theorem hintFor_expire : hintFor (e.expire now) now = hintFor e now := by
  have hnosw : fresh (e.expire now).noswTs now = fresh e.noswTs now := by
    rw [expire_eq]
    by_cases h : fresh e.noswTs now = true
    · simp only [h, if_true]
    · simp only [h, if_false, Bool.false_eq_true]
      rfl
  have hcool : freshWithin (e.expire now).coolTs (cooldownWindowSecs (e.expire now).coolN) now =
      freshWithin e.coolTs (cooldownWindowSecs e.coolN) now := by
    rw [expire_eq]
    by_cases h : fresh e.coolTs now = true
    · simp only [h, if_true]
    · have hwindow : freshWithin e.coolTs (cooldownWindowSecs e.coolN) now = false :=
        Bool.eq_false_iff.mpr fun hwindow => h (freshWithin_mono hwindow (min_le_right _ _))
      simp only [h, if_false, Bool.false_eq_true, hwindow]
      rfl
  unfold hintFor
  rw [hnosw, hcool]
  by_cases h : freshWithin e.proxyTs (proxyTtlSecs e.proxyN) now = true
  · rw [expire_eq]
    simp only [h, if_true]
  · rw [expire_eq]
    simp only [h, if_false, Bool.false_eq_true, freshWithin_zero]

theorem hintFor_of_not_observed (h : (e.expire now).observed = false) : hintFor e now = none := by
  unfold HostRoute.observed at h
  simp only [Bool.or_eq_false_iff, decide_eq_false_iff_not, not_not] at h
  rw [← hintFor_expire]
  unfold hintFor
  simp [h.1.1, h.1.2, h.2, fresh, freshWithin_zero]

theorem coolN_expire (h : fresh e.coolTs now = true) : (e.expire now).coolN = e.coolN := by
  rw [expire_eq]
  exact if_pos h

end
/-! ## Tables -/

section
variable [Zero Bps] {now : ℕ} {map : RouteTable Bps}

/-- The hosts that are not too old, with what is fresh in their entries. -/
def aged (now : ℕ) (map : RouteTable Bps) : RouteTable Bps :=
  (map.map fun e => (e.1, e.2.expire now)).filter fun e => e.2.observed

def latest (e : String × HostRoute Bps) : ℕ := e.2.newest

def cutoffOf (now : ℕ) (map : RouteTable Bps) : ℕ :=
  cutoff 0 maxHosts ((aged now map).map latest)

omit [Zero Bps] in
theorem retainNewest_eq (c k : ℕ) (map : RouteTable Bps) :
    retainNewest c k map = (notBefore latest c map).take (maxHosts - k) := by
  induction map generalizing k with
  | nil => rw [retainNewest, notBefore, filter_nil, take_nil]
  | cons e map ih =>
    rw [retainNewest, notBefore, filter_cons]
    by_cases hlate : c ≤ latest e
    · rw [if_pos (decide_eq_true hlate)]
      by_cases hroom : k < maxHosts
      · have hsucc : maxHosts - k = maxHosts - (k + 1) + 1 := by omega
        rw [if_pos ⟨hlate,hroom⟩, ih, hsucc, take_succ_cons]
        rfl
      · have hnone : maxHosts - k = 0 := by omega
        rw [if_neg fun h => hroom h.2, ih, hnone, take_zero, take_zero]
    · have hbefore : ¬decide (c ≤ latest e) = true := fun h => hlate (of_decide_eq_true h)
      rw [if_neg hbefore, if_neg (fun h : e.2.newest ≥ c ∧ k < maxHosts => hlate h.1), ih]
      rfl

theorem prune_eq (now : ℕ) (map : RouteTable Bps) : prune now map =
    if (aged now map).length > maxHosts then
      kept latest (cutoffOf now map) maxHosts (aged now map)
    else aged now map := by
  have hdef : prune now map = if (aged now map).length > maxHosts then
      retainNewest (cutoffOf now map) 0 (aged now map) else aged now map := by
    rw [prune, cutoffOf, cutoff]
    simp only [aged]
    congr
  rw [hdef, retainNewest_eq]
  rfl

theorem prune_sublist (now : ℕ) (map : RouteTable Bps) : (prune now map).Sublist (aged now map) := by
  rw [prune_eq]
  split_ifs
  · exact (take_sublist _ _).trans filter_sublist
  · exact .refl _

theorem mem_aged {host : String} {e' : HostRoute Bps} : (host, e') ∈ aged now map ↔
    ∃ e, (host, e) ∈ map ∧ e' = e.expire now ∧ e'.observed = true := by
  rw [aged, mem_filter, mem_map]
  constructor
  · rintro ⟨⟨⟨_,e⟩,hmem,heq⟩,hobserved⟩
    obtain ⟨rfl,rfl⟩ := Prod.mk.inj heq
    exact ⟨e,hmem,rfl,hobserved⟩
  · rintro ⟨e,hmem,rfl,hobserved⟩
    exact ⟨⟨(host, e),hmem,rfl⟩,hobserved⟩

theorem nodup_keys_aged (h : (keys map).Nodup) : (keys (aged now map)).Nodup := by
  have hmap : keys (map.map fun e => (e.1, e.2.expire now)) = keys map := by
    rw [KeyedTable.keys, KeyedTable.keys, map_map]
    rfl
  have hsub : (keys (aged now map)).Sublist (keys map) := by
    rw [← hmap]
    exact filter_sublist.map Prod.fst
  exact hsub.nodup h

/-! ## What is safe -/

/-- Pruning shows only in hosts without a hint and in hosts that are cut for the earliest
observations. -/
structure Safe (now : ℕ) (map : RouteTable Bps) : Prop where
  keepsHints : ∀ host e', (host, e') ∈ prune now map →
    ∃ e, (host, e) ∈ map ∧ hintFor e' now = hintFor e now
  dropsForAge : ∀ host e, (host, e) ∈ map → host ∉ keys (aged now map) → hintFor e now = none
  keepsCooldowns : ∀ host e e', (host, e) ∈ map → (host, e') ∈ prune now map →
    fresh e.coolTs now = true → e.coolN ≤ e'.coolN
  atMost : (prune now map).length ≤ maxHosts
  evictsEarliest : ∀ host e, (host, e) ∈ aged now map → host ∉ keys (prune now map) →
    ∀ k ∈ prune now map, e.newest ≤ k.2.newest

/-- The hosts than which fewer hosts are later than the table may hold. -/
def candidates (now : ℕ) (map : RouteTable Bps) : RouteTable Bps :=
  (aged now map).filter fun e => (aged now map).countP (latest e < latest ·) < maxHosts

/-- A host that has a place in the table: counted with it, fewer hosts are as late than the
table may hold. -/
def HasPlace (now : ℕ) (map : RouteTable Bps) (e : String × HostRoute Bps) : Prop :=
  (aged now map).countP (latest e ≤ latest ·) < maxHosts

/-- In the order of the table, no host that has a place comes when the places are taken. -/
def Separated (now : ℕ) (map : RouteTable Bps) : Prop :=
  ∀ e ∈ (candidates now map).drop maxHosts, ¬HasPlace now map e

/-- The candidates are not too many, or none has a place. -/
def Untied (now : ℕ) (map : RouteTable Bps) : Prop :=
  (candidates now map).length ≤ maxHosts ∨ ∀ e ∈ aged now map, ¬HasPlace now map e

theorem cutoffOf_lt_iff (hmany : maxHosts ≤ (aged now map).length) (e : String × HostRoute Bps) :
    cutoffOf now map < latest e ↔ HasPlace now map e := by
  have h := cutoff_lt_iff (d := 0) (b := latest e) (l := (aged now map).map latest)
    (n := maxHosts) (by decide) (by rwa [length_map])
  rwa [countP_map] at h

theorem candidates_eq (hmany : maxHosts ≤ (aged now map).length) :
    candidates now map = notBefore latest (cutoffOf now map) (aged now map) := by
  refine filter_congr fun e _ => decide_eq_decide.mpr ?_
  have h := cutoff_le_iff (d := 0) (b := latest e) (l := (aged now map).map latest)
    (n := maxHosts) (by decide) (by rwa [length_map])
  rw [countP_map] at h
  exact h.symm

omit [Zero Bps] in
theorem value_of_nodup {host : String} {e e' : HostRoute Bps} {l : RouteTable Bps}
    (hkeys : (keys l).Nodup) (h : (host, e) ∈ l) (h' : (host, e') ∈ l) : e = e' :=
  congrArg Prod.snd (inj_on_of_nodup_map hkeys h h' rfl)

theorem evictsEarliest_iff (hkeys : (keys map).Nodup) :
    (∀ host e, (host, e) ∈ aged now map → host ∉ keys (prune now map) →
      ∀ k ∈ prune now map, e.newest ≤ k.2.newest) ↔ Separated now map := by
  have hnodup : (keys (aged now map)).Nodup := nodup_keys_aged hkeys
  have hevicted {host : String} {e : HostRoute Bps} (he : (host, e) ∈ aged now map) :
      host ∉ keys (prune now map) ↔ (host, e) ∉ prune now map := by
    constructor
    · intro h hmem
      exact h (mem_map_of_mem hmem)
    · intro h hmem
      obtain ⟨⟨_,e'⟩,hmem',rfl⟩ := mem_map.mp hmem
      obtain rfl := value_of_nodup hnodup he ((prune_sublist now map).subset hmem')
      exact h hmem'
  by_cases hfew : (aged now map).length ≤ maxHosts
  · have hall : prune now map = aged now map := by
      rw [prune_eq, if_neg (not_lt.mpr hfew)]
    have hshort : (candidates now map).length ≤ maxHosts :=
      (length_filter_le _ _).trans hfew
    refine iff_of_true (fun host e he hcut => ?_) fun e he => ?_
    · rw [hevicted he, hall] at hcut
      exact absurd he hcut
    · rw [drop_of_length_le hshort] at he
      cases he
  · have hmany : maxHosts ≤ (aged now map).length := Nat.le_of_not_le hfew
    have hcount : (aged now map).countP (cutoffOf now map < latest ·) < maxHosts := by
      have h := countP_cutoff_lt (d := 0) (n := maxHosts) (l := (aged now map).map latest)
        (by decide) (by rwa [length_map])
      rwa [countP_map] at h
    have hcut : prune now map = kept latest (cutoffOf now map) maxHosts (aged now map) := by
      rw [prune_eq, if_pos (not_le.mp hfew)]
    have hiff := keepsLatest_iff (List.Nodup.of_map Prod.fst hnodup) hcount
    simp only [Separated, candidates_eq hmany, ← cutoffOf_lt_iff hmany, not_lt]
    rw [← hiff]
    constructor
    · intro h e he hnot
      rw [← hcut] at hnot ⊢
      exact h e.1 e.2 he ((hevicted he).mpr hnot)
    · intro h host e he hnot
      rw [hevicted he] at hnot
      rw [hcut] at hnot ⊢
      exact h (host, e) he hnot

theorem safe_iff (hkeys : (keys map).Nodup) : Safe now map ↔ Separated now map := by
  refine ⟨fun h => (evictsEarliest_iff hkeys).mp h.evictsEarliest,fun h => ?_⟩
  refine ⟨fun host e' he' => ?_,fun host e he hold => ?_,fun host e e' he he' hfresh => ?_,
    length_prune_le now map,(evictsEarliest_iff hkeys).mpr h⟩
  · obtain ⟨e,he,rfl,-⟩ := mem_aged.mp ((prune_sublist now map).subset he')
    exact ⟨e,he,hintFor_expire⟩
  · apply hintFor_of_not_observed
    by_contra hobserved
    have hmem := mem_aged.mpr ⟨e,he,rfl,eq_true_of_ne_false hobserved⟩
    exact hold (mem_map_of_mem hmem)
  · obtain ⟨e₀,he₀,rfl,-⟩ := mem_aged.mp ((prune_sublist now map).subset he')
    obtain rfl := value_of_nodup hkeys he he₀
    exact (coolN_expire hfresh).ge

/-! ## Every order -/

theorem aged_append (map map' : RouteTable Bps) :
    aged now (map ++ map') = aged now map ++ aged now map' := by
  rw [aged, map_append, filter_append]
  rfl

variable {map' : RouteTable Bps}

theorem aged_perm (h : map'.Perm map) :
    (aged now map').Perm (aged now map) := (h.map _).filter _

theorem candidates_perm (h : map'.Perm map) :
    (candidates now map').Perm (candidates now map) := by
  have hsame : (aged now map').Perm (aged now map) := aged_perm h
  rw [candidates, candidates]
  simp only [hsame.countP_eq]
  exact hsame.filter _

theorem hasPlace_perm (h : map'.Perm map) (e : String × HostRoute Bps) :
    HasPlace now map' e ↔ HasPlace now map e := by
  rw [HasPlace, HasPlace, (aged_perm h).countP_eq]

theorem separated_of_untied (h : Untied now map) (hperm : map'.Perm map) :
    Separated now map' := by
  have hsame : (candidates now map').Perm (candidates now map) := candidates_perm hperm
  intro e he
  rw [hasPlace_perm hperm]
  obtain hshort | hall := h
  · rw [drop_of_length_le (hsame.length_eq.trans_le hshort)] at he
    cases he
  · have hmem := hsame.subset (mem_of_mem_drop he)
    exact hall e (mem_of_mem_filter hmem)

theorem untied_of_separated (h : ∀ map' : RouteTable Bps, map'.Perm map → Separated now map') :
    Untied now map := by
  rw [Untied, or_iff_not_imp_left, not_le]
  intro htied e he hplace
  -- the host is moved to the end of the table
  obtain ⟨e₀,he₀,hentry,hobserved⟩ := mem_aged.mp (show (e.1, e.2) ∈ aged now map from he)
  obtain ⟨front,back,rfl⟩ := append_of_mem he₀
  have hperm : (front ++ back ++ [(e.1, e₀)]).Perm (front ++ (e.1, e₀) :: back) := by
    rw [append_assoc]
    exact (perm_append_singleton _ _).append_left front
  have hlast : aged now (front ++ back ++ [(e.1, e₀)]) = aged now (front ++ back) ++ [e] := by
    rw [aged_append]
    congr 1
    rw [aged, map_singleton, ← hentry, filter_singleton, hobserved]
    rfl
  have hmoved := (hasPlace_perm hperm e).mpr hplace
  have hcandidate : (aged now (front ++ back ++ [(e.1, e₀)])).countP (latest e < latest ·) <
      maxHosts := by
    refine (countP_mono_left fun e' _ he' => ?_).trans_lt hmoved
    exact decide_eq_true (of_decide_eq_true he').le
  have hsplit : ∃ l, candidates now (front ++ back ++ [(e.1, e₀)]) = l ++ [e] := by
    rw [hlast] at hcandidate
    rw [candidates, hlast, filter_append, filter_singleton, decide_eq_true hcandidate]
    exact ⟨_,rfl⟩
  obtain ⟨l,hl⟩ := hsplit
  have hlength := (@candidates_perm _ _ now _ _ hperm).length_eq
  rw [hl, length_append, length_singleton] at hlength
  refine h _ hperm e ?_ hmoved
  rw [hl, drop_append_of_le_length (by omega)]
  exact mem_append_right _ mem_cons_self

/-- Pruning a table is safe exactly if the hosts that tie for the last places take no later
host's place, which they do for some order of the table unless the candidates are not too
many or none has a place. -/
theorem prune_safe_iff (now : ℕ) {map : RouteTable Bps} (hkeys : (keys map).Nodup) :
    (Safe now map ↔ Separated now map) ∧
      ((∀ map' : RouteTable Bps, map'.Perm map → Safe now map') ↔ Untied now map) := by
  have hnodup {map' : RouteTable Bps} (hperm : map'.Perm map) : (keys map').Nodup :=
    (hperm.map Prod.fst).nodup_iff.mpr hkeys
  refine ⟨safe_iff hkeys,fun h => untied_of_separated fun map' hperm =>
    (safe_iff (hnodup hperm)).mp (h map' hperm),fun h map' hperm =>
    (safe_iff (hnodup hperm)).mpr (separated_of_untied h hperm)⟩

end

theorem prune_safe_iff_sample : Safe 2000
    ([("a.test", ⟨0,0,0,0,1,1000,0,0⟩), ("b.test", ⟨900,5,2,900,0,0,0,0⟩)] :
      RouteTable ℕ) :=
  (prune_safe_iff 2000 (by decide)).2.mpr (.inl (by decide)) _ (.refl _)

/-! ## Hosts that tie -/

def hostAt (i : ℕ) : String :=
  String.ofList [Char.ofNat (97 + i / 26), Char.ofNat (97 + i % 26)] ++ ".test"

theorem toNat_ofNat_letter {k : ℕ} (h : k < 1000) : (Char.ofNat (97 + k)).toNat = 97 + k := by
  have hvalid : (97 + k).isValidChar := .inl (by omega)
  rw [Char.ofNat, dif_pos hvalid]
  rfl

theorem hostAt_inj {i j : ℕ} (hi : i < 1000) (hj : j < 1000) (h : hostAt i = hostAt j) :
    i = j := by
  have hletters := String.ofList_injective (String.append_left_inj ".test" |>.mp h)
  obtain ⟨hfirst,hrest⟩ := cons.inj hletters
  have hhigh := congrArg Char.toNat hfirst
  have hlow := congrArg Char.toNat (cons.inj hrest).1
  rw [toNat_ofNat_letter (by omega), toNat_ofNat_letter (by omega)] at hhigh hlow
  omega

def cooled (i ts : ℕ) : String × HostRoute ℕ :=
  (hostAt i, { HostRoute.default with coolN := 1, coolTs := ts })

/-- As many hosts as a table may hold, and after them a later one. -/
def crowded : RouteTable ℕ := (List.range maxHosts).map (cooled · 1000) ++ [cooled maxHosts 1001]

theorem latest_cooled (i ts : ℕ) : latest (cooled i ts) = ts := by
  simp [latest, cooled, HostRoute.newest, HostRoute.default]

theorem expire_cooled {i ts : ℕ} (h : fresh ts 2000 = true) :
    (cooled i ts).2.expire 2000 = (cooled i ts).2 := by
  rw [expire_eq]
  have hnone : fresh 0 2000 = false := freshWithin_zero _ _
  simp [cooled, h, hnone, freshWithin_zero, HostRoute.default]

theorem mem_crowded {e : String × HostRoute ℕ} (he : e ∈ crowded) :
    ∃ i, e = cooled i 1000 ∨ e = cooled i 1001 := by
  rw [crowded, mem_append, mem_map, mem_singleton] at he
  obtain ⟨i,-,rfl⟩ | rfl := he
  · exact ⟨i,.inl rfl⟩
  · exact ⟨maxHosts,.inr rfl⟩

theorem aged_crowded : aged 2000 crowded = crowded := by
  have hsame : crowded.map (fun e => (e.1, e.2.expire 2000)) = crowded := by
    refine (map_congr_left fun e he => ?_).trans (map_id _)
    obtain ⟨i,rfl | rfl⟩ := mem_crowded he
    · exact congrArg (Prod.mk _) (expire_cooled (by decide))
    · exact congrArg (Prod.mk _) (expire_cooled (by decide))
  rw [aged, hsame, filter_eq_self]
  intro e he
  obtain ⟨i,rfl | rfl⟩ := mem_crowded he
  · simp [cooled, HostRoute.observed]
  · simp [cooled, HostRoute.observed]

/-- Only the last host is later than the others. -/
theorem countP_crowded {p : String × HostRoute ℕ → Bool} (h : ∀ i, p (cooled i 1000) = false) :
    crowded.countP p < maxHosts := by
  have hfront : ((List.range maxHosts).map (cooled · 1000)).countP p = 0 := by
    rw [countP_eq_zero]
    intro e he
    obtain ⟨i,-,rfl⟩ := mem_map.mp he
    exact Bool.eq_false_iff.mp (h i)
  have hlast := countP_le_length (p := p) (l := [cooled maxHosts 1001])
  rw [crowded, countP_append, hfront]
  rw [length_singleton] at hlast
  have hroom : 1 < maxHosts := by decide
  omega

theorem keys_crowded : (keys crowded).Nodup := by
  have hkeys : keys crowded = (List.range (maxHosts + 1)).map hostAt := by
    rw [KeyedTable.keys, crowded, map_append, map_map, range_succ, map_append]
    congr 1
  rw [hkeys]
  refine List.Nodup.map_on (fun i hi j hj hij => ?_) nodup_range
  have hsmall : maxHosts + 1 < 1000 := by decide
  rw [mem_range] at hi hj
  exact hostAt_inj (hi.trans hsmall) (hj.trans hsmall) hij

theorem crowded_not_safe : (keys crowded).Nodup ∧ ¬Safe 2000 crowded := by
  refine ⟨keys_crowded,fun h => ?_⟩
  have hcandidates : candidates 2000 crowded = crowded := by
    rw [candidates, aged_crowded]
    refine filter_eq_self.mpr fun e he => decide_eq_true (countP_crowded fun i => ?_)
    obtain ⟨j,rfl | rfl⟩ := mem_crowded he
    · rw [latest_cooled, latest_cooled]
      rfl
    · rw [latest_cooled, latest_cooled]
      rfl
  refine (safe_iff keys_crowded).mp h (cooled maxHosts 1001) ?_ ?_
  · have hlength : ((List.range maxHosts).map (cooled · 1000)).length = maxHosts := by
      rw [length_map, length_range]
    rw [hcandidates, crowded, drop_append_of_le_length hlength.ge]
    exact mem_append_right _ mem_cons_self
  · rw [HasPlace, aged_crowded]
    refine countP_crowded fun i => ?_
    rw [latest_cooled, latest_cooled]
    rfl

end RinaDown.RoutePruning
