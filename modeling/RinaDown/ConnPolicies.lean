import RinaDown.ConnPolicyText
import RinaDown.ExpiringChains
import RinaDown.LabelledExecutions

/-!
# Connection policies of the hosts

A refused connection records an upper bound for its host, a download without a refusal a hint where
the next one may start. Bounds only fall and hints only rise until they expire. The cache is pruned
when it is read and when it is stored, and what was stored is merged into the cache when the
program starts.
-/

namespace RinaDown.ConnPolicies

open CharacterPatterns KeyedTable LabelledExecutions ExpiringChains ConnPolicyText List Option

def connCapTtl : ℕ := 24 * 3600

def connCapFresh (recordedSecs nowSecs : ℕ) : Bool := nowSecs - recordedSecs < connCapTtl

def pruneStaleFaces (now : ℕ) (e : ConnPolicyEntry) : ConnPolicyEntry :=
  let e := if 0 < e.cap ∧ connCapFresh e.capTs now = false then { e with cap := 0, capTs := 0 } else e
  if 0 < e.hint ∧ connCapFresh e.hintTs now = false then { e with hint := 0, hintTs := 0 } else e

def bothEmpty (e : ConnPolicyEntry) : Bool := e.cap = 0 ∧ e.hint = 0

/-- The parts of a parsed URL that name a server. -/
structure Url where
  hostStr : Option String
  port : Option ℕ

/-- The parser of URLs is a parameter. -/
def extractHost (parse : String → Option Url) (url : String) : Option String :=
  (parse url).bind fun u => u.hostStr.map fun h =>
    match u.port with
    | some port => String.ofList (h.toList ++ ':' :: Nat.toDigits 10 port)
    | none => h

/-! ## Operations on the cache -/

def recordDomainConnCap (host : String) (cap : ℤ) (now : ℕ) (cache : ConnPolicies) : ConnPolicies :=
  let cap := max cap 1
  let entry := (cache.lookup host).getD .default
  let effective :=
    if 0 < entry.cap ∧ connCapFresh entry.capTs now = true then min entry.cap cap else cap
  insert host { entry with cap := effective, capTs := now } cache

def recordDomainConnHint (host : String) (scale : ℤ) (now : ℕ) (cache : ConnPolicies) :
    ConnPolicies :=
  let scale := max scale 1
  let entry := (cache.lookup host).getD .default
  let effective :=
    if 0 < entry.hint ∧ connCapFresh entry.hintTs now = true then max entry.hint scale else scale
  insert host { entry with hint := effective, hintTs := now } cache

def readConnPolicy (host : String) (now : ℕ) (cache : ConnPolicies) :
    Option ConnPolicyEntry × ConnPolicies :=
  match cache.lookup host with
  | none => (none, cache)
  | some entry =>
      if bothEmpty (pruneStaleFaces now entry) then (none, remove host cache)
      else (some (pruneStaleFaces now entry), insert host (pruneStaleFaces now entry) cache)

def capOf (e : ConnPolicyEntry) : Option ℤ := if 0 < e.cap then some e.cap else none

def hintOf (e : ConnPolicyEntry) : Option ℤ :=
  if 0 < e.hint then some (if 0 < e.cap then min e.hint e.cap else e.hint) else none

def domainConnCap (parse : String → Option Url) (url : String) (now : ℕ) (cache : ConnPolicies) :
    Option ℤ :=
  (extractHost parse url).bind fun host => (readConnPolicy host now cache).1.bind capOf

def domainConnHint (parse : String → Option Url) (url : String) (now : ℕ) (cache : ConnPolicies) :
    Option ℤ :=
  (extractHost parse url).bind fun host => (readConnPolicy host now cache).1.bind hintOf

/-- What `retain` keeps before the cache is stored. -/
def retainFresh (now : ℕ) (cache : ConnPolicies) : ConnPolicies :=
  filterMapValues (fun e =>
    if bothEmpty (pruneStaleFaces now e) then none else some (pruneStaleFaces now e)) cache

/-- The stored faces are taken over where there is none, or where they are better. -/
def mergeEntry (now : ℕ) (e entry : ConnPolicyEntry) : ConnPolicyEntry :=
  let entry :=
    if 0 < e.cap ∧ (entry.cap = 0 ∨ connCapFresh entry.capTs now = false ∨ e.cap < entry.cap) then
      { entry with cap := e.cap, capTs := e.capTs }
    else entry
  if 0 < e.hint ∧
      (entry.hint = 0 ∨ connCapFresh entry.hintTs now = false ∨ entry.hint < e.hint) then
    { entry with hint := e.hint, hintTs := e.hintTs }
  else entry

def loadEntry (now : ℕ) (cache : ConnPolicies) (loaded : String × ConnPolicyEntry) :
    ConnPolicies :=
  let e := pruneStaleFaces now loaded.2
  if bothEmpty e then cache
  else insert loaded.1 (mergeEntry now e ((cache.lookup loaded.1).getD .default)) cache

def loadDomainConnCaps (now : ℕ) (stored : Option Text) (cache : ConnPolicies) : ConnPolicies :=
  match stored with
  | none => cache
  | some raw => (parseConnCaps raw).foldl (loadEntry now) cache

/-! ## Runs -/

/-- The cache of the process, what is stored in the configuration, and the time. -/
structure State where
  cache : ConnPolicies
  stored : Option Text
  clock : ℕ
deriving DecidableEq

/-- A restart is a store, the loss of the cache and a load. -/
inductive Label where
  | recordCap (url : String) (cap : Int32) (now : UInt64)
  | recordHint (url : String) (scale : Int32) (now : UInt64)
  | read (url : String) (now : UInt64)
  | persist (now : UInt64)
  | load (now : UInt64)
  | restart (savedAt loadedAt : UInt64)
deriving DecidableEq

def startState : State := ⟨[],none,0⟩

def onHost (parse : String → Option Url) (url : String) (f : String → ConnPolicies → ConnPolicies)
    (cache : ConnPolicies) : ConnPolicies :=
  match extractHost parse url with
  | none => cache
  | some host => f host cache

def State.persist (s : State) (now : ℕ) : State :=
  ⟨retainFresh now s.cache,some (serializeConnCaps (retainFresh now s.cache)),now⟩

def State.load (s : State) (now : ℕ) : State :=
  { s with cache := loadDomainConnCaps now s.stored s.cache, clock := now }

/-- Time does not run backwards. -/
def step (parse : String → Option Url) (s : State) : Label → Option State
  | .recordCap url cap now =>
      if s.clock ≤ now.toNat then
        some { s with
          cache := onHost parse url (recordDomainConnCap · cap.toInt now.toNat) s.cache
          clock := now.toNat }
      else none
  | .recordHint url scale now =>
      if s.clock ≤ now.toNat then
        some { s with
          cache := onHost parse url (recordDomainConnHint · scale.toInt now.toNat) s.cache
          clock := now.toNat }
      else none
  | .read url now =>
      if s.clock ≤ now.toNat then
        some { s with
          cache := onHost parse url (fun host cache => (readConnPolicy host now.toNat cache).2) s.cache
          clock := now.toNat }
      else none
  | .persist now => if s.clock ≤ now.toNat then some (s.persist now.toNat) else none
  | .load now => if s.clock ≤ now.toNat then some (s.load now.toNat) else none
  | .restart savedAt loadedAt =>
      if s.clock ≤ savedAt.toNat ∧ savedAt.toNat ≤ loadedAt.toNat then
        some (({ s.persist savedAt.toNat with cache := [] } : State).load loadedAt.toNat)
      else none

/-- The cap that a label records for a host; a cap below one is recorded as one. -/
def capRecord (parse : String → Option Url) (host : String) : Label → Option (Stamped ℤ)
  | .recordCap url cap now =>
      if extractHost parse url = some host then some ⟨max cap.toInt 1,now.toNat⟩ else none
  | _ => none

def hintRecord (parse : String → Option Url) (host : String) : Label → Option (Stamped ℤ)
  | .recordHint url scale now =>
      if extractHost parse url = some host then some ⟨max scale.toInt 1,now.toNat⟩ else none
  | _ => none

/-- The newest first. -/
def capRecords (parse : String → Option Url) (host : String) (labels : List Label) :
    List (Stamped ℤ) := (labels.filterMap (capRecord parse host)).reverse

def hintRecords (parse : String → Option Url) (host : String) (labels : List Label) :
    List (Stamped ℤ) := (labels.filterMap (hintRecord parse host)).reverse

/-! ## Faces as cells -/

def lowers (a b : ℤ) : Bool := a < b

def raises (a b : ℤ) : Bool := b < a

def capCell (e : Option ConnPolicyEntry) : Option (Stamped ℤ) :=
  e.bind fun e => if 0 < e.cap then some ⟨e.cap,e.capTs⟩ else none

def hintCell (e : Option ConnPolicyEntry) : Option (Stamped ℤ) :=
  e.bind fun e => if 0 < e.hint then some ⟨e.hint,e.hintTs⟩ else none

/-! ### The fields of a pruned and of a merged entry -/

section
variable (now : ℕ) (e entry : ConnPolicyEntry)

theorem pruneStaleFaces_cap : (pruneStaleFaces now e).cap =
    if 0 < e.cap ∧ connCapFresh e.capTs now = false then 0 else e.cap := by
  rw [pruneStaleFaces]
  split_ifs <;> rfl

theorem pruneStaleFaces_capTs : (pruneStaleFaces now e).capTs =
    if 0 < e.cap ∧ connCapFresh e.capTs now = false then 0 else e.capTs := by
  rw [pruneStaleFaces]
  split_ifs <;> rfl

theorem pruneStaleFaces_hint : (pruneStaleFaces now e).hint =
    if 0 < e.hint ∧ connCapFresh e.hintTs now = false then 0 else e.hint := by
  rw [pruneStaleFaces]
  split_ifs <;> rfl

theorem pruneStaleFaces_hintTs : (pruneStaleFaces now e).hintTs =
    if 0 < e.hint ∧ connCapFresh e.hintTs now = false then 0 else e.hintTs := by
  rw [pruneStaleFaces]
  split_ifs <;> rfl

theorem capCell_prune :
    capCell (some (pruneStaleFaces now e)) = fresh connCapTtl now (capCell (some e)) := by
  simp only [capCell, bind_some, pruneStaleFaces_cap, pruneStaleFaces_capTs]
  by_cases hcap : 0 < e.cap
  · by_cases hfresh : now - e.capTs < connCapTtl <;> simp [connCapFresh, hcap, hfresh]
  · simp [hcap]

theorem hintCell_prune :
    hintCell (some (pruneStaleFaces now e)) = fresh connCapTtl now (hintCell (some e)) := by
  simp only [hintCell, bind_some, pruneStaleFaces_hint, pruneStaleFaces_hintTs]
  by_cases hhint : 0 < e.hint
  · by_cases hfresh : now - e.hintTs < connCapTtl <;> simp [connCapFresh, hhint, hfresh]
  · simp [hhint]

theorem capCell_mergeEntry (h : 0 ≤ entry.cap) : capCell (some (mergeEntry now e entry)) =
    adopt lowers connCapTtl now (capCell (some e)) (capCell (some entry)) := by
  have hface : capCell (some (mergeEntry now e entry)) = capCell (some (
      if 0 < e.cap ∧ (entry.cap = 0 ∨ connCapFresh entry.capTs now = false ∨ e.cap < entry.cap) then
        { entry with cap := e.cap, capTs := e.capTs }
      else entry)) := by
    rw [mergeEntry]
    split_ifs <;> rfl
  rw [hface]
  by_cases hcopy : 0 < e.cap
  · by_cases hzero : entry.cap = 0
    · simp [capCell, adopt, hcopy, hzero]
    · have hcell : 0 < entry.cap := by omega
      by_cases hfresh : now - entry.capTs < connCapTtl
      · by_cases hlower : e.cap < entry.cap
        · simp [capCell, adopt, connCapFresh, lowers, hcopy, hcell, hfresh, hlower]
        · simp [capCell, adopt, connCapFresh, lowers, hcopy, hzero, hcell, hfresh, hlower]
      · simp [capCell, adopt, connCapFresh, hcopy, hcell, hfresh]
  · simp [capCell, adopt, hcopy]

theorem hintCell_mergeEntry (h : 0 ≤ entry.hint) : hintCell (some (mergeEntry now e entry)) =
    adopt raises connCapTtl now (hintCell (some e)) (hintCell (some entry)) := by
  have hface : hintCell (some (mergeEntry now e entry)) = hintCell (some (
      if 0 < e.hint ∧
          (entry.hint = 0 ∨ connCapFresh entry.hintTs now = false ∨ entry.hint < e.hint) then
        { entry with hint := e.hint, hintTs := e.hintTs }
      else entry)) := by
    rw [mergeEntry]
    split_ifs <;> rfl
  rw [hface]
  by_cases hcopy : 0 < e.hint
  · by_cases hzero : entry.hint = 0
    · simp [hintCell, adopt, hcopy, hzero]
    · have hcell : 0 < entry.hint := by omega
      by_cases hfresh : now - entry.hintTs < connCapTtl
      · by_cases hhigher : entry.hint < e.hint
        · simp [hintCell, adopt, connCapFresh, raises, hcopy, hcell, hfresh, hhigher]
        · simp [hintCell, adopt, connCapFresh, raises, hcopy, hzero, hcell, hfresh, hhigher]
      · simp [hintCell, adopt, connCapFresh, hcopy, hcell, hfresh]
  · simp [hintCell, adopt, hcopy]

end

/-! ### Lookups -/

section
variable {cache : ConnPolicies} {host k : String} {now : ℕ}

theorem capCell_getD (o : Option ConnPolicyEntry) : capCell (some (o.getD .default)) = capCell o := by
  cases o <;> rfl

theorem hintCell_getD (o : Option ConnPolicyEntry) :
    hintCell (some (o.getD .default)) = hintCell o := by
  cases o <;> rfl

variable {e : ConnPolicyEntry}

theorem cells_of_bothEmpty (h : bothEmpty e = true) :
    capCell (some e) = none ∧ hintCell (some e) = none := by
  rw [bothEmpty, decide_eq_true_iff] at h
  simp [capCell, hintCell, h.1, h.2]

theorem capCell_recordCap (cap : ℤ) :
    capCell ((recordDomainConnCap host cap now cache).lookup host) =
      record lowers connCapTtl now (max cap 1) (capCell (cache.lookup host)) := by
  rw [recordDomainConnCap, lookup_insert, if_pos rfl, ← capCell_getD (cache.lookup host)]
  generalize (cache.lookup host).getD .default = entry
  by_cases hcell : 0 < entry.cap
  · by_cases hfresh : now - entry.capTs < connCapTtl
    · have hmin : best lowers entry.cap (max cap 1) = min entry.cap (max cap 1) := best_lt _ _
      have hpos : 0 < min entry.cap (max cap 1) := by omega
      simp [capCell, record, connCapFresh, hcell, hfresh, hmin]
    · simp [capCell, record, connCapFresh, hcell, hfresh]
  · simp [capCell, record, hcell]

theorem hintCell_recordCap (cap : ℤ) :
    hintCell ((recordDomainConnCap host cap now cache).lookup k) = hintCell (cache.lookup k) := by
  rw [recordDomainConnCap, lookup_insert]
  by_cases heq : k = host
  · rw [if_pos heq, heq, ← hintCell_getD (cache.lookup host)]
    rfl
  · rw [if_neg heq]

theorem capCell_recordCap_ne (cap : ℤ) (hne : k ≠ host) :
    capCell ((recordDomainConnCap host cap now cache).lookup k) = capCell (cache.lookup k) := by
  rw [recordDomainConnCap, lookup_insert, if_neg hne]

theorem hintCell_recordHint (scale : ℤ) :
    hintCell ((recordDomainConnHint host scale now cache).lookup host) =
      record raises connCapTtl now (max scale 1) (hintCell (cache.lookup host)) := by
  rw [recordDomainConnHint, lookup_insert, if_pos rfl, ← hintCell_getD (cache.lookup host)]
  generalize (cache.lookup host).getD .default = entry
  by_cases hcell : 0 < entry.hint
  · by_cases hfresh : now - entry.hintTs < connCapTtl
    · have hmax : best raises entry.hint (max scale 1) = max entry.hint (max scale 1) := best_gt _ _
      simp [hintCell, record, connCapFresh, hcell, hfresh, hmax]
    · simp [hintCell, record, connCapFresh, hcell, hfresh]
  · simp [hintCell, record, hcell]

theorem capCell_recordHint (scale : ℤ) :
    capCell ((recordDomainConnHint host scale now cache).lookup k) = capCell (cache.lookup k) := by
  rw [recordDomainConnHint, lookup_insert]
  by_cases heq : k = host
  · rw [if_pos heq, heq, ← capCell_getD (cache.lookup host)]
    rfl
  · rw [if_neg heq]

theorem hintCell_recordHint_ne (scale : ℤ) (hne : k ≠ host) :
    hintCell ((recordDomainConnHint host scale now cache).lookup k) = hintCell (cache.lookup k) := by
  rw [recordDomainConnHint, lookup_insert, if_neg hne]

theorem lookup_readConnPolicy : (readConnPolicy host now cache).2.lookup k =
    if k = host then (readConnPolicy host now cache).1 else cache.lookup k := by
  rw [readConnPolicy]
  cases hlookup : cache.lookup host with
  | none =>
      split_ifs with heq
      · rw [heq, hlookup]
      · rfl
  | some entry =>
      simp only
      by_cases hempty : bothEmpty (pruneStaleFaces now entry) = true
      · rw [if_pos hempty, lookup_remove]
      · rw [if_neg hempty, lookup_insert]

theorem capCell_readConnPolicy : capCell (readConnPolicy host now cache).1 =
    fresh connCapTtl now (capCell (cache.lookup host)) := by
  rw [readConnPolicy]
  cases hlookup : cache.lookup host with
  | none => rfl
  | some entry =>
      simp only
      rw [← capCell_prune]
      split_ifs with hempty
      · exact (cells_of_bothEmpty hempty).1.symm
      · rfl

theorem hintCell_readConnPolicy : hintCell (readConnPolicy host now cache).1 =
    fresh connCapTtl now (hintCell (cache.lookup host)) := by
  rw [readConnPolicy]
  cases hlookup : cache.lookup host with
  | none => rfl
  | some entry =>
      simp only
      rw [← hintCell_prune]
      split_ifs with hempty
      · exact (cells_of_bothEmpty hempty).2.symm
      · rfl

theorem cells_retainFresh (h : ValidTable cache) :
    capCell ((retainFresh now cache).lookup k) = fresh connCapTtl now (capCell (cache.lookup k)) ∧
      hintCell ((retainFresh now cache).lookup k) =
        fresh connCapTtl now (hintCell (cache.lookup k)) := by
  rw [retainFresh, lookup_filterMapValues _ h.nodup]
  cases hlookup : cache.lookup k with
  | none => exact ⟨rfl,rfl⟩
  | some entry =>
      rw [← capCell_prune, ← hintCell_prune, bind_some]
      split_ifs with hempty
      · obtain ⟨hcap,hhint⟩ := cells_of_bothEmpty hempty
        exact ⟨hcap.symm,hhint.symm⟩
      · exact ⟨rfl,rfl⟩

/-! ### Valid tables -/

theorem valid_insert (h : ValidTable cache) (hhost : ValidHost host) (he : ValidEntry e) :
    ValidTable (insert host e cache) where
  nodup := nodup_insert h.nodup
  entries p hp := by
    rcases mem_cons.mp hp with rfl | hold
    · exact ⟨hhost,he⟩
    · exact h.entries p (mem_of_mem_filter hold)

theorem valid_remove (h : ValidTable cache) : ValidTable (remove host cache) where
  nodup := nodup_retain _ h.nodup
  entries p hp := h.entries p (mem_of_mem_filter hp)

theorem valid_lookup (h : ValidTable cache) (hlookup : cache.lookup host = some e) :
    ValidHost host ∧ ValidEntry e :=
  h.entries _ (mem_of_lookup hlookup)

theorem valid_ranges {entry : ConnPolicyEntry} (h : ValidTable cache)
    (hentry : (cache.lookup host).getD .default = entry) : (0 ≤ entry.cap ∧ entry.cap < 2 ^ 31) ∧
      entry.capTs < 2 ^ 64 ∧ (0 ≤ entry.hint ∧ entry.hint < 2 ^ 31) ∧ entry.hintTs < 2 ^ 64 := by
  cases hlookup : cache.lookup host with
  | none =>
      rw [hlookup, getD_none] at hentry
      subst hentry
      decide
  | some e =>
      rw [hlookup, getD_some] at hentry
      subst hentry
      have he := (valid_lookup h hlookup).2
      exact ⟨he.cap,he.capTs,he.hint,he.hintTs⟩

theorem validEntry_prune (he : ValidEntry e) (hempty : ¬ bothEmpty (pruneStaleFaces now e) = true) :
    ValidEntry (pruneStaleFaces now e) := by
  obtain ⟨hcap,hcapTs,hhint,hhintTs,-⟩ := he
  refine ⟨?_,?_,?_,?_,?_⟩
  · rw [pruneStaleFaces_cap]
    split_ifs <;> omega
  · rw [pruneStaleFaces_capTs]
    split_ifs <;> omega
  · rw [pruneStaleFaces_hint]
    split_ifs <;> omega
  · rw [pruneStaleFaces_hintTs]
    split_ifs <;> omega
  · rw [bothEmpty, decide_eq_true_iff, not_and_or] at hempty
    exact hempty

theorem valid_recordCap {cap : ℤ} (h : ValidTable cache) (hhost : ValidHost host)
    (hcap : cap < 2 ^ 31) (hnow : now < 2 ^ 64) :
    ValidTable (recordDomainConnCap host cap now cache) := by
  rw [recordDomainConnCap]
  generalize hentry : (cache.lookup host).getD .default = entry
  obtain ⟨⟨-,hlt⟩,-,hhint,hhintTs⟩ := valid_ranges h hentry
  refine valid_insert h hhost ⟨?_,hnow,hhint,hhintTs,.inl ?_⟩
  · simp only
    split_ifs <;> omega
  · simp only
    split_ifs <;> omega

theorem valid_recordHint {scale : ℤ} (h : ValidTable cache) (hhost : ValidHost host)
    (hscale : scale < 2 ^ 31) (hnow : now < 2 ^ 64) :
    ValidTable (recordDomainConnHint host scale now cache) := by
  rw [recordDomainConnHint]
  generalize hentry : (cache.lookup host).getD .default = entry
  obtain ⟨hcap,hcapTs,⟨-,hlt⟩,-⟩ := valid_ranges h hentry
  refine valid_insert h hhost ⟨hcap,hcapTs,?_,hnow,.inr ?_⟩
  · simp only
    split_ifs <;> omega
  · simp only
    split_ifs <;> omega

theorem valid_readConnPolicy (h : ValidTable cache) :
    ValidTable (readConnPolicy host now cache).2 := by
  rw [readConnPolicy]
  cases hlookup : cache.lookup host with
  | none => exact h
  | some entry =>
      obtain ⟨hhost,hentry⟩ := valid_lookup h hlookup
      simp only
      split_ifs with hempty
      · exact valid_remove h
      · exact valid_insert h hhost (validEntry_prune hentry hempty)

theorem valid_retainFresh (h : ValidTable cache) : ValidTable (retainFresh now cache) where
  nodup := h.nodup.sublist (keys_filterMapValues_sublist _ cache)
  entries p hp := by
    obtain ⟨q,hq,heq⟩ := mem_filterMap.mp hp
    obtain ⟨e,he,rfl⟩ := map_eq_some_iff.mp heq
    simp only at he
    split_ifs at he with hempty
    cases he
    exact ⟨(h.entries q hq).1,validEntry_prune (h.entries q hq).2 hempty⟩

theorem validEntry_merge {entry : ConnPolicyEntry} (he : ValidEntry e)
    (hranges : (0 ≤ entry.cap ∧ entry.cap < 2 ^ 31) ∧ entry.capTs < 2 ^ 64 ∧
      (0 ≤ entry.hint ∧ entry.hint < 2 ^ 31) ∧ entry.hintTs < 2 ^ 64) :
    ValidEntry (mergeEntry now e entry) := by
  obtain ⟨hcap,hcapTs,hhint,hhintTs,hobserved⟩ := he
  obtain ⟨hcap',hcapTs',hhint',hhintTs'⟩ := hranges
  rw [mergeEntry]
  split_ifs with hadoptCap hadoptHint hadoptHint
  · exact ⟨hcap,hcapTs,hhint,hhintTs,hobserved⟩
  · exact ⟨hcap,hcapTs,hhint',hhintTs',.inl (by show e.cap ≠ 0; omega)⟩
  · exact ⟨hcap',hcapTs',hhint,hhintTs,.inr (by show e.hint ≠ 0; omega)⟩
  · refine ⟨hcap',hcapTs',hhint',hhintTs',?_⟩
    rcases hobserved with hobserved | hobserved
    · exact .inl fun hzero => hadoptCap ⟨by omega,.inl hzero⟩
    · exact .inr fun hzero => hadoptHint ⟨by omega,.inl hzero⟩

/-! ### Loading -/

theorem valid_loadEntry {loaded : String × ConnPolicyEntry} (h : ValidTable cache)
    (hhost : ValidHost loaded.1) (he : ValidEntry loaded.2) :
    ValidTable (loadEntry now cache loaded) := by
  rw [loadEntry]
  split_ifs with hempty
  · exact h
  · exact valid_insert h hhost (validEntry_merge (validEntry_prune he hempty) (valid_ranges h rfl))

theorem lookup_loadEntry_ne {loaded : String × ConnPolicyEntry} (hne : k ≠ loaded.1) :
    (loadEntry now cache loaded).lookup k = cache.lookup k := by
  rw [loadEntry]
  split_ifs
  · rfl
  · rw [lookup_insert, if_neg hne]

theorem cells_loadEntry (h : ValidTable cache) :
    capCell ((loadEntry now cache (k, e)).lookup k) = adopt lowers connCapTtl now
        (fresh connCapTtl now (capCell (some e))) (capCell (cache.lookup k)) ∧
      hintCell ((loadEntry now cache (k, e)).lookup k) = adopt raises connCapTtl now
        (fresh connCapTtl now (hintCell (some e))) (hintCell (cache.lookup k)) := by
  rw [← capCell_prune, ← hintCell_prune, loadEntry]
  simp only
  split_ifs with hempty
  · obtain ⟨hcap,hhint⟩ := cells_of_bothEmpty hempty
    rw [hcap, hhint]
    exact ⟨rfl,rfl⟩
  · obtain ⟨⟨hcap,-⟩,-,⟨hhint,-⟩,-⟩ := @valid_ranges cache k _ h rfl
    rw [lookup_insert, if_pos rfl, capCell_mergeEntry _ _ _ hcap, hintCell_mergeEntry _ _ _ hhint,
      capCell_getD, hintCell_getD]
    exact ⟨rfl,rfl⟩

theorem lookup_foldl_loadEntry_of_notMem {new : ConnPolicies} (hk : k ∉ keys new) :
    (new.foldl (loadEntry now) cache).lookup k = cache.lookup k := by
  induction new generalizing cache with
  | nil => rfl
  | cons loaded new ih =>
      rw [KeyedTable.keys, map_cons, mem_cons, not_or] at hk
      rw [foldl_cons, ih hk.2, lookup_loadEntry_ne hk.1]

theorem cells_foldl_loadEntry {new : ConnPolicies} (hnew : ValidTable new) (h : ValidTable cache) :
    ValidTable (new.foldl (loadEntry now) cache) ∧
      capCell ((new.foldl (loadEntry now) cache).lookup k) = adopt lowers connCapTtl now
        (fresh connCapTtl now (capCell (new.lookup k))) (capCell (cache.lookup k)) ∧
      hintCell ((new.foldl (loadEntry now) cache).lookup k) = adopt raises connCapTtl now
        (fresh connCapTtl now (hintCell (new.lookup k))) (hintCell (cache.lookup k)) := by
  induction new generalizing cache with
  | nil => exact ⟨h,rfl,rfl⟩
  | cons loaded new ih =>
      obtain ⟨key,e⟩ := loaded
      obtain ⟨hnodup,hentries⟩ := hnew
      rw [KeyedTable.keys, map_cons, nodup_cons] at hnodup
      rw [forall_mem_cons] at hentries
      have hcache : ValidTable (loadEntry now cache (key, e)) :=
        valid_loadEntry h hentries.1.1 hentries.1.2
      obtain ⟨hvalid,hcap,hhint⟩ := ih ⟨hnodup.2,hentries.2⟩ hcache
      rw [foldl_cons]
      refine ⟨hvalid,?_⟩
      by_cases hkey : k = key
      · subst hkey
        rw [lookup_foldl_loadEntry_of_notMem hnodup.1, lookup_cons_self]
        exact cells_loadEntry h
      · rw [lookup_loadEntry_ne hkey] at hcap hhint
        rw [lookup_cons, beq_false_of_ne hkey]
        exact ⟨hcap,hhint⟩

end

/-! ## What the cache holds -/

def UrlSyntax (parse : String → Option Url) : Prop :=
  ∀ url u h, parse url = some u → u.hostStr = some h → ValidHost h

variable {parse : String → Option Url}

variable {url : String}

theorem validHost_of_extractHost (hparse : UrlSyntax parse) {host : String}
    (h : extractHost parse url = some host) : ValidHost host := by
  obtain ⟨u,hu,hhost⟩ := bind_eq_some_iff.mp h
  obtain ⟨base,hbase,hport⟩ := map_eq_some_iff.mp hhost
  have hvalid := hparse url u base hu hbase
  cases hu' : u.port with
  | none =>
      rw [hu'] at hport
      exact hport ▸ hvalid
  | some port =>
      rw [hu'] at hport
      subst hport
      refine ⟨?_,?_,?_⟩
      · simp
      · simp [hvalid.noTab, not_mem_toDigits]
      · simp [hvalid.noNewline, not_mem_toDigits]

def State.saved (s : State) : ConnPolicies := (s.stored.map parseConnCaps).getD []

theorem State.valid_saved (s : State) : ValidTable s.saved := by
  cases hstored : s.stored with
  | none =>
      rw [State.saved, hstored]
      exact ⟨nodup_nil,nofun⟩
  | some raw =>
      rw [State.saved, hstored]
      exact valid_parseConnCaps raw

theorem State.load_cache (s : State) (now : ℕ) :
    (s.load now).cache = s.saved.foldl (loadEntry now) s.cache := by
  obtain ⟨cache,stored,clock⟩ := s
  cases stored <;> rfl

/-- The faces of every host keep their chains of records. -/
structure Inv (parse : String → Option Url) (s : State) (labels : List Label) : Prop where
  valid : ValidTable s.cache
  cap : ∀ host, Kept lowers connCapTtl s.clock (capCell (s.saved.lookup host))
    (capCell (s.cache.lookup host)) (capRecords parse host labels)
  hint : ∀ host, Kept raises connCapTtl s.clock (hintCell (s.saved.lookup host))
    (hintCell (s.cache.lookup host)) (hintRecords parse host labels)

theorem inv_startState : Inv parse startState [] :=
  ⟨⟨nodup_nil,nofun⟩,fun _ => kept_nil,fun _ => kept_nil⟩

/-! ### Steps -/

section
variable {url k : String} {now : ℕ} {cache : ConnPolicies}

theorem capCell_onHost_recordCap (cap : ℤ) :
    capCell ((onHost parse url (recordDomainConnCap · cap now) cache).lookup k) =
      if extractHost parse url = some k then
        record lowers connCapTtl now (max cap 1) (capCell (cache.lookup k))
      else capCell (cache.lookup k) := by
  rw [onHost]
  cases extractHost parse url with
  | none => rfl
  | some host =>
      by_cases heq : host = k
      · subst heq
        simp [capCell_recordCap]
      · simp [heq, capCell_recordCap_ne cap (Ne.symm heq)]

theorem hintCell_onHost_recordCap (cap : ℤ) :
    hintCell ((onHost parse url (recordDomainConnCap · cap now) cache).lookup k) =
      hintCell (cache.lookup k) := by
  rw [onHost]
  cases extractHost parse url with
  | none => rfl
  | some host => exact hintCell_recordCap cap

theorem hintCell_onHost_recordHint (scale : ℤ) :
    hintCell ((onHost parse url (recordDomainConnHint · scale now) cache).lookup k) =
      if extractHost parse url = some k then
        record raises connCapTtl now (max scale 1) (hintCell (cache.lookup k))
      else hintCell (cache.lookup k) := by
  rw [onHost]
  cases extractHost parse url with
  | none => rfl
  | some host =>
      by_cases heq : host = k
      · subst heq
        simp [hintCell_recordHint]
      · simp [heq, hintCell_recordHint_ne scale (Ne.symm heq)]

theorem capCell_onHost_recordHint (scale : ℤ) :
    capCell ((onHost parse url (recordDomainConnHint · scale now) cache).lookup k) =
      capCell (cache.lookup k) := by
  rw [onHost]
  cases extractHost parse url with
  | none => rfl
  | some host => exact capCell_recordHint scale

/-- A read clears what has expired, or nothing. -/
theorem cells_onHost_read (parse : String → Option Url) (url k : String) (now : ℕ)
    (cache : ConnPolicies) :
    let read := onHost parse url (fun host cache => (readConnPolicy host now cache).2) cache
    (capCell (read.lookup k) = capCell (cache.lookup k) ∧
        hintCell (read.lookup k) = hintCell (cache.lookup k)) ∨
      capCell (read.lookup k) = fresh connCapTtl now (capCell (cache.lookup k)) ∧
        hintCell (read.lookup k) = fresh connCapTtl now (hintCell (cache.lookup k)) := by
  simp only [onHost]
  cases extractHost parse url with
  | none => exact .inl ⟨rfl,rfl⟩
  | some host =>
      simp only [lookup_readConnPolicy]
      split_ifs with heq
      · rw [heq, capCell_readConnPolicy, hintCell_readConnPolicy]
        exact .inr ⟨rfl,rfl⟩
      · exact .inl ⟨rfl,rfl⟩

theorem valid_onHost {f : String → ConnPolicies → ConnPolicies} (hparse : UrlSyntax parse)
    (h : ValidTable cache) (hf : ∀ host, ValidHost host → ValidTable (f host cache)) :
    ValidTable (onHost parse url f cache) := by
  rw [onHost]
  cases hhost : extractHost parse url with
  | none => exact h
  | some host => exact hf host (validHost_of_extractHost hparse hhost)

end

variable {s t : State} {labels : List Label}

theorem capRecords_concat (parse : String → Option Url) (host : String) (labels : List Label)
    (label : Label) : capRecords parse host (labels ++ [label]) =
      (capRecord parse host label).toList ++ capRecords parse host labels := by
  rw [capRecords, filterMap_append, reverse_append, capRecords, filterMap_cons]
  cases capRecord parse host label <;> rfl

theorem hintRecords_concat (parse : String → Option Url) (host : String) (labels : List Label)
    (label : Label) : hintRecords parse host (labels ++ [label]) =
      (hintRecord parse host label).toList ++ hintRecords parse host labels := by
  rw [hintRecords, filterMap_append, reverse_append, hintRecords, filterMap_cons]
  cases hintRecord parse host label <;> rfl

theorem lowers_irrefl (v : ℤ) : lowers v v = false := by simp [lowers]

theorem raises_irrefl (v : ℤ) : raises v v = false := by simp [raises]

theorem lowers_trans (a b c : ℤ) (h : lowers b a = true) (hc : lowers c a = false) :
    lowers c b = false := by
  rw [lowers, decide_eq_true_iff] at h
  rw [lowers, decide_eq_false_iff_not] at hc ⊢
  omega

theorem raises_trans (a b c : ℤ) (h : raises b a = true) (hc : raises c a = false) :
    raises c b = false := by
  rw [raises, decide_eq_true_iff] at h
  rw [raises, decide_eq_false_iff_not] at hc ⊢
  omega

theorem connCapTtl_pos : 0 < connCapTtl := by decide

theorem Inv.recordCap (h : Inv parse s labels) (hparse : UrlSyntax parse) {cap : Int32}
    {now : UInt64} (hnow : s.clock ≤ now.toNat) :
    Inv parse ⟨onHost parse url (recordDomainConnCap · cap.toInt now.toNat) s.cache,s.stored,
      now.toNat⟩ (labels ++ [.recordCap url cap now]) where
  valid := valid_onHost hparse h.valid fun host hhost =>
    valid_recordCap h.valid hhost cap.toInt_lt now.toNat_lt
  cap k := by
    have hlater := (h.cap k).later hnow
    rw [capRecords_concat, capCell_onHost_recordCap, capRecord]
    split_ifs with hk
    · exact hlater.record connCapTtl_pos lowers_trans (max cap.toInt 1)
    · exact hlater
  hint k := by
    rw [hintRecords_concat, hintCell_onHost_recordCap]
    exact (h.hint k).later hnow

theorem Inv.recordHint (h : Inv parse s labels) (hparse : UrlSyntax parse) {scale : Int32}
    {now : UInt64} (hnow : s.clock ≤ now.toNat) :
    Inv parse ⟨onHost parse url (recordDomainConnHint · scale.toInt now.toNat) s.cache,s.stored,
      now.toNat⟩ (labels ++ [.recordHint url scale now]) where
  valid := valid_onHost hparse h.valid fun host hhost =>
    valid_recordHint h.valid hhost scale.toInt_lt now.toNat_lt
  cap k := by
    rw [capRecords_concat, capCell_onHost_recordHint]
    exact (h.cap k).later hnow
  hint k := by
    have hlater := (h.hint k).later hnow
    rw [hintRecords_concat, hintCell_onHost_recordHint, hintRecord]
    split_ifs with hk
    · exact hlater.record connCapTtl_pos raises_trans (max scale.toInt 1)
    · exact hlater

theorem Inv.read (h : Inv parse s labels) (hparse : UrlSyntax parse) {now : ℕ}
    (hnow : s.clock ≤ now) :
    Inv parse ⟨onHost parse url (fun host cache => (readConnPolicy host now cache).2) s.cache,
      s.stored,now⟩ labels where
  valid := by
    show ValidTable (onHost parse url (fun host cache => (readConnPolicy host now cache).2) s.cache)
    exact valid_onHost hparse h.valid fun _ _ => valid_readConnPolicy h.valid
  cap k := by
    have hlater := (h.cap k).later hnow
    rcases cells_onHost_read parse url k now s.cache with ⟨hcell,-⟩ | ⟨hcell,-⟩
    · rw [hcell]
      exact hlater
    · rw [hcell]
      exact hlater.prune
  hint k := by
    have hlater := (h.hint k).later hnow
    rcases cells_onHost_read parse url k now s.cache with ⟨-,hcell⟩ | ⟨-,hcell⟩
    · rw [hcell]
      exact hlater
    · rw [hcell]
      exact hlater.prune

theorem saved_persist (h : ValidTable s.cache) (now : ℕ) (k : String) :
    (s.persist now).saved.lookup k = (retainFresh now s.cache).lookup k :=
  lookup_parse_serialize (valid_retainFresh h) k

theorem Inv.persist (h : Inv parse s labels) {now : ℕ} (hnow : s.clock ≤ now) :
    Inv parse (s.persist now) labels where
  valid := valid_retainFresh h.valid
  cap k := by
    rw [saved_persist h.valid, State.persist, (cells_retainFresh h.valid).1]
    exact ((h.cap k).later hnow).save lowers_irrefl
  hint k := by
    rw [saved_persist h.valid, State.persist, (cells_retainFresh h.valid).2]
    exact ((h.hint k).later hnow).save raises_irrefl

theorem Inv.load (h : Inv parse s labels) {now : ℕ} (hnow : s.clock ≤ now) :
    Inv parse (s.load now) labels where
  valid := by
    rw [State.load_cache]
    exact (cells_foldl_loadEntry (k := "") s.valid_saved h.valid).1
  cap k := by
    have hlater := (h.cap k).later hnow
    have hcells := @cells_foldl_loadEntry _ k now _ s.valid_saved h.valid
    rw [State.load_cache, hcells.2.1, hlater.adopt_eq]
    exact hlater
  hint k := by
    have hlater := (h.hint k).later hnow
    have hcells := @cells_foldl_loadEntry _ k now _ s.valid_saved h.valid
    rw [State.load_cache, hcells.2.2, hlater.adopt_eq]
    exact hlater

theorem Inv.restart (h : Inv parse s labels) {savedAt loadedAt : ℕ} (hsaved : s.clock ≤ savedAt)
    (hloaded : savedAt ≤ loadedAt) :
    Inv parse (({ s.persist savedAt with cache := [] } : State).load loadedAt) labels := by
  have hempty : ValidTable [] := ⟨nodup_nil,nofun⟩
  have hcells := fun k => @cells_foldl_loadEntry _ k loadedAt _
    (s.persist savedAt).valid_saved hempty
  refine ⟨?_,fun k => ?_,fun k => ?_⟩
  · rw [State.load_cache]
    exact (hcells "").1
  · rw [State.load_cache]
    show Kept lowers connCapTtl loadedAt (capCell ((s.persist savedAt).saved.lookup k))
      (capCell (((s.persist savedAt).saved.foldl (loadEntry loadedAt) []).lookup k)) _
    rw [(hcells k).2.1, saved_persist h.valid, (cells_retainFresh h.valid).1]
    exact ((h.cap k).later hsaved).restore lowers_irrefl hloaded
  · rw [State.load_cache]
    show Kept raises connCapTtl loadedAt (hintCell ((s.persist savedAt).saved.lookup k))
      (hintCell (((s.persist savedAt).saved.foldl (loadEntry loadedAt) []).lookup k)) _
    rw [(hcells k).2.2, saved_persist h.valid, (cells_retainFresh h.valid).2]
    exact ((h.hint k).later hsaved).restore raises_irrefl hloaded

theorem Inv.concat {label : Label} (h : Inv parse s labels)
    (hcap : ∀ host, capRecord parse host label = none)
    (hhint : ∀ host, hintRecord parse host label = none) : Inv parse s (labels ++ [label]) where
  valid := h.valid
  cap host := by
    rw [capRecords_concat, hcap]
    exact h.cap host
  hint host := by
    rw [hintRecords_concat, hhint]
    exact h.hint host

theorem inv_step (hparse : UrlSyntax parse) (h : Inv parse s labels) {label : Label}
    (hstep : step parse s label = some t) : Inv parse t (labels ++ [label]) := by
  cases label with
  | recordCap url cap now =>
      obtain ⟨hnow,hstep⟩ := ite_none_right_eq_some.mp hstep
      cases hstep
      exact h.recordCap hparse hnow
  | recordHint url scale now =>
      obtain ⟨hnow,hstep⟩ := ite_none_right_eq_some.mp hstep
      cases hstep
      exact h.recordHint hparse hnow
  | read url now =>
      obtain ⟨hnow,hstep⟩ := ite_none_right_eq_some.mp hstep
      cases hstep
      exact (h.read hparse hnow).concat (fun _ => rfl) (fun _ => rfl)
  | persist now =>
      obtain ⟨hnow,hstep⟩ := ite_none_right_eq_some.mp hstep
      cases hstep
      exact (h.persist hnow).concat (fun _ => rfl) (fun _ => rfl)
  | load now =>
      obtain ⟨hnow,hstep⟩ := ite_none_right_eq_some.mp hstep
      cases hstep
      exact (h.load hnow).concat (fun _ => rfl) (fun _ => rfl)
  | restart savedAt loadedAt =>
      obtain ⟨⟨hsaved,hloaded⟩,hstep⟩ := ite_none_right_eq_some.mp hstep
      cases hstep
      exact (h.restart hsaved hloaded).concat (fun _ => rfl) (fun _ => rfl)

theorem inv_exec (hparse : UrlSyntax parse) (h : exec (step parse) startState labels = some s) :
    Inv parse s labels := by
  induction labels using reverseRecOn generalizing s with
  | nil =>
      cases h
      exact inv_startState
  | append_singleton labels label ih =>
      rw [exec_append] at h
      obtain ⟨r,hr,hlast⟩ := bind_eq_some_iff.mp h
      obtain ⟨t,ht,hs⟩ := exec_cons_iff.mp hlast
      cases hs
      exact inv_step hparse (ih hr) ht

/-! ## What is read -/

/-- The smallest of the caps of a host, from now back to the first gap of a time to live. -/
def effectiveCap (parse : String → Option Url) (host : String) (labels : List Label) (now : ℕ) :
    Option ℤ := ((chain connCapTtl now (capRecords parse host labels)).map Stamped.value).min?

/-- The largest of the hints of a host, from now back to the first gap of a time to live. -/
def effectiveHint (parse : String → Option Url) (host : String) (labels : List Label) (now : ℕ) :
    Option ℤ := ((chain connCapTtl now (hintRecords parse host labels)).map Stamped.value).max?

def clamp (cap : Option ℤ) (hint : ℤ) : ℤ :=
  match cap with
  | none => hint
  | some cap => min hint cap

theorem capOf_eq (e : ConnPolicyEntry) : capOf e = (capCell (some e)).map Stamped.value := by
  by_cases hcap : 0 < e.cap <;> simp [capOf, capCell, hcap]

theorem hintOf_eq (e : ConnPolicyEntry) : hintOf e =
    ((hintCell (some e)).map Stamped.value).map (clamp ((capCell (some e)).map Stamped.value)) := by
  by_cases hhint : 0 < e.hint
  · by_cases hcap : 0 < e.cap <;> simp [hintOf, hintCell, capCell, clamp, hhint, hcap]
  · simp [hintOf, hintCell, hhint]

section
variable {url host : String} {now : ℕ} (hhost : extractHost parse url = some host)
include hhost

theorem domainConnCap_eq (cache : ConnPolicies) : domainConnCap parse url now cache =
    (fresh connCapTtl now (capCell (cache.lookup host))).map Stamped.value := by
  rw [domainConnCap, hhost, bind_some, ← capCell_readConnPolicy]
  cases (readConnPolicy host now cache).1 with
  | none => rfl
  | some e => exact capOf_eq e

theorem domainConnHint_eq (cache : ConnPolicies) : domainConnHint parse url now cache =
    ((fresh connCapTtl now (hintCell (cache.lookup host))).map Stamped.value).map
      (clamp ((fresh connCapTtl now (capCell (cache.lookup host))).map Stamped.value)) := by
  rw [domainConnHint, hhost, bind_some, ← capCell_readConnPolicy, ← hintCell_readConnPolicy]
  cases (readConnPolicy host now cache).1 with
  | none => rfl
  | some e => exact hintOf_eq e

theorem Inv.answers (h : Inv parse s labels) (hnow : s.clock ≤ now) :
    domainConnCap parse url now s.cache = effectiveCap parse host labels now ∧
      domainConnHint parse url now s.cache =
        (effectiveHint parse host labels now).map (clamp (effectiveCap parse host labels now)) := by
  have hcap : (fresh connCapTtl now (capCell (s.cache.lookup host))).map Stamped.value =
      effectiveCap parse host labels now := by
    rw [((h.cap host).later hnow).holds, map_value_summary]
    exact bestOf_lt _
  have hhint : (fresh connCapTtl now (hintCell (s.cache.lookup host))).map Stamped.value =
      effectiveHint parse host labels now := by
    rw [((h.hint host).later hnow).holds, map_value_summary]
    exact bestOf_gt _
  rw [domainConnCap_eq hhost, domainConnHint_eq hhost, hcap, hhint]
  exact ⟨rfl,rfl⟩

end

/-- In every run the cap that is read is the smallest and the hint the largest since the last gap,
the hint is never above the cap, and a step that records nothing for the host, such as a restart,
changes no answer. -/
theorem policies_follow_records (hparse : UrlSyntax parse)
    (h : exec (step parse) startState labels = some s) {url host : String}
    (hhost : extractHost parse url = some host) {now : ℕ} (hnow : s.clock ≤ now) :
    domainConnCap parse url now s.cache = effectiveCap parse host labels now ∧
      domainConnHint parse url now s.cache =
        (effectiveHint parse host labels now).map (clamp (effectiveCap parse host labels now)) ∧
      (∀ hint cap, domainConnHint parse url now s.cache = some hint →
        domainConnCap parse url now s.cache = some cap → hint ≤ cap) ∧
      ∀ label t, capRecord parse host label = none → hintRecord parse host label = none →
        step parse s label = some t → t.clock ≤ now →
        domainConnCap parse url now t.cache = domainConnCap parse url now s.cache ∧
          domainConnHint parse url now t.cache = domainConnHint parse url now s.cache := by
  have hinv := inv_exec hparse h
  obtain ⟨hcap,hhint⟩ := hinv.answers hhost hnow
  refine ⟨hcap,hhint,fun hint cap hh hc => ?_,fun label t hnoCap hnoHint hstep hclock => ?_⟩
  · rw [hhint, ← hcap, hc] at hh
    obtain ⟨v,-,rfl⟩ := map_eq_some_iff.mp hh
    exact min_le_right v cap
  · obtain ⟨hcap',hhint'⟩ := (inv_step hparse hinv hstep).answers hhost hclock
    have hcaps : effectiveCap parse host (labels ++ [label]) now =
        effectiveCap parse host labels now := by
      rw [effectiveCap, capRecords_concat, hnoCap]
      rfl
    have hhints : effectiveHint parse host (labels ++ [label]) now =
        effectiveHint parse host labels now := by
      rw [effectiveHint, hintRecords_concat, hnoHint]
      rfl
    rw [hcap', hhint', hcaps, hhints, hcap, hhint]
    exact ⟨rfl,rfl⟩

def sampleParse (url : String) : Option Url :=
  if url = "http://a.example/f" then some ⟨some "a.example",none⟩ else none

theorem urlSyntax_sampleParse : UrlSyntax sampleParse := by
  intro url u h hu hhost
  rw [sampleParse] at hu
  split_ifs at hu
  cases hu
  cases hhost
  exact ⟨by decide,by decide,by decide⟩

/-- Two caps and a hint around a restart, and a third cap after all have expired. -/
def sampleLabels : List Label :=
  [.recordCap "http://a.example/f" 4 1000, .recordHint "http://a.example/f" 9 1500,
    .restart 2000 3000, .recordCap "http://a.example/f" 8 50000, .read "http://a.example/f" 60000]

theorem policies_follow_records_sample :
    ∃ s, exec (step sampleParse) startState sampleLabels = some s ∧
      domainConnCap sampleParse "http://a.example/f" 70000 s.cache = some 4 ∧
      domainConnHint sampleParse "http://a.example/f" 70000 s.cache = some 4 := by
  have hrun : (exec (step sampleParse) startState sampleLabels).any
      (fun s => decide (s.clock ≤ 70000)) = true := by
    decide +kernel
  obtain ⟨s,hs,hclock⟩ := (any_eq_true _ _).mp hrun
  obtain ⟨hcap,hhint,-⟩ := policies_follow_records urlSyntax_sampleParse hs
    (show extractHost sampleParse "http://a.example/f" = some "a.example" by decide +kernel)
    (of_decide_eq_true hclock)
  refine ⟨s,hs,hcap.trans (by decide +kernel),hhint.trans (by decide +kernel)⟩

end RinaDown.ConnPolicies
