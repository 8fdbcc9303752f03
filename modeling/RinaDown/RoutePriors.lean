import RinaDown.KeyedTable

/-!
# Priors of proxy routes

What the automatic proxy mode has learnt about a host: when the proxy was faster, when it had no
advantage, and when it served other content. Observations expire, and the table is cut to a
number of hosts.
-/

namespace RinaDown.RoutePriors

open KeyedTable

/-- The throughput of a probe is stored and not computed with. -/
structure HostRoute (Bps : Type) where
  proxyTs : ℕ
  proxyBps : Bps
  proxyN : ℕ
  confirmTs : ℕ
  coolN : ℕ
  coolTs : ℕ
  noswTs : ℕ
  winTs : ℕ
deriving DecidableEq

abbrev RouteTable (Bps : Type) := Table String (HostRoute Bps)

variable {Bps : Type} [Zero Bps]

def HostRoute.default : HostRoute Bps := ⟨0,0,0,0,0,0,0,0⟩

def routeTtl : ℕ := 24 * 3600

def maxHosts : ℕ := 512

def proxyConfirmGapSecs : ℕ := 12 * 3600

def proxyTtlMaxSecs : ℕ := 7 * 24 * 3600

def saturatingAdd (n : ℕ) : ℕ := min (n + 1) (2 ^ 32 - 1)

/-- A time in the future is no observation. -/
def freshWithin (recorded ttl now : ℕ) : Bool :=
  0 < recorded && recorded ≤ now && now - recorded < ttl

def fresh (recorded now : ℕ) : Bool := freshWithin recorded routeTtl now

def proxyTtlSecs (proxyN : ℕ) : ℕ := min (routeTtl * 2 ^ min (proxyN - 1) 3) proxyTtlMaxSecs

/-! ## Observations -/

def bumpProxyConfirm (e : HostRoute Bps) (now : ℕ) : HostRoute Bps :=
  if e.confirmTs = 0 ∨ now - e.confirmTs > proxyConfirmGapSecs then
    { e with proxyN := saturatingAdd e.proxyN, confirmTs := now, proxyTs := now }
  else
    { e with proxyTs := now }

/-- The entry of a host is changed, from the default when there is none. -/
def upsert (host : String) (f : HostRoute Bps → HostRoute Bps) (map : RouteTable Bps) :
    RouteTable Bps :=
  insert host (f ((map.lookup host).getD .default)) map

/-- The operations on the table, each by the name of its function. -/
inductive Operation (Bps : Type) where
  | recordProxyWin (host : String) (probeBps : Bps)
  | recordCooldown (host : String)
  | recordNoSwitch (host : String)
  | touchProxyRoute (host : String)
  | clearProxyPrior (host : String)
  | clearAll

def recordProxyWin (host : String) (probeBps : Bps) (now : ℕ) : RouteTable Bps → RouteTable Bps :=
  upsert host fun e =>
    { bumpProxyConfirm e now with winTs := now, proxyBps := probeBps, coolN := 0, coolTs := 0 }

def recordCooldown (host : String) (now : ℕ) : RouteTable Bps → RouteTable Bps :=
  upsert host fun e => { e with coolN := saturatingAdd e.coolN, coolTs := now }

def recordNoSwitch (host : String) (now : ℕ) : RouteTable Bps → RouteTable Bps :=
  upsert host fun e => { e with noswTs := now }

def touchProxyRoute (host : String) (now : ℕ) : RouteTable Bps → RouteTable Bps :=
  upsert host fun e => bumpProxyConfirm e now

def HostRoute.clearProxy (e : HostRoute Bps) : HostRoute Bps :=
  { e with proxyTs := 0, proxyBps := 0, proxyN := 0, winTs := 0, confirmTs := 0 }

/-- A host without an entry gets none. -/
def clearProxyPrior (host : String) (map : RouteTable Bps) : RouteTable Bps :=
  match map.lookup host with
  | none => map
  | some e => insert host e.clearProxy map

def Operation.update (now : ℕ) : Operation Bps → RouteTable Bps → RouteTable Bps
  | recordProxyWin host probeBps => RoutePriors.recordProxyWin host probeBps now
  | recordCooldown host => RoutePriors.recordCooldown host now
  | recordNoSwitch host => RoutePriors.recordNoSwitch host now
  | touchProxyRoute host => RoutePriors.touchProxyRoute host now
  | clearProxyPrior host => RoutePriors.clearProxyPrior host
  | clearAll => fun _ => []

/-! ## Pruning -/

def HostRoute.expire (now : ℕ) (e : HostRoute Bps) : HostRoute Bps :=
  let e := if freshWithin e.proxyTs (proxyTtlSecs e.proxyN) now then e else e.clearProxy
  let e := if fresh e.coolTs now then e else { e with coolTs := 0, coolN := 0 }
  if fresh e.noswTs now then e else { e with noswTs := 0 }

omit [Zero Bps] in
/-- An entry without an observation is removed. -/
def HostRoute.observed (e : HostRoute Bps) : Bool := e.proxyTs ≠ 0 || e.coolTs ≠ 0 || e.noswTs ≠ 0

def HostRoute.newest (e : HostRoute Bps) : ℕ := max (max e.proxyTs e.coolTs) e.noswTs

/-- The first entries that are not older than the cutoff, when `kept` are kept already. -/
def retainNewest (cutoff : ℕ) : ℕ → RouteTable Bps → RouteTable Bps
  | _, [] => []
  | kept, e :: map =>
      if e.2.newest ≥ cutoff ∧ kept < maxHosts then e :: retainNewest cutoff (kept + 1) map
      else retainNewest cutoff kept map

/-- The entries are visited in the order of the list. -/
def prune (now : ℕ) (map : RouteTable Bps) : RouteTable Bps :=
  let map := (map.map fun e => (e.1, e.2.expire now)).filter fun e => e.2.observed
  if map.length > maxHosts then
    let sorted := (map.map fun e => e.2.newest).mergeSort
    retainNewest (sorted.getD (sorted.length - maxHosts) 0) 0 map
  else map

omit [Zero Bps] in
theorem length_retainNewest_le (cutoff kept : ℕ) (map : RouteTable Bps) (h : kept ≤ maxHosts) :
    kept + (retainNewest cutoff kept map).length ≤ maxHosts := by
  fun_induction retainNewest cutoff kept map with
  | case1 kept => simpa using h
  | case2 kept e map hkept ih =>
      have := ih hkept.2
      rw [List.length_cons]
      omega
  | case3 kept e map _ ih => exact ih h

/-- A table that has been pruned is not larger than allowed. -/
theorem length_prune_le (now : ℕ) (map : RouteTable Bps) :
    (prune now map).length ≤ maxHosts := by
  rw [prune]
  split_ifs with hlength
  · simpa using length_retainNewest_le _ 0 _ (Nat.zero_le maxHosts)
  · exact Nat.le_of_not_lt hlength

end RinaDown.RoutePriors
