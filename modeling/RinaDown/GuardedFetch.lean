import RinaDown.AddressGuard

/-!
# What a plugin's request can reach

A request without a proxy passes the guard in three places: before it is sent, at each redirect
and in the resolver. The client dials an address that the host itself spells without asking the
resolver. What it may dial is here collected over the whole chain of redirects, for any answers
of the name servers.
-/

namespace RinaDown.GuardedFetch

open AddressGuard List

def MAX_REDIRECTS : ℕ := 30

structure Url where
  scheme : String
  host : Option (List Char)

def isBracket (c : Char) : Bool := c == '[' || c == ']'

def trimBrackets (host : List Char) : List Char :=
  ((host.dropWhile isBracket).reverse.dropWhile isBracket).reverse

/-- The parser of addresses and the connector's reading of a host as an address, which leaves
the brackets of an IPv6 address out too. -/
structure Client where
  parse : List Char → Option IpAddr
  literal : List Char → Option IpAddr
  literal_eq : ∀ host, literal host = parse (trimBrackets host)

/-- A request of the chain, with the answers that a lookup of its host gives at that time. -/
structure Hop where
  url : Url
  answers : List IpAddr

inductive GuardError where
  | tooManyRedirects
  | blockedRedirect
deriving DecidableEq

def GuardError.message : GuardError → String
  | .tooManyRedirects => "too many redirects"
  | .blockedRedirect => "blocked: non-routable redirect target"

inductive PluginError where
  | invalidOutput (text : String)
  | runtime (error : GuardError)
deriving DecidableEq

/-- The addresses that the client may dial and how the guard ended the request, if it did. -/
structure Fetch where
  dialled : List IpAddr
  refused : Option PluginError

variable (client : Client)

def isBlocked (url : Url) : Bool :=
  match url.host with
  | none => false
  | some host =>
      match client.parse (trimBrackets host) with
      | none => false
      | some ip => !isGloballyRoutableUnicast ip

def redirectPolicy (previous : ℕ) (url : Url) : Option GuardError :=
  if MAX_REDIRECTS ≤ previous then some .tooManyRedirects
  else if isBlocked client url then some .blockedRedirect
  else none

def guardResolver (answers : List IpAddr) : List IpAddr :=
  answers.filter isGloballyRoutableUnicast

/-- The connector knows the two schemes of HTTP only. -/
def connect (hop : Hop) : List IpAddr :=
  if hop.url.scheme ≠ "http" ∧ hop.url.scheme ≠ "https" then []
  else
    match hop.url.host with
    | none => []
    | some host =>
        match client.literal host with
        | some ip => [ip]
        | none => guardResolver hop.answers

def send : ℕ → Hop → List Hop → Fetch
  | _, hop, [] => ⟨connect client hop,none⟩
  | previous, hop, next :: redirects =>
      match redirectPolicy client (previous + 1) next.url with
      | some error => ⟨connect client hop,some (.runtime error)⟩
      | none =>
          let rest := send (previous + 1) next redirects
          ⟨connect client hop ++ rest.dialled,rest.refused⟩

/-- `redirects` are the targets that the servers name, one after the other. -/
def httpRequest (first : Hop) (redirects : List Hop) : Fetch :=
  if first.url.scheme ≠ "http" ∧ first.url.scheme ≠ "https" then
    ⟨[],some (.invalidOutput "flux.fetch 仅支持 http/https")⟩
  else if isBlocked client first.url then
    ⟨[],some (.invalidOutput "blocked: non-routable IP")⟩
  else send client 0 first redirects

/-! ## Only what the guard accepts is dialled -/

variable {client} {ip : IpAddr}

theorem routable_of_connect {hop : Hop} (hblocked : isBlocked client hop.url = false)
    (h : ip ∈ connect client hop) : isGloballyRoutableUnicast ip = true := by
  rw [isBlocked] at hblocked
  have hscheme : ¬ (hop.url.scheme ≠ "http" ∧ hop.url.scheme ≠ "https") := by
    intro hscheme
    simp [connect, hscheme] at h
  rw [connect, if_neg hscheme] at h
  cases hhost : hop.url.host with
  | none => simp [hhost] at h
  | some host =>
      simp only [hhost] at hblocked h
      rw [client.literal_eq] at h
      cases hparse : client.parse (trimBrackets host) with
      | none =>
          simp only [hparse, guardResolver] at h
          exact (mem_filter.1 h).2
      | some literal =>
          simp only [hparse, Bool.not_eq_false'] at hblocked
          simp only [hparse, mem_singleton] at h
          exact h ▸ hblocked

theorem isBlocked_of_followed {previous : ℕ} {url : Url}
    (h : redirectPolicy client previous url = none) : isBlocked client url = false := by
  rw [redirectPolicy] at h
  by_cases hmany : MAX_REDIRECTS ≤ previous
  · simp [hmany] at h
  · cases hblocked : isBlocked client url with
    | false => rfl
    | true => simp [hmany, hblocked] at h

theorem routable_of_send {previous : ℕ} {hop : Hop} {redirects : List Hop}
    (hblocked : isBlocked client hop.url = false)
    (h : ip ∈ (send client previous hop redirects).dialled) :
    isGloballyRoutableUnicast ip = true := by
  induction redirects generalizing previous hop with
  | nil => exact routable_of_connect hblocked h
  | cons next redirects ih =>
      rw [send] at h
      cases hpolicy : redirectPolicy client (previous + 1) next.url with
      | some error =>
          simp only [hpolicy] at h
          exact routable_of_connect hblocked h
      | none =>
          simp only [hpolicy, mem_append] at h
          rcases h with h | h
          · exact routable_of_connect hblocked h
          · exact ih (isBlocked_of_followed hpolicy) h

theorem routable_of_fetched {first : Hop} {redirects : List Hop}
    (h : ip ∈ (httpRequest client first redirects).dialled) :
    isGloballyRoutableUnicast ip = true := by
  rw [httpRequest] at h
  by_cases hscheme : first.url.scheme ≠ "http" ∧ first.url.scheme ≠ "https"
  · simp [hscheme] at h
  · rw [if_neg hscheme] at h
    cases hblocked : isBlocked client first.url with
    | true => simp [hblocked] at h
    | false =>
        simp only [hblocked, Bool.false_eq_true, if_false] at h
        exact routable_of_send hblocked h

theorem fetched_of_routable {name : List Char} (hname : client.literal name = none)
    (h : isGloballyRoutableUnicast ip = true) :
    ip ∈ (httpRequest client ⟨⟨"http",some name⟩,[ip]⟩ []).dialled := by
  have hparse : client.parse (trimBrackets name) = none := by
    rw [← client.literal_eq, hname]
  have hblocked : isBlocked client ⟨"http",some name⟩ = false := by
    simp [isBlocked, hparse]
  simp [httpRequest, hblocked, send, connect, hname, guardResolver, h]

/-- The guard rejects a forbidden address, and no request reaches it over any chain of redirects
and any answers, exactly when the address is of none of the missed kinds. -/
theorem forbidden_kept_out_iff (client : Client) (name : List Char)
    (hname : client.literal name = none) (ip : IpAddr) (h : Forbidden ip) :
    (isGloballyRoutableUnicast ip = false ↔ ¬ Missed ip) ∧
      ((∀ first redirects, ip ∉ (httpRequest client first redirects).dialled) ↔ ¬ Missed ip) := by
  have hmissed := routable_iff_missed h
  constructor
  · rw [← hmissed, Bool.not_eq_true]
  · rw [← hmissed]
    constructor
    · intro hnever hroutable
      exact hnever _ _ (fetched_of_routable hname hroutable)
    · intro hrejected first redirects hfetched
      exact hrejected (routable_of_fetched hfetched)

def sampleClient : Client where
  parse text :=
    if text = "127.0.0.1".toList then some (.v4 ⟨127,0,0,1⟩)
    else if text = "::7f00:1".toList then some (.v6 ⟨0,0,0,0,0,0,0x7f00,1⟩)
    else if text = "fec0::1".toList then some (.v6 ⟨0xfec0,0,0,0,0,0,0,1⟩)
    else none
  literal text :=
    if trimBrackets text = "127.0.0.1".toList then some (.v4 ⟨127,0,0,1⟩)
    else if trimBrackets text = "::7f00:1".toList then some (.v6 ⟨0,0,0,0,0,0,0x7f00,1⟩)
    else if trimBrackets text = "fec0::1".toList then some (.v6 ⟨0xfec0,0,0,0,0,0,0,1⟩)
    else none
  literal_eq _ := rfl

theorem loopback_kept_out :
    (isGloballyRoutableUnicast (.v4 ⟨127,0,0,1⟩) = false ↔ ¬ Missed (.v4 ⟨127,0,0,1⟩)) ∧
      ((∀ first redirects,
          IpAddr.v4 ⟨127,0,0,1⟩ ∉ (httpRequest sampleClient first redirects).dialled) ↔
        ¬ Missed (.v4 ⟨127,0,0,1⟩)) :=
  forbidden_kept_out_iff sampleClient "example.com".toList (by decide) _
    (.v4 (isV4Routable_eq_false.1 (by decide)))

/-- `http://[::7f00:1]/` takes a plugin to the IPv4-compatible form of `127.0.0.1`, and
`fec0::1` is a site-local address that the guard accepts. -/
theorem loopback_reached_compatible :
    Carries .compatible ⟨0,0,0,0,0,0,0x7f00,1⟩ ⟨127,0,0,1⟩ ∧ Reserved ⟨127,0,0,1⟩ ∧
      (httpRequest sampleClient ⟨⟨"http",some "[::7f00:1]".toList⟩,[]⟩ []).dialled =
        [.v6 ⟨0,0,0,0,0,0,0x7f00,1⟩] ∧
      siteLocal.Contains (Ipv6Addr.toNat ⟨0xfec0,0,0,0,0,0,0,1⟩) ∧
      isGloballyRoutableUnicast (.v6 ⟨0xfec0,0,0,0,0,0,0,1⟩) = true := by
  refine ⟨⟨by decide,by decide,by simp⟩,isV4Routable_eq_false.1 (by decide),by decide,?_,
    by decide⟩
  decide

end RinaDown.GuardedFetch
