import RinaDown.FtpUrls
import RinaDown.JsonTexts

/-!
# The grammar of FTP addresses

An address names a user and a password, a host, a port and a path. The parser gives back what an
address was written for, unless its path has an at sign that is not written as an escape, for
then the host is taken from the path.
-/

namespace RinaDown.FtpAddresses

open FtpUrls List Option
open PercentDecoding
open TextSlices
open Texts (decimal parseUnsigned)

variable {gbk : List UInt8 → Option (List Char)}

/-! ## Escapes -/

/-- Bytes written as escapes, with digits in any case. -/
inductive Escapes : List UInt8 → List Char → Prop
  | nil : Escapes [] []
  | cons {b c : Char} {hi lo : ℕ} {bytes : List UInt8} {s : List Char}
      (hhi : hi < 16) (hb : b.toLower = Nat.digitChar hi) (hlo : lo < 16)
      (hc : c.toLower = Nat.digitChar lo) (h : Escapes bytes s) :
      Escapes (UInt8.ofNat (16 * hi + lo) :: bytes) ('%' :: b :: c :: s)

/-- A text written with escapes for those of its characters that must not stand for themselves,
and perhaps for others. -/
inductive Written (literal : Char → Prop) : List Char → List Char → Prop
  | nil : Written literal [] []
  | plain {c : Char} {text s : List Char} (hc : literal c) (h : Written literal text s) :
      Written literal (c :: text) (c :: s)
  | escaped {c : Char} {text e s : List Char} (he : Escapes (String.utf8EncodeChar c) e)
      (h : Written literal text s) : Written literal (c :: text) (e ++ s)

section
variable {literal : Char → Prop} {text s e l r : List Char} {bytes : List UInt8} {c : Char}

theorem Escapes.percentDecode_append (h : Escapes bytes e) (s : List Char) :
    percentDecode (encode (e ++ s)) = bytes ++ percentDecode (encode s) := by
  induction h with
  | nil => rfl
  | cons hhi hb hlo hc _ ih =>
    rw [cons_append, cons_append, cons_append,
      percentDecode_escape hhi hb hlo hc, ih, cons_append]

theorem Written.percentDecode_eq (hliteral : ¬ literal '%') (h : Written literal text s) :
    percentDecode (encode s) = encode text := by
  induction h with
  | nil => rfl
  | plain hc _ ih =>
    rw [percentDecode_encode_cons (fun heq => hliteral (heq ▸ hc)), ih, encode_cons]
  | escaped he _ ih => rw [he.percentDecode_append, ih, encode_cons]

theorem Written.decoded_eq (hliteral : ¬ literal '%') (h : Written literal text s) :
    decoded gbk s = text := by
  rw [decoded, h.percentDecode_eq hliteral, decode_encode, getD_some]

theorem Written.plainly (h : ∀ c ∈ text, literal c) : Written literal text text := by
  induction text with
  | nil => exact .nil
  | cons c text ih =>
    exact .plain (h c mem_cons_self) (ih fun d hd => h d (mem_cons_of_mem c hd))

abbrev Outside (c : Char) : Prop := c ≠ '%' ∧ ∀ n < 16, c.toLower ≠ Nat.digitChar n

theorem Escapes.notMem (h : Escapes bytes e) (hc : Outside c) : c ∉ e := by
  induction h with
  | nil => exact not_mem_nil
  | cons hhi hb hlo hc' _ ih =>
    intro hmem
    obtain rfl | hmem := mem_cons.mp hmem
    · exact hc.1 rfl
    obtain rfl | hmem := mem_cons.mp hmem
    · exact hc.2 _ hhi hb
    obtain rfl | hmem := mem_cons.mp hmem
    · exact hc.2 _ hlo hc'
    · exact ih hmem

theorem Written.notMem (h : Written literal text s) (hliteral : ¬ literal c)
    (hc : Outside c) : c ∉ s := by
  induction h with
  | nil => exact not_mem_nil
  | plain hd _ ih =>
    intro hmem
    obtain rfl | hmem := mem_cons.mp hmem
    · exact hliteral hd
    · exact ih hmem
  | escaped he _ ih =>
    intro hmem
    exact (mem_append.mp hmem).elim (he.notMem hc) ih

theorem Written.cut (h : Written literal text s) (hc : Outside c) (hs : s = l ++ c :: r) :
    ∃ tl tr, text = tl ++ c :: tr ∧ Written literal tr r := by
  induction h generalizing l with
  | nil => simp at hs
  | @plain d text s hd h ih =>
    cases l with
    | nil =>
      obtain ⟨rfl,rfl⟩ := cons.inj hs
      exact ⟨[],text,rfl,h⟩
    | cons d' l =>
      obtain ⟨rfl,rfl⟩ := cons.inj hs
      obtain ⟨tl,tr,rfl,hr⟩ := ih rfl
      exact ⟨d :: tl,tr,rfl,hr⟩
  | @escaped d text e s he h ih =>
    -- The character is not in the escapes, and so after them.
    obtain ⟨m,rfl,hm⟩ | ⟨m,rfl,hm⟩ := append_eq_append_iff.mp hs
    · obtain ⟨tl,tr,rfl,hr⟩ := ih hm
      exact ⟨d :: tl,tr,rfl,hr⟩
    · cases m with
      | nil =>
        obtain ⟨tl,tr,rfl,hr⟩ := ih (l := []) hm.symm
        exact ⟨d :: tl,tr,rfl,hr⟩
      | cons d' m =>
        obtain ⟨rfl,-⟩ := cons.inj hm
        exact absurd (mem_append_right l mem_cons_self) (he.notMem hc)

theorem Escapes.eq_nil (h : Escapes bytes []) : bytes = [] := by
  cases h
  rfl

theorem Written.eq_nil_iff (h : Written literal text s) : s = [] ↔ text = [] := by
  cases h with
  | nil => exact Iff.rfl
  | plain _ _ => simp
  | @escaped c text e s he _ =>
    refine iff_of_false (fun hnil => ?_) (cons_ne_nil c text)
    obtain ⟨rfl,-⟩ := append_eq_nil_iff.mp hnil
    have hlength := String.length_utf8EncodeChar c
    rw [he.eq_nil] at hlength
    exact absurd hlength c.utf8Size_pos.ne

end

/-! ## Addresses -/

structure Part where
  text : List Char
  written : List Char

structure Address where
  user : Option (Part × Option Part)
  host : List Char
  port : Option (List Char)
  path : Part

def userinfoText : Option (Part × Option Part) → List Char
  | none => []
  | some (user, none) => user.written ++ ['@']
  | some (user, some password) => user.written ++ ':' :: password.written ++ ['@']

def portText : Option (List Char) → List Char
  | none => []
  | some digits => ':' :: digits

/-- `ftp://[user[:password]@]host[:port]/path` -/
def Address.text (a : Address) : List Char :=
  "ftp://".toList ++ (userinfoText a.user ++ (a.host ++ portText a.port ++ '/' :: a.path.written))

/-- In a user and a password these are written as escapes. -/
abbrev IsCredentialChar (c : Char) : Prop := c ≠ '@' ∧ c ≠ ':' ∧ c ≠ '/' ∧ c ≠ '%'

abbrev IsPathChar (c : Char) : Prop := c ≠ '%'

def isLiteralChar (c : Char) : Bool := JsonTexts.isHexDigit c || c == ':' || c == '.'

inductive IsHost : List Char → Prop
  | name {text : List Char} (hne : text ≠ [])
      (h : ∀ c ∈ text, c ∉ [':', '/', '@', '[', ']']) : IsHost text
  | literal {body : List Char} (h : ∀ c ∈ body, isLiteralChar c = true) :
      IsHost ('[' :: body ++ [']'])

def IsPort (digits : List Char) : Prop := ∃ p < 65536, decimal digits = some p

/-- All but the port is as the grammar says. -/
structure Address.Valid (a : Address) : Prop where
  user : ∀ u ∈ a.user, Written IsCredentialChar u.1.text u.1.written ∧
    ∀ p ∈ u.2, Written IsCredentialChar p.text p.written
  host : IsHost a.host
  path : Written IsPathChar a.path.text a.path.written

def namesNoUser : Option (Part × Option Part) → Bool
  | some (user, none) => user.text.isEmpty
  | _ => false

def credentials : Option (Part × Option Part) → List Char × List Char
  | none => ("anonymous".toList, "anonymous@".toList)
  | some (user, password) => (user.text, (password.map Part.text).getD [])

/-- What the address stands for. -/
def Address.parts (a : Address) : FtpUrl where
  host := a.host
  port := (a.port.bind decimal).getD 21
  username := (credentials a.user).1
  password := (credentials a.user).2
  path := '/' :: a.path.text

def Address.Parsed (gbk : List UInt8 → Option (List Char)) (a : Address) : Prop :=
  parseFtpUrl gbk a.text = some (.ok a.parts)

/-- If anything can be connected to, it is the host of the address. -/
def Address.KeepsHost (gbk : List UInt8 → Option (List Char)) (a : Address) : Prop :=
  ∀ f, parseFtpUrl gbk a.text = some (.ok f) → IsHost f.host → f.host = a.host

/-- What follows the last at sign of the path names another host, and perhaps a port. -/
def Address.Diverts (a : Address) : Prop :=
  ∃ l r host port, a.path.written = l ++ '@' :: r ∧ '@' ∉ r ∧
    r.takeWhile (· ≠ '/') = host ++ portText port ∧ IsHost host ∧
    (∀ digits ∈ port, (parseUnsigned (2 ^ 16) digits).isSome) ∧ host ≠ a.host

/-! ## Hosts -/

variable {host : List Char} {c : Char}

theorem not_isLiteralChar : isLiteralChar '/' = false ∧ isLiteralChar '@' = false ∧
    isLiteralChar '[' = false ∧ isLiteralChar ']' = false := by decide

theorem IsHost.ne_nil (h : IsHost host) : host ≠ [] := by
  cases h with
  | name hne _ => exact hne
  | literal _ => exact cons_ne_nil _ _

theorem IsHost.notMem (h : IsHost host) : '/' ∉ host ∧ '@' ∉ host := by
  cases h with
  | name _ h => exact ⟨fun hmem => h _ hmem (by decide),fun hmem => h _ hmem (by decide)⟩
  | @literal body h =>
    have hbody : ∀ c, isLiteralChar c = false → c ∉ body := fun c hc hmem => by
      rw [h c hmem] at hc
      exact Bool.noConfusion hc
    have h1 := hbody '/' not_isLiteralChar.1
    have h2 := hbody '@' not_isLiteralChar.2.1
    simp [h1, h2]

theorem IsHost.not_append (h : IsHost host) (rest : List Char) : ¬ IsHost (host ++ ':' :: rest) := by
  intro hlong
  generalize htext : host ++ ':' :: rest = whole at hlong
  cases hlong with
  | name _ hname => exact hname ':' (by rw [← htext]; simp) (by decide)
  | @literal body hbody =>
    cases h with
    | name hne hname =>
      obtain ⟨c,host,rfl⟩ := exists_cons_of_ne_nil hne
      obtain ⟨rfl,-⟩ := cons.inj htext
      exact hname '[' mem_cons_self (by decide)
    | @literal body' hbody' =>
      -- The bracket that closes the host is not the last character.
      have htail : body' ++ ']' :: ':' :: rest = body ++ [']'] := by simpa using htext
      have hmem : ']' ∈ body := by
        obtain ⟨m,hbody,hm⟩ | ⟨m,hbody,hm⟩ := append_eq_append_iff.mp htail
        · cases m with
          | nil => simp at hm
          | cons d m =>
            obtain ⟨rfl,-⟩ := cons.inj hm
            rw [hbody]
            simp
        · cases m with
          | nil => simp at hm
          | cons d m =>
            have hlength := congrArg List.length hm
            simp at hlength
      have hclose := hbody ']' hmem
      rw [not_isLiteralChar.2.2.2] at hclose
      exact Bool.noConfusion hclose

/-! ## Ports -/

variable {digits hostport : List Char}

theorem parseUnsigned_of_isPort {p : ℕ} (hp : p < 65536) (h : decimal digits = some p) :
    parseUnsigned (2 ^ 16) digits = some p := by
  have hdigits : digits ≠ [] ∧ digits.all Char.isDigit = true := by
    by_contra hnot
    rw [decimal, if_neg hnot] at h
    exact some_ne_none p h.symm
  have hhead : digits.head? ≠ some '+' := by
    intro hplus
    have hmem : '+' ∈ digits := mem_of_mem_head? hplus
    exact absurd (all_eq_true.mp hdigits.2 _ hmem) (by decide)
  have hfilter : (some p).filter (· < 2 ^ 16) = some p := filter_some_pos (decide_eq_true hp)
  rw [parseUnsigned, if_neg hhead, h, hfilter]

theorem notMem_of_decimal {p : ℕ} (h : decimal digits = some p) (hc : c.isDigit = false) :
    c ∉ digits := by
  intro hmem
  by_cases hdigits : digits ≠ [] ∧ digits.all Char.isDigit = true
  · rw [all_eq_true.mp hdigits.2 c hmem] at hc
    exact Bool.noConfusion hc
  · rw [decimal, if_neg hdigits] at h
    exact some_ne_none p h.symm

theorem parseUnsigned_eq_none (hmem : c ∈ digits) (hc : c.isDigit = false ∧ c ≠ '+') :
    parseUnsigned (2 ^ 16) digits = none := by
  have hdecimal : ∀ {text : List Char}, c ∈ text → decimal text = none := fun htext => by
    cases h : decimal _ with
    | none => rfl
    | some p => exact absurd htext (notMem_of_decimal h hc.1)
  rw [parseUnsigned]
  split_ifs with hplus
  · obtain ⟨rest,rfl⟩ := head?_eq_some_iff.mp hplus
    have hrest := (mem_cons.mp hmem).resolve_left hc.2
    rw [tail_cons, hdecimal hrest, filter_none]
  · rw [hdecimal hmem, filter_none]

theorem hostAndPort_host (h : IsHost host) : hostAndPort host = some (host, 21) := by
  cases h with
  | name _ hname => exact hostAndPort_absent fun hmem => hname ':' hmem (by decide)
  | @literal body hbody =>
    by_cases hcolon : ':' ∈ '[' :: body ++ [']']
    · obtain ⟨l,r,heq,hr⟩ := exists_last hcolon
      -- The bracket comes after the last colon.
      have hclose : ']' ∈ r := by
        have hlast : (l ++ ':' :: r).getLast? = some ']' := by
          rw [← heq, getLast?_concat]
        rw [getLast?_append_of_ne_nil l (cons_ne_nil ':' r)] at hlast
        have hmem := mem_of_mem_getLast? hlast
        exact (mem_cons.mp hmem).resolve_left (by decide)
      rw [heq, hostAndPort_append hr, parseUnsigned_eq_none hclose (by decide)]
      rfl
    · exact hostAndPort_absent hcolon

theorem hostAndPort_port {port : Option (List Char)} (h : IsHost host)
    (hport : ∀ digits ∈ port, IsPort digits) :
    hostAndPort (host ++ portText port) = some (host, (port.bind decimal).getD 21) := by
  cases port with
  | none => rw [portText, append_nil, hostAndPort_host h]; rfl
  | some digits =>
    obtain ⟨p,hp,hdigits⟩ := hport digits rfl
    have hcolon : ':' ∉ digits := notMem_of_decimal hdigits (by decide)
    rw [portText, hostAndPort_append hcolon, parseUnsigned_of_isPort hp hdigits,
      bind_some, hdigits]
    rfl

theorem isHost_hostAndPort :
    (∃ port, hostAndPort hostport = some (host, port) ∧ IsHost host) ↔
      ∃ port, hostport = host ++ portText port ∧ IsHost host ∧
        ∀ digits ∈ port, (parseUnsigned (2 ^ 16) digits).isSome := by
  constructor
  · rintro ⟨port,htarget,hhost⟩
    by_cases hcolon : ':' ∈ hostport
    · obtain ⟨l,r,rfl,hr⟩ := exists_last hcolon
      rw [hostAndPort_append hr] at htarget
      cases hp : parseUnsigned (2 ^ 16) r with
      | none =>
        rw [hp] at htarget
        obtain ⟨rfl,-⟩ := Prod.mk.inj (some.inj htarget)
        exact ⟨none,(append_nil _).symm,hhost,by simp⟩
      | some p =>
        rw [hp] at htarget
        obtain ⟨rfl,-⟩ := Prod.mk.inj (some.inj htarget)
        refine ⟨some r,rfl,hhost,fun digits hdigits => ?_⟩
        obtain rfl := some.inj hdigits
        rw [hp, isSome_some]
    · rw [hostAndPort_absent hcolon] at htarget
      obtain ⟨rfl,-⟩ := Prod.mk.inj (some.inj htarget)
      exact ⟨none,(append_nil _).symm,hhost,by simp⟩
  · rintro ⟨port,rfl,hhost,hport⟩
    cases port with
    | none =>
      rw [portText, append_nil]
      exact ⟨21,hostAndPort_host hhost,hhost⟩
    | some digits =>
      obtain ⟨p,hp⟩ := isSome_iff_exists.mp (hport digits rfl)
      have hcolon : ':' ∉ digits := fun hmem => by
        rw [parseUnsigned_eq_none hmem (by decide)] at hp
        exact some_ne_none p hp.symm
      refine ⟨p,?_,hhost⟩
      rw [portText, hostAndPort_append hcolon, hp]
      rfl

/-- With a port that is no port the host is kept, or the text is no host. -/
theorem host_eq_of_hostAndPort {found : List Char} {port : ℕ} (h : IsHost host)
    (hfound : hostAndPort (host ++ ':' :: digits) = some (found, port)) (hhost : IsHost found) :
    found = host := by
  obtain ⟨p,heq,-,hp⟩ := isHost_hostAndPort.mp ⟨port,hfound,hhost⟩
  cases p with
  | none =>
    rw [portText, append_nil] at heq
    exact absurd (heq ▸ hhost) (h.not_append digits)
  | some rest =>
    rw [portText] at heq
    obtain ⟨m,hm,hrest⟩ | ⟨m,hm,hrest⟩ := append_eq_append_iff.mp heq
    · cases m with
      | nil => rw [hm, append_nil]
      | cons c m =>
        obtain ⟨rfl,-⟩ := cons.inj hrest
        exact absurd (hm ▸ hhost) (h.not_append m)
    · cases m with
      | nil => rw [hm, append_nil]
      | cons c m =>
        obtain ⟨rfl,-⟩ := cons.inj hrest
        exact absurd (hm ▸ h) (hhost.not_append m)

/-! ## What is parsed -/

variable {a : Address}

theorem written_credential {part : Part} (h : Written IsCredentialChar part.text part.written) :
    '@' ∉ part.written ∧ ':' ∉ part.written ∧ decoded gbk part.written = part.text := by
  refine ⟨h.notMem (fun hc => hc.1 rfl) (by decide),h.notMem (fun hc => hc.2.1 rfl) (by decide),
    h.decoded_eq fun hc => hc.2.2.2 rfl⟩

theorem userinfoOf_valid (hvalid : a.Valid) {hostpath : List Char} (hat : '@' ∉ hostpath) :
    ∃ userinfo, userinfoOf (userinfoText a.user ++ hostpath) = some (userinfo, hostpath) ∧
      credentialsOf gbk userinfo =
        some (if namesNoUser a.user then credentials none else credentials a.user) := by
  have hparts := hvalid.user
  cases huser : a.user with
  | none =>
    refine ⟨[],userinfoOf_absent hat,?_⟩
    rw [credentialsOf_nil]
    rfl
  | some u =>
    obtain ⟨user,password⟩ := u
    obtain ⟨hwritten,hpassword⟩ := hparts _ huser
    obtain ⟨hat',hcolon,hdecoded⟩ := @written_credential gbk user hwritten
    cases password with
    | none =>
      refine ⟨user.written,?_,?_⟩
      · rw [userinfoText, append_assoc]
        exact userinfoOf_append hat
      · by_cases hempty : user.text = []
        · rw [hwritten.eq_nil_iff.mpr hempty, credentialsOf_nil, namesNoUser, hempty]
          rfl
        · rw [credentialsOf_user (mt hwritten.eq_nil_iff.mp hempty) hcolon, hdecoded, namesNoUser,
            if_neg (by simpa using hempty)]
          rfl
    | some password =>
      obtain ⟨-,-,hdecoded'⟩ := @written_credential gbk password (hpassword password rfl)
      refine ⟨user.written ++ ':' :: password.written,?_,?_⟩
      · rw [userinfoText, append_assoc]
        exact userinfoOf_append hat
      · rw [credentialsOf_password hcolon, hdecoded, hdecoded']
        rfl

theorem isScheme_ftp : IsScheme "ftp://".toList := by
  rw [IsScheme]
  decide

/-- The address is parsed part by part if its path has no at sign. -/
theorem parseFtpUrl_valid (hvalid : a.Valid) (hat : '@' ∉ a.path.written)
    (hport : '@' ∉ portText a.port ∧ '/' ∉ portText a.port) :
    parseFtpUrl gbk a.text = (hostAndPort (a.host ++ portText a.port)).map fun target =>
      if target.1 = [] then .error "empty FTP host"
      else .ok ⟨target.1,target.2,
        (if namesNoUser a.user then credentials none else credentials a.user).1,
        (if namesNoUser a.user then credentials none else credentials a.user).2,
        '/' :: a.path.text⟩ := by
  have hhost := hvalid.host.notMem
  have hpath : '@' ∉ a.host ++ portText a.port ++ '/' :: a.path.written := by
    simp [hhost.2, hport.1, hat]
  have hslash : '/' ∉ a.host ++ portText a.port := by
    simp [hhost.1, hport.2]
  obtain ⟨userinfo,huserinfo,hcredentials⟩ := @userinfoOf_valid gbk a hvalid _ hpath
  have hdecoded : decoded gbk ('/' :: a.path.written) = '/' :: a.path.text :=
    (Written.plain (by decide) hvalid.path).decoded_eq (fun hc => hc rfl)
  have hparsed := parseFtpUrl_of_parts isScheme_ftp huserinfo hcredentials
    (hostportOf_append hslash)
  rw [hdecoded] at hparsed
  exact hparsed

theorem portText_clean (hport : ∀ digits ∈ a.port, IsPort digits) :
    '@' ∉ portText a.port ∧ '/' ∉ portText a.port := by
  cases h : a.port with
  | none => exact ⟨not_mem_nil,not_mem_nil⟩
  | some digits =>
    obtain ⟨p,-,hdigits⟩ := hport digits h
    have hat : '@' ∉ digits := notMem_of_decimal hdigits (by decide)
    have hslash : '/' ∉ digits := notMem_of_decimal hdigits (by decide)
    simp [portText, hat, hslash]

/-- With an at sign in the path, all before the last one is taken for the user. -/
theorem parseFtpUrl_at {l r : List Char} (h : a.path.written = l ++ '@' :: r) (hr : '@' ∉ r) :
    ∃ (credentials : List Char × List Char) (hostport path : List Char),
      hostportOf r = some (hostport, path) ∧
      parseFtpUrl gbk a.text = (hostAndPort hostport).map fun target =>
        if target.1 = [] then .error "empty FTP host"
        else .ok ⟨target.1,target.2,credentials.1,credentials.2,decoded gbk path⟩ := by
  have htext : userinfoText a.user ++ (a.host ++ portText a.port ++ '/' :: a.path.written) =
      userinfoText a.user ++ (a.host ++ portText a.port ++ '/' :: l) ++ '@' :: r := by
    rw [h]
    simp
  obtain ⟨credentials,hcredentials⟩ := @credentialsOf_isSome gbk
    (userinfoText a.user ++ (a.host ++ portText a.port ++ '/' :: l))
  obtain ⟨⟨hostport,path⟩,hhostport⟩ := hostportOf_isSome r
  refine ⟨credentials,hostport,path,hhostport,?_⟩
  rw [Address.text, htext]
  exact parseFtpUrl_of_parts isScheme_ftp (userinfoOf_append hr) hcredentials hhostport

/-- The path that follows the at sign is shorter than that of the address. -/
theorem path_of_at {l r path : List Char} (hvalid : a.Valid) (h : a.path.written = l ++ '@' :: r)
    (hpath : hostportOf r = some (hostport, path)) :
    decoded gbk path ≠ '/' :: a.path.text := by
  have hpercent : ¬ IsPathChar '%' := fun hc => hc rfl
  obtain ⟨tl,tr,htext,hwritten⟩ := hvalid.path.cut (c := '@') (by decide) h
  intro heq
  have hlength := congrArg List.length heq
  rw [htext] at hlength
  by_cases hslash : '/' ∈ r
  · obtain ⟨l',r',rfl,hl'⟩ := eq_append_cons_of_mem hslash
    rw [hostportOf_append hl'] at hpath
    obtain ⟨-,rfl⟩ := Prod.mk.inj (some.inj hpath)
    obtain ⟨tl',tr',rfl,hwritten'⟩ := hwritten.cut (c := '/') (by decide) rfl
    have hdecoded : decoded gbk ('/' :: r') = '/' :: tr' :=
      (Written.plain (by decide) hwritten').decoded_eq hpercent
    rw [hdecoded] at hlength
    simp at hlength
    omega
  · rw [hostportOf_absent hslash] at hpath
    obtain ⟨-,rfl⟩ := Prod.mk.inj (some.inj hpath)
    have hdecoded : decoded gbk ['/'] = ['/'] :=
      (Written.plain (by decide) (@Written.nil IsPathChar)).decoded_eq hpercent
    rw [hdecoded] at hlength
    simp at hlength

theorem hostportOf_fst {r path : List Char} (h : hostportOf r = some (hostport, path)) :
    hostport = r.takeWhile (· ≠ '/') := by
  by_cases hslash : '/' ∈ r
  · obtain ⟨l,r',rfl,hl⟩ := eq_append_cons_of_mem hslash
    rw [hostportOf_append hl] at h
    obtain ⟨rfl,-⟩ := Prod.mk.inj (some.inj h)
    have hall : ∀ c ∈ l, decide (c ≠ '/') = true := fun c hc =>
      decide_eq_true fun heq => hl (heq ▸ hc)
    rw [takeWhile_append_of_pos hall]
    simp
  · rw [hostportOf_absent hslash] at h
    obtain ⟨rfl,-⟩ := Prod.mk.inj (some.inj h)
    have hall : ∀ c ∈ r, decide (c ≠ '/') = true := fun c hc =>
      decide_eq_true fun heq => hslash (heq ▸ hc)
    exact (takeWhile_eq_self_iff.mpr hall).symm

/-! ## The grammar and the parser -/

theorem parseFtpUrl_isSome (url : List Char) : ∃ result, parseFtpUrl gbk url = some result := by
  by_cases h : ∃ scheme text, IsScheme scheme ∧ url = scheme ++ text
  · obtain ⟨scheme,text,hscheme,rfl⟩ := h
    obtain ⟨⟨userinfo,hostpath⟩,huserinfo⟩ := userinfoOf_isSome text
    obtain ⟨credentials,hcredentials⟩ := @credentialsOf_isSome gbk userinfo
    obtain ⟨⟨hostport,path⟩,hhostport⟩ := hostportOf_isSome hostpath
    obtain ⟨target,htarget⟩ := hostAndPort_isSome hostport
    rw [parseFtpUrl_of_parts hscheme huserinfo hcredentials hhostport, htarget]
    exact ⟨_,rfl⟩
  · exact ⟨_,parseFtpUrl_of_not_scheme fun scheme text hscheme heq => h ⟨scheme,text,hscheme,heq⟩⟩

theorem parsed_iff (hvalid : a.Valid) (hport : ∀ digits ∈ a.port, IsPort digits) :
    a.Parsed gbk ↔ '@' ∉ a.path.written ∧ namesNoUser a.user = false := by
  by_cases hat : '@' ∈ a.path.written
  · refine iff_of_false (fun hparsed => ?_) (fun h => h.1 hat)
    obtain ⟨l,r,hwritten,hr⟩ := exists_last hat
    obtain ⟨credentials,hostport,path,hpath,heq⟩ := @parseFtpUrl_at gbk a l r hwritten hr
    rw [Address.Parsed, heq] at hparsed
    obtain ⟨target,-,htarget⟩ := map_eq_some_iff.mp hparsed
    split_ifs at htarget
    · exact path_of_at hvalid hwritten hpath (congrArg FtpUrl.path (Except.ok.inj htarget))
  · have heq := @parseFtpUrl_valid gbk a hvalid hat (portText_clean hport)
    rw [hostAndPort_port hvalid.host hport, map_some, if_neg hvalid.host.ne_nil] at heq
    cases huser : namesNoUser a.user with
    | false =>
      refine iff_of_true ?_ ⟨hat,rfl⟩
      rw [Address.Parsed, heq, huser]
      rfl
    | true =>
      refine iff_of_false (fun hparsed => ?_) (fun h => Bool.noConfusion h.2)
      rw [Address.Parsed, heq, huser, if_pos rfl] at hparsed
      have hname := congrArg FtpUrl.username (Except.ok.inj (some.inj hparsed))
      have hnone : (credentials a.user).1 = [] := by
        cases hu : a.user with
        | none => rw [hu] at huser; exact Bool.noConfusion huser
        | some u =>
          obtain ⟨user,password⟩ := u
          rw [hu] at huser
          cases password with
          | none => exact isEmpty_iff.mp huser
          | some password => exact Bool.noConfusion huser
      rw [Address.parts, hnone] at hname
      exact cons_ne_nil _ _ hname

theorem keepsHost_iff (hvalid : a.Valid) (hdigits : a.port = some digits)
    (hclean : '/' ∉ digits ∧ '@' ∉ digits) : a.KeepsHost gbk ↔ ¬ a.Diverts := by
  by_cases hat : '@' ∈ a.path.written
  · obtain ⟨l,r,hwritten,hr⟩ := exists_last hat
    obtain ⟨credentials,hostport,path,hpath,heq⟩ := @parseFtpUrl_at gbk a l r hwritten hr
    obtain ⟨target,htarget⟩ := hostAndPort_isSome hostport
    have hfst := hostportOf_fst hpath
    rw [htarget, map_some] at heq
    constructor
    · rintro hkeeps ⟨l',r',host,port,hwritten',hr',htake,hhost,hport,hne⟩
      rw [last_unique hr' hr (hwritten'.symm.trans hwritten), ← hfst] at htake
      obtain ⟨p,hfound,-⟩ := isHost_hostAndPort.mpr ⟨port,htake,hhost,hport⟩
      obtain rfl := some.inj (htarget.symm.trans hfound)
      rw [if_neg hhost.ne_nil] at heq
      exact hne (hkeeps _ heq hhost)
    · intro hdiverts f hf hhost
      by_contra hne
      rw [heq] at hf
      have hf := some.inj hf
      split_ifs at hf
      obtain rfl := Except.ok.inj hf
      obtain ⟨port,htake,-,hport⟩ := isHost_hostAndPort.mp ⟨target.2,htarget,hhost⟩
      exact hdiverts ⟨l,r,target.1,port,hwritten,hr,hfst ▸ htake,hhost,hport,hne⟩
  · refine iff_of_true (fun f hf hhost => ?_) ?_
    · have hport : '@' ∉ portText a.port ∧ '/' ∉ portText a.port := by
        rw [hdigits]
        simp [portText, hclean]
      obtain ⟨target,htarget⟩ := hostAndPort_isSome (a.host ++ portText a.port)
      have heq := @parseFtpUrl_valid gbk a hvalid hat hport
      rw [htarget, map_some, hf] at heq
      by_cases hempty : target.1 = []
      · rw [if_pos hempty] at heq
        simp at heq
      rw [if_neg hempty] at heq
      obtain rfl := Except.ok.inj (some.inj heq)
      rw [hdigits] at htarget
      exact host_eq_of_hostAndPort hvalid.host htarget hhost
    · rintro ⟨l,r,-,-,hwritten,-⟩
      exact hat (by rw [hwritten]; simp)

/-- No address panics the parser. The parts come back if the path has no plain at sign and the
user is not both empty and without a password. A wrong port leads to another host only through an
at sign in the path. -/
theorem parse_ftp_url_iff (a : Address) (hvalid : a.Valid) (url : List Char) :
    (∃ result, parseFtpUrl gbk url = some result) ∧
      ((∀ digits ∈ a.port, IsPort digits) →
        (a.Parsed gbk ↔ '@' ∉ a.path.written ∧ namesNoUser a.user = false)) ∧
      ∀ digits, a.port = some digits → '/' ∉ digits → '@' ∉ digits → ¬ IsPort digits →
        (a.KeepsHost gbk ↔ ¬ a.Diverts) :=
  ⟨parseFtpUrl_isSome url,parsed_iff hvalid,fun _ hdigits hslash hat _ =>
    keepsHost_iff hvalid hdigits ⟨hslash,hat⟩⟩

/-- `ftp://u:p@h:21/e` -/
def sampleAddress : Address where
  user := some (⟨['u'],['u']⟩, some ⟨['p'],['p']⟩)
  host := ['h']
  port := some ['2', '1']
  path := ⟨['e'],['e']⟩

theorem sampleAddress_valid : sampleAddress.Valid where
  user := by
    intro u hu
    obtain rfl := some.inj hu
    refine ⟨.plainly (forall_mem_singleton.mpr (by decide)),fun p hp => ?_⟩
    obtain rfl := some.inj hp
    exact .plainly (forall_mem_singleton.mpr (by decide))
  host := .name (cons_ne_nil _ _) (by simp [sampleAddress])
  path := .plainly (by simp [sampleAddress])

theorem sampleAddress_parsed :
    (∃ result, parseFtpUrl (fun _ => none) sampleAddress.text = some result) ∧
      sampleAddress.Parsed (fun _ => none) := by
  have hport : ∀ digits ∈ sampleAddress.port, IsPort digits := by
    intro digits hdigits
    obtain rfl := some.inj hdigits
    exact ⟨21,by decide,by decide⟩
  have hiff := @parse_ftp_url_iff (fun _ => none) sampleAddress sampleAddress_valid
    sampleAddress.text
  exact ⟨hiff.1,(hiff.2.1 hport).mpr ⟨by simp [sampleAddress],rfl⟩⟩

/-- `ftp://h/a@b` -/
def divertingAddress : Address where
  user := none
  host := ['h']
  port := none
  path := ⟨['a', '@', 'b'],['a', '@', 'b']⟩

/-- A file of one host is asked of another. -/
theorem at_sign_diverts :
    ¬ (∀ a : Address, a.Valid → (∀ digits ∈ a.port, IsPort digits) → a.Parsed (fun _ => none)) ∧
      parseFtpUrl (fun _ => none) divertingAddress.text =
        some (.ok ⟨['b'],21,['h', '/', 'a'],[],['/']⟩) := by
  have huserinfo : userinfoOf ['h', '/', 'a', '@', 'b'] = some (['h', '/', 'a'], ['b']) :=
    userinfoOf_append (l := ['h', '/', 'a']) (by simp)
  have hcredentials : credentialsOf (fun _ => none) ['h', '/', 'a'] = some (['h', '/', 'a'], []) := by
    have hname : Written IsPathChar ['h', '/', 'a'] ['h', '/', 'a'] := .plainly (by simp)
    rw [credentialsOf_user (by simp) (by simp), hname.decoded_eq fun hc => hc rfl]
  have hdecoded : decoded (fun _ => none) ['/'] = ['/'] := by
    have hpath : Written IsPathChar ['/'] ['/'] := .plainly (by simp)
    exact hpath.decoded_eq fun hc => hc rfl
  have hparsed := parseFtpUrl_of_parts isScheme_ftp huserinfo hcredentials
    (hostportOf_absent (by simp))
  rw [hostAndPort_absent (by simp), hdecoded] at hparsed
  refine ⟨fun hall => ?_,hparsed⟩
  have hvalid : divertingAddress.Valid :=
    { user := fun u hu => absurd hu (by simp [divertingAddress])
      host := .name (cons_ne_nil _ _) (by simp [divertingAddress])
      path := .plainly (by simp [divertingAddress]) }
  have hport : ∀ digits ∈ divertingAddress.port, IsPort digits := fun _ hdigits =>
    absurd hdigits (by simp [divertingAddress])
  have hat := ((parsed_iff hvalid hport).mp (hall divertingAddress hvalid hport)).1
  exact hat (by simp [divertingAddress])

end RinaDown.FtpAddresses
