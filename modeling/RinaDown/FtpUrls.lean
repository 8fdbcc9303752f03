import RinaDown.ContentDisposition

/-!
# FTP addresses

The address of an FTP download is cut at places that are searched for in its bytes: the last at
sign ends the user and the password, the first slash after it ends the host, and the last colon
between them begins the port. The user, the password and the path are then percent-decoded.
-/

namespace RinaDown.FtpUrls

open PercentDecoding List Option
open TextSlices
open Texts (parseUnsigned)

structure FtpUrl where
  host : List Char
  port : ℕ
  username : List Char
  password : List Char
  path : List Char
deriving DecidableEq

def rfind (c : Char) : List Char → Option ℕ
  | [] => none
  | d :: text =>
      match rfind c text with
      | some pos => some (d.utf8Size + pos)
      | none => if d = c then some 0 else none

variable (gbk : List UInt8 → Option (List Char))

/-- What can be read neither as UTF-8 nor as GBK is kept as it is. The option is for a panic. -/
def urlDecode (s : List Char) : Option (List Char) :=
  (decodeFrom (encode s) 0 []).map fun bytes => (decodeBytesUtf8OrGbk gbk bytes).getD s

def cutAt (text : List Char) (pos : ℕ) : Option (List Char × List Char) :=
  (sliceTo text pos).bind fun l => (sliceFrom text (pos + 1)).map fun r => (l, r)

/-- What comes before the last at sign and after it. -/
def userinfoOf (stripped : List Char) : Option (List Char × List Char) :=
  match rfind '@' stripped with
  | some atPos => cutAt stripped atPos
  | none => some ([], stripped)

def credentialsOf (userinfo : List Char) : Option (List Char × List Char) :=
  if userinfo = [] then some ("anonymous".toList, "anonymous@".toList)
  else match find [':'] userinfo with
    | some colon =>
        (cutAt userinfo colon).bind fun (user, pass) =>
          (urlDecode gbk user).bind fun username =>
            (urlDecode gbk pass).map fun password => (username, password)
    | none => (urlDecode gbk userinfo).map fun username => (username, [])

def hostportOf (hostpath : List Char) : Option (List Char × List Char) :=
  match find ['/'] hostpath with
  | some slash =>
      (sliceTo hostpath slash).bind fun hostport =>
        (sliceFrom hostpath slash).map fun path => (hostport, path)
  | none => some (hostpath, ['/'])

/-- A port that cannot be read is taken for a part of the host. -/
def hostAndPort (hostport : List Char) : Option (List Char × ℕ) :=
  match rfind ':' hostport with
  | some colon =>
      (cutAt hostport colon).map fun (host, portStr) =>
        match parseUnsigned (2 ^ 16) portStr with
        | some p => (host, p)
        | none => (hostport, 21)
  | none => some (hostport, 21)

def parseFtpUrl (url : List Char) : Option (Except String FtpUrl) :=
  if "ftp://".toList.isPrefixOf (url.map Char.toLower) then
    (sliceFrom url 6).bind fun stripped =>
      (userinfoOf stripped).bind fun (userinfo, hostpath) =>
        (credentialsOf gbk userinfo).bind fun (username, password) =>
          (hostportOf hostpath).bind fun (hostport, path) =>
            (hostAndPort hostport).bind fun (host, port) =>
              if host = [] then some (.error "empty FTP host")
              else (urlDecode gbk path).map fun path => .ok ⟨host,port,username,password,path⟩
  else some (.error "not an FTP URL")

variable {gbk}

/-! ## Cutting at characters -/

variable {c : Char} {text l r : List Char}

theorem rfind_eq_none (h : c ∉ text) : rfind c text = none := by
  induction text with
  | nil => rfl
  | cons d text ih =>
    obtain ⟨hd,htext⟩ := not_or.mp (mt mem_cons.mpr h)
    rw [rfind, ih htext]
    exact if_neg (Ne.symm hd)

theorem rfind_append (h : c ∉ r) : rfind c (l ++ c :: r) = some (byteLen l) := by
  induction l with
  | nil => rw [nil_append, rfind, rfind_eq_none h, byteLen_nil]; exact if_pos rfl
  | cons d l ih => rw [cons_append, rfind, ih, byteLen_cons]

theorem find_eq_none_of_notMem (h : c ∉ text) : find [c] text = none := by
  induction text with
  | nil => rfl
  | cons d text ih =>
    obtain ⟨hd,htext⟩ := not_or.mp (mt mem_cons.mpr h)
    rw [find, if_neg (by simpa using hd), ih htext, map_none]

theorem find_append (h : c ∉ l) : find [c] (l ++ c :: r) = some (byteLen l) := by
  induction l with
  | nil => rw [nil_append, find, if_pos (by simp), byteLen_nil]
  | cons d l ih =>
    obtain ⟨hd,hl⟩ := not_or.mp (mt mem_cons.mpr h)
    rw [cons_append, find, if_neg (by simpa using hd), ih hl, map_some, byteLen_cons]

theorem exists_last (h : c ∈ text) : ∃ l r, text = l ++ c :: r ∧ c ∉ r := by
  obtain ⟨l,r,hrev,hl⟩ := eq_append_cons_of_mem (mem_reverse.mpr h)
  refine ⟨r.reverse,l.reverse,?_,fun hmem => hl (mem_reverse.mp hmem)⟩
  rw [← reverse_reverse text, hrev]
  simp

theorem last_unique {l' r' : List Char} (hr : c ∉ r) (hr' : c ∉ r')
    (h : l ++ c :: r = l' ++ c :: r') : r = r' := by
  have hrest : ∀ {m s t : List Char}, c ∉ t → c :: t = m ++ c :: s → t = s := by
    intro m s t ht hm
    cases m with
    | nil => exact (cons.inj hm).2
    | cons d m =>
      obtain ⟨-,rfl⟩ := cons.inj hm
      exact absurd (mem_append_right m mem_cons_self) ht
  obtain ⟨m,-,hm⟩ | ⟨m,-,hm⟩ := append_eq_append_iff.mp h
  · exact hrest hr hm
  · exact (hrest hr' hm).symm

theorem sliceFrom_place : sliceFrom (l ++ r) (byteLen l) = some r := by
  rw [← Nat.add_zero (byteLen l), sliceFrom_append, sliceFrom_zero]

theorem cutAt_append (hc : c.utf8Size = 1) : cutAt (l ++ c :: r) (byteLen l) = some (l, r) := by
  have hfrom : sliceFrom (l ++ c :: r) (byteLen l + 1) = some r := by
    have hcons := @sliceFrom_cons r 0 c
    rw [sliceFrom_append, ← hc, ← Nat.add_zero c.utf8Size, hcons, sliceFrom_zero]
  rw [cutAt, sliceTo_append, bind_some, hfrom, map_some]

/-! ## The parts of an address -/

theorem userinfoOf_absent (h : '@' ∉ text) : userinfoOf text = some ([], text) := by
  rw [userinfoOf, rfind_eq_none h]

theorem userinfoOf_append (h : '@' ∉ r) : userinfoOf (l ++ '@' :: r) = some (l, r) := by
  rw [userinfoOf, rfind_append h]
  exact cutAt_append rfl

def decoded (gbk : List UInt8 → Option (List Char)) (s : List Char) : List Char :=
  (decodeBytesUtf8OrGbk gbk (percentDecode (encode s))).getD s

theorem urlDecode_eq (s : List Char) : urlDecode gbk s = some (decoded gbk s) := by
  have hdecode : decodeFrom (encode s) 0 [] = some (percentDecode (encode s)) :=
    decodeFrom_eq [] (encode s) []
  rw [urlDecode, hdecode, map_some, decoded]

theorem credentialsOf_nil :
    credentialsOf gbk [] = some ("anonymous".toList, "anonymous@".toList) := if_pos rfl

theorem credentialsOf_user (hne : text ≠ []) (h : ':' ∉ text) :
    credentialsOf gbk text = some (decoded gbk text, []) := by
  rw [credentialsOf, if_neg hne, find_eq_none_of_notMem h]
  simp only [urlDecode_eq, map_some]

theorem credentialsOf_password (h : ':' ∉ l) :
    credentialsOf gbk (l ++ ':' :: r) = some (decoded gbk l, decoded gbk r) := by
  have hcut : cutAt (l ++ ':' :: r) (byteLen l) = some (l, r) := cutAt_append rfl
  rw [credentialsOf, if_neg (by simp), find_append h]
  simp only [hcut, bind_some, urlDecode_eq, map_some]

theorem hostportOf_absent (h : '/' ∉ text) : hostportOf text = some (text, ['/']) := by
  rw [hostportOf, find_eq_none_of_notMem h]

theorem hostportOf_append (h : '/' ∉ l) :
    hostportOf (l ++ '/' :: r) = some (l, '/' :: r) := by
  rw [hostportOf, find_append h]
  simp only [sliceTo_append, sliceFrom_place, bind_some, map_some]

theorem hostAndPort_absent (h : ':' ∉ text) : hostAndPort text = some (text, 21) := by
  rw [hostAndPort, rfind_eq_none h]

theorem hostAndPort_append (h : ':' ∉ r) :
    hostAndPort (l ++ ':' :: r) =
      some (((parseUnsigned (2 ^ 16) r).map fun p => (l, p)).getD (l ++ ':' :: r, 21)) := by
  have hcut : cutAt (l ++ ':' :: r) (byteLen l) = some (l, r) := cutAt_append rfl
  rw [hostAndPort, rfind_append h]
  simp only [hcut, map_some]
  cases parseUnsigned (2 ^ 16) r with
  | none => rfl
  | some p => rfl

/-! ## No search ends inside a character -/

theorem userinfoOf_isSome (text : List Char) : ∃ parts, userinfoOf text = some parts := by
  by_cases h : '@' ∈ text
  · obtain ⟨l,r,rfl,hr⟩ := exists_last h
    exact ⟨_,userinfoOf_append hr⟩
  · exact ⟨_,userinfoOf_absent h⟩

theorem credentialsOf_isSome (text : List Char) : ∃ parts, credentialsOf gbk text = some parts := by
  by_cases hne : text = []
  · rw [hne]
    exact ⟨_,credentialsOf_nil⟩
  by_cases h : ':' ∈ text
  · obtain ⟨l,r,rfl,hl⟩ := eq_append_cons_of_mem h
    exact ⟨_,credentialsOf_password hl⟩
  · exact ⟨_,credentialsOf_user hne h⟩

theorem hostportOf_isSome (text : List Char) : ∃ parts, hostportOf text = some parts := by
  by_cases h : '/' ∈ text
  · obtain ⟨l,r,rfl,hl⟩ := eq_append_cons_of_mem h
    exact ⟨_,hostportOf_append hl⟩
  · exact ⟨_,hostportOf_absent h⟩

theorem hostAndPort_isSome (text : List Char) : ∃ parts, hostAndPort text = some parts := by
  by_cases h : ':' ∈ text
  · obtain ⟨l,r,rfl,hr⟩ := exists_last h
    exact ⟨_,hostAndPort_append hr⟩
  · exact ⟨_,hostAndPort_absent h⟩

/-- A text that begins with the scheme in any case. -/
def IsScheme (scheme : List Char) : Prop := scheme.map Char.toLower = "ftp://".toList

theorem utf8Size_of_toLower {d : Char} (h : c.toLower = d) (hd : d.toNat < 128) :
    c.utf8Size = 1 := by
  have hnat := AsciiCase.toNat_toLower c
  rw [h] at hnat
  have hlt : c.toNat < 128 := by
    split_ifs at hnat <;> omega
  have hval : c.val.toNat = c.toNat := rfl
  rw [Char.utf8Size, if_pos]
  rw [UInt32.le_iff_toNat_le, hval]
  exact Nat.le_of_lt_succ hlt

theorem byteLen_scheme {scheme : List Char} (h : IsScheme scheme) : byteLen scheme = 6 := by
  have hsizes : ∀ {s t : List Char}, s.map Char.toLower = t → (∀ d ∈ t, d.toNat < 128) →
      byteLen s = t.length := by
    intro s
    induction s with
    | nil => rintro t rfl _; rfl
    | cons c s ih =>
      rintro t rfl ht
      have hc := utf8Size_of_toLower (c := c) rfl (ht _ mem_cons_self)
      rw [byteLen_cons, hc, ih rfl fun d hd => ht d (mem_cons_of_mem _ hd)]
      simp [Nat.add_comm]
  exact hsizes h (by simp)

theorem parseFtpUrl_scheme {scheme : List Char} (h : IsScheme scheme) :
    parseFtpUrl gbk (scheme ++ text) =
      (userinfoOf text).bind fun (userinfo, hostpath) =>
        (credentialsOf gbk userinfo).bind fun (username, password) =>
          (hostportOf hostpath).bind fun (hostport, path) =>
            (hostAndPort hostport).bind fun (host, port) =>
              if host = [] then some (.error "empty FTP host")
              else some (.ok ⟨host,port,username,password,decoded gbk path⟩) := by
  have hfront : "ftp://".toList.isPrefixOf ((scheme ++ text).map Char.toLower) = true := by
    rw [map_append, h]
    exact isPrefixOf_iff_prefix.mpr (prefix_append _ _)
  have hfrom : sliceFrom (scheme ++ text) 6 = some text := by
    rw [← byteLen_scheme h]
    exact sliceFrom_place
  rw [parseFtpUrl, if_pos hfront, hfrom, bind_some]
  simp only [urlDecode_eq, map_some]

theorem parseFtpUrl_of_parts {scheme userinfo hostpath hostport path : List Char}
    {credentials : List Char × List Char} (h : IsScheme scheme)
    (huserinfo : userinfoOf text = some (userinfo, hostpath))
    (hcredentials : credentialsOf gbk userinfo = some credentials)
    (hhostport : hostportOf hostpath = some (hostport, path)) :
    parseFtpUrl gbk (scheme ++ text) = (hostAndPort hostport).map fun target =>
      if target.1 = [] then .error "empty FTP host"
      else .ok ⟨target.1,target.2,credentials.1,credentials.2,decoded gbk path⟩ := by
  obtain ⟨target,htarget⟩ := hostAndPort_isSome hostport
  rw [parseFtpUrl_scheme h, huserinfo, bind_some]
  simp only [hcredentials, hhostport, htarget, bind_some, map_some]
  split_ifs <;> rfl

theorem parseFtpUrl_of_not_scheme {url : List Char}
    (h : ∀ scheme text, IsScheme scheme → url ≠ scheme ++ text) :
    parseFtpUrl gbk url = some (.error "not an FTP URL") := by
  refine if_neg fun hfront => ?_
  obtain ⟨rest,hrest⟩ := isPrefixOf_iff_prefix.mp hfront
  obtain ⟨scheme,text,rfl,hscheme,-⟩ := append_eq_map_iff.mp hrest
  exact h scheme text hscheme rfl

end RinaDown.FtpUrls
