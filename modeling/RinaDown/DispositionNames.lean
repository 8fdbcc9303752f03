import RinaDown.ContentDisposition
import RinaDown.TrimmedLists

/-!
# Names that headers carry

The name that is extracted from a conforming header is the sanitized name that the header carries,
trimmed at its ends. A plain name with percent signs is taken for a percent-encoded one. Nothing is
said of headers in which a semicolon in a quoted string looks like a parameter, or whose names of
parameters or quoted strings are not written as the search expects them.
-/

namespace RinaDown.DispositionNames

open ContentDisposition PercentDecoding TextSlices Texts List Option

variable {gbk : List UInt8 → Option (List Char)}

/-- No part after a semicolon inside a value looks like the parameter. -/
def Harmless (key : List Char) (h : Header) : Prop :=
  ∀ p ∈ h.parameters, ∀ part ∈ ((p.value.text ++ p.after).splitOn ';').tail,
    stripPrefix (key ++ ['=']) (trim part) = none

/-- The name of the parameter is in lower case, and its sign of equality comes next. -/
def Written (key : List Char) (h : Header) : Prop :=
  ∀ p ∈ h.parameters, p.key = key → p.name = key ∧ p.left = []

/-- The value has no escapes and no semicolons, and only spaces before it. -/
def Literal (h : Header) : Prop :=
  ∀ p ∈ h.parameters, p.key = plainKey →
    '\\' ∉ p.value.text ∧ ';' ∉ p.value.text ∧ ∀ c ∈ p.right, c = ' '

/-- What a plain name stands for: quotes and spaces at its ends are dropped, and the escapes of a
name with percent signs are decoded if that gives a text. -/
def plainMeaning (gbk : List UInt8 → Option (List Char)) (name : List Char) : Option String :=
  let bare := trimWhere isQuoteOrBlank name
  if bare = [] then none
  else if '%' ∈ bare then
    match decodeBytesUtf8OrGbk gbk (percentDecode (encode bare)) with
    | none => some (sanitized bare)
    | some decoded =>
      if trim decoded = [] then some (sanitized bare) else some (sanitized (trim decoded))
  else some (sanitized bare)

/-- The name of a header is extracted, the extended one first. -/
structure Extracts (gbk : List UInt8 → Option (List Char)) (h : Header) : Prop where
  extended : Written extendedKey h → Harmless extendedKey h → ∀ name, h.CarriesExtended name →
    trim name ≠ [] →
    extractFromContentDisposition gbk (some (encode h.text)) = some (some (sanitized (trim name)))
  plain : Written extendedKey h → Harmless extendedKey h → Written plainKey h →
    Harmless plainKey h → Literal h → (∀ name, h.CarriesExtended name → trim name = []) →
    ∀ name, h.CarriesPlain name →
    extractFromContentDisposition gbk (some (encode h.text)) = some (plainMeaning gbk name)

variable {p q : Parameter} {h : Header} {key text part ws ws' l r : List Char}

/-! ## Trimming -/

variable {f : Char → Bool} {c : Char} {name : List Char}

theorem rdropWhile_append_of_pos (hws : ∀ c ∈ ws, f c = true) :
    (l ++ ws).rdropWhile f = l.rdropWhile f := by
  have hrev : ∀ c ∈ ws.reverse, f c = true := fun c hc => hws c (mem_reverse.mp hc)
  rw [rdropWhile, reverse_append, dropWhile_append_of_pos hrev, rdropWhile]

theorem trimWhere_append (hws : ∀ c ∈ ws, f c = true) (hws' : ∀ c ∈ ws', f c = true) :
    trimWhere f (ws ++ text ++ ws') = trimWhere f text := by
  change ((ws ++ text ++ ws').dropWhile f).rdropWhile f = (text.dropWhile f).rdropWhile f
  rw [append_assoc, dropWhile_append_of_pos hws, dropWhile_append]
  split_ifs with hempty
  · have hnil := isEmpty_iff.mp hempty
    have hall : ws'.dropWhile f = [] := dropWhile_eq_nil_iff.mpr hws'
    rw [hnil, hall]
  · exact rdropWhile_append_of_pos hws'

theorem trimWhere_prefix (hws : ∀ c ∈ ws, f c = true) (htext : ∀ c ∈ text.head?, f c = false) :
    trimWhere f (ws ++ text) <+: text := by
  change ((ws ++ text).dropWhile f).rdropWhile f <+: text
  rw [dropWhile_append_of_pos hws, TrimmedLists.dropWhile_of_head htext]
  exact rdropWhile_prefix f text

theorem trimWhere_bare (htext : ∀ c ∈ text, f c = false) :
    trimWhere f text = text :=
  TrimmedLists.Bare.trim_eq
    ⟨fun c hc => htext c (mem_of_mem_head? hc),fun c hc => htext c (mem_of_mem_getLast? hc)⟩

/-! ## Characters -/

theorem token_marks : ("!#$%&'*+-.^_`|~".toList.all fun c =>
    decide (0x21 ≤ c.toNat ∧ c.toNat < 0x7F)) = true := by decide

theorem bounds_of_isAlphanum (hc : c.isAlphanum = true) :
    0x21 ≤ c.toNat ∧ c.toNat < 0x7F := by
  delta Char.isAlphanum Char.isAlpha Char.isUpper Char.isLower Char.isDigit at hc
  simp only [Bool.or_eq_true, Bool.and_eq_true, decide_eq_true_eq, ge_iff_le,
    UInt32.le_iff_toNat_le] at hc
  have hval : c.val.toNat = c.toNat := rfl
  simp only [hval] at hc
  obtain (⟨hlo,hhi⟩ | ⟨hlo,hhi⟩) | ⟨hlo,hhi⟩ := hc <;>
    exact ⟨Nat.le_trans (by decide) hlo,Nat.lt_of_le_of_lt hhi (by decide)⟩

theorem bounds_of_isTokenChar (hc : isTokenChar c = true) :
    0x21 ≤ c.toNat ∧ c.toNat < 0x7F := by
  obtain hc | hc := Bool.or_eq_true_iff.mp hc
  · exact bounds_of_isAlphanum hc
  · exact of_decide_eq_true (all_eq_true.mp token_marks c (contains_iff_mem.mp hc))

theorem not_isWhitespace_of_isTokenChar (hc : isTokenChar c = true) :
    isWhitespace c = false := by
  obtain ⟨hlo,hhi⟩ := bounds_of_isTokenChar hc
  simp only [isWhitespace, Bool.or_eq_false_iff, Bool.and_eq_false_iff, decide_eq_false_iff_not]
  refine ⟨⟨by omega,by omega⟩,?_⟩
  simp only [contains_eq_mem, decide_eq_false_iff_not, mem_cons, not_mem_nil, or_false]
  omega

theorem isWhitespace_of_isOws (hws : IsOws ws) : ∀ c ∈ ws, isWhitespace c = true := by
  intro c hc
  obtain rfl | rfl := hws c hc
  · decide
  · decide

theorem not_mem_of_isToken (hl : IsToken l) (hc : isTokenChar c = false) : c ∉ l :=
  fun hmem => absurd (hl.2 c hmem) (Bool.not_eq_true _ ▸ hc)

theorem not_mem_of_isOws (hws : IsOws ws) (hc : c ≠ ' ' ∧ c ≠ '\t') : c ∉ ws :=
  fun hmem => (hws c hmem).elim hc.1 hc.2

/-! ## Parts -/

theorem takeWhile_append_cons (hl : c ∉ l) (r : List Char) :
    (l ++ c :: r).takeWhile (· != c) = l := by
  have hpos : ∀ d ∈ l, (d != c) = true := fun d hd =>
    bne_iff_ne.mpr fun heq => hl (heq ▸ hd)
  rw [takeWhile_append_of_pos hpos, takeWhile_cons_of_neg (by simp), append_nil]

theorem splitOn_append {first : List Char} {others : List (List Char)} (hl : c ∉ l)
    (hr : r.splitOn c = first :: others) : (l ++ r).splitOn c = (l ++ first) :: others := by
  induction l with
  | nil => exact hr
  | cons d l ih =>
    obtain ⟨hd,htail⟩ := not_or.mp (mt mem_cons.mpr hl)
    rw [cons_append, splitOn_cons_eq_if_modifyHead, if_neg (by simpa using Ne.symm hd),
      ih htail, modifyHead_cons, cons_append]

theorem splitOn_text (h : Header) : h.text.splitOn ';' =
    (h.dispositionType ++ h.after).splitOn ';' ++
      h.parameters.flatMap fun p => p.text.splitOn ';' := by
  have hparameters : ∀ (parameters : List Parameter) (front : List Char),
      (front ++ parameters.flatMap fun p => ';' :: p.text).splitOn ';' =
        front.splitOn ';' ++ parameters.flatMap fun p => p.text.splitOn ';' := by
    intro parameters
    induction parameters with
    | nil => intro front; simp
    | cons p parameters ih =>
      intro front
      rw [flatMap_cons, cons_append, splitOn_append_cons_self, ih,
        flatMap_cons]
  exact hparameters h.parameters _

/-- The parts of a parameter: its name with the beginning of its value, and the rest of the
value. -/
theorem Parameter.splitOn_text (hp : p.Valid) : ∃ first others,
    (p.value.text ++ p.after).splitOn ';' = first :: others ∧
      p.text.splitOn ';' = (p.before ++ p.name ++ p.left ++ '=' :: p.right ++ first) :: others := by
  obtain ⟨first,others,hsplit⟩ :=
    exists_cons_of_ne_nil (splitOn_ne_nil ';' (p.value.text ++ p.after))
  refine ⟨first,others,hsplit,splitOn_append ?_ hsplit⟩
  have hblank : (';' : Char) ≠ ' ' ∧ (';' : Char) ≠ '\t' := by decide
  simp only [mem_append, mem_cons, not_or]
  exact ⟨⟨⟨not_mem_of_isOws hp.before hblank,not_mem_of_isToken hp.name (by decide)⟩,
    not_mem_of_isOws hp.left hblank⟩,by decide,not_mem_of_isOws hp.right hblank⟩

structure IsKey (key : List Char) : Prop where
  ne_nil : key ≠ []
  blank : ' ' ∉ key ∧ '\t' ∉ key
  sign : '=' ∉ key
  lower : key.map Char.toLower = key

theorem isKey_extended : IsKey extendedKey :=
  ⟨by decide,by decide,by decide,by decide⟩

theorem isKey_plain : IsKey plainKey :=
  ⟨by decide,by decide,by decide,by decide⟩

/-- A part that begins with another name is skipped. -/
theorem stripPrefix_part (hkey : IsKey key) (hp : p.Valid) (hne : p.key ≠ key)
    (rest : List Char) : stripPrefix (key ++ ['='])
      (trim (p.before ++ p.name ++ p.left ++ '=' :: rest)) = none := by
  refine stripPrefix_eq_none fun hfront => hne ?_
  obtain ⟨c,name,hname⟩ := exists_cons_of_ne_nil hp.name.1
  have htrim : trim (p.before ++ (p.name ++ p.left ++ '=' :: rest)) <+:
      p.name ++ p.left ++ '=' :: rest := by
    refine trimWhere_prefix (isWhitespace_of_isOws hp.before) fun c' hc' => ?_
    rw [hname] at hc'
    obtain rfl := some.inj hc'
    exact not_isWhitespace_of_isTokenChar (hp.name.2 c (by rw [hname]; exact mem_cons_self))
  rw [append_assoc, append_assoc, ← append_assoc p.name] at hfront
  obtain ⟨tail,heq⟩ := hfront.trans htrim
  rw [append_assoc, singleton_append] at heq
  have hsign : '=' ∉ p.name ++ p.left := by
    rw [mem_append, not_or]
    exact ⟨not_mem_of_isToken hp.name (by decide),not_mem_of_isOws hp.left (by decide)⟩
  have hwhole : key = p.name ++ p.left := by
    rw [← takeWhile_append_cons hkey.sign tail, heq, takeWhile_append_cons hsign]
  have hleft : p.left = [] := by
    refine eq_nil_iff_forall_not_mem.mpr fun c' hc' => ?_
    have hmem : c' ∈ key := hwhole ▸ mem_append_right _ hc'
    obtain rfl | rfl := hp.left c' hc'
    · exact hkey.blank.1 hmem
    · exact hkey.blank.2 hmem
  rw [hleft, append_nil] at hwhole
  rw [Parameter.key, ← hwhole, hkey.lower]

theorem stripPrefix_type (key : List Char) (hh : h.Conforming) :
    ∀ part ∈ (h.dispositionType ++ h.after).splitOn ';',
      stripPrefix (key ++ ['=']) (trim part) = none := by
  have hmem : ∀ c, isTokenChar c = false → c ≠ ' ' ∧ c ≠ '\t' →
      c ∉ h.dispositionType ++ h.after := by
    intro c hc hblank
    rw [mem_append, not_or]
    exact ⟨not_mem_of_isToken hh.dispositionType hc,not_mem_of_isOws hh.after hblank⟩
  intro part hpart
  rw [splitOn_eq_singleton (hmem ';' (by decide) (by decide)), mem_singleton] at hpart
  subst hpart
  refine stripPrefix_eq_none fun hfront => ?_
  have hsign : '=' ∈ h.dispositionType ++ h.after := by
    have hinfix := TrimmedLists.trim_within (p := isWhitespace) (l := h.dispositionType ++ h.after)
    exact hinfix.subset (hfront.subset (by simp))
  exact hmem '=' (by decide) (by decide) hsign

/-! ## The search -/

theorem firstName_append (f : List Char → Option (Option String)) (parts parts' : List (List Char)) :
    firstName f (parts ++ parts') = (firstName f parts).bind fun
      | some name => some (some name)
      | none => firstName f parts' := by
  induction parts with
  | nil => rfl
  | cons part parts ih =>
    rw [cons_append, firstName, firstName, ih]
    cases f part with
    | none => rfl
    | some result =>
      cases result with
      | none => rfl
      | some name => rfl

theorem firstName_none {f : List Char → Option (Option String)} {parts : List (List Char)}
    (hf : ∀ part ∈ parts, f part = some none) : firstName f parts = some none := by
  induction parts with
  | nil => rfl
  | cons part parts ih =>
    rw [firstName, hf part mem_cons_self]
    exact ih fun part' hpart' => hf part' (mem_cons_of_mem part hpart')

structure Searches (f : List Char → Option (Option String)) (key : List Char) : Prop where
  isKey : IsKey key
  skips : ∀ part, stripPrefix (key ++ ['=']) (trim part) = none → f part = some none

variable {f : List Char → Option (Option String)}

theorem Searches.other (hf : Searches f key) (hp : p.Valid) (hne : p.key ≠ key)
    (hharmless : ∀ part ∈ ((p.value.text ++ p.after).splitOn ';').tail,
      stripPrefix (key ++ ['=']) (trim part) = none) :
    firstName f (p.text.splitOn ';') = some none := by
  obtain ⟨first,others,hsplit,htext⟩ := Parameter.splitOn_text hp
  rw [hsplit] at hharmless
  rw [htext]
  refine firstName_none fun part hpart => hf.skips part ?_
  obtain rfl | hpart := mem_cons.mp hpart
  · rw [append_assoc, cons_append]
    exact stripPrefix_part hf.isKey hp hne _
  · exact hharmless part hpart

theorem Searches.others (hf : Searches f key) {parameters : List Parameter}
    (hvalid : ∀ p ∈ parameters, p.Valid ∧ p.key ≠ key ∧
      ∀ part ∈ ((p.value.text ++ p.after).splitOn ';').tail,
        stripPrefix (key ++ ['=']) (trim part) = none) :
    firstName f (parameters.flatMap fun p => p.text.splitOn ';') = some none := by
  induction parameters with
  | nil => rfl
  | cons p parameters ih =>
    obtain ⟨hp,hne,hharmless⟩ := hvalid p mem_cons_self
    rw [flatMap_cons, firstName_append, hf.other hp hne hharmless]
    exact ih fun p' hp' => hvalid p' (mem_cons_of_mem p hp')

theorem Searches.found (hf : Searches f key) (hh : h.Conforming) (hharmless : Harmless key h)
    (hp : p ∈ h.parameters) (hkey : p.key = key) :
    firstName f (h.text.splitOn ';') = firstName f (p.text.splitOn ';') := by
  obtain ⟨l,r,hparameters⟩ := append_of_mem hp
  have hnodup := hh.nodup
  rw [hparameters, map_append, map_cons] at hnodup
  obtain ⟨-,hback,hdisjoint⟩ := nodup_append.mp hnodup
  have hvalid : ∀ q ∈ h.parameters, q.key ≠ key → q.Valid ∧ q.key ≠ key ∧
      ∀ part ∈ ((q.value.text ++ q.after).splitOn ';').tail,
        stripPrefix (key ++ ['=']) (trim part) = none :=
    fun q hq hne => ⟨hh.parameters q hq,hne,hharmless q hq⟩
  have hfront : ∀ q ∈ l, q.key ≠ key := fun q hq heq =>
    hdisjoint q.key (mem_map_of_mem hq) p.key mem_cons_self (heq.trans hkey.symm)
  have hrest : ∀ q ∈ r, q.key ≠ key := fun q hq heq =>
    (nodup_cons.mp hback).1 (hkey.trans heq.symm ▸ mem_map_of_mem hq)
  have htype : firstName f ((h.dispositionType ++ h.after).splitOn ';') = some none :=
    firstName_none fun part hpart => hf.skips part (stripPrefix_type key hh part hpart)
  have hl : firstName f (l.flatMap fun p => p.text.splitOn ';') = some none :=
    hf.others fun q hq =>
      hvalid q (hparameters ▸ mem_append_left _ hq) (hfront q hq)
  have hr : firstName f (r.flatMap fun p => p.text.splitOn ';') = some none :=
    hf.others fun q hq =>
      hvalid q (hparameters ▸ mem_append_right _ (mem_cons_of_mem p hq)) (hrest q hq)
  rw [splitOn_text, hparameters, flatMap_append, flatMap_cons, firstName_append, htype,
    bind_some, firstName_append, hl, bind_some, firstName_append, hr]
  cases firstName f (p.text.splitOn ';') with
  | none => rfl
  | some result =>
    cases result with
    | none => rfl
    | some name => rfl

theorem Searches.absent (hf : Searches f key) (hh : h.Conforming) (hharmless : Harmless key h)
    (hnone : ∀ p ∈ h.parameters, p.key ≠ key) :
    firstName f (h.text.splitOn ';') = some none := by
  have htype : firstName f ((h.dispositionType ++ h.after).splitOn ';') = some none :=
    firstName_none fun part hpart => hf.skips part (stripPrefix_type key hh part hpart)
  rw [splitOn_text, firstName_append, htype]
  exact hf.others fun q hq => ⟨hh.parameters q hq,hnone q hq,hharmless q hq⟩

theorem searches_extended : Searches (extendedName gbk) extendedKey where
  isKey := isKey_extended
  skips part hpart := by rw [extendedName, hpart]

theorem searches_plain : Searches (plainName gbk) plainKey where
  isKey := isKey_plain
  skips part hpart := by rw [plainName, hpart]

/-! ## Names -/

theorem Parameter.splitOn_single (hp : p.Valid) (hvalue : ';' ∉ p.value.text) :
    p.text.splitOn ';' = [p.text] := by
  have hafter : ';' ∉ p.after := not_mem_of_isOws hp.after (by decide)
  have hsingle : (p.value.text ++ p.after).splitOn ';' = [p.value.text ++ p.after] :=
    splitOn_eq_singleton (by simp [hvalue, hafter])
  obtain ⟨first,others,hsplit,htext⟩ := Parameter.splitOn_text hp
  rw [hsingle] at hsplit
  obtain ⟨rfl,rfl⟩ := cons.inj hsplit
  rw [htext, Parameter.text]

theorem firstName_single (f : List Char → Option (Option String)) (part : List Char) :
    firstName f [part] = f part := by
  rw [firstName]
  cases f part with
  | none => rfl
  | some result =>
    cases result with
    | none => rfl
    | some name => rfl

theorem stripPrefix_value (hp : p.Valid) (hname : p.name = key) (hleft : p.left = [])
    (hkey : IsKey key) (hlast : ∀ c ∈ p.value.text.getLast?, isWhitespace c = false)
    (hne : p.value.text ≠ []) :
    stripPrefix (key ++ ['=']) (trim p.text) = some (p.right ++ p.value.text) := by
  have hcore : trim p.text = key ++ ['='] ++ (p.right ++ p.value.text) := by
    have htext : p.text = p.before ++ (key ++ ['='] ++ (p.right ++ p.value.text)) ++ p.after := by
      rw [Parameter.text, hname, hleft]
      simp
    rw [htext, trim, trimWhere_append (isWhitespace_of_isOws hp.before)
      (isWhitespace_of_isOws hp.after)]
    refine TrimmedLists.Bare.trim_eq ⟨fun c hc => ?_,fun c hc => ?_⟩
    · obtain ⟨d,rest,hd⟩ := exists_cons_of_ne_nil hkey.ne_nil
      rw [hd] at hc
      obtain rfl := some.inj hc
      refine not_isWhitespace_of_isTokenChar (hp.name.2 d ?_)
      rw [hname, hd]
      exact mem_cons_self
    · rw [← append_assoc, getLast?_append_of_ne_nil _ hne] at hc
      exact hlast c hc
  rw [hcore, stripPrefix_append]

theorem isWhitespace_of_mem_token (htext : IsToken text) : ∀ c ∈ text, isWhitespace c = false :=
  fun c hc => not_isWhitespace_of_isTokenChar (htext.2 c hc)

theorem Escaped.not_mem {literal : Char → Prop} {d : Char} {bytes : List UInt8}
    (hs : Escaped literal text bytes) (hliteral : ¬ literal d) (hsign : d ≠ '%')
    (hdigit : ∀ n < 16, d.toLower ≠ Nat.digitChar n) : d ∉ text := by
  induction hs with
  | nil => exact not_mem_nil
  | plain hc _ ih =>
    intro hmem
    obtain rfl | hmem := mem_cons.mp hmem
    · exact hliteral hc
    · exact ih hmem
  | escape hhi hb hlo hc _ ih =>
    intro hmem
    obtain rfl | hmem := mem_cons.mp hmem
    · exact hsign rfl
    obtain rfl | hmem := mem_cons.mp hmem
    · exact hdigit _ hhi hb
    obtain rfl | hmem := mem_cons.mp hmem
    · exact hdigit _ hlo hc
    · exact ih hmem

theorem isAttrChar_spec (hc : isAttrChar c = true) : c.toNat < 128 ∧ c ≠ '%' := by
  refine ⟨?_,?_⟩
  · obtain hc | hc := Bool.or_eq_true_iff.mp hc
    · exact Nat.lt_trans (bounds_of_isAlphanum hc).2 (by decide)
    · have hmarks : ("!#$&+-.^_`|~".toList.all fun c => decide (c.toNat < 128)) = true := by decide
      exact of_decide_eq_true (all_eq_true.mp hmarks c (contains_iff_mem.mp hc))
  · rintro rfl
    exact absurd hc (by decide)

/-- The encoded name is the third part of an extended value. -/
theorem splitOn_extended (hext : IsExtended name text) :
    ∃ encoded, (text.splitOn '\'')[2]? = some encoded ∧
      Escaped (fun c => isAttrChar c = true) encoded (encode name) := by
  obtain ⟨charset,language,encoded,rfl,hcharset,hlanguage,hencoded⟩ := hext
  have h1 : '\'' ∉ charset := by
    intro hmem
    have hlower : Char.toLower '\'' ∈ "utf-8".toList := hcharset ▸ mem_map_of_mem hmem
    exact absurd hlower (by decide)
  have h2 : '\'' ∉ language := fun hmem => absurd (hlanguage _ hmem) (by decide)
  have h3 : '\'' ∉ encoded :=
    Escaped.not_mem hencoded (by decide) (by decide) (by decide)
  refine ⟨encoded,?_,hencoded⟩
  rw [splitOn_append_cons_self, splitOn_append_cons_self, splitOn_eq_singleton h1,
    splitOn_eq_singleton h2, splitOn_eq_singleton h3]
  rfl

theorem extendedName_text (hp : p.Valid) (hname : p.name = extendedKey) (hleft : p.left = [])
    (hvalue : p.value = .token text) (hext : IsExtended name text) :
    extendedName gbk p.text =
      some (if trim name = [] then none else some (sanitized (trim name))) := by
  have htoken : IsToken text := by
    have hvalid := hp.value
    rwa [hvalue] at hvalid
  have hbare := isWhitespace_of_mem_token htoken
  have hstrip : stripPrefix (extendedKey ++ ['=']) (trim p.text) = some (p.right ++ text) := by
    have hvalue' : p.value.text = text := by rw [hvalue, Value.text]
    rw [stripPrefix_value hp hname hleft isKey_extended, hvalue']
    · rw [hvalue']
      exact fun c hc => hbare c (mem_of_mem_getLast? hc)
    · rw [hvalue']
      exact htoken.1
  have htrim : trim (p.right ++ text) = text := by
    have happend := @trimWhere_append text p.right [] isWhitespace
      (isWhitespace_of_isOws hp.right) (by simp)
    rw [append_nil] at happend
    exact happend.trans (trimWhere_bare hbare)
  have htrim' : trim text = text := trimWhere_bare hbare
  have hquote : trimWhere (· == '"') text = text :=
    trimWhere_bare fun c hc => beq_eq_false_iff_ne.mpr fun heq =>
      not_mem_of_isToken htoken (by decide) (heq ▸ hc)
  obtain ⟨encoded,hthird,hencoded⟩ := splitOn_extended hext
  rw [extendedName, hstrip]
  simp only [htrim, hquote, htrim', hthird]
  rw [urlencodingDecode_eq, hencoded.percentDecode_eq fun c hc => isAttrChar_spec hc, decode_encode]
  rfl

theorem content_of_literal {pieces : List QuotedPiece}
    (hpieces : '\\' ∉ pieces.flatMap QuotedPiece.written) :
    pieces.flatMap QuotedPiece.written = pieces.map QuotedPiece.char := by
  induction pieces with
  | nil => rfl
  | cons piece pieces ih =>
    rw [flatMap_cons, mem_append, not_or] at hpieces
    rw [flatMap_cons, map_cons, ih hpieces.2]
    cases piece with
    | text c => rfl
    | pair c => exact absurd mem_cons_self hpieces.1

theorem trimWhere_value (hp : p.Valid) (hslash : '\\' ∉ p.value.text)
    (hright : ∀ c ∈ p.right, c = ' ') :
    p.value.text ≠ [] ∧ (∀ c ∈ p.value.text.getLast?, isWhitespace c = false) ∧
      trimWhere isQuoteOrBlank (p.right ++ p.value.text) =
        trimWhere isQuoteOrBlank p.value.content := by
  have hblank : ∀ c ∈ p.right, isQuoteOrBlank c = true := by
    intro c hc
    rw [hright c hc]
    decide
  have hvalid := hp.value
  cases hvalue : p.value with
  | token text =>
    rw [hvalue] at hvalid
    refine ⟨hvalid.1,fun c hc => ?_,?_⟩
    · exact isWhitespace_of_mem_token hvalid c (mem_of_mem_getLast? hc)
    · have happend := @trimWhere_append text p.right [] isQuoteOrBlank hblank (by simp)
      rw [append_nil] at happend
      exact happend
  | quoted pieces =>
    rw [hvalue, Value.text] at hslash
    have hcontent : pieces.flatMap QuotedPiece.written = pieces.map QuotedPiece.char :=
      content_of_literal fun hmem =>
        hslash (mem_cons_of_mem _ (mem_append_left _ hmem))
    rw [Value.text, hcontent, Value.content]
    refine ⟨cons_ne_nil _ _,fun c hc => ?_,?_⟩
    · rw [cons_append, getLast?_cons_of_ne_nil (by simp), getLast?_concat] at hc
      obtain rfl := some.inj hc
      decide
    · have hquote : ∀ c ∈ p.right ++ ['"'], isQuoteOrBlank c = true := by
        intro c hc
        obtain hc | hc := mem_append.mp hc
        · exact hblank c hc
        · rw [mem_singleton.mp hc]
          decide
      have happend := @trimWhere_append (pieces.map QuotedPiece.char) (p.right ++ ['"']) ['"']
        isQuoteOrBlank hquote (by simp [isQuoteOrBlank])
      rw [← happend]
      simp

theorem plainName_text (hp : p.Valid) (hname : p.name = plainKey) (hleft : p.left = [])
    (hslash : '\\' ∉ p.value.text) (hright : ∀ c ∈ p.right, c = ' ') :
    plainName gbk p.text = some (plainMeaning gbk p.value.content) := by
  obtain ⟨hne,hlast,hbare⟩ := trimWhere_value hp hslash hright
  rw [plainName, stripPrefix_value hp hname hleft isKey_plain hlast hne]
  simp only [hbare, urlencodingDecode_eq, plainMeaning]
  split_ifs with hempty hsign
  · rfl
  · rw [map_some]
    cases decodeBytesUtf8OrGbk gbk
      (percentDecode (encode (trimWhere isQuoteOrBlank p.value.content))) with
    | none => rfl
    | some decoded =>
      dsimp only
      split_ifs with hboth hblank hblank
      · exact absurd hblank hboth.1
      · rfl
      · rfl
      · have heq := not_not.mp (not_and.mp hboth hblank)
        rw [heq]
  · rfl

/-! ## Headers -/

theorem extract_encode (gbk : List UInt8 → Option (List Char)) (text : List Char) :
    extractFromContentDisposition gbk (some (encode text)) =
      (firstName (extendedName gbk) (text.splitOn ';')).bind fun
        | some name => some (some name)
        | none => firstName (plainName gbk) (text.splitOn ';') := by
  rewrite [extractFromContentDisposition, bind_some, fromUtf8_encode]
  rfl

theorem firstName_extended (hh : h.Conforming) (hwritten : Written extendedKey h)
    (hharmless : Harmless extendedKey h) (hp : p ∈ h.parameters) (hname : p.Extended name) :
    firstName (extendedName gbk) (h.text.splitOn ';') =
      some (if trim name = [] then none else some (sanitized (trim name))) := by
  obtain ⟨hkey,text,hvalue,hext⟩ := hname
  have hvalid := hh.parameters p hp
  obtain ⟨hpname,hleft⟩ := hwritten p hp hkey
  have hsemi : ';' ∉ p.value.text := by
    have htoken := hvalid.value
    rw [hvalue] at htoken ⊢
    exact not_mem_of_isToken htoken (by decide)
  rw [searches_extended.found hh hharmless hp hkey, Parameter.splitOn_single hvalid hsemi,
    firstName_single, extendedName_text hvalid hpname hleft hvalue hext]

theorem extracts_of_conforming (gbk : List UInt8 → Option (List Char)) (hh : h.Conforming) :
    Extracts gbk h where
  extended hwritten hharmless name hcarries hblank := by
    obtain ⟨p,hp,hname⟩ := hcarries
    rw [extract_encode, firstName_extended hh hwritten hharmless hp hname, if_neg hblank]
    rfl
  plain hwritten hharmless hwritten' hharmless' hliteral hblank name hcarries := by
    have hextended : firstName (extendedName gbk) (h.text.splitOn ';') = some none := by
      by_cases hany : ∃ p ∈ h.parameters, p.key = extendedKey
      · obtain ⟨p,hp,hkey⟩ := hany
        obtain ⟨name,hname⟩ := (hh.parameters p hp).extended hkey
        rw [firstName_extended hh hwritten hharmless hp hname, if_pos (hblank name ⟨p,hp,hname⟩)]
      · exact searches_extended.absent hh hharmless fun p hp hkey => hany ⟨p,hp,hkey⟩
    obtain ⟨p,hp,hkey,rfl⟩ := hcarries
    have hvalid := hh.parameters p hp
    obtain ⟨hpname,hleft⟩ := hwritten' p hp hkey
    obtain ⟨hslash,hsemi,hright⟩ := hliteral p hp hkey
    rw [extract_encode, hextended, bind_some,
      searches_plain.found hh hharmless' hp hkey, Parameter.splitOn_single hvalid hsemi,
      firstName_single, plainName_text hvalid hpname hleft hslash hright]

theorem firstName_isSome {f : List Char → Option (Option String)}
    (hf : ∀ part, (f part).isSome = true) (parts : List (List Char)) :
    (firstName f parts).isSome = true := by
  induction parts with
  | nil => rfl
  | cons part parts ih =>
    obtain ⟨result,hresult⟩ := isSome_iff_exists.mp (hf part)
    rw [firstName, hresult, bind_some]
    cases result with
    | none => exact ih
    | some name => rfl

theorem extendedName_isSome (part : List Char) : (extendedName gbk part).isSome = true := by
  rw [extendedName]
  split
  · rfl
  · split
    · rfl
    · rw [urlencodingDecode_eq, map_some, isSome_some]

theorem plainName_isSome (part : List Char) : (plainName gbk part).isSome = true := by
  rw [plainName]
  split
  · rfl
  · dsimp only
    split_ifs
    · rfl
    · rw [urlencodingDecode_eq, map_some, isSome_some]
    · rfl

theorem extract_isSome (gbk : List UInt8 → Option (List Char)) (disposition : Option (List UInt8)) :
    (extractFromContentDisposition gbk disposition).isSome = true := by
  rw [extractFromContentDisposition]
  cases disposition.bind fromUtf8 with
  | none => rfl
  | some value =>
    have hextended := firstName_isSome (@extendedName_isSome gbk) (value.splitOn ';')
    obtain ⟨result,hresult⟩ := isSome_iff_exists.mp hextended
    dsimp only
    rw [hresult, bind_some]
    cases result with
    | none => exact firstName_isSome plainName_isSome _
    | some name => rfl

/-- No header makes the search panic, and from a conforming one it extracts the name. -/
theorem extract_from_headers (gbk : List UInt8 → Option (List Char)) :
    (∀ disposition, (extractFromContentDisposition gbk disposition).isSome = true) ∧
      ∀ h : Header, h.Conforming → Extracts gbk h :=
  ⟨extract_isSome gbk,fun _ hh => extracts_of_conforming gbk hh⟩

/-! ## Headers of a server -/

def written (name : String) (value : Value) : Parameter :=
  { before := [' '], name := name.toList, left := [], right := [], value := value, after := [] }

def attachment (parameters : List Parameter) : Header :=
  { dispositionType := "attachment".toList, after := [], parameters := parameters }

theorem isToken_of_all (hne : text ≠ []) (hall : text.all isTokenChar = true) : IsToken text :=
  ⟨hne,all_eq_true.mp hall⟩

theorem isToken_attachment : IsToken "attachment".toList :=
  isToken_of_all (by decide) (by decide)

variable {name : String} {value : Value} {parameters : List Parameter} {q' : Parameter}

theorem written_valid (hname : IsToken name.toList) (hvalue : value.Valid)
    (hext : (written name value).key = extendedKey →
      ∃ carried, (written name value).Extended carried) : (written name value).Valid where
  before := by simp [written, IsOws]
  name := hname
  left := by simp [written, IsOws]
  right := by simp [written, IsOws]
  value := hvalue
  after := by simp [written, IsOws]
  extended := hext

theorem attachment_conforming (hvalid : ∀ p ∈ parameters, p.Valid)
    (hnodup : (parameters.map Parameter.key).Nodup) : (attachment parameters).Conforming where
  dispositionType := isToken_attachment
  after := fun _ hc => absurd hc not_mem_nil
  parameters := hvalid
  nodup := hnodup

def plainParameter : Parameter := written "filename" (.token "a%20b".toList)

theorem plainParameter_valid : plainParameter.Valid :=
  written_valid (isToken_of_all (by decide) (by decide)) (isToken_of_all (by decide) (by decide))
    fun hkey => absurd hkey (by decide)

def extendedParameter : Parameter := written "filename*" (.token "UTF-8''a%20b".toList)

theorem extendedParameter_extended : extendedParameter.Extended "a b".toList := by
  have hescaped : Escaped (fun c => isAttrChar c = true) "a%20b".toList
      [UInt8.ofNat 97, UInt8.ofNat (16 * 2 + 0), UInt8.ofNat 98] :=
    .plain (by decide) (.escape (by decide) (by decide) (by decide) (by decide)
      (.plain (by decide) .nil))
  exact ⟨by decide,_,rfl,"UTF-8".toList,[],"a%20b".toList,by decide,by decide,by simp,
    hescaped⟩

theorem extendedParameter_valid : extendedParameter.Valid :=
  written_valid (isToken_of_all (by decide) (by decide)) (isToken_of_all (by decide) (by decide))
    fun _ => ⟨_,extendedParameter_extended⟩

theorem mem_pair (hp : p ∈ (attachment [q, q']).parameters) : p = q ∨ p = q' := by
  have hmem : p ∈ [q, q'] := hp
  simpa using hmem

theorem extract_from_headers_both :
    extractFromContentDisposition (fun _ => none)
      (some (encode (attachment [plainParameter, extendedParameter]).text)) =
        some (some (sanitized "a b".toList)) := by
  have hconforming : (attachment [plainParameter, extendedParameter]).Conforming := by
    refine attachment_conforming (fun p hp => ?_) (by decide)
    obtain rfl | rfl := mem_pair hp
    · exact plainParameter_valid
    · exact extendedParameter_valid
  have hwritten : Written extendedKey (attachment [plainParameter, extendedParameter]) := by
    intro p hp hkey
    obtain rfl | rfl := mem_pair hp
    · exact absurd hkey (by decide)
    · exact ⟨rfl,rfl⟩
  have hharmless : Harmless extendedKey (attachment [plainParameter, extendedParameter]) := by
    intro p hp part hpart
    have hplain : ((plainParameter.value.text ++ plainParameter.after).splitOn ';').tail = [] := by
      decide
    have hextended :
        ((extendedParameter.value.text ++ extendedParameter.after).splitOn ';').tail = [] := by
      decide
    obtain rfl | rfl := mem_pair hp
    · rw [hplain] at hpart
      exact absurd hpart not_mem_nil
    · rw [hextended] at hpart
      exact absurd hpart not_mem_nil
  have hcarries : (attachment [plainParameter, extendedParameter]).CarriesExtended "a b".toList :=
    ⟨extendedParameter,mem_cons_of_mem _ mem_cons_self,extendedParameter_extended⟩
  have htrim : trim "a b".toList = "a b".toList := by decide
  have hname := ((extract_from_headers fun _ => none).2 _ hconforming).extended hwritten
    hharmless _ hcarries (by decide)
  rw [htrim] at hname
  exact hname

/-- The percent escapes of a plain name are decoded. -/
theorem plain_escapes_decoded :
    ¬ ∀ (gbk : List UInt8 → Option (List Char)) (h : Header) (name : List Char), h.Conforming →
      (h.CarriesExtended name ∨
        (∀ carried, ¬ h.CarriesExtended carried) ∧ h.CarriesPlain name) →
      extractFromContentDisposition gbk (some (encode h.text)) =
        some (some (sanitized name)) := by
  intro hall
  have hconforming : (attachment [plainParameter]).Conforming :=
    attachment_conforming (by simpa using plainParameter_valid) (by simp)
  have hplain : ∀ carried, ¬ (attachment [plainParameter]).CarriesExtended carried := by
    intro carried ⟨p,hp,hkey,_⟩
    obtain rfl := mem_singleton.mp hp
    exact absurd hkey (by decide)
  have hextracted := hall (fun _ => none) (attachment [plainParameter]) "a%20b".toList hconforming
    (.inr ⟨hplain,plainParameter,mem_singleton_self _,by decide,rfl⟩)
  have hparts : (attachment [plainParameter]).text.splitOn ';' =
      ["attachment".toList, " filename=a%20b".toList] := by decide
  have hdecoded : percentDecode (encode "a%20b".toList) = encode "a b".toList := by decide
  have hname : plainName (fun _ => none) " filename=a%20b".toList =
      some (some (sanitized "a b".toList)) := by
    have hstrip : stripPrefix (plainKey ++ ['=']) (trim " filename=a%20b".toList) =
        some "a%20b".toList := by decide
    have htrim : trimWhere isQuoteOrBlank "a%20b".toList = "a%20b".toList := by decide
    rw [plainName, hstrip]
    simp only [htrim, urlencodingDecode_eq, hdecoded, decode_encode]
    rfl
  have hfirst : plainName (fun _ => none) "attachment".toList = some none := by decide
  have hextended : firstName (extendedName fun _ => none)
      ["attachment".toList, " filename=a%20b".toList] = some none := by decide
  rw [extract_encode, hparts, hextended, bind_some, firstName, hfirst, bind_some,
    firstName_single, hname] at hextracted
  exact absurd (some.inj (some.inj hextracted)) (by decide +kernel)

end RinaDown.DispositionNames
