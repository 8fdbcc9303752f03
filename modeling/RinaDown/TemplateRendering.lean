import Mathlib.Data.List.Nodup
import Mathlib.Data.List.TakeWhile
import RinaDown.JsonTexts
import RinaDown.Substitution
import RinaDown.WebhookTemplates

/-!
# What templates are rendered to

The scan over bytes substitutes the escaped values for the placeholders. In a JSON text it rewrites
the strings only, since no placeholder can start at the brace of an object, and an escaped value
stays inside its string.
-/

namespace RinaDown.TemplateRendering

open JsonTexts Substitution TextSlices WebhookTemplates List

/-! ## The scan -/

def isInner (c : Char) : Bool := c != '}' && c != '{'

/-- A part between braces that has no other brace in it. -/
def IsPlaceholder (key : List Char) : Prop :=
  ∃ inner, key = '{' :: inner ++ ['}'] ∧ ∀ c ∈ inner, isInner c = true

def table (vars : Vars) : List (List Char × List Char) :=
  vars.map fun entry => (entry.1, jsonEscape entry.2)

def rendered (vars : Vars) (template : List Char) : List Char :=
  substitute (table vars) (fun c => [c]) template

variable {vars : Vars} {key value inner rest template l r : List Char}

theorem prefix_iff (hkey : IsPlaceholder key) : key <+: '{' :: r ↔
    ∃ rest, r.dropWhile isInner = '}' :: rest ∧ key = '{' :: r.takeWhile isInner ++ ['}'] := by
  obtain ⟨inner,rfl,hinner⟩ := hkey
  have hbrace : isInner '}' = false := rfl
  constructor
  · rintro ⟨rest,heq⟩
    obtain rfl : inner ++ '}' :: rest = r := by simpa using heq
    refine ⟨rest,?_,?_⟩
    · rw [dropWhile_append_of_pos hinner, dropWhile_cons_of_neg (by simp [hbrace])]
    · rw [takeWhile_append_of_pos hinner, takeWhile_cons_of_neg (by simp [hbrace]),
        append_nil]
  · rintro ⟨rest,hrest,hkey⟩
    rw [hkey]
    refine ⟨rest,?_⟩
    rw [append_assoc, singleton_append, cons_append, ← hrest,
      takeWhile_append_dropWhile]

theorem isPlaceholder_head (hkey : IsPlaceholder key) {c : Char} (h : key <+: c :: r) :
    c = '{' := by
  obtain ⟨inner,rfl,-⟩ := hkey
  exact (cons_prefix_cons.mp h).1.symm

/-- The placeholders of a table do not overlap. -/
theorem eq_of_prefix {key' : List Char} (hkey : IsPlaceholder key) (hkey' : IsPlaceholder key')
    (h : key <+: key') : key = key' := by
  obtain ⟨inner,rfl,hinner⟩ := hkey'
  obtain ⟨rest,-,heq⟩ := (prefix_iff hkey).mp h
  have htake : (inner ++ ['}']).takeWhile isInner = inner := by
    rw [takeWhile_append_of_pos hinner]
    exact append_nil inner
  rw [heq, append_eq, htake]

/-- Distinct placeholders, each with one value. -/
structure Known (vars : Vars) : Prop where
  isPlaceholder : ∀ entry ∈ vars, IsPlaceholder entry.1
  nodup : (vars.map Prod.fst).Nodup

theorem Known.unambiguous (h : Known vars) : Unambiguous (table vars) where
  ne_nil entry hentry := by
    obtain ⟨entry,hmem,rfl⟩ := mem_map.mp hentry
    obtain ⟨inner,hinner,-⟩ := h.isPlaceholder entry hmem
    exact hinner ▸ cons_ne_nil _ _
  eq_of_prefix entry hentry entry' hentry' hprefix := by
    obtain ⟨entry,hmem,rfl⟩ := mem_map.mp hentry
    obtain ⟨entry',hmem',rfl⟩ := mem_map.mp hentry'
    have hkeys := eq_of_prefix (h.isPlaceholder entry hmem) (h.isPlaceholder entry' hmem') hprefix
    rw [inj_on_of_nodup_map h.nodup hmem hmem' hkeys]

theorem Known.rendered_cons (h : Known vars) {c : Char} (hc : c ≠ '{') :
    rendered vars (c :: r) = c :: rendered vars r := by
  refine substitute_cons fun entry hentry hprefix => ?_
  obtain ⟨entry,hmem,rfl⟩ := mem_map.mp hentry
  exact hc (isPlaceholder_head (h.isPlaceholder entry hmem) hprefix)

theorem Known.rendered_append (h : Known vars) (hl : '{' ∉ l) :
    rendered vars (l ++ r) = l ++ rendered vars r := by
  induction l with
  | nil => rfl
  | cons c l ih =>
    obtain ⟨hc,htail⟩ := not_or.mp (mt mem_cons.mpr hl)
    rw [cons_append, h.rendered_cons (Ne.symm hc), ih htail, cons_append]

/-- A brace that starts no known placeholder. -/
theorem rendered_brace
    (hnot : ∀ entry ∈ vars, ¬ entry.1 <+: '{' :: r) :
    rendered vars ('{' :: r) = '{' :: rendered vars r := by
  refine substitute_cons fun entry hentry hprefix => ?_
  obtain ⟨entry,hmem,rfl⟩ := mem_map.mp hentry
  exact hnot entry hmem hprefix

theorem Known.rendered_part (h : Known vars) (hinner : ∀ c ∈ inner, isInner c = true) :
    rendered vars ('{' :: inner ++ '}' :: rest) =
      fill vars ('{' :: inner ++ ['}']) ++ rendered vars rest := by
  have happend : '{' :: inner ++ '}' :: rest = ('{' :: inner ++ ['}']) ++ rest := by simp
  cases hlookup : vars.lookup ('{' :: inner ++ ['}']) with
  | some value =>
    obtain ⟨front,back,hvars,-⟩ := lookup_eq_some_iff.mp hlookup
    have hmem : ('{' :: inner ++ ['}'], jsonEscape value) ∈ table vars := by
      rw [table, hvars, map_append, map_cons]
      exact mem_append_right _ mem_cons_self
    rw [happend, rendered, substitute_key h.unambiguous hmem, fill, hlookup]
    rfl
  | none =>
    have hnot : ∀ entry ∈ vars, ¬ entry.1 <+: '{' :: (inner ++ '}' :: rest) := by
      intro entry hentry hprefix
      obtain ⟨-,-,hkey⟩ := (prefix_iff (h.isPlaceholder entry hentry)).mp hprefix
      rw [takeWhile_append_of_pos hinner, takeWhile_cons_of_neg (by decide),
        append_nil] at hkey
      have hne := lookup_eq_none_iff.mp hlookup entry hentry
      rw [hkey] at hne
      simp at hne
    have hcopied : '{' ∉ inner ++ ['}'] := by
      intro hc
      obtain hc | hc := mem_append.mp hc
      · exact absurd (hinner _ hc) (by decide)
      · exact absurd (mem_singleton.mp hc) (by decide)
    have htail := h.rendered_append (r := rest) hcopied
    rw [append_assoc, singleton_append] at htail
    rw [cons_append, rendered_brace hnot, htail, fill, hlookup]
    rfl

theorem takeWhile_encode_plain (text : List Char) :
    (encode text).takeWhile (· != openBrace) = encode (text.takeWhile (· != '{')) := by
  refine takeWhile_encode (fun c hc b hb => ?_) (fun c hc rest => ?_) text
  · refine bne_iff_ne.mpr ?_
    rintro rfl
    have heq := (utf8EncodeChar_of_mem hb (by decide)).2
    exact bne_iff_ne.mp hc (Char.toNat_inj.mp heq)
  · obtain rfl : c = '{' := by simpa using hc
    rfl

theorem takeWhile_encode_inner (text : List Char) :
    (encode text).takeWhile (fun b => b != closeBrace && b != openBrace) =
      encode (text.takeWhile isInner) := by
  refine takeWhile_encode (fun c hc b hb => ?_) (fun c hc rest => ?_) text
  · obtain ⟨hclose,hopen⟩ := Bool.and_eq_true_iff.mp hc
    refine Bool.and_eq_true_iff.mpr ⟨bne_iff_ne.mpr ?_,bne_iff_ne.mpr ?_⟩
    · rintro rfl
      have heq := (utf8EncodeChar_of_mem hb (by decide)).2
      exact bne_iff_ne.mp hclose (Char.toNat_inj.mp heq)
    · rintro rfl
      have heq := (utf8EncodeChar_of_mem hb (by decide)).2
      exact bne_iff_ne.mp hopen (Char.toNat_inj.mp heq)
  · obtain hclose | hopen := Bool.and_eq_false_iff.mp hc
    · obtain rfl : c = '}' := by simpa using hclose
      rfl
    · obtain rfl : c = '{' := by simpa using hopen
      rfl

theorem drop_encode (l r : List Char) : (encode (l ++ r)).drop (byteLen l) = encode r := by
  rw [encode_append, ← length_encode, drop_left]

theorem skip_encode {p : UInt8 → Bool} {q : Char → Bool} (l r : List Char)
    (h : (encode r).takeWhile p = encode (r.takeWhile q)) :
    skip p (encode (l ++ r)) (byteLen l) = byteLen l + byteLen (r.takeWhile q) := by
  rw [skip, drop_encode, h, length_encode]

theorem getElem?_encode (l r : List Char) :
    (encode (l ++ r))[byteLen l]? = (encode r)[0]? := by
  rw [← drop_encode l r, getElem?_drop, Nat.add_zero]

theorem skip_inner (l r : List Char) :
    skip (fun b => b != closeBrace && b != openBrace) (encode (l ++ '{' :: r)) (byteLen l + 1) =
      byteLen l + byteLen ('{' :: r.takeWhile isInner) := by
  have hopen : byteLen (l ++ ['{']) = byteLen l + 1 := byteLen_append
  have hcons : byteLen ('{' :: r.takeWhile isInner) = 1 + byteLen (r.takeWhile isInner) :=
    byteLen_cons
  have hskip := skip_encode (l ++ ['{']) r (takeWhile_encode_inner r)
  rw [append_assoc, singleton_append, hopen] at hskip
  rw [hskip, hcons, Nat.add_assoc]

theorem getElem?_skip_inner (l r : List Char) :
    (encode (l ++ '{' :: r))[byteLen l + byteLen ('{' :: r.takeWhile isInner)]? =
      (encode (r.dropWhile isInner))[0]? := by
  have hget := getElem?_encode (l ++ '{' :: r.takeWhile isInner) (r.dropWhile isInner)
  rwa [append_assoc, cons_append, takeWhile_append_dropWhile, byteLen_append] at hget

/-- Whether the loop ends at another opening brace or at the end. -/
theorem unclosed_iff (l r : List Char) :
    ((encode (l ++ '{' :: r)).length ≤ byteLen l + byteLen ('{' :: r.takeWhile isInner) ∨
      (encode (l ++ '{' :: r))[byteLen l + byteLen ('{' :: r.takeWhile isInner)]? =
        some openBrace) ↔ ∀ rest, r.dropWhile isInner ≠ '}' :: rest := by
  rw [← getElem?_eq_none_iff, getElem?_skip_inner]
  have hhead := head?_dropWhile_not isInner r
  cases hafter : r.dropWhile isInner with
  | nil => simp
  | cons c after =>
    rw [hafter] at hhead
    obtain hclose | hopen := Bool.and_eq_false_iff.mp hhead
    · obtain rfl : c = '}' := by simpa using hclose
      refine ⟨fun hbyte => ?_,fun hne => absurd rfl (hne after)⟩
      obtain hbyte | hbyte := hbyte
      · cases hbyte
      · exact absurd (Option.some.inj hbyte) (by decide)
    · obtain rfl : c = '{' := by simpa using hopen
      exact ⟨fun _ rest heq => absurd (cons.inj heq).1 (by decide),fun _ => .inr rfl⟩

/-- The scan from a place between characters on. -/
theorem Known.renderFrom_eq (h : Known vars) (l r out : List Char) :
    renderFrom (l ++ r) vars (byteLen l) out = some (out ++ rendered vars r) := by
  induction hn : r.length using Nat.strong_induction_on generalizing l r out with
  | _ n ih =>
    have hnext : ∀ m r', r = m ++ r' → m ≠ [] → ∀ out',
        renderFrom (l ++ r) vars (byteLen l + byteLen m) out' =
          some (out' ++ rendered vars r') := by
      intro m r' hr hm out'
      have hlen : r'.length < n := by
        rw [← hn, hr, length_append]
        exact Nat.lt_add_of_pos_left (length_pos_of_ne_nil hm)
      rw [hr, ← append_assoc, ← byteLen_append]
      exact ih _ hlen (l ++ m) r' out' rfl
    have hslice : ∀ m r', r = m ++ r' →
        slice (l ++ r) (byteLen l) (byteLen l + byteLen m) = some m := by
      rintro m r' rfl
      exact slice_append m
    cases r with
    | nil =>
      have hend : ¬ byteLen l < (encode (l ++ [])).length := by simp
      rw [renderFrom, dif_neg hend, rendered, substitute_nil, append_nil]
    | cons c r =>
      have hlt : byteLen l < (encode (l ++ c :: r)).length := by
        rw [length_encode, byteLen_append, byteLen_cons]
        have hpos := c.utf8Size_pos
        omega
      have hget := (getElem?_eq_getElem hlt).symm.trans (getElem?_encode l (c :: r))
      by_cases hc : c = '{'
      · subst hc
        have hbrace : ¬ ((encode (l ++ '{' :: r))[byteLen l] != openBrace) = true := by
          rw [Option.some.inj hget]
          decide
        rw [renderFrom, dif_pos hlt, dif_neg hbrace]
        simp only [skip_inner]
        split_ifs with hopen
        · have hunclosed := (unclosed_iff l r).mp hopen
          have hnot : ∀ entry ∈ vars, ¬ entry.1 <+: '{' :: r := by
            intro entry hentry hprefix
            obtain ⟨rest,hrest,-⟩ := (prefix_iff (h.isPlaceholder entry hentry)).mp hprefix
            exact hunclosed rest hrest
          have hrec := hnext ['{'] r rfl (by decide) (out ++ ['{'])
          rw [rendered_brace hnot]
          exact hrec.trans (congrArg some (append_assoc out ['{'] _))
        · obtain ⟨rest,hrest⟩ := not_forall_not.mp ((unclosed_iff l r).not.mp hopen)
          have hsplit : '{' :: r = ('{' :: r.takeWhile isInner ++ ['}']) ++ rest := by
            rw [append_assoc, singleton_append, ← hrest, cons_append,
              takeWhile_append_dropWhile]
          have hkey : byteLen l + byteLen ('{' :: r.takeWhile isInner) + 1 =
              byteLen l + byteLen ('{' :: r.takeWhile isInner ++ ['}']) := by
            rw [byteLen_append, Nat.add_assoc]
            rfl
          rw [hkey, hslice _ rest hsplit, Option.bind_some, hnext _ rest hsplit (by simp)]
          have hpart := @Known.rendered_part vars (r.takeWhile isInner) rest h fun c hc =>
            mem_takeWhile_imp hc
          rw [append_assoc, ← hpart, ← hrest, cons_append,
            takeWhile_append_dropWhile]
      · have hplain : ((encode (l ++ c :: r))[byteLen l] != openBrace) = true := by
          refine bne_iff_ne.mpr fun heq => hc ?_
          rw [heq, encode_cons, getElem?_append_left (by simp [c.utf8Size_pos])] at hget
          exact Char.toNat_inj.mp (utf8EncodeChar_of_mem (mem_of_getElem? hget.symm) (by decide)).2
        have hsplit := takeWhile_append_dropWhile (p := (· != '{')) (l := c :: r)
        have hne : (c :: r).takeWhile (· != '{') ≠ [] := by
          have hc' : (c != '{') = true := bne_iff_ne.mpr hc
          rw [takeWhile_cons_of_pos (p := (· != '{')) hc']
          exact cons_ne_nil _ _
        rw [renderFrom, dif_pos hlt, dif_pos hplain, skip_encode l _ (takeWhile_encode_plain _),
          hslice _ _ hsplit.symm, Option.bind_some, hnext _ _ hsplit.symm hne]
        have hcopied : '{' ∉ (c :: r).takeWhile (· != '{') := fun hc' =>
          absurd (mem_takeWhile_imp hc') (by decide)
        rw [append_assoc, ← h.rendered_append hcopied, hsplit]

theorem Known.renderTemplate_eq (h : Known vars) (template : List Char) :
    renderTemplate template vars = some (rendered vars template) :=
  h.renderFrom_eq [] template []

/-! ## String literals -/

def escapePiece (c : Char) : Piece :=
  if c = '"' then .short '"'
  else if c = '\\' then .short '\\'
  else if c = '\n' then .short 'n'
  else if c = '\r' then .short 'r'
  else if c = '\t' then .short 't'
  else if c.toNat < 0x20 then
    .hex '0' '0' (Nat.digitChar (c.toNat / 16 % 16)) (Nat.digitChar (c.toNat % 16))
  else .plain c

theorem text_escapePiece (c : Char) : (escapePiece c).text = escapeChar c := by
  rw [escapePiece, escapeChar]
  split_ifs with h1 h2 h3 h4 h5 h6
  iterate 5 rfl
  · have hhigh : c.toNat / 4096 % 16 = 0 ∧ c.toNat / 256 % 16 = 0 := by omega
    rw [hex4, hhigh.1, hhigh.2]
    rfl
  · rfl

theorem isHexDigit_digitChar : ∀ n < 16, isHexDigit (Nat.digitChar n) = true := by decide

theorem hexValue_digitChar : ∀ n < 16, hexValue (Nat.digitChar n) = n := by decide

theorem valid_escapePiece (c : Char) : (escapePiece c).Valid := by
  rw [escapePiece]
  split_ifs with h1 h2 h3 h4 h5 h6
  iterate 5 exact mem_of_elem_eq_true rfl
  · exact ⟨rfl,rfl,isHexDigit_digitChar _ (Nat.mod_lt _ (by decide)),
      isHexDigit_digitChar _ (Nat.mod_lt _ (by decide))⟩
  · exact ⟨Nat.le_of_not_lt h6,h1,h2⟩

theorem units_escapePiece (c : Char) : (escapePiece c).units = utf16 c := by
  rw [escapePiece]
  split_ifs with h1 h2 h3 h4 h5 h6
  · rw [h1]
    rfl
  · rw [h2]
    rfl
  · rw [h3]
    rfl
  · rw [h4]
    rfl
  · rw [h5]
    rfl
  · have hzero : hexValue '0' = 0 := rfl
    rw [Piece.units, hzero, hexValue_digitChar _ (Nat.mod_lt _ (by decide)),
      hexValue_digitChar _ (Nat.mod_lt _ (by decide)), utf16, if_pos (by omega)]
    congr 1
    omega
  · rfl

/-- A string literal with the values in it. -/
def rewritten (vars : Vars) (s : List Piece) : List Piece :=
  substitute (vars.map fun entry => (entry.1.map Piece.plain, entry.2.map escapePiece))
    (fun p => [p]) s

/-- The string it stands for: the value of each placeholder that is written in plain characters,
and everything else decoded. -/
def substituted (vars : Vars) (s : List Piece) : List ℕ :=
  substitute (vars.map fun entry => (entry.1.map Piece.plain, entry.2.flatMap utf16))
    Piece.units s

theorem decode_rewritten (vars : Vars) (s : List Piece) :
    decode (rewritten vars s) = substituted vars s := by
  rw [decode, rewritten, flatMap_substitute, map_map, substituted]
  congr 1
  · refine map_congr_left fun entry _ => ?_
    simp only [Function.comp_apply, flatMap_map, units_escapePiece]
  · funext p
    exact append_nil _

theorem text_rewritten (vars : Vars) (s : List Piece) :
    (rewritten vars s).flatMap Piece.text =
      substitute (vars.map fun entry => (entry.1.map Piece.plain, jsonEscape entry.2))
        Piece.text s := by
  rw [rewritten, flatMap_substitute, map_map]
  congr 1
  · refine map_congr_left fun entry _ => ?_
    simp only [Function.comp_apply, flatMap_map, text_escapePiece]
    rfl
  · funext p
    exact append_nil _

theorem valid_rewritten {s : List Piece} (hs : ∀ p ∈ s, p.Valid) :
    ∀ p ∈ rewritten vars s, p.Valid := by
  refine forall_mem_substitute s (fun entry hentry p hp => ?_) fun p hp p' hp' => ?_
  · obtain ⟨entry,-,rfl⟩ := mem_map.mp hentry
    obtain ⟨c,-,rfl⟩ := mem_map.mp hp
    exact valid_escapePiece c
  · rw [mem_singleton.mp hp']
    exact hs p hp

/-- Placeholders that can be told from the structure of a JSON text. -/
structure Tellable (vars : Vars) : Prop extends Known vars where
  plain : ∀ entry ∈ vars, ∀ c ∈ entry.1, c ≠ '"' ∧ c ≠ '\\'
  low : ∀ entry ∈ vars, ∀ c ∈ entry.1, c.toNat < 0xD800
  second : ∀ entry ∈ vars, ∀ c ∈ entry.1.tail.head?, ¬ (isWs c ∨ c = '"' ∨ c = '}')

theorem flatMap_plain (key : List Char) : (key.map Piece.plain).flatMap Piece.text = key := by
  induction key with
  | nil => rfl
  | cons c key ih =>
    rw [map_cons, flatMap_cons, ih]
    rfl

/-- A placeholder in the text of a literal is written in plain characters and ends in the
literal. -/
theorem prefix_pieces (hkey : ∀ c ∈ key, c ≠ '"' ∧ c ≠ '\\') {s : List Piece}
    (h : key <+: s.flatMap Piece.text ++ '"' :: rest) : key.map Piece.plain <+: s := by
  induction key generalizing s with
  | nil => exact nil_prefix
  | cons c key ih =>
    obtain ⟨hquote,hslash⟩ := hkey c mem_cons_self
    cases s with
    | nil => exact absurd (cons_prefix_cons.mp h).1 hquote
    | cons p s =>
      rw [flatMap_cons, append_assoc] at h
      cases p with
      | plain c' =>
        obtain ⟨rfl,htail⟩ := cons_prefix_cons.mp h
        exact cons_prefix_cons.mpr
          ⟨rfl,ih (fun c' hc' => hkey c' (mem_cons_of_mem c hc')) htail⟩
      | short c' | hex a b d e => exact absurd (cons_prefix_cons.mp h).1 hslash

theorem prefix_text {s : List Piece} (h : key.map Piece.plain <+: s) :
    key <+: s.flatMap Piece.text := by
  obtain ⟨rest,rfl⟩ := h
  rw [flatMap_append, flatMap_plain]
  exact prefix_append key _

theorem Known.unambiguous_plain (h : Known vars) {β : Type} (f : List Char → List β) :
    Unambiguous (vars.map fun entry => (entry.1.map Piece.plain, f entry.2)) where
  ne_nil entry hentry := by
    obtain ⟨entry,hmem,rfl⟩ := mem_map.mp hentry
    obtain ⟨inner,hinner,-⟩ := h.isPlaceholder entry hmem
    rw [hinner]
    exact cons_ne_nil _ _
  eq_of_prefix entry hentry entry' hentry' hprefix := by
    obtain ⟨entry,hmem,rfl⟩ := mem_map.mp hentry
    obtain ⟨entry',hmem',rfl⟩ := mem_map.mp hentry'
    have htext := prefix_text hprefix
    rw [flatMap_plain] at htext
    have hkeys := eq_of_prefix (h.isPlaceholder entry hmem) (h.isPlaceholder entry' hmem') htext
    rw [inj_on_of_nodup_map h.nodup hmem hmem' hkeys]

theorem no_brace_of_valid {p : Piece} (hp : p.Valid) (hplain : ∀ c, p ≠ .plain c) :
    '{' ∉ p.text := by
  intro hc
  cases p with
  | plain c => exact absurd rfl (hplain c)
  | short c =>
    have hcases : '{' = '\\' ∨ '{' = c := by simpa [Piece.text] using hc
    obtain hslash | rfl := hcases
    · exact absurd hslash (by decide)
    · exact absurd hp (by simp [Piece.Valid])
  | hex a b d e =>
    obtain ⟨ha,hb,hd,he⟩ := hp
    have hcases : '{' = a ∨ '{' = b ∨ '{' = d ∨ '{' = e := by simpa [Piece.text] using hc
    obtain rfl | rfl | rfl | rfl := hcases
    · exact absurd ha (by decide)
    · exact absurd hb (by decide)
    · exact absurd hd (by decide)
    · exact absurd he (by decide)

/-- A literal is rendered piece by piece. -/
theorem Tellable.rendered_literal (h : Tellable vars) {s : List Piece} (hs : ∀ p ∈ s, p.Valid)
    (rest : List Char) : rendered vars (s.flatMap Piece.text ++ '"' :: rest) =
      (rewritten vars s).flatMap Piece.text ++ '"' :: rendered vars rest := by
  rw [text_rewritten]
  refine substitute_rec (P := fun s out => (∀ p ∈ s, p.Valid) →
    rendered vars (s.flatMap Piece.text ++ '"' :: rest) = out ++ '"' :: rendered vars rest)
    (h.unambiguous_plain jsonEscape).ne_nil ?_ ?_ ?_ s hs
  · exact fun _ => h.rendered_cons (by decide)
  · intro entry hentry s out ih hs
    obtain ⟨entry,hmem,rfl⟩ := mem_map.mp hentry
    have hmem' : (entry.1, jsonEscape entry.2) ∈ table vars := mem_map_of_mem hmem
    have hrest := ih fun p hp => hs p (mem_append_right _ hp)
    rw [flatMap_append, flatMap_plain, append_assoc, rendered,
      substitute_key h.unambiguous hmem', append_assoc]
    exact congrArg _ hrest
  · intro p s out hnone ih hs
    have hp := hs p mem_cons_self
    rw [flatMap_cons, append_assoc, append_assoc,
      ← ih fun p' hp' => hs p' (mem_cons_of_mem p hp')]
    by_cases hplain : ∃ c, p = .plain c
    · obtain ⟨c,rfl⟩ := hplain
      by_cases hc : c = '{'
      · subst hc
        refine rendered_brace fun entry hentry hprefix => ?_
        exact hnone _ (mem_map_of_mem hentry) (prefix_pieces (h.plain entry hentry) hprefix)
      · exact h.rendered_cons hc
    · exact h.rendered_append (no_brace_of_valid hp (not_exists.mp hplain))

theorem Tellable.rewrites (h : Tellable vars) : Rewrites (rendered vars) (rewritten vars) where
  copies c rest hc := h.rendered_cons hc
  opens c rest hc := by
    refine rendered_brace fun entry hentry hprefix => ?_
    have hsecond := h.second entry hentry
    obtain ⟨inner,hkey,-⟩ := h.isPlaceholder entry hentry
    rw [hkey] at hprefix hsecond
    obtain ⟨-,htail⟩ := cons_prefix_cons.mp hprefix
    cases inner with
    | nil => exact hsecond '}' rfl (.inr (.inr rfl))
    | cons c' inner =>
      obtain ⟨rfl,-⟩ := cons_prefix_cons.mp htail
      exact hsecond c' rfl hc
  strings s hs rest := h.rendered_literal hs rest
  valid s hs := valid_rewritten hs

theorem Unicode.cut_plain {units units' : List ℕ} (hkey : ∀ c ∈ key, c.toNat < 0xD800)
    (hne : key ≠ []) (h : Unicode (units ++ (decode (key.map Piece.plain) ++ units'))) :
    Unicode units ∧ Unicode units' := by
  induction key generalizing units with
  | nil => exact absurd rfl hne
  | cons c key ih =>
    have hc := hkey c mem_cons_self
    have hunits : decode ((c :: key).map Piece.plain) = c.toNat :: decode (key.map Piece.plain) := by
      have hc' : Piece.units (.plain c) = [c.toNat] := if_pos (by omega)
      rw [map_cons, decode, flatMap_cons, hc']
      rfl
    rw [hunits] at h
    obtain ⟨hfront,hback⟩ := Unicode.cut hc h
    cases key with
    | nil => exact ⟨hfront,hback⟩
    | cons c' key =>
      have hrest := @ih [] (fun d hd => hkey d (mem_cons_of_mem c hd)) (cons_ne_nil _ _) hback
      exact ⟨hfront,hrest.2⟩

theorem Tellable.unicode_substituted (h : Tellable vars) {s : List Piece}
    (hs : Unicode (decode s)) : Unicode (substituted vars s) := by
  refine substitute_rec (P := fun s out =>
    ∀ units, Unicode (units ++ decode s) → Unicode (units ++ out))
    (h.unambiguous_plain (flatMap utf16)).ne_nil ?_ ?_ ?_ s [] hs
  · exact fun _ hunits => hunits
  · intro entry hentry s out ih units hunits
    obtain ⟨entry,hmem,rfl⟩ := mem_map.mp hentry
    obtain ⟨inner,hkey,-⟩ := h.isPlaceholder entry hmem
    have hne : entry.1 ≠ [] := hkey ▸ cons_ne_nil _ _
    rw [decode, flatMap_append] at hunits
    obtain ⟨hfront,hback⟩ := Unicode.cut_plain (h.low entry hmem) hne hunits
    exact hfront.append (Unicode.append ⟨entry.2,rfl⟩ (ih [] hback))
  · intro p s out _ ih units hunits
    rw [← append_assoc]
    refine ih (units ++ p.units) ?_
    rwa [append_assoc]

/-! ## Templates -/

/-- What a placeholder looks like, for an evaluation. -/
def isTellable (key : List Char) : Bool :=
  key == '{' :: key.tail.dropLast ++ ['}'] && key.tail.dropLast.all isInner &&
    key.all (fun c => c != '"' && c != '\\' && decide (c.toNat < 0xD800)) &&
    key.tail.head?.all fun c => !isWs c && c != '"' && c != '}'

theorem isTellable_iff : isTellable key = true ↔
    (key = '{' :: key.tail.dropLast ++ ['}'] ∧ ∀ c ∈ key.tail.dropLast, isInner c = true) ∧
      (∀ c ∈ key, c ≠ '"' ∧ c ≠ '\\' ∧ c.toNat < 0xD800) ∧
      ∀ c ∈ key.tail.head?, ¬ (isWs c ∨ c = '"' ∨ c = '}') := by
  simp [isTellable, and_assoc, all_eq_true, Option.all_eq_true]

theorem tellable_placeholders : placeholders.all (fun key => isTellable key.toList) = true := by
  decide

theorem isTellable_assign (value : String → String) :
    ∀ entry ∈ assign value, isTellable entry.1 = true := by
  intro entry hentry
  obtain ⟨key,hkey,rfl⟩ := mem_map.mp hentry
  exact all_eq_true.mp tellable_placeholders key hkey

theorem tellable_assign (value : String → String) : Tellable (assign value) where
  isPlaceholder entry hentry := by
    obtain ⟨hparts,hinner⟩ := (isTellable_iff.mp (isTellable_assign value entry hentry)).1
    exact ⟨_,hparts,hinner⟩
  nodup := by
    have hnodup : (placeholders.map String.toList).Nodup := by decide
    rwa [assign, map_map]
  plain entry hentry c hc := by
    have hchars := (isTellable_iff.mp (isTellable_assign value entry hentry)).2.1 c hc
    exact ⟨hchars.1,hchars.2.1⟩
  low entry hentry c hc :=
    ((isTellable_iff.mp (isTellable_assign value entry hentry)).2.1 c hc).2.2
  second entry hentry := (isTellable_iff.mp (isTellable_assign value entry hentry)).2.2

/-- The parameters of `vars` are an assignment. -/
theorem vars_eq_assign (formatBytes : ℤ → String) (timestamp : String) (info : InstanceInfo)
    (event : TaskEvent) (ntfyTopic : String) :
    ∃ value, WebhookTemplates.vars formatBytes timestamp info event ntfyTopic = assign value := by
  refine ⟨fun key => match key with
    | "{event}" => event.kind.wire
    | "{event.title}" => title event.kind
    | "{event.summary}" => eventSummary formatBytes event
    | "{timestamp}" => timestamp
    | "{instance.app}" => info.app
    | "{instance.version}" => info.version
    | "{instance.host}" => info.host
    | "{queue.id}" => event.queueId
    | "{queue.name}" => event.queueName
    | "{ntfy.topic}" => ntfyTopic
    | "{task.id}" => (event.task.getD WebhookTask.default).id
    | "{task.fileName}" => (event.task.getD WebhookTask.default).fileName
    | "{task.url}" => (event.task.getD WebhookTask.default).url
    | "{task.saveDir}" => (event.task.getD WebhookTask.default).saveDir
    | "{task.totalBytes}" => toString (event.task.getD WebhookTask.default).totalBytes
    | "{task.totalBytesHuman}" => formatBytes (event.task.getD WebhookTask.default).totalBytes
    | "{task.status}" => toString (event.task.getD WebhookTask.default).status
    | _ => (event.task.getD WebhookTask.default).errorMessage,rfl⟩

/-- What a template is rendered to: its parts are copied or filled, and if it is a text of JSON
then so is the result, with the same structure and the values in its strings. -/
structure Renders (value : String → String) (template text : List Char) : Prop where
  reading : ∃ parts, parts.flatMap Part.source = template ∧
    parts.flatMap (Part.written fun c => [c]) = text ∧ IsReading (table (assign value)) parts
  json : ∀ v, ElementText v template → ∃ v', ElementText v' text ∧
    v'.map decode = v.map (substituted (assign value)) ∧
    (v.All (fun s => Unicode (decode s)) → v'.All fun s => Unicode (decode s))

theorem render_template_renders (value : String → String) (template : List Char) :
    ∃ text, renderTemplate template (assign value) = some text ∧ Renders value template text := by
  have h := tellable_assign value
  refine ⟨_,h.renderTemplate_eq template,exists_reading h.unambiguous template,fun v hv => ?_⟩
  obtain ⟨text,htext,hrewrites⟩ := hv.rewrite h.rewrites
  have heq : rendered (assign value) template = text := by
    have hall := hrewrites []
    have hnil : rendered (assign value) [] = [] := substitute_nil
    rwa [append_nil, hnil, append_nil] at hall
  refine ⟨v.map (rewritten (assign value)),heq ▸ htext,?_,fun hall => ?_⟩
  · rw [Json.map_map]
    exact congrArg (v.map ·) (funext (decode_rewritten _))
  · refine hall.map fun s hs => ?_
    rw [decode_rewritten]
    exact h.unicode_substituted hs

/-- The values in a decoded string, however its placeholders are written. -/
def substitutedUnits (value : String → String) (units : List ℕ) : List ℕ :=
  substitute (placeholders.map fun key =>
    (key.toList.flatMap utf16, (value key).toList.flatMap utf16)) (fun u => [u]) units

/-- A placeholder whose brace is written as an escape sequence. -/
def escapedEvent : List Piece :=
  .hex '0' '0' '7' 'b' :: ("event".toList ++ ['}']).map Piece.plain

theorem substitutedUnits_escapedEvent :
    substitutedUnits (fun _ => "") (decode escapedEvent) = [] := by
  have hunambiguous : Unambiguous (placeholders.map fun key =>
      (key.toList.flatMap utf16, "".toList.flatMap utf16)) :=
    ⟨by decide,by decide⟩
  have hmem : ("{event}".toList.flatMap utf16, []) ∈ placeholders.map fun key =>
      (key.toList.flatMap utf16, "".toList.flatMap utf16) := by
    decide
  have hkey : decode escapedEvent = "{event}".toList.flatMap utf16 ++ [] := by decide
  rw [substitutedUnits, hkey, substitute_key hunambiguous hmem, substitute_nil]
  rfl

theorem escaped_placeholder_kept : ¬ ∀ (value : String → String) (template : List Char),
    ∃ text, renderTemplate template (assign value) = some text ∧
      ∀ v, ElementText v template → ∃ v', ElementText v' text ∧
        v'.map decode = v.map fun s => substitutedUnits value (decode s) := by
  intro h
  obtain ⟨text,htext,hjson⟩ := h (fun _ => "") (quoted escapedEvent)
  -- the template has no brace, so it is returned as it is
  obtain rfl : quoted escapedEvent = text := by
    have hcopied : rendered (assign fun _ => "") (quoted escapedEvent ++ []) =
        quoted escapedEvent ++ rendered (assign fun _ => "") [] :=
      (tellable_assign _).rendered_append (by decide)
    have hnil : rendered (assign fun _ => "") [] = [] := substitute_nil
    rw [(tellable_assign _).renderTemplate_eq] at htext
    rw [hnil, append_nil] at hcopied
    exact hcopied.symm.trans (Option.some.inj htext)
  have hvalid : ∀ p ∈ escapedEvent, p.Valid := by
    simp [escapedEvent, Piece.Valid, isHexDigit]
  have hsource : ElementText (.string escapedEvent) (quoted escapedEvent) := by
    have hmk : ElementText (.string escapedEvent) ([] ++ quoted escapedEvent ++ []) :=
      .mk (by simp) (.string hvalid) (by simp)
    rwa [append_nil] at hmk
  obtain ⟨v',hv',hmap⟩ := hjson _ hsource
  rw [Json.map, substitutedUnits_escapedEvent] at hmap
  -- a text of the empty string has its quotes side by side
  obtain ⟨ws,literal,ws',htext,hws,hliteral,-⟩ := hv'.exists_ws
  obtain ⟨s,rfl,hs⟩ := hliteral.exists_string hmap
  obtain rfl := eq_nil_of_decode hs
  cases ws with
  | nil => exact absurd (cons.inj (cons.inj htext).2).1 (by decide)
  | cons c ws =>
    obtain ⟨rfl,-⟩ := cons.inj htext
    exact absurd (hws _ mem_cons_self) (by decide)

end RinaDown.TemplateRendering
