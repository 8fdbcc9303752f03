import Mathlib.Data.Char

/-!
# Texts of JSON

The grammar of JSON texts. The characters of a string are written as themselves or as escape
sequences, which stand for UTF-16 code units.
-/

namespace RinaDown.JsonTexts
open List

inductive Json (α : Type) where
  | null
  | bool (b : Bool)
  | number (text : List Char)
  | string (s : α)
  | array (elements : List (Json α))
  | object (members : List (α × Json α))

variable {α β γ : Type}

mutual

/-- The structure stays, and every string and every name is replaced. -/
def Json.map (f : α → β) : Json α → Json β
  | .null => .null
  | .bool b => .bool b
  | .number text => .number text
  | .string s => .string (f s)
  | .array elements => .array (mapElements f elements)
  | .object members => .object (mapMembers f members)

def mapElements (f : α → β) : List (Json α) → List (Json β)
  | [] => []
  | e :: elements => e.map f :: mapElements f elements

def mapMembers (f : α → β) : List (α × Json α) → List (β × Json β)
  | [] => []
  | (name, v) :: members => (f name, v.map f) :: mapMembers f members

end

mutual

def Json.All (P : α → Prop) : Json α → Prop
  | .null => True
  | .bool _ => True
  | .number _ => True
  | .string s => P s
  | .array elements => AllElements P elements
  | .object members => AllMembers P members

def AllElements (P : α → Prop) : List (Json α) → Prop
  | [] => True
  | e :: elements => e.All P ∧ AllElements P elements

def AllMembers (P : α → Prop) : List (α × Json α) → Prop
  | [] => True
  | (name, v) :: members => P name ∧ v.All P ∧ AllMembers P members

end

mutual

theorem Json.map_map (f : α → β) (f' : β → γ) : ∀ v : Json α, (v.map f).map f' = v.map (f' ∘ f)
  | .null => rfl
  | .bool _ => rfl
  | .number _ => rfl
  | .string _ => rfl
  | .array elements => by rw [Json.map, Json.map, mapElements_map, Json.map]
  | .object members => by rw [Json.map, Json.map, mapMembers_map, Json.map]

theorem mapElements_map (f : α → β) (f' : β → γ) :
    ∀ elements, mapElements f' (mapElements f elements) = mapElements (f' ∘ f) elements
  | [] => rfl
  | e :: elements => by
    rw [mapElements, mapElements, Json.map_map, mapElements_map, mapElements]

theorem mapMembers_map (f : α → β) (f' : β → γ) :
    ∀ members, mapMembers f' (mapMembers f members) = mapMembers (f' ∘ f) members
  | [] => rfl
  | (name, v) :: members => by
    rw [mapMembers, mapMembers, Json.map_map, mapMembers_map, mapMembers, Function.comp_apply]

end

mutual

variable {P : α → Prop} {Q : β → Prop}

theorem Json.All.map {f : α → β} (h : ∀ s, P s → Q (f s)) :
    ∀ {v : Json α}, v.All P → (v.map f).All Q
  | .null, _ => trivial
  | .bool _, _ => trivial
  | .number _, _ => trivial
  | .string _, hv => h _ hv
  | .array _, hv => AllElements.map h hv
  | .object _, hv => AllMembers.map h hv

theorem AllElements.map {f : α → β} (h : ∀ s, P s → Q (f s)) :
    ∀ {elements : List (Json α)}, AllElements P elements → AllElements Q (mapElements f elements)
  | [], _ => trivial
  | _ :: _, hv => ⟨hv.1.map h,AllElements.map h hv.2⟩

theorem AllMembers.map {f : α → β} (h : ∀ s, P s → Q (f s)) :
    ∀ {members : List (α × Json α)}, AllMembers P members → AllMembers Q (mapMembers f members)
  | [], _ => trivial
  | _ :: _, hv => ⟨h _ hv.1,hv.2.1.map h,AllMembers.map h hv.2.2⟩

end

/-! ## Strings -/

def utf16 (c : Char) : List ℕ :=
  if c.toNat < 0x10000 then [c.toNat]
  else [0xD800 + (c.toNat - 0x10000) / 0x400, 0xDC00 + (c.toNat - 0x10000) % 0x400]

/-- The code units of a Unicode string. -/
def Unicode (units : List ℕ) : Prop := ∃ text : List Char, units = text.flatMap utf16

theorem Unicode.append {units units' : List ℕ} (h : Unicode units) (h' : Unicode units') :
    Unicode (units ++ units') := by
  obtain ⟨text,rfl⟩ := h
  obtain ⟨text',rfl⟩ := h'
  exact ⟨text ++ text',flatMap_append.symm⟩

theorem utf16_cases (c : Char) : utf16 c = [c.toNat] ∨
    ∃ high low, utf16 c = [high, low] ∧ 0xD800 ≤ high ∧ 0xDC00 ≤ low ∧ low < 0xE000 := by
  rw [utf16]
  split_ifs with hsmall
  · exact .inl rfl
  · exact .inr ⟨_,_,rfl,by omega,by omega,by omega⟩

theorem unicode_utf16 (c : Char) : Unicode (utf16 c) := ⟨[c],(append_nil _).symm⟩

/-- A string can be cut at a code unit below the surrogates. -/
theorem Unicode.cut {units units' : List ℕ} {u : ℕ} (hu : u < 0xD800)
    (h : Unicode (units ++ u :: units')) : Unicode units ∧ Unicode units' := by
  obtain ⟨text,htext⟩ := h
  induction text generalizing units with
  | nil => exact absurd htext (by simp)
  | cons c text ih =>
    have hone := unicode_utf16 c
    rw [flatMap_cons] at htext
    obtain hc | ⟨high,low,hc,hhigh,hlow,-⟩ := utf16_cases c
    · rw [hc] at htext hone
      cases units with
      | nil =>
        obtain ⟨rfl,rfl⟩ := cons.inj htext
        exact ⟨⟨[],rfl⟩,text,rfl⟩
      | cons u' units =>
        obtain ⟨rfl,hrest⟩ := cons.inj htext
        obtain ⟨hfront,hback⟩ := ih hrest
        exact ⟨hone.append hfront,hback⟩
    · rw [hc] at htext hone
      cases units with
      | nil =>
        obtain ⟨rfl,-⟩ := cons.inj htext
        omega
      | cons u' units =>
        obtain ⟨rfl,hrest⟩ := cons.inj htext
        cases units with
        | nil =>
          obtain ⟨rfl,-⟩ := cons.inj hrest
          omega
        | cons u'' units =>
          obtain ⟨rfl,htail⟩ := cons.inj hrest
          obtain ⟨hfront,hback⟩ := ih htail
          exact ⟨hone.append hfront,hback⟩

/-- A character of a string literal, or an escape sequence. -/
inductive Piece where
  | plain (c : Char)
  | short (c : Char)
  | hex (a b c d : Char)
deriving DecidableEq

def isHexDigit (c : Char) : Bool :=
  ('0' ≤ c && c ≤ '9') || ('a' ≤ c && c ≤ 'f') || ('A' ≤ c && c ≤ 'F')

def hexValue (c : Char) : ℕ :=
  if c ≤ '9' then c.toNat - 48 else if 'a' ≤ c then c.toNat - 87 else c.toNat - 55

def Piece.Valid : Piece → Prop
  | .plain c => 0x20 ≤ c.toNat ∧ c ≠ '"' ∧ c ≠ '\\'
  | .short c => c ∈ ['"', '\\', '/', 'b', 'f', 'n', 'r', 't']
  | .hex a b c d => isHexDigit a ∧ isHexDigit b ∧ isHexDigit c ∧ isHexDigit d

def Piece.text : Piece → List Char
  | .plain c => [c]
  | .short c => ['\\', c]
  | .hex a b c d => ['\\', 'u', a, b, c, d]

def Piece.units : Piece → List ℕ
  | .plain c => utf16 c
  | .short 'b' => [8]
  | .short 'f' => [12]
  | .short 'n' => [10]
  | .short 'r' => [13]
  | .short 't' => [9]
  | .short c => [c.toNat]
  | .hex a b c d => [hexValue a * 4096 + hexValue b * 256 + hexValue c * 16 + hexValue d]

def decode (s : List Piece) : List ℕ := s.flatMap Piece.units

theorem units_ne_nil (p : Piece) : p.units ≠ [] := by
  rw [Piece.units.eq_def]
  split
  · next c =>
    obtain hc | ⟨high,low,hc,-⟩ := utf16_cases c <;> rw [hc] <;> exact cons_ne_nil _ _
  all_goals exact cons_ne_nil _ _

theorem eq_nil_of_decode {s : List Piece} (h : decode s = []) : s = [] := by
  cases s with
  | nil => rfl
  | cons p s => exact absurd (append_eq_nil_iff.mp h).1 (units_ne_nil p)

def quoted (s : List Piece) : List Char := '"' :: s.flatMap Piece.text ++ ['"']

/-! ## Values -/

def isWs (c : Char) : Bool := c == ' ' || c == '\t' || c == '\n' || c == '\r'

def IsDigits (text : List Char) : Prop := text ≠ [] ∧ ∀ c ∈ text, c.isDigit

/-- `[ minus ] int [ frac ] [ exp ]` -/
inductive IsNumber : List Char → Prop
  | mk {minus int frac exp : List Char}
      (hminus : minus = [] ∨ minus = ['-'])
      (hint : int = ['0'] ∨ IsDigits int ∧ int.head? ≠ some '0')
      (hfrac : frac = [] ∨ ∃ digits, frac = '.' :: digits ∧ IsDigits digits)
      (hexp : exp = [] ∨ ∃ e sign digits, exp = e :: sign ++ digits ∧ (e = 'e' ∨ e = 'E') ∧
        (sign = [] ∨ sign = ['+'] ∨ sign = ['-']) ∧ IsDigits digits) :
      IsNumber (minus ++ int ++ frac ++ exp)

mutual

inductive ValueText : Json (List Piece) → List Char → Prop
  | null : ValueText .null ['n', 'u', 'l', 'l']
  | true : ValueText (.bool true) ['t', 'r', 'u', 'e']
  | false : ValueText (.bool false) ['f', 'a', 'l', 's', 'e']
  | number {text : List Char} (h : IsNumber text) : ValueText (.number text) text
  | string {s : List Piece} (h : ∀ p ∈ s, p.Valid) : ValueText (.string s) (quoted s)
  | emptyArray {ws : List Char} (h : ∀ c ∈ ws, isWs c) : ValueText (.array []) ('[' :: ws ++ [']'])
  | array {elements : List (Json (List Piece))} {text : List Char}
      (h : ElementsText elements text) : ValueText (.array elements) ('[' :: text ++ [']'])
  | emptyObject {ws : List Char} (h : ∀ c ∈ ws, isWs c) :
      ValueText (.object []) ('{' :: ws ++ ['}'])
  | object {members : List (List Piece × Json (List Piece))} {text : List Char}
      (h : MembersText members text) : ValueText (.object members) ('{' :: text ++ ['}'])

/-- A value between whitespace, which is a JSON text. -/
inductive ElementText : Json (List Piece) → List Char → Prop
  | mk {v : Json (List Piece)} {ws text ws' : List Char} (hws : ∀ c ∈ ws, isWs c)
      (h : ValueText v text) (hws' : ∀ c ∈ ws', isWs c) : ElementText v (ws ++ text ++ ws')

inductive ElementsText : List (Json (List Piece)) → List Char → Prop
  | last {v : Json (List Piece)} {text : List Char} (h : ElementText v text) :
      ElementsText [v] text
  | cons {v : Json (List Piece)} {text rest : List Char}
      {elements : List (Json (List Piece))} (h : ElementText v text)
      (hrest : ElementsText elements rest) :
      ElementsText (v :: elements) (text ++ ',' :: rest)

inductive MemberText : List Piece × Json (List Piece) → List Char → Prop
  | mk {name : List Piece} {v : Json (List Piece)} {ws ws' text : List Char}
      (hws : ∀ c ∈ ws, isWs c) (hname : ∀ p ∈ name, p.Valid) (hws' : ∀ c ∈ ws', isWs c)
      (h : ElementText v text) :
      MemberText (name, v) (ws ++ quoted name ++ ws' ++ ':' :: text)

inductive MembersText : List (List Piece × Json (List Piece)) → List Char → Prop
  | last {member : List Piece × Json (List Piece)} {text : List Char}
      (h : MemberText member text) : MembersText [member] text
  | cons {member : List Piece × Json (List Piece)} {text rest : List Char}
      {members : List (List Piece × Json (List Piece))} (h : MemberText member text)
      (hrest : MembersText members rest) :
      MembersText (member :: members) (text ++ ',' :: rest)

end

theorem ElementText.exists_ws {v : Json (List Piece)} {text : List Char}
    (h : ElementText v text) : ∃ ws text' ws', text = ws ++ text' ++ ws' ∧ (∀ c ∈ ws, isWs c) ∧
      ValueText v text' ∧ ∀ c ∈ ws', isWs c := by
  obtain ⟨hws,h,hws'⟩ := h
  exact ⟨_,_,_,rfl,hws,h,hws'⟩

theorem ValueText.exists_string {v : Json (List Piece)} {text : List Char} {s : β}
    {f : List Piece → β} (h : ValueText v text) (hv : v.map f = .string s) :
    ∃ s', text = quoted s' ∧ f s' = s := by
  cases h with
  | string h => exact ⟨_,rfl,Json.string.inj hv⟩
  | _ => cases hv

/-! ## Rewriting strings -/

/-- A rewriting of texts that rewrites every string literal and nothing else. -/
structure Rewrites (g : List Char → List Char) (f : List Piece → List Piece) : Prop where
  copies : ∀ c rest, c ≠ '{' → g (c :: rest) = c :: g rest
  opens : ∀ c rest, isWs c ∨ c = '"' ∨ c = '}' → g ('{' :: c :: rest) = '{' :: g (c :: rest)
  strings : ∀ s, (∀ p ∈ s, p.Valid) →
    ∀ rest, g (s.flatMap Piece.text ++ '"' :: rest) = (f s).flatMap Piece.text ++ '"' :: g rest
  valid : ∀ s, (∀ p ∈ s, p.Valid) → ∀ p ∈ f s, p.Valid

def RewritesTo (g : List Char → List Char) (text text' : List Char) : Prop :=
  ∀ rest, g (text ++ rest) = text' ++ g rest

variable {g : List Char → List Char} {f : List Piece → List Piece}
  {text text' next next' : List Char}

theorem RewritesTo.append (h : RewritesTo g text text') (h' : RewritesTo g next next') :
    RewritesTo g (text ++ next) (text' ++ next') := by
  intro rest
  rw [append_assoc, h, h', append_assoc]

theorem Rewrites.cons (hg : Rewrites g f) {c : Char} (hc : c ≠ '{')
    (h : RewritesTo g text text') : RewritesTo g (c :: text) (c :: text') := by
  intro rest
  rw [cons_append, hg.copies c _ hc, h, cons_append]

theorem Rewrites.self (hg : Rewrites g f) (h : '{' ∉ text) : RewritesTo g text text := by
  induction text with
  | nil => exact fun _ => rfl
  | cons c text ih =>
    obtain ⟨hc,htext⟩ := not_or.mp (mt mem_cons.mpr h)
    exact hg.cons (Ne.symm hc) (ih htext)

theorem Rewrites.ws (hg : Rewrites g f) (h : ∀ c ∈ text, isWs c) : RewritesTo g text text :=
  hg.self fun hc => absurd (h _ hc) (by decide)

theorem Rewrites.quoted (hg : Rewrites g f) {s : List Piece} (h : ∀ p ∈ s, p.Valid) :
    RewritesTo g (quoted s) (quoted (f s)) := by
  intro rest
  simp only [JsonTexts.quoted, cons_append, append_assoc, nil_append]
  rw [hg.copies _ _ (by decide), hg.strings s h]

theorem IsDigits.no_brace (h : IsDigits text) : '{' ∉ text := fun hc =>
  absurd (h.2 _ hc) (by decide)

theorem IsNumber.no_brace (h : IsNumber text) : '{' ∉ text := by
  obtain ⟨hminus,hint,hfrac,hexp⟩ := h
  intro hc
  obtain hc | hc := mem_append.mp hc
  · obtain hc | hc := mem_append.mp hc
    · obtain hc | hc := mem_append.mp hc
      · obtain rfl | rfl := hminus
        · cases hc
        · exact absurd hc (by decide)
      · obtain rfl | ⟨hdigits,-⟩ := hint
        · exact absurd hc (by decide)
        · exact hdigits.no_brace hc
    · obtain rfl | ⟨digits,rfl,hdigits⟩ := hfrac
      · cases hc
      · exact hdigits.no_brace ((mem_cons.mp hc).resolve_left (by decide))
  · obtain rfl | ⟨e,sign,digits,rfl,he,hsign,hdigits⟩ := hexp
    · cases hc
    · obtain hc | hc := mem_append.mp hc
      · obtain rfl | hc := mem_cons.mp hc
        · exact absurd he (by decide)
        · obtain rfl | rfl | rfl := hsign <;> exact absurd hc (by decide)
      · exact hdigits.no_brace hc

/-- After the brace of an object comes whitespace, a name or the other brace. -/
theorem Rewrites.opened (hg : Rewrites g f)
    (hhead : ∃ c rest, text = c :: rest ∧ (isWs c ∨ c = '"' ∨ c = '}'))
    (h : RewritesTo g text text') : RewritesTo g ('{' :: text) ('{' :: text') := by
  obtain ⟨c,rest,rfl,hc⟩ := hhead
  intro after
  rw [cons_append, cons_append, hg.opens c _ hc, ← cons_append, h, cons_append]

theorem exists_head_of_ws (h : ∀ c ∈ text, isWs c) {c : Char} (hc : isWs c ∨ c = '"' ∨ c = '}')
    (rest : List Char) :
    ∃ c' rest', text ++ c :: rest = c' :: rest' ∧ (isWs c' ∨ c' = '"' ∨ c' = '}') := by
  cases text with
  | nil => exact ⟨c,rest,rfl,hc⟩
  | cons c' text => exact ⟨c',text ++ c :: rest,rfl,.inl (h c' mem_cons_self)⟩

theorem MemberText.exists_head {member : List Piece × Json (List Piece)}
    (h : MemberText member text) (rest : List Char) :
    ∃ c rest', text ++ rest = c :: rest' ∧ (isWs c ∨ c = '"' ∨ c = '}') := by
  obtain ⟨hws,hname,hws',hv⟩ := h
  rw [JsonTexts.quoted]
  simp only [append_assoc, cons_append]
  exact exists_head_of_ws hws (.inr (.inl rfl)) _

theorem MembersText.exists_head {members : List (List Piece × Json (List Piece))}
    (h : MembersText members text) (rest : List Char) :
    ∃ c rest', text ++ rest = c :: rest' ∧ (isWs c ∨ c = '"' ∨ c = '}') := by
  cases h with
  | last h => exact h.exists_head rest
  | cons h hrest =>
    rw [append_assoc]
    exact h.exists_head _

mutual

/-- A text of a value becomes a text of the value whose strings are rewritten. -/
theorem ValueText.rewrite (hg : Rewrites g f) {v : Json (List Piece)} {text : List Char} :
    ValueText v text → ∃ text', ValueText (v.map f) text' ∧ RewritesTo g text text'
  | .null => ⟨_,.null,hg.self (by decide)⟩
  | .true => ⟨_,.true,hg.self (by decide)⟩
  | .false => ⟨_,.false,hg.self (by decide)⟩
  | .number h => ⟨_,.number h,hg.self h.no_brace⟩
  | .string h => ⟨_,.string (hg.valid _ h),hg.quoted h⟩
  | .emptyArray h => ⟨_,.emptyArray h,hg.cons (by decide) ((hg.ws h).append (hg.self (by decide)))⟩
  | .array h => by
    obtain ⟨text',htext,hrewrites⟩ := h.rewrite hg
    exact ⟨_,.array htext,hg.cons (by decide) (hrewrites.append (hg.self (by decide)))⟩
  | .emptyObject h =>
    ⟨_,.emptyObject h,hg.opened (exists_head_of_ws h (.inr (.inr rfl)) [])
      ((hg.ws h).append (hg.self (by decide)))⟩
  | .object h => by
    obtain ⟨text',htext,hrewrites⟩ := h.rewrite hg
    exact ⟨_,.object htext,hg.opened (h.exists_head _) (hrewrites.append (hg.self (by decide)))⟩

theorem ElementText.rewrite (hg : Rewrites g f) {v : Json (List Piece)} {text : List Char} :
    ElementText v text → ∃ text', ElementText (v.map f) text' ∧ RewritesTo g text text'
  | .mk hws h hws' => by
    obtain ⟨text',htext,hrewrites⟩ := h.rewrite hg
    exact ⟨_,.mk hws htext hws',((hg.ws hws).append hrewrites).append (hg.ws hws')⟩

theorem ElementsText.rewrite (hg : Rewrites g f) {elements : List (Json (List Piece))}
    {text : List Char} : ElementsText elements text →
      ∃ text', ElementsText (mapElements f elements) text' ∧ RewritesTo g text text'
  | .last h => by
    obtain ⟨text',htext,hrewrites⟩ := h.rewrite hg
    exact ⟨_,.last htext,hrewrites⟩
  | .cons h hrest => by
    obtain ⟨text',htext,hrewrites⟩ := h.rewrite hg
    obtain ⟨rest',hresttext,hrestrewrites⟩ := hrest.rewrite hg
    exact ⟨_,.cons htext hresttext,hrewrites.append (hg.cons (by decide) hrestrewrites)⟩

theorem MemberText.rewrite (hg : Rewrites g f) {member : List Piece × Json (List Piece)}
    {text : List Char} : MemberText member text →
      ∃ text', MemberText (f member.1, member.2.map f) text' ∧ RewritesTo g text text'
  | .mk hws hname hws' h => by
    obtain ⟨text',htext,hrewrites⟩ := h.rewrite hg
    exact ⟨_,.mk hws (hg.valid _ hname) hws' htext,
      (((hg.ws hws).append (hg.quoted hname)).append (hg.ws hws')).append
        (hg.cons (by decide) hrewrites)⟩

theorem MembersText.rewrite (hg : Rewrites g f)
    {members : List (List Piece × Json (List Piece))} {text : List Char} :
    MembersText members text →
      ∃ text', MembersText (mapMembers f members) text' ∧ RewritesTo g text text'
  | .last h => by
    obtain ⟨text',htext,hrewrites⟩ := h.rewrite hg
    exact ⟨_,.last htext,hrewrites⟩
  | .cons h hrest => by
    obtain ⟨text',htext,hrewrites⟩ := h.rewrite hg
    obtain ⟨rest',hresttext,hrestrewrites⟩ := hrest.rewrite hg
    exact ⟨_,.cons htext hresttext,hrewrites.append (hg.cons (by decide) hrestrewrites)⟩

end

end RinaDown.JsonTexts
