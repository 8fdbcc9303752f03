import RinaDown.FileNames
import RinaDown.PercentDecoding
import RinaDown.Texts

/-!
# Names in Content-Disposition headers

The value of the header is split at its semicolons. The first part with an extended name that can
be read gives the name, else the first part with a plain one.
-/

namespace RinaDown.ContentDisposition

open FileNames PercentDecoding Texts

variable (gbk : List UInt8 → Option (List Char))

def extendedKey : List Char := "filename*".toList

def plainKey : List Char := "filename".toList

def isQuoteOrBlank (c : Char) : Bool := c == '"' || c == '\'' || c == ' '

def sanitized (name : List Char) : String := sanitizeFilename (String.ofList name)

/-- The parts of a loop up to the first name. The outer option is for a panic. -/
def firstName (f : List Char → Option (Option String)) :
    List (List Char) → Option (Option String)
  | [] => some none
  | part :: parts =>
    (f part).bind fun
      | some name => some (some name)
      | none => firstName f parts

/-- `charset'language'percent-encoded-name` -/
def extendedName (part : List Char) : Option (Option String) :=
  match stripPrefix (extendedKey ++ ['=']) (trim part) with
  | none => some none
  | some name =>
    match ((trim (trimWhere (· == '"') (trim name))).splitOn '\'')[2]? with
    | none => some none
    | some encoded =>
      (urlencodingDecode gbk encoded).map fun
        | none => none
        | some decoded =>
          if trim decoded = [] then none else some (sanitized (trim decoded))

/-- A name with percent signs may be percent-encoded. -/
def plainName (part : List Char) : Option (Option String) :=
  match stripPrefix (plainKey ++ ['=']) (trim part) with
  | none => some none
  | some quoted =>
    let name := trimWhere isQuoteOrBlank quoted
    if name = [] then some none
    else if '%' ∈ name then
      (urlencodingDecode gbk name).map fun
        | none => some (sanitized name)
        | some decoded =>
          if trim decoded ≠ [] ∧ trim decoded ≠ name then some (sanitized (trim decoded))
          else some (sanitized name)
    else some (some (sanitized name))

def extractFromContentDisposition (disposition : Option (List UInt8)) : Option (Option String) :=
  match disposition.bind fromUtf8 with
  | none => some none
  | some value =>
    (firstName (extendedName gbk) (value.splitOn ';')).bind fun
      | some name => some (some name)
      | none => firstName (plainName gbk) (value.splitOn ';')

/-! ## Headers -/

def isTokenChar (c : Char) : Bool := c.isAlphanum || "!#$%&'*+-.^_`|~".toList.contains c

def IsToken (text : List Char) : Prop := text ≠ [] ∧ ∀ c ∈ text, isTokenChar c = true

def IsOws (text : List Char) : Prop := ∀ c ∈ text, c = ' ' ∨ c = '\t'

/-- A character of a quoted string, or one after a backslash. -/
inductive QuotedPiece where
  | text (c : Char)
  | pair (c : Char)
deriving DecidableEq

def isQuotable (c : Char) : Bool := c == '\t' || (0x20 ≤ c.toNat && c.toNat != 0x7F)

def QuotedPiece.Valid : QuotedPiece → Prop
  | .text c => isQuotable c = true ∧ c ≠ '"' ∧ c ≠ '\\'
  | .pair c => isQuotable c = true

def QuotedPiece.written : QuotedPiece → List Char
  | .text c => [c]
  | .pair c => ['\\', c]

def QuotedPiece.char : QuotedPiece → Char
  | .text c => c
  | .pair c => c

inductive Value where
  | token (text : List Char)
  | quoted (pieces : List QuotedPiece)
deriving DecidableEq

def Value.Valid : Value → Prop
  | .token text => IsToken text
  | .quoted pieces => ∀ piece ∈ pieces, piece.Valid

def Value.text : Value → List Char
  | .token text => text
  | .quoted pieces => '"' :: pieces.flatMap QuotedPiece.written ++ ['"']

def Value.content : Value → List Char
  | .token text => text
  | .quoted pieces => pieces.map QuotedPiece.char

/-- A parameter with the whitespace around its name and its value. -/
structure Parameter where
  before : List Char
  name : List Char
  left : List Char
  right : List Char
  value : Value
  after : List Char

def Parameter.key (p : Parameter) : List Char := p.name.map Char.toLower

def Parameter.text (p : Parameter) : List Char :=
  p.before ++ p.name ++ p.left ++ '=' :: p.right ++ (p.value.text ++ p.after)

structure Header where
  dispositionType : List Char
  after : List Char
  parameters : List Parameter

def Header.text (h : Header) : List Char :=
  h.dispositionType ++ h.after ++ h.parameters.flatMap fun p => ';' :: p.text

def isAttrChar (c : Char) : Bool := c.isAlphanum || "!#$&+-.^_`|~".toList.contains c

/-- An extended value in UTF-8 that carries a name. -/
def IsExtended (name text : List Char) : Prop :=
  ∃ charset language encoded, text = charset ++ '\'' :: (language ++ '\'' :: encoded) ∧
    charset.map Char.toLower = "utf-8".toList ∧
    (∀ c ∈ language, (c.isAlphanum || c == '-') = true) ∧
    Escaped (fun c => isAttrChar c = true) encoded (TextSlices.encode name)

def Parameter.Extended (p : Parameter) (name : List Char) : Prop :=
  p.key = extendedKey ∧ ∃ text, p.value = .token text ∧ IsExtended name text

structure Parameter.Valid (p : Parameter) : Prop where
  before : IsOws p.before
  name : IsToken p.name
  left : IsOws p.left
  right : IsOws p.right
  value : p.value.Valid
  after : IsOws p.after
  extended : p.key = extendedKey → ∃ name, p.Extended name

/-- The grammar of the header, with extended names in UTF-8 and no parameter twice. -/
structure Header.Conforming (h : Header) : Prop where
  dispositionType : IsToken h.dispositionType
  after : IsOws h.after
  parameters : ∀ p ∈ h.parameters, p.Valid
  nodup : (h.parameters.map Parameter.key).Nodup

def Header.CarriesExtended (h : Header) (name : List Char) : Prop :=
  ∃ p ∈ h.parameters, p.Extended name

def Header.CarriesPlain (h : Header) (name : List Char) : Prop :=
  ∃ p ∈ h.parameters, p.key = plainKey ∧ p.value.content = name

end RinaDown.ContentDisposition
