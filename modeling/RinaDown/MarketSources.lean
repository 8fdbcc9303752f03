import Mathlib.Algebra.Group.Nat.Defs

/-!
# Sources of the plugin market

An index lists the entries of the market under a sequence number. It is read from a source in
chunks, up to a limit, as is a package from a mirror.
-/

namespace RinaDown.MarketSources

abbrev Bytes := List UInt8

inductive PluginError where
  | manifestInvalid (message : String)
  | runtime (message : String)
deriving DecidableEq

inductive MarketError where
  | network (message : String)
  | indexParse (message : String)
  | sequenceRollback (seen watermark : ℕ)
  | tooLarge
  | indexTooLarge
  | notFound (message : String)
  | yanked (reason : String)
  | allMirrorsFailed
  | plugin (e : PluginError)
deriving DecidableEq

/-- The fields of an entry that an installation reads. -/
structure MarketEntry where
  pluginId : String
  version : String
  sequence : ℕ
  contentHash : String
  mirrors : List String
  yanked : String
deriving DecidableEq

structure MarketIndex where
  indexId : String
  sequence : ℕ
  entries : List MarketEntry
  sequence_lt : sequence < 2 ^ 64

instance : DecidableEq MarketIndex := fun a b =>
  decidable_of_iff (a.indexId = b.indexId ∧ a.sequence = b.sequence ∧ a.entries = b.entries) (by
    cases a
    cases b
    simp)

/-- What a server sends: an error, or chunks of a body, of which one may fail. -/
abbrev Reply := Except String (List (Except String Bytes))

def maxFxplugBytes : ℕ := 10 * 1024 * 1024

def maxIndexBytes : ℕ := 4 * 1024 * 1024

/-- The loop that reads a body after the bytes that have been read. -/
def readBody (limit : ℕ) (overLimit : MarketError) :
    Bytes → List (Except String Bytes) → Except MarketError Bytes
  | buf, [] => .ok buf
  | _, .error e :: _ => .error (.network e)
  | buf, .ok chunk :: chunks =>
      if limit < buf.length + chunk.length then .error overLimit
      else readBody limit overLimit (buf ++ chunk) chunks

def fetch (limit : ℕ) (overLimit : MarketError) : Reply → Except MarketError Bytes
  | .error e => .error (.network e)
  | .ok chunks => readBody limit overLimit [] chunks

/-- The reader of JSON returns the text of its error. -/
def fetchIndexFrom (fromSlice : Bytes → Except String MarketIndex) (reply : Reply) :
    Except MarketError MarketIndex :=
  match fetch maxIndexBytes .indexTooLarge reply with
  | .error e => .error e
  | .ok buf =>
      match fromSlice buf with
      | .error e => .error (.indexParse e)
      | .ok idx => .ok idx

end RinaDown.MarketSources
