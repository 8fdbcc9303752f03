import RinaDown.FileNames
import RinaDown.MarketSources
import RinaDown.Texts

/-!
# Plugin manifests

What a manifest declares and the checks that it has to pass, in the order in which they are made.
Floating-point numbers, with their texts, are a parameter. What no check reads of a manifest is
left out.
-/

namespace RinaDown.PluginManifest
open List

open CharacterPatterns (Text)
open FileNames (isControl)
open MarketSources (PluginError)
open Texts (parseUnsigned trim)

/-- The type of the numbers, their finite values and order, and how they are read and written. -/
structure Numbers (F64 : Type) where
  isFinite : F64 → Bool
  lt : F64 → F64 → Bool
  parse : String → Option F64
  display : F64 → String

inductive SettingType where
  | string
  | number
  | boolean
deriving DecidableEq

inductive SettingWidget where
  | text
  | password
  | textarea
  | select
  | toggle
  | number
  | folder
deriving DecidableEq

structure SettingField (F64 : Type) where
  key : String
  ty : SettingType
  widget : Option SettingWidget
  options : List String
  default : Option String
  min : Option F64
  max : Option F64
  pattern : Option String
  helperScript : Option String
  helperLabel : Option String

structure MatchDecl where
  urls : List String

structure ResolverDecl where
  matchDecl : MatchDecl
  entry : String
  timeoutMs : Option ℕ

structure HooksDecl where
  entry : String
  events : List String
  matchDecl : Option MatchDecl

structure Manifest (F64 : Type) where
  identity : String
  name : String
  version : String
  icon : String
  minAppVersion : String
  resolvers : List ResolverDecl
  hooks : Option HooksDecl
  settings : List (SettingField F64)
  permissions : List String

def SettingType.asStr : SettingType → String
  | .string => "string"
  | .number => "number"
  | .boolean => "boolean"

def SettingWidget.asStr : SettingWidget → String
  | .text => "text"
  | .password => "password"
  | .textarea => "textarea"
  | .select => "select"
  | .toggle => "toggle"
  | .number => "number"
  | .folder => "folder"

def validEvents : List String := ["onStart", "onError", "onDone", "onMetaProbed"]

def validEventsText : String := "[\"onStart\", \"onError\", \"onDone\", \"onMetaProbed\"]"

def validPermissions : List String := ["ffmpeg", "ytdlp"]

def validPermissionsText : String := "[\"ffmpeg\", \"ytdlp\"]"

/-! ## Texts -/

def isIdentityChar (c : Char) : Bool := c.isLower || c.isDigit || c = '_' || c = '-'

/-- An author and a name of small letters, digits, `_` and `-`, with one `@` between them. -/
def isValidIdentity (s : String) : Bool :=
  match s.toList.dropWhile (· ≠ '@') with
  | [] => false
  | _ :: name =>
      let author := s.toList.takeWhile (· ≠ '@')
      !author.isEmpty && !name.isEmpty && author.all isIdentityChar && name.all isIdentityChar

theorem identity_parts {s : String} (h : isValidIdentity s = true) :
    ∃ author name, s.toList = author ++ '@' :: name ∧ author ≠ [] ∧
      (∀ c ∈ author, isIdentityChar c = true) ∧ ∀ c ∈ name, isIdentityChar c = true := by
  simp only [isValidIdentity] at h
  split at h
  · cases h
  · rename_i at' name hdrop
    simp only [Bool.and_eq_true, Bool.not_eq_true', isEmpty_eq_false_iff, all_eq_true]
      at h
    have hat : at' = '@' := by
      have hhead := head?_dropWhile_not (· ≠ '@') s.toList
      rw [hdrop] at hhead
      simpa using hhead
    subst hat
    refine ⟨s.toList.takeWhile (· ≠ '@'),name,?_,h.1.1.1,h.1.2,h.2⟩
    rw [← hdrop, takeWhile_append_dropWhile]

theorem identityChar_plain {c : Char} (h : isIdentityChar c = true) :
    c ≠ '/' ∧ c ≠ '\\' ∧ c ≠ ':' ∧ c ≠ '.' := by
  refine ⟨?_,?_,?_,?_⟩
  all_goals
    rintro rfl
    exact absurd h (by decide)

def splitSeparators (path : Text) : List Text := path.splitOnP fun c => c = '/' || c = '\\'

def isDriveLetter : Text → Bool
  | c :: ':' :: _ => c.isAlpha
  | _ => false

def isSafeRelativePath (path : String) : Bool :=
  let p := path.toList
  !p.isEmpty && p.head? ≠ some '/' && p.head? ≠ some '\\' && !isDriveLetter p &&
    (splitSeparators p).all (fun seg => seg ≠ ['.', '.'] && !seg.isEmpty && seg ≠ ['.']) &&
    !p.any isControl

/-- The three numbers of a version, without what follows them. -/
def parseSemver (s : String) : Option (ℕ × ℕ × ℕ) :=
  let s := trim s.toList
  let s := if s.head? = some 'v' then s.tail else s
  match (s.takeWhile fun c => c ≠ '-' && c ≠ '+').splitOnP (· == '.') with
  | [major, minor, patch] => do
      let major ← parseUnsigned (2 ^ 64) major
      let minor ← parseUnsigned (2 ^ 64) minor
      let patch ← parseUnsigned (2 ^ 64) patch
      pure (major, minor, patch)
  | _ => none

/-! ## Checks -/

def require (condition : Bool) (message : String) : Except PluginError Unit :=
  if condition then .ok () else .error (.manifestInvalid message)

def isBlank (s : String) : Bool := (trim s.toList).isEmpty

section
variable {F64 : Type} (numbers : Numbers F64)

def SettingField.effectiveWidget (f : SettingField F64) : SettingWidget :=
  f.widget.getD (match f.ty with
    | .string => .text
    | .number => .number
    | .boolean => .toggle)

def matrixOk : SettingWidget → SettingType → Bool
  | .text, .string | .password, .string | .textarea, .string | .folder, .string
  | .select, .string | .toggle, .boolean | .number, .number => true
  | _, _ => false

def validateOptions (f : SettingField F64) : Except PluginError Unit :=
  match f.default with
  | some d => do
      require (!f.options.isEmpty) s!"setting '{f.key}': select 的 options 不可为空"
      require (f.options.contains d) s!"setting '{f.key}': default '{d}' 不在 options 中"
  | none => require (!f.options.isEmpty) s!"setting '{f.key}': select 的 options 不可为空"

def validateFinite (f : SettingField F64) (name : String) (bound : Option F64) :
    Except PluginError Unit :=
  require (bound.all numbers.isFinite) s!"setting '{f.key}': {name} 非有限数"

def validateRange (f : SettingField F64) : Except PluginError Unit :=
  match f.min, f.max with
  | some lo, some hi => require (!numbers.lt hi lo)
      s!"setting '{f.key}': min({numbers.display lo}) > max({numbers.display hi})"
  | _, _ => .ok ()

/-- A default that is a finite number between the bounds. -/
def validateNumberDefault (f : SettingField F64) (d : String) : Except PluginError Unit :=
  match (numbers.parse d).filter numbers.isFinite with
  | none => require false s!"setting '{f.key}': number default '{d}' 非法"
  | some v => do
      require (f.min.all fun lo => !numbers.lt v lo)
        (s!"setting '{f.key}': default {numbers.display v} < min " ++
          (f.min.map numbers.display).getD "")
      require (f.max.all fun hi => !numbers.lt hi v)
        (s!"setting '{f.key}': default {numbers.display v} > max " ++
          (f.max.map numbers.display).getD "")

def validateDefault (f : SettingField F64) : Except PluginError Unit :=
  match f.ty, f.default with
  | .number, some d => validateNumberDefault numbers f d
  | .boolean, some d => require (d = "true" || d = "false")
      s!"setting '{f.key}': boolean default 必须为 'true'/'false'"
  | _, _ => .ok ()

def validateSettingField (f : SettingField F64) : Except PluginError Unit := do
  let w := f.effectiveWidget
  require (matrixOk w f.ty) s!"setting '{f.key}': widget '{w.asStr}' 不允许 type '{f.ty.asStr}'"
  match w with
  | .select => validateOptions f
  | _ => .ok ()
  require (f.ty = .number || (f.min.isNone && f.max.isNone))
    s!"setting '{f.key}': min/max 仅 number 有效"
  validateFinite numbers f "min" f.min
  validateFinite numbers f "max" f.max
  validateRange numbers f
  require (f.pattern.isNone || f.ty = .string) s!"setting '{f.key}': pattern 仅 string 有效"
  require (f.helperScript.isNone || f.ty = .string)
    s!"setting '{f.key}': helperScript 仅 string 有效"
  require (f.helperScript.all fun s => s ≠ "" && s.utf8ByteSize ≤ 4 * 1024)
    s!"setting '{f.key}': helperScript 须非空且 ≤4KB"
  require (f.helperLabel.all fun l => l.length ≤ 60 && f.helperScript.isSome)
    s!"setting '{f.key}': helperLabel 须 ≤60 字符且须与 helperScript 同时出现"
  validateDefault numbers f

/-- The keys are distinct; `seen` has those before. -/
def validateSettings (seen : List String) : List (SettingField F64) → Except PluginError Unit
  | [] => .ok ()
  | f :: fields => do
      require (!isBlank f.key) "setting key 不可为空"
      require (!seen.contains f.key) s!"setting key '{f.key}' 重复"
      validateSettingField numbers f
      validateSettings (f.key :: seen) fields

def validateResolver (r : ResolverDecl) : Except PluginError Unit := do
  require (isSafeRelativePath r.entry) s!"resolver entry 路径 '{r.entry}' 非法"
  require (!r.matchDecl.urls.isEmpty) "resolver match.urls 不可为空"
  require (r.timeoutMs ≠ some 0) "resolver timeoutMs 不可为 0"

def validateHooks (h : HooksDecl) : Except PluginError Unit := do
  require (isSafeRelativePath h.entry) s!"hooks entry 路径 '{h.entry}' 非法"
  require (!h.events.isEmpty) "hooks.events 不可为空"
  h.events.forM fun ev =>
    require (validEvents.contains ev) s!"未知事件 '{ev}'，合法：{validEventsText}"
  require (h.matchDecl.all fun m => !m.urls.isEmpty) "hooks match.urls 不可为空"

def validate (m : Manifest F64) : Except PluginError Unit := do
  require (isValidIdentity m.identity)
    s!"identity '{m.identity}' 非法：须匹配 ^[a-z0-9_-]+@[a-z0-9_-]+$"
  require (!isBlank m.name) "name 不可为空"
  require (parseSemver m.version).isSome s!"version '{m.version}' 非法：须为 MAJOR.MINOR.PATCH"
  require (m.minAppVersion = "" || (parseSemver m.minAppVersion).isSome)
    s!"minAppVersion '{m.minAppVersion}' 非法"
  require (m.icon = "" || isSafeRelativePath m.icon)
    s!"icon 路径 '{m.icon}' 非法（禁 ..、绝对路径、盘符、分隔符开头）"
  require (m.resolvers.length ≤ 1) "v1 每插件至多一个 resolver"
  m.resolvers.forM validateResolver
  m.hooks.elim (.ok ()) validateHooks
  validateSettings numbers [] m.settings
  m.permissions.forM fun perm =>
    require (validPermissions.contains perm) s!"未知权限 '{perm}'，合法：{validPermissionsText}"

end

end RinaDown.PluginManifest
