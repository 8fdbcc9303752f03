import RinaDown.AsciiCase
import RinaDown.PluginInstall

/-!
# Settings of plugins

A plugin has the settings under the prefix of its identity, and the key of its registration in
development. The end of an installation enables a new plugin, and deletes the settings of one that
does not pass the validation; with them go the registrations of all plugins whose identity begins
with its own. Any operation of the database may fail.
-/

namespace RinaDown.PluginInstall
open KeyedTable List Bool
open PluginManifest (identityChar_plain identity_parts isIdentityChar isValidIdentity)

def settingsOf (identity : String) : String := "plugin." ++ identity ++ "."

def devKey (identity : String) : String := "plugin.dev." ++ identity

/-- The settings of a plugin and its registration in development. -/
def OwnKey (identity key : String) : Prop :=
  (settingsOf identity).toList <+: key.toList ∨ key = devKey identity

abbrev Config := Table String String

/-- Which operations succeed, and whether `LIKE` ignores the case of letters, as SQLite does. -/
structure Database where
  ignoresCase : Bool
  reads : String → Bool
  lists : String → Bool
  sets : String → Bool
  deletesListed : String → Bool
  deletes : String → Bool

def folded (key : String) : List Char := key.toList.map Char.toLower

namespace Database

variable (db : Database) (c : Config) (identity : String)

/-- The key is listed for a prefix. -/
def listed (beginning key : String) : Bool :=
  if db.ignoresCase then (folded beginning).isPrefixOf (folded key)
  else beginning.toList.isPrefixOf key.toList

def getConfig (key : String) : Option String := if db.reads key then c.lookup key else none

def setConfig (key value : String) : Config := if db.sets key then insert key value c else c

/-- Every key that is listed for a prefix, and the prefix itself, are deleted. -/
def deletePrefix (beginning : String) : Config :=
  let rest :=
    if db.lists beginning then
      retain (fun key => !(db.listed beginning key && db.deletesListed key)) c
    else c
  if db.deletes beginning then remove beginning rest else rest

def purge : Config :=
  db.deletePrefix (db.deletePrefix c (settingsOf identity)) (devKey identity)

def writeEnabled : Config :=
  db.setConfig (db.setConfig c (settingsOf identity ++ "enabled") "true")
    (settingsOf identity ++ "disabled_reason") "None"

/-- A plugin that was disabled by hand stays so. -/
def finishInstall (valid : Bool) : Config :=
  if valid then
    if db.getConfig c (settingsOf identity ++ "enabled") = none ∨
        db.getConfig c (settingsOf identity ++ "disabled_reason") = some "CircuitBreaker" then
      db.writeEnabled c identity
    else c
  else db.purge c identity

end Database

/-! ## Keys of other plugins -/

variable {identity other key beginning : String}

theorem toLower_identityChar {c : Char} (h : isIdentityChar c = true) : c.toLower = c := by
  rw [← Char.toNat_inj, AsciiCase.toNat_toLower]
  refine if_neg fun hupper => ?_
  delta isIdentityChar Char.isLower Char.isDigit at h
  simp only [or_eq_true, and_eq_true, decide_eq_true_eq, ge_iff_le, UInt32.le_iff_toNat_le] at h
  rcases h with ((hlower | hdigit) | rfl) | rfl
  · have hge : 97 ≤ c.toNat := hlower.1
    omega
  · have hle : c.toNat ≤ 57 := hdigit.2
    omega
  · exact absurd hupper (by decide)
  · exact absurd hupper (by decide)

theorem identity_chars (h : isValidIdentity identity = true) :
    folded identity = identity.toList ∧ '.' ∉ identity.toList ∧ '@' ∈ identity.toList := by
  obtain ⟨author,name,hparts,-,hauthor,hname⟩ := identity_parts h
  have hchar : ∀ c ∈ identity.toList, c = '@' ∨ isIdentityChar c = true := by
    intro c hc
    rw [hparts, mem_append, mem_cons] at hc
    exact hc.elim (fun hc => .inr (hauthor c hc)) (.imp_right (hname c))
  refine ⟨?_,fun hdot => ?_,hparts ▸ mem_append_right _ mem_cons_self⟩
  · refine (map_congr_left fun c hc => ?_).trans (map_id _)
    rcases hchar c hc with rfl | hplain
    · rfl
    · exact toLower_identityChar hplain
  · rcases hchar _ hdot with hat | hplain
    · exact absurd hat (by decide)
    · exact (identityChar_plain hplain).2.2.2 rfl

/-- A text ends at its first dot. -/
theorem eq_of_dot {x y l : List Char} (hx : '.' ∉ x) (hy : '.' ∉ y) (h : x ++ ['.'] <+: l)
    (h' : y ++ ['.'] <+: l) : x = y := by
  have hend : ∀ z, '.' ∉ z → z ++ ['.'] <+: l → l.takeWhile (· ≠ '.') = z := by
    rintro z hz ⟨rest,rfl⟩
    rw [append_assoc, takeWhile_append_of_pos]
    · simp
    · intro c hc
      exact decide_eq_true fun hdot => hz (hdot ▸ hc)
  exact (hend x hx h).symm.trans (hend y hy h')

def dev : List Char := "dev".toList

theorem folded_settingsOf (h : isValidIdentity identity = true) :
    folded (settingsOf identity) = "plugin.".toList ++ (identity.toList ++ ['.']) := by
  rw [← (identity_chars h).1]
  simp [folded, settingsOf]

theorem folded_devKey (h : isValidIdentity identity = true) :
    folded (devKey identity) = "plugin.".toList ++ (dev ++ ['.'] ++ identity.toList) := by
  rw [← (identity_chars h).1]
  simp [folded, devKey, dev]

theorem ne_dev (h : isValidIdentity identity = true) : identity.toList ≠ dev := by
  intro heq
  have hat := (identity_chars h).2.2
  rw [heq] at hat
  exact absurd hat (by decide)

theorem OwnKey.folded (h : OwnKey identity key) (hvalid : isValidIdentity identity = true) :
    "plugin.".toList ++ (identity.toList ++ ['.']) <+: folded key ∨
      key = devKey identity ∧
        folded key = "plugin.".toList ++ (dev ++ ['.'] ++ identity.toList) := by
  rcases h with hsettings | rfl
  · exact .inl (folded_settingsOf hvalid ▸ hsettings.map Char.toLower)
  · exact .inr ⟨rfl,folded_devKey hvalid⟩

namespace Database

variable {db : Database} {c : Config}

theorem folded_of_listed (h : db.listed beginning key = true) : folded beginning <+: folded key := by
  rw [listed] at h
  split_ifs at h
  · exact isPrefixOf_iff_prefix.mp h
  · exact (List.isPrefixOf_iff_prefix.mp h).map Char.toLower

/-- What follows `plugin.` in two prefixes of one key. -/
theorem both_prefixes {x y l : List Char} (h : "plugin.".toList ++ x <+: l)
    (h' : "plugin.".toList ++ y <+: l) : ∃ rest, x <+: rest ∧ y <+: rest := by
  obtain ⟨z,rfl⟩ := h
  rw [append_assoc, prefix_append_right_inj] at h'
  exact ⟨x ++ z,prefix_append x z,h'⟩

variable (hidentity : isValidIdentity identity = true) (hother : isValidIdentity other = true)
  (hne : other ≠ identity) (hkey : OwnKey other key)
include hidentity hother hne hkey

/-- The keys of another plugin are not under the prefix of this one. -/
theorem not_begins_settingsOf : ¬ folded (settingsOf identity) <+: folded key := by
  intro hbegins
  rw [folded_settingsOf hidentity] at hbegins
  have hdot := (identity_chars hidentity).2.1
  rcases hkey.folded hother with hsettings | ⟨-,hdev⟩
  · obtain ⟨rest,hx,hy⟩ := both_prefixes hbegins hsettings
    have heq := eq_of_dot (identity_chars hother).2.1 hdot hy hx
    exact hne (String.toList_injective heq)
  · rw [hdev, prefix_append_right_inj] at hbegins
    exact ne_dev hidentity (eq_of_dot hdot (by decide) hbegins (prefix_append _ _))

omit hne in
/-- Of another plugin only a registration is listed with that of this one, and then the identity
of this one begins its own. -/
theorem begins_devKey (hbegins : folded (devKey identity) <+: folded key) :
    key = devKey other ∧ identity.toList <+: other.toList := by
  rw [folded_devKey hidentity] at hbegins
  rcases hkey.folded hother with hsettings | ⟨hkey',hdev⟩
  · obtain ⟨rest,hx,hy⟩ := both_prefixes hbegins hsettings
    have heq := eq_of_dot (identity_chars hother).2.1 (by decide) hy
      ((prefix_append (dev ++ ['.']) _).trans hx)
    exact absurd heq (ne_dev hother)
  · rw [hdev, prefix_append_right_inj, prefix_append_right_inj] at hbegins
    exact ⟨hkey',hbegins⟩

omit hidentity hother hne hkey

theorem lookup_deletePrefix (h : ¬ folded beginning <+: folded key) :
    (db.deletePrefix c beginning).lookup key = c.lookup key := by
  have hlisted : db.listed beginning key = false :=
    eq_false_iff.mpr fun hlisted => h (folded_of_listed hlisted)
  have hself : key ≠ beginning := by
    rintro rfl
    exact h (prefix_refl _)
  rw [deletePrefix]
  split_ifs <;> simp [lookup_remove, lookup_retain, hlisted, hself]

theorem lookup_deletePrefix_none (h : c.lookup key = none) :
    (db.deletePrefix c beginning).lookup key = none := by
  rw [deletePrefix]
  split_ifs <;> simp [lookup_remove, lookup_retain, h]

theorem lookup_setConfig {k value : String} (h : key ≠ k) :
    (db.setConfig c k value).lookup key = c.lookup key := by
  rw [setConfig]
  split_ifs
  · rw [lookup_insert, if_neg h]
  · rfl

include hidentity hother hne hkey

/-- The end of an installation keeps the keys of the other plugins, unless it purges a plugin whose
identity begins that of one that is registered. -/
theorem lookup_finishInstall {valid : Bool} (hdev : valid = true ∨
    (identity.toList <+: other.toList → c.lookup (devKey other) = none)) :
    (db.finishInstall c identity valid).lookup key = c.lookup key := by
  have hsettings := not_begins_settingsOf hidentity hother hne hkey
  have hset : ∀ name, key ≠ settingsOf identity ++ name := by
    rintro name rfl
    refine hsettings (IsPrefix.map Char.toLower ?_)
    rw [String.toList_append]
    exact prefix_append _ _
  rw [finishInstall]
  cases valid with
  | true =>
      simp only [if_true]
      split_ifs
      · rw [writeEnabled, lookup_setConfig (hset _), lookup_setConfig (hset _)]
      · rfl
  | false =>
      rw [if_neg Bool.false_ne_true, purge]
      by_cases hbegins : folded (devKey identity) <+: folded key
      · obtain ⟨rfl,hbegin⟩ := begins_devKey hidentity hother hkey hbegins
        have hnone := hdev.resolve_left false_ne_true hbegin
        rw [lookup_deletePrefix_none (lookup_deletePrefix_none hnone), hnone]
      · rw [lookup_deletePrefix hbegins, lookup_deletePrefix hsettings]

end Database

end RinaDown.PluginInstall
