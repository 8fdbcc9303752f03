import RinaDown.PluginCopy

/-!
# What an installation changes

An installation changes the temporary directory and the directory of the plugin that the manifest
of the package names, which is touched only when the package has been unpacked and its manifest
has passed every check.
-/

namespace RinaDown.PluginInstall

open FailingPrograms FileSystem Programs List
open MarketSources (MarketEntry MarketError PluginError Reply)
open PluginManifest (Manifest isIdentityChar isValidIdentity require validate)

/-! ## Paths -/

theorem names_absolute (p : Path) : names (absolute p) = p := by
  rw [absolute, names, filterMap_cons_none rfl, filterMap_map]
  exact filterMap_some

theorem prefix_names {dest : Path} {child : List Component}
    (h : isWithin (absolute dest) child = true) : dest <+: names child := by
  rw [isWithin, stripPrefix] at h
  split_ifs at h with hbegins
  · obtain ⟨rel,rfl⟩ := isPrefixOf_iff_prefix.mp hbegins
    rw [names, filterMap_append]
    change dest <+: names (absolute dest) ++ names rel
    rw [names_absolute]
    exact prefix_append dest (names rel)

theorem head?_ne_dot {identity : String} (h : isValidIdentity identity = true) :
    identity.toList.head? ≠ some '.' := by
  intro hhead
  obtain ⟨rest,hrest⟩ := head?_eq_some_iff.mp hhead
  rw [isValidIdentity, hrest] at h
  split at h
  · cases h
  · rw [takeWhile_cons_of_pos (by decide)] at h
    simp [show isIdentityChar '.' = false by decide] at h

theorem identity_ne_tmp {identity : String} (h : isValidIdentity identity = true)
    (uuid : String) : identity ≠ ".tmp_install_" ++ uuid := by
  rintro rfl
  apply head?_ne_dot h
  rw [String.toList_append]
  rfl

/-! ## The stages -/

section
variable {tmp : Path}

theorem calls_extractMember {out : Path} (h : tmp <+: out) (total : ℕ) (file : ZipFile) :
    Calls (FsOp.Below tmp) (extractMember out total file).run := by
  have hdirs : ∀ p : Path, p <+: out →
      FsOp.Below tmp (.createDirAll p) :=
    fun p hp q hq => prefix_or_prefix_of_prefix h (hq.trans hp)
  rw [extractMember]
  split_ifs with hdir
  · refine Calls.bindFailing (calls_orInvalid (Calls.perform (hdirs out (prefix_refl _)))) ?_
    exact fun _ => trivial
  · refine Calls.bindFailing
      (calls_orInvalid (Calls.perform (hdirs _ (List.dropLast_prefix out)))) ?_
    intro _
    refine Calls.bindFailing (calls_orInvalid trivial) ?_
    intro buf
    split_ifs with hlimit
    · exact calls_invalid
    · refine Calls.bindFailing (calls_orInvalid (Calls.perform h)) ?_
      exact fun _ => trivial

theorem calls_extractEntry (total : ℕ) (entry : Except String ZipFile) :
    Calls (FsOp.Below tmp) (extractEntry tmp total entry).run := by
  cases entry with
  | error e => exact calls_invalid
  | ok file =>
      rw [extractEntry]
      cases file.enclosedName with
      | none => exact calls_invalid
      | some enclosed =>
          dsimp only
          split_ifs with hwithin
          · exact calls_extractMember (prefix_names hwithin) total file
          · exact calls_invalid

theorem calls_extractEntries (total : ℕ) (zip : Archive) :
    Calls (FsOp.Below tmp) (extractEntries tmp total zip).run := by
  induction zip generalizing total with
  | nil => exact trivial
  | cons entry zip ih =>
      refine Calls.bindFailing (calls_extractEntry total entry) ?_
      intro total
      exact ih total

theorem calls_extractZip (openZip : Bytes → Except String Archive) (bytes : Bytes) :
    Calls (FsOp.Below tmp) (extractZip openZip bytes tmp).run := by
  refine Calls.bindFailing (calls_orInvalid trivial) ?_
  intro zip
  split_ifs with hlength
  · exact calls_invalid
  · exact calls_extractEntries 0 zip

end

theorem queries_subdirsOf (dir : Path) (entries : List String) :
    Queries (subdirsOf dir entries) := by
  induction entries with
  | nil => exact trivial
  | cons name entries ih =>
      refine Calls.bind (queries_isDir _) ?_
      intro directory
      exact ih.bind fun _ => trivial

theorem queries_resolvePkgRoot (tmp : Path) :
    Queries (resolvePkgRoot tmp).run := by
  refine Calls.bindFailing (Calls.lift (queries_isFile _)) ?_
  intro here
  cases here with
  | true => exact trivial
  | false =>
      refine Calls.bindFailing (Calls.lift ((queries_readDir _).bind fun _ => trivial)) ?_
      intro entries
      refine Calls.bindFailing (Calls.lift (queries_subdirsOf tmp entries)) ?_
      intro found
      split
      · refine Calls.bindFailing (Calls.lift (queries_isFile _)) ?_
        intro inside
        cases inside with
        | true => exact trivial
        | false => exact trivial
      · exact trivial

namespace PluginManager

variable {F64 : Type} (m : PluginManager F64)

theorem queries_readManifest (dir : Path) :
    Queries (m.readManifest dir).run := by
  refine Calls.bindFailing (calls_orInvalid (queries_read _)) ?_
  exact fun _ => trivial

theorem calls_unpackPackage (uuid : String) (bytes : Bytes) :
    Calls (FsOp.Below (m.tmp uuid)) (m.unpackPackage uuid bytes).run := by
  refine Calls.bindFailing (calls_orInvalid (Calls.perform fun q hq => .inr hq)) ?_
  intro _
  refine Calls.bindFailing (calls_extractZip m.openZip bytes) ?_
  intro _
  refine Calls.bindFailing ((queries_resolvePkgRoot _).within) ?_
  intro srcRoot
  refine Calls.bindFailing ((m.queries_readManifest srcRoot).within) ?_
  exact fun _ => trivial

theorem calls_placePlugin (src : Path) (identity : String) :
    Calls (FsOp.Below (m.pluginDir identity)) (m.placePlugin src identity).run := by
  refine Calls.bindFailing (Calls.lift (Calls.perform trivial)) ?_
  intro installed
  have hcopy := Calls.bindFailing (calls_copyDir m.maxDepth src (m.pluginDir identity))
    (f := fun _ => pure identity) fun _ => trivial
  cases installed with
  | true => exact (calls_orInvalid (Calls.perform fun q hq => hq)).bindFailing fun _ => hcopy
  | false => exact hcopy

theorem queries_readCache (entry : Option Path) :
    Queries (readCache entry) := by
  cases entry with
  | none => exact trivial
  | some p =>
      have hread : Queries (readToString p) := (queries_read p).bind fun _ => trivial
      exact hread.bind fun _ => trivial

theorem queries_loadOne (dir : Path) (dev : Bool) :
    Queries (m.loadOne dir dev) := by
  refine (queries_read _).bind fun bytes => ?_
  split
  · exact trivial
  · split_ifs with hversion
    · rw [loadCaches]
      split_ifs with hdev
      · exact trivial
      · refine (queries_readCache _).bind fun resolverCache => ?_
        cases resolverCache with
        | none => exact trivial
        | some resolverCache => exact (queries_readCache _).bind fun _ => trivial
    · exact trivial

theorem queries_loadDirs (dev : Bool) (dirs : List Path) :
    Queries (m.loadDirs dev dirs) := by
  induction dirs with
  | nil => exact trivial
  | cons dir dirs ih =>
      refine (queries_isDir _).bind fun directory => ?_
      cases directory with
      | true => exact (m.queries_loadOne dir dev).bind fun _ => ih.bind fun _ => trivial
      | false => exact ih.bind fun _ => trivial

theorem queries_sourceOf (entry : Option Path) (dev : Bool) (cache : Option String) :
    Queries (sourceOf entry dev cache) := by
  cases entry with
  | none => exact trivial
  | some p =>
      cases dev with
      | true => exact (queries_read _).bind fun _ => trivial
      | false => exact trivial

theorem queries_checkPlugin (p : LoadedPlugin F64) :
    Queries (m.checkPlugin p) := by
  refine (queries_sourceOf _ _ _).bind fun resolver => ?_
  split
  · exact trivial
  · refine (queries_sourceOf _ _ _).bind fun hooks => ?_
    split <;> exact trivial

theorem queries_validation (identity : String) :
    Queries (m.validation identity) := by
  refine Calls.bind ?_ fun plugins => ?_
  · refine (queries_readDir _).bind fun entries => ?_
    exact (m.queries_loadDirs false _).bind fun _ => (m.queries_loadDirs true _).bind fun _ => trivial
  · split
    · exact m.queries_checkPlugin _
    · exact trivial

theorem calls_finishInstall (identity : String) :
    Calls (FsOp.Below (m.pluginDir identity)) (m.finishInstall identity).run := by
  refine Calls.bindFailing (Calls.lift ((m.queries_validation identity).within)) fun result => ?_
  cases result with
  | ok _ => exact trivial
  | error e =>
      refine Calls.bindFailing (Calls.lift ?_) fun _ => trivial
      refine (Calls.perform trivial).bind fun installed => ?_
      cases installed with
      | true => exact (Calls.perform fun q hq => hq).bind fun _ => trivial
      | false => exact trivial

end PluginManager

/-! ## Runs -/

/-- Outside the root, directories are created above it; in it, no plugin changes but those that
are named. -/
structure Confined (root : Path) (named : String → Prop) (t t' : Tree) : Prop where
  outside : ∀ q, ¬ root <+: q → t' q = t q ∨ q <+: root ∧ t q = none ∧ t' q = some .directory
  others : ∀ identity, isValidIdentity identity = true → ¬ named identity →
    ∀ q, root ++ [identity] <+: q → t' q = t q

theorem concat_prefix_inj {root q : Path} {a b : String} (ha : root ++ [a] <+: q)
    (hb : root ++ [b] <+: q) : a = b := by
  have hbegins : root ++ [a] <+: root ++ [b] := by
    apply prefix_of_prefix_length_le ha hb
    rw [length_append, length_append]
    exact Nat.le_refl _
  rw [prefix_append_right_inj, cons_prefix_cons] at hbegins
  exact hbegins.1

namespace PluginManager

variable {F64 : Type} (m : PluginManager F64)

def Touched (uuid : String) (named : String → Prop) (q : Path) : Prop :=
  m.tmp uuid <+: q ∨ ∃ identity, named identity ∧ m.pluginDir identity <+: q

/-- Nothing but that changes, and directories above the plugins may be created. -/
abbrev KeepsOthers (uuid : String) (named : String → Prop) (t t' : Tree) : Prop :=
  Keeps (m.Touched uuid named) (fun q => q <+: m.root) t t'

variable {m} {uuid : String} {named : String → Prop}

theorem confined_of_keeps {t t' : Tree} (h : m.KeepsOthers uuid named t t') :
    Confined m.root named t t' where
  outside q hq := by
    rcases h q with heq | (htmp | ⟨identity,-,hdir⟩) | hcreated
    · exact .inl heq
    · exact absurd ((prefix_append m.root _).trans htmp) hq
    · exact absurd ((prefix_append m.root _).trans hdir) hq
    · exact .inr hcreated
  others identity hvalid hnamed q hq := by
    rcases h q with heq | (htmp | ⟨other,hother,hdir⟩) | ⟨hroot,-⟩
    · exact heq
    · exact absurd (concat_prefix_inj hq htmp) (identity_ne_tmp hvalid uuid)
    · rw [concat_prefix_inj hdir hq] at hother
      exact absurd hother hnamed
    · have hlength := (hq.trans hroot).length_le
      rw [length_append] at hlength
      exact absurd hlength (Nat.not_succ_le_self _)

theorem within_child {name : String} {op : FsOp}
    (h : op.Below (m.root ++ [name]))
    (hname : ∀ q, m.root ++ [name] <+: q → m.Touched uuid named q) :
    op.Within (m.Touched uuid named) (fun q => q <+: m.root) := by
  refine h.mono hname fun q hq => ?_
  rcases prefix_concat_iff.mp hq with rfl | hq
  · exact .inl (hname _ (prefix_refl _))
  · exact .inr hq

section
variable {σ : Type*} {host : Host FsOp FsOp.Reply σ} {view : σ → Tree} {s : σ} {bytes : Bytes}

theorem keeps_named (h : Lawful host view) {α : Type} {p : Disk α} {identity : String}
    (hp : Calls (FsOp.Below (m.pluginDir identity)) p)
    (hnamed : named identity) (s : σ) :
    m.KeepsOthers uuid named (view s) (view (run host p s).state) :=
  h.run_keeps (hp.mono fun _ hop => within_child hop fun _ hq => .inr ⟨identity,hnamed,hq⟩) s

variable (host s) in
/-- The manifest of a package, if it can be read, has this identity. -/
def Names (package : Install (Path × Manifest F64)) (identity : String) : Prop :=
  ∃ p, (run host package.run s).value = some (.ok p) ∧ p.2.identity = identity

theorem placePlugin_value {src : Path} {identity a : String} {s : σ}
    (h : (run host (m.placePlugin src identity).run s).value = some (.ok a)) : a = identity := by
  have hend : Yields (fun a => a = identity) (copyDir m.maxDepth src (m.pluginDir identity) >>=
      fun _ => (pure identity : Install String)) :=
    (yields_true _).bind fun _ _ => Yields.pure rfl
  have hyields : Yields (fun a => a = identity) (m.placePlugin src identity) := by
    refine (yields_true _).bind fun installed _ => ?_
    cases installed with
    | true => exact (yields_true _).bind fun _ _ => hend
    | false => exact hend
  exact hyields.value h

theorem names_of_placed {package : Install (Path × Manifest F64)} {identity : String}
    (h : (run host (package >>= fun p => m.placePlugin p.1 p.2.identity).run s).value =
      some (.ok identity)) : Names host s package identity := by
  obtain ⟨p,hpackage,hplace,-⟩ := value_bindFailing h
  exact ⟨p,hpackage,(placePlugin_value hplace).symm⟩

theorem run_installZip (uuid : String) (bytes : Bytes) (s : σ) :
    run host (m.installZip uuid bytes).run s =
      (run host (m.unpackZip uuid bytes).run s).andThen fun result s' =>
        ⟨some result,(host (.removeDirAll (m.tmp uuid)) s').2,[.removeDirAll (m.tmp uuid)]⟩ :=
  run_bind host (m.unpackZip uuid bytes).run _ s

theorem keeps_unpackZip (h : Lawful host view) :
    m.KeepsOthers uuid (Names host s (m.unpackPackage uuid bytes)) (view s)
      (view (run host (m.unpackZip uuid bytes).run s).state) := by
  apply Keeps.bindFailing
  · apply h.run_keeps
    exact (m.calls_unpackPackage uuid bytes).mono fun _ hop => within_child hop fun _ => .inl
  · intro package hpackage
    exact keeps_named h (m.calls_placePlugin package.1 package.2.identity)
      ⟨package,hpackage,rfl⟩ _

theorem keeps_installZip (h : Lawful host view) :
    m.KeepsOthers uuid (Names host s (m.unpackPackage uuid bytes)) (view s)
      (view (run host (m.installZip uuid bytes).run s).state) := by
  rw [run_installZip, Outcome.andThen]
  have hunpack : m.KeepsOthers uuid (Names host s (m.unpackPackage uuid bytes)) (view s)
      (view (run host (m.unpackZip uuid bytes).run s).state) := keeps_unpackZip h
  cases hvalue : (run host (m.unpackZip uuid bytes).run s).value with
  | none => exact hunpack
  | some result => exact hunpack.trans (h.keeps (o := .removeDirAll _) (fun _ => .inl) _)

theorem installZip_value {identity : String}
    (h : (run host (m.installZip uuid bytes).run s).value = some (.ok identity)) :
    (run host (m.unpackZip uuid bytes).run s).value = some (.ok identity) ∧
    (run host (m.installZip uuid bytes).run s).state =
      (host (.removeDirAll (m.tmp uuid)) (run host (m.unpackZip uuid bytes).run s).state).2 := by
  rw [run_installZip, Outcome.andThen] at h ⊢
  cases hvalue : (run host (m.unpackZip uuid bytes).run s).value with
  | none =>
      rw [hvalue] at h
      cases h
  | some result =>
      rw [hvalue] at h
      exact ⟨h,rfl⟩

theorem keeps_installFromZip (h : Lawful host view) :
    m.KeepsOthers uuid (Names host s (m.unpackPackage uuid bytes)) (view s)
      (view (run host (m.installFromZip uuid bytes).run s).state) := by
  refine Keeps.bindFailing (keeps_installZip h) fun identity hidentity => ?_
  have hcalls := (m.calls_finishInstall identity).bindFailing
    (f := fun _ => pure identity) fun _ => trivial
  exact keeps_named h hcalls (names_of_placed (installZip_value hidentity).1) _

variable (uuid) in
theorem keeps_installFromDir (h : Lawful host view) {path : Path} :
    m.KeepsOthers uuid (Names host s (m.readPackage path)) (view s)
      (view (run host (m.installFromDir path).run s).state) := by
  have hpackage : Calls (FsOp.Within (m.Touched uuid (Names host s (m.readPackage path)))
      fun q => q <+: m.root) (m.readPackage path).run := by
    refine (m.queries_readManifest path).within.bindFailing fun _ => ?_
    exact (calls_orInvalid (Calls.perform fun q hq => .inr hq)).bindFailing fun _ => trivial
  refine Keeps.bindFailing (Keeps.bindFailing (h.run_keeps hpackage s) fun package hvalue => ?_)
    fun identity hidentity => ?_
  · exact keeps_named h (m.calls_placePlugin package.1 package.2.identity) ⟨package,hvalue,rfl⟩ _
  · have hcalls := (m.calls_finishInstall identity).bindFailing
      (f := fun _ => pure identity) fun _ => trivial
    exact keeps_named h hcalls (names_of_placed hidentity) _

end

end PluginManager

end RinaDown.PluginInstall
