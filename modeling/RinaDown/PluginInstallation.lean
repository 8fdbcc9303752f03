import RinaDown.PluginInstallFrame
import RinaDown.PluginSettings

/-!
# Installations

Whatever fails, an installation changes the files of no plugin but the one that the manifest of the
package names, and these only after the manifest has passed every check. An entry of the market that
is installed leaves the files of the package with its hash. The old version is cleared before the
new one is copied; what fails from there on is not undone, and the settings are purged. Of a plugin
that is new, and whose identity begins that of no registered one, nothing else is lost then.
-/

namespace RinaDown.PluginInstall

open FailingPrograms FileSystem Programs List Option
open MarketSources (MarketEntry MarketError PluginError Reply)
open PluginManifest (Manifest isValidIdentity require validate)

section
variable {σ : Type*} {host : Host FsOp FsOp.Reply σ} {view : σ → Tree} {tmp : Path}

/-! ## The package -/

theorem returns_subdirsOf (entries : List String) :
    Returns (fun found => ∀ p ∈ found.1, tmp <+: p) (subdirsOf tmp entries) := by
  induction entries with
  | nil => exact fun _ hmem => absurd hmem not_mem_nil
  | cons name entries ih =>
      refine (returns_of_forall (fun _ => trivial) (isDir (tmp ++ [name]))).bind
        fun directory _ => ih.bind fun found hfound => ?_
      cases directory with
      | true =>
          intro p hp
          rcases mem_cons.mp hp with rfl | hp
          · exact prefix_append tmp [name]
          · exact hfound p hp
      | false => exact hfound

theorem yields_resolvePkgRoot : Yields (fun src => tmp <+: src) (resolvePkgRoot tmp) := by
  refine (yields_true _).bind fun here _ => ?_
  cases here with
  | true => exact Yields.pure (prefix_refl tmp)
  | false =>
      refine (yields_true _).bind fun entries _ => ?_
      refine Yields.bind (Yields.lift (returns_subdirsOf entries)) fun found hfound => ?_
      split
      · rename_i subdir
        refine (yields_true _).bind fun inside _ => ?_
        cases inside with
        | true => exact Yields.pure (hfound subdir mem_cons_self)
        | false => exact Yields.throw _
      · exact Yields.throw _

namespace PluginManager

variable {F64 : Type} {m : PluginManager F64} {uuid : String} {bytes : Bytes} {s : σ}
  {src : Path} {manifest : Manifest F64} {identity : String} {t : Tree}

/-- The manifest in a directory, as it passes the checks. -/
def ManifestAt (m : PluginManager F64) (t : Tree) (dir : Path) (manifest : Manifest F64) : Prop :=
  ∃ bytes, t (dir ++ ["manifest.json"]) = some (.file bytes) ∧ m.parseValid bytes = .ok manifest

theorem valid_of_parseValid {bytes : Bytes} (h : m.parseValid bytes = .ok manifest) :
    isValidIdentity manifest.identity = true := by
  rw [parseValid] at h
  cases hparse : m.parse bytes with
  | error e =>
      rw [hparse] at h
      cases h
  | ok parsed =>
      rw [hparse] at h
      by_contra hidentity
      change (validate m.numbers parsed >>= fun _ => Except.ok parsed) = _ at h
      cases hvalidate : validate m.numbers parsed with
      | error e =>
          rw [hvalidate] at h
          cases h
      | ok _ =>
          rw [hvalidate] at h
          cases h
          rw [validate, require, if_neg hidentity] at hvalidate
          cases hvalidate

theorem readManifest_value (h : Lawful host view)
    (hvalue : (run host (m.readManifest src).run s).value = some (.ok manifest)) :
    m.ManifestAt (view (run host (m.readManifest src).run s).state) src manifest := by
  have htriple : Triple host (fun _ => True) (m.readManifest src) fun manifest s =>
      m.ManifestAt (view s) src manifest := by
    refine Triple.bind (R := fun bytes s =>
      view s (src ++ ["manifest.json"]) = some (.file bytes)) ?_ fun bytes => ?_
    · refine triple_orInvalid fun s _ bytes hbytes => ?_
      have hread := h.read _ s bytes (some.inj hbytes)
      rw [← h.query (.read (src ++ ["manifest.json"])) s rfl] at hread
      exact hread
    · intro s hs manifest hmanifest
      exact ⟨bytes,hs,some.inj hmanifest⟩
  exact htriple s trivial manifest hvalue

/-- A package that has been unpacked has its manifest in the temporary directory. -/
theorem unpackPackage_value (h : Lawful host view)
    (hvalue : (run host (m.unpackPackage uuid bytes).run s).value = some (.ok (src, manifest))) :
    m.tmp uuid <+: src ∧
      m.ManifestAt (view (run host (m.unpackPackage uuid bytes).run s).state) src manifest := by
  obtain ⟨_,-,hvalue₁,hstate₁⟩ := value_bindFailing hvalue
  obtain ⟨_,-,hvalue₂,hstate₂⟩ := value_bindFailing hvalue₁
  obtain ⟨srcRoot,hsrc,hvalue₃,hstate₃⟩ := value_bindFailing hvalue₂
  obtain ⟨manifest',hmanifest,hvalue₄,hstate₄⟩ := value_bindFailing hvalue₃
  cases hvalue₄
  rw [unpackPackage, hstate₁, hstate₂, hstate₃, hstate₄]
  exact ⟨yields_resolvePkgRoot.value hsrc,readManifest_value h hmanifest⟩

/-! ## The plugin in its place -/

theorem placePlugin_copies (h : Lawful host view) (hlist : Listing host)
    (hsrc : ¬ src <+: m.pluginDir identity) (hdest : ¬ m.pluginDir identity <+: src) :
    Triple host (Agrees view t src) (m.placePlugin src identity) fun _ =>
      Copied view t src (m.pluginDir identity) := by
  have hcopy : Triple host (Agrees view t src)
      (copyDir m.maxDepth src (m.pluginDir identity) >>= fun _ => (pure identity : Install String))
      fun _ => Copied view t src (m.pluginDir identity) :=
    (copyDir_copies h hlist m.maxDepth hsrc hdest).bind fun _ => Triple.pure fun _ hs => hs
  refine Triple.bind (R := fun _ => Agrees view t src) ?_ fun installed => ?_
  · exact Triple.lift fun s hs _ _ => hs.query (h.query (.pathExists (m.pluginDir identity)) s rfl)
  · cases installed with
    | true =>
        refine Triple.bind (R := fun _ => Agrees view t src) ?_ fun _ => hcopy
        refine triple_orInvalid fun s hs _ _ => hs.keeps hsrc hdest ?_
        exact h.keeps (o := .removeDirAll (m.pluginDir identity)) (fun _ hq => hq) s
    | false => exact hcopy

theorem finishInstall_value (h : Lawful host view) {a : Unit}
    (hvalue : (run host (m.finishInstall identity).run s).value = some (.ok a)) :
    view (run host (m.finishInstall identity).run s).state = view s := by
  obtain ⟨result,hresult,hrest,hstate⟩ := value_bindFailing hvalue
  rw [finishInstall, hstate]
  cases result with
  | ok _ => exact h.run_query (Calls.lift (m.queries_validation identity)) s
  | error e =>
      obtain ⟨_,-,hthrow,-⟩ := value_bindFailing hrest
      cases hthrow

/-- The plugin that a package leaves: its manifest, as it passed the checks, and its files. -/
structure Installs (m : PluginManager F64) (unpacked : Tree) (src : Path)
    (manifest : Manifest F64) (installed : Tree) : Prop where
  manifestAt : m.ManifestAt unpacked src manifest
  files : ∀ rel bytes, FileBelow unpacked src rel bytes →
    installed (m.pluginDir manifest.identity ++ rel) = some (.file bytes)

theorem ManifestAt.valid (h : m.ManifestAt t src manifest) :
    isValidIdentity manifest.identity = true := by
  obtain ⟨bytes,-,hparse⟩ := h
  exact valid_of_parseValid hparse

theorem copied_removeDirAll {dest : Path} (h : Lawful host view) (hs : Copied view t src dest s)
    (htmp : ∀ q, dest <+: q → ¬ tmp <+: q) :
    Copied view t src dest (host (.removeDirAll tmp) s).2 := by
  intro rel bytes hfile
  rw [h.removeDirAll tmp s _ (htmp _ (prefix_append dest rel))]
  exact hs rel bytes hfile

/-- An installation that does not fail has the files of the package that was unpacked, under the
identity of its manifest. -/
theorem installFromZip_value (h : Lawful host view)
    (hvalue : (run host (m.installFromZip uuid bytes).run s).value = some (.ok identity)) :
    ∃ src manifest,
      (run host (m.unpackPackage uuid bytes).run s).value = some (.ok (src, manifest)) ∧
      manifest.identity = identity ∧
      (Listing host → m.Installs (view (run host (m.unpackPackage uuid bytes).run s).state) src
        manifest (view (run host (m.installFromZip uuid bytes).run s).state)) := by
  obtain ⟨identity',hinstall,hfinish,hstate⟩ := value_bindFailing hvalue
  obtain ⟨_,hchecked,hpure,hstate'⟩ := value_bindFailing hfinish
  cases hpure
  obtain ⟨hunpack,hremoved⟩ := installZip_value hinstall
  obtain ⟨⟨src,manifest⟩,hpackage,hplace,hplaced⟩ := value_bindFailing hunpack
  obtain rfl := placePlugin_value hplace
  obtain ⟨hsrc,hmanifest⟩ := unpackPackage_value h hpackage
  refine ⟨src,manifest,hpackage,rfl,fun hlist => ⟨hmanifest,?_⟩⟩
  have hne := identity_ne_tmp hmanifest.valid uuid
  have htmp : ∀ q, m.pluginDir manifest.identity <+: q → ¬ m.tmp uuid <+: q :=
    fun q hq hq' => hne (concat_prefix_inj hq hq')
  have hnsrc : ¬ src <+: m.pluginDir manifest.identity :=
    fun hbegins => htmp _ (prefix_refl _) (hsrc.trans hbegins)
  have hndest : ¬ m.pluginDir manifest.identity <+: src := fun hbegins => htmp _ hbegins hsrc
  have hcopied := placePlugin_copies h hlist hnsrc hndest _ (fun _ _ => rfl) _ hplace
  have hview : view (run host (m.installFromZip uuid bytes).run s).state =
      view (run host (m.installZip uuid bytes).run s).state := by
    rw [installFromZip, finished, hstate]
    exact (congrArg view hstate').trans (finishInstall_value h hchecked)
  rw [hview, hremoved, unpackZip, hplaced]
  exact copied_removeDirAll h hcopied htmp

end PluginManager

end

/-! ## What becomes of the plugins -/

/-- What a package is installed from. -/
inductive Origin where
  | zip (uuid : String) (bytes : Bytes)
  | directory (path : Path)

namespace PluginManager

section
variable {F64 ε : Type} (m : PluginManager F64)

def package : Origin → Install (Path × Manifest F64)
  | .zip uuid bytes => m.unpackPackage uuid bytes
  | .directory path => m.readPackage path

def placed : Origin → Install String
  | .zip uuid bytes => m.installZip uuid bytes
  | .directory path => m.installDir path

variable (t t' : Tree) (c c' : Config)

structure Untouched (identity : String) : Prop where
  files : ∀ q, m.pluginDir identity <+: q → t' q = t q
  keys : ∀ key, OwnKey identity key → c'.lookup key = c.lookup key

/-- There are files or settings of a plugin. -/
def Installed (identity : String) : Prop :=
  (∃ q, m.pluginDir identity <+: q ∧ t q ≠ none) ∨
    ∃ key, OwnKey identity key ∧ c.lookup key ≠ none

/-- A plugin is not there, and its identity begins that of no plugin that is registered. -/
def Absent (identity : String) : Prop :=
  ¬ m.Installed t c identity ∧ ∀ other, isValidIdentity other = true → other ≠ identity →
    identity.toList <+: other.toList → c.lookup (devKey other) = none

/-- An installation that fails leaves every plugin as it was; one that does not, every other. -/
structure Atomic (result : Option (Except ε String)) : Prop where
  outside : ∀ q, ¬ m.root <+: q → t' q = t q ∨ q <+: m.root ∧ t q = none ∧ t' q = some .directory
  failed : (∀ identity, result ≠ some (.ok identity)) → ∀ other, isValidIdentity other = true →
    m.Installed t c other → m.Untouched t t' c c' other
  installed : ∀ identity, result = some (.ok identity) → ∀ other, isValidIdentity other = true →
    other ≠ identity → m.Untouched t t' c c' other

variable {σ : Type*} (host : Host FsOp FsOp.Reply σ) (view : σ → Tree) (db : Database) (o : Origin)
  (s : σ)

def clean : Origin → σ
  | .zip uuid _ => (host (.removeDirAll (m.tmp uuid)) s).2
  | .directory _ => s

/-- What the end of an installation leaves in the configuration. -/
def configAfter : Config :=
  match (run host (m.placed o).run s).value with
  | some (.ok identity) =>
      db.finishInstall c identity ((run host (m.finished (m.placed o)).run s).value.any (·.isOk))
  | _ => c

/-- A package is put in its place, and passes the validation there. -/
def Settles (p : Path × Manifest F64) : Prop :=
  ∃ identity, (run host (m.placePlugin p.1 p.2.identity).run s).value = some (.ok identity) ∧
    (run host (m.finishInstall identity).run (m.clean host
      (run host (m.placePlugin p.1 p.2.identity).run s).state o)).value = some (.ok ())

/-- Nothing fails after a package has been read, or its plugin is new. -/
def Careful : Prop :=
  ∀ p, (run host (m.package o).run s).value = some (.ok p) →
    m.Settles host o (run host (m.package o).run s).state p ∨ m.Absent (view s) c p.2.identity

end

section
variable {F64 : Type} {m : PluginManager F64} {σ : Type*} {host : Host FsOp FsOp.Reply σ}
  {view : σ → Tree} {db : Database} {c : Config} {o : Origin} {s : σ} {identity : String}

theorem confined_install (h : Lawful host view) (o : Origin) (s : σ) :
    Confined m.root (Names host s (m.package o)) (view s)
      (view (run host (m.finished (m.placed o)).run s).state) := by
  cases o with
  | zip uuid bytes => exact confined_of_keeps (keeps_installFromZip h)
  | directory path => exact confined_of_keeps (keeps_installFromDir "" h)

theorem names_placed (h : (run host (m.placed o).run s).value = some (.ok identity)) :
    Names host s (m.package o) identity := by
  cases o with
  | zip uuid bytes => exact names_of_placed (installZip_value h).1
  | directory path => exact names_of_placed h

theorem valid_package (h : Lawful host view) {p : Path × Manifest F64}
    (hp : (run host (m.package o).run s).value = some (.ok p)) :
    isValidIdentity p.2.identity = true := by
  cases o with
  | zip uuid bytes => exact (unpackPackage_value h hp).2.valid
  | directory path =>
      obtain ⟨manifest,hmanifest,hrest,-⟩ := value_bindFailing hp
      obtain ⟨_,-,hpure,-⟩ := value_bindFailing hrest
      cases hpure
      exact (readManifest_value h hmanifest).valid

theorem Settles.finished {p : Path × Manifest F64}
    (h : m.Settles host o (run host (m.package o).run s).state p)
    (hp : (run host (m.package o).run s).value = some (.ok p)) :
    ∃ identity, (run host (m.finished (m.placed o)).run s).value = some (.ok identity) := by
  obtain ⟨identity,hplace,hfinish⟩ := h
  obtain ⟨hvalue,hstate⟩ := run_bindFailing_ok (f := fun p => m.placePlugin p.1 p.2.identity) hp
  rw [hplace] at hvalue
  have hplaced : (run host (m.placed o).run s).value = some (.ok identity) ∧
      (run host (m.placed o).run s).state = m.clean host (run host
        (m.placePlugin p.1 p.2.identity).run (run host (m.package o).run s).state).state o := by
    cases o with
    | zip uuid bytes =>
        rw [placed, run_installZip, Outcome.andThen, unpackZip]
        rw [package] at hvalue hstate
        rw [hvalue, hstate]
        exact ⟨rfl,rfl⟩
    | directory path => exact ⟨hvalue,hstate⟩
  rw [← hplaced.2] at hfinish
  refine ⟨identity,?_⟩
  rw [PluginManager.finished, (run_bindFailing_ok hplaced.1).1, (run_bindFailing_ok hfinish).1]
  rfl

theorem atomic_install (h : Lawful host view) (hcareful : m.Careful c host view o s) :
    m.Atomic (view s) (view (run host (m.finished (m.placed o)).run s).state) c
      (m.configAfter c host db o s) (run host (m.finished (m.placed o)).run s).value := by
  have hconfined : Confined m.root _ _ _ := confined_install h o s
  have huntouched : ∀ other, isValidIdentity other = true → ¬ Names host s (m.package o) other →
      ((run host (m.finished (m.placed o)).run s).value.any (·.isOk) = true ∨
        ∀ identity, Names host s (m.package o) identity → m.Absent (view s) c identity) →
      m.Untouched (view s) (view (run host (m.finished (m.placed o)).run s).state) c
        (m.configAfter c host db o s) other := by
    intro other hother hnot hend
    refine ⟨hconfined.others other hother hnot,fun key hkey => ?_⟩
    rw [configAfter]
    split
    · rename_i identity hvalue
      obtain ⟨p,hp,rfl⟩ := names_placed hvalue
      have hne : other ≠ p.2.identity := fun heq => hnot ⟨p,hp,heq.symm⟩
      exact Database.lookup_finishInstall (valid_package h hp) hother hne hkey
        (hend.imp_right fun habsent => (habsent _ ⟨p,hp,rfl⟩).2 other hother hne)
    · rfl
  refine ⟨hconfined.outside,fun hfailed other hother hinstalled => ?_,
    fun identity hvalue other hother hne => ?_⟩
  · have habsent : ∀ identity, Names host s (m.package o) identity →
        m.Absent (view s) c identity := by
      rintro _ ⟨p,hp,rfl⟩
      refine (hcareful p hp).resolve_left fun hs => ?_
      obtain ⟨identity,hvalue⟩ := hs.finished hp
      exact hfailed identity hvalue
    exact huntouched other hother (fun hname => (habsent other hname).1 hinstalled) (.inr habsent)
  · obtain ⟨_,hplaced,hfinish,-⟩ := value_bindFailing hvalue
    obtain ⟨_,-,hpure,-⟩ := value_bindFailing hfinish
    cases hpure
    obtain ⟨p,hp,rfl⟩ := names_placed hplaced
    refine huntouched other hother ?_ (.inl (by rw [hvalue]; rfl))
    rintro ⟨q,hq,rfl⟩
    rw [hp] at hq
    cases hq
    exact hne rfl

end

end PluginManager

/-! ## The market -/

namespace MarketClient

variable {F64 : Type} {client : MarketClient F64} {entry : MarketEntry} {bytes : Bytes}

theorem sha256Hex_tryMirrors {expected : String} {replies : ℕ → Reply} {mirrors : List String}
    {i : ℕ} (h : client.tryMirrors expected replies i mirrors = .ok bytes) :
    client.sha256Hex bytes = expected := by
  induction mirrors generalizing i with
  | nil => cases h
  | cons url mirrors ih =>
      rw [tryMirrors] at h
      split_ifs at h with hallowed
      · split at h
        · split_ifs at h with hhash
          · cases h
            exact hhash
          · exact ih h
        · exact ih h
      · exact ih h

/-- What is downloaded is what the entry pins. -/
theorem sha256Hex_download {allowYanked : Bool} {replies : ℕ → Reply}
    (h : client.download entry allowYanked replies = .ok bytes) :
    client.sha256Hex bytes = expectedHash entry ∧ entry.yanked ≠ "malicious" := by
  rw [download] at h
  split_ifs at h with hmalicious hyanked
  refine ⟨?_,hmalicious⟩
  rw [downloadVerified] at h
  split_ifs at h with hmirrors
  exact sha256Hex_tryMirrors h

section
variable {σ : Type*} {host : Host FsOp FsOp.Reply σ} {view : σ → Tree} {s : σ} {uuid : String}
  {allowYanked : Bool} {replies : ℕ → Reply} {identity : String}

theorem run_installEntry (hdownload : client.download entry allowYanked replies = .ok bytes) :
    run host (client.installEntry entry allowYanked uuid replies).run s =
      (run host (client.manager.installFromZip uuid bytes).run s).map
        (·.mapError MarketError.plugin) := by
  rw [installEntry, hdownload]
  exact run_map host _ _ s

theorem installEntry_value
    (hvalue : (run host (client.installEntry entry allowYanked uuid replies).run s).value =
      some (.ok identity)) :
    ∃ bytes, client.download entry allowYanked replies = .ok bytes ∧
      (run host (client.manager.installFromZip uuid bytes).run s).value = some (.ok identity) ∧
      (run host (client.installEntry entry allowYanked uuid replies).run s).state =
        (run host (client.manager.installFromZip uuid bytes).run s).state := by
  cases hdownload : client.download entry allowYanked replies with
  | error e =>
      rw [installEntry, hdownload] at hvalue
      cases hvalue
  | ok bytes =>
      rw [run_installEntry hdownload] at hvalue ⊢
      obtain ⟨r,hr,heq⟩ := map_eq_some_iff.mp hvalue
      cases r with
      | error e => cases heq
      | ok a =>
          cases heq
          exact ⟨bytes,rfl,hr,rfl⟩

section
variable (client entry host view s uuid allowYanked replies) (db : Database) (c : Config)

def configAfter : Config :=
  match client.download entry allowYanked replies with
  | .error _ => c
  | .ok bytes => client.manager.configAfter c host db (.zip uuid bytes) s

/-- The package that is downloaded has the identity and the version of its entry. -/
def Careful : Prop :=
  Listing host ∧ ∀ bytes, client.download entry allowYanked replies = .ok bytes →
    client.manager.Careful c host view (.zip uuid bytes) s ∧
    ∀ p, (run host (client.manager.unpackPackage uuid bytes).run s).value = some (.ok p) →
      p.2.identity = entry.pluginId ∧ p.2.version = entry.version

/-- An installation of an entry is atomic, and what it installs is what the entry names. -/
structure Atomic (result : Option (Except MarketError String)) (t t' : Tree) (c c' : Config) :
    Prop extends client.manager.Atomic t t' c c' result where
  named : ∀ identity, result = some (.ok identity) → identity = entry.pluginId ∧
    ∃ manifest, client.manager.ManifestAt t' (client.manager.pluginDir identity) manifest ∧
      manifest.identity = entry.pluginId ∧ manifest.version = entry.version

end

theorem atomic_installEntry {db : Database} {c : Config} (h : Lawful host view)
    (hcareful : client.Careful entry host view s uuid allowYanked replies c) :
    client.Atomic entry (run host (client.installEntry entry allowYanked uuid replies).run s).value
      (view s) (view (run host (client.installEntry entry allowYanked uuid replies).run s).state) c
      (client.configAfter entry host s uuid allowYanked replies db c) := by
  rw [configAfter]
  cases hdownload : client.download entry allowYanked replies with
  | error e =>
      rw [installEntry, hdownload]
      refine ⟨⟨fun _ _ => .inl rfl,fun _ _ _ _ => ⟨fun _ _ => rfl,fun _ _ => rfl⟩,?_⟩,?_⟩
      · intro _ hvalue
        cases hvalue
      · intro _ hvalue
        cases hvalue
  | ok bytes =>
      rw [run_installEntry hdownload]
      obtain ⟨hsettles,hnames⟩ := hcareful.2 bytes hdownload
      obtain ⟨houtside,hfailed,hinstalled⟩ := PluginManager.atomic_install h hsettles
      have hvalue : ∀ identity, ((run host (client.manager.installFromZip uuid bytes).run s).map
          (·.mapError MarketError.plugin)).value = some (.ok identity) ↔
          (run host (client.manager.installFromZip uuid bytes).run s).value =
            some (.ok identity) := by
        intro identity
        rw [Outcome.map]
        rcases (run host (client.manager.installFromZip uuid bytes).run s).value with
          - | (e | a)
        · simp
        · simp [Except.mapError]
        · simp [Except.mapError]
      refine ⟨⟨houtside,fun hresult => hfailed fun identity hok =>
        hresult identity ((hvalue identity).mpr hok),fun identity hok =>
        hinstalled identity ((hvalue identity).mp hok)⟩,fun identity hok => ?_⟩
      obtain ⟨src,manifest,hpackage,rfl,hinstalls⟩ :=
        PluginManager.installFromZip_value h ((hvalue identity).mp hok)
      obtain ⟨hidentity,hversion⟩ := hnames (src, manifest) hpackage
      obtain ⟨⟨data,hdata,hparse⟩,hfiles⟩ := hinstalls hcareful.1
      exact ⟨hidentity,manifest,⟨data,hfiles _ data (.file hdata),hparse⟩,hidentity,hversion⟩

end

end MarketClient

def sampleManifest : Manifest Unit where
  identity := "a@b"
  name := "sample"
  version := "1.0.0"
  icon := ""
  minAppVersion := ""
  resolvers := []
  hooks := none
  settings := []
  permissions := []

/-- Every package has one member, its manifest, whose bytes are those of the package. -/
def sampleClient : MarketClient Unit where
  manager := {
    root := ["plugins"]
    appVersion := ""
    devPaths := []
    numbers := ⟨fun _ => true,fun _ _ => false,fun _ => none,fun _ => ""⟩
    openZip := fun bytes => .ok [.ok ⟨some [.normal "manifest.json"],false,bytes,none⟩]
    fromSlice := fun _ => .ok sampleManifest
    checkCompile := fun _ => .ok ()
    regexValid := fun _ => true
    maxDepth := 4 }
  sha256Hex := fun _ => "00"
  mirrorUrlAllowed := fun _ => true

def sampleEntry : MarketEntry where
  pluginId := "a@b"
  version := "1.0.0"
  sequence := 1
  contentHash := "sha256:00"
  mirrors := ["https://mirror"]
  yanked := "none"

def sampleReplies : ℕ → Reply := fun _ => .ok [.ok [2]]

def sampleMemory (faults : List FsOp) : Memory where
  nodes := [([], .directory), (["plugins"], .directory), (["plugins", "a@b"], .directory),
    (["plugins", "a@b", "manifest.json"], .file [1])]
  faults := faults

def samplePlugin : Path := ["plugins", "a@b", "manifest.json"]

def sampleDatabase : Database where
  ignoresCase := true
  reads := fun _ => true
  lists := fun _ => true
  sets := fun _ => true
  deletesListed := fun _ => true
  deletes := fun _ => true

/-- Another plugin is registered in development. -/
def sampleConfig : Config := [("plugin.dev.a@bc", "/src")]

def sampleRun (entry : MarketEntry) (faults : List FsOp) :
    Outcome FsOp Memory (Except MarketError String) :=
  run memoryHost (sampleClient.installEntry entry false "1" sampleReplies).run (sampleMemory faults)

def configAfterSample (faults : List FsOp) : Config :=
  sampleClient.configAfter sampleEntry memoryHost (sampleMemory faults) "1" false sampleReplies
    sampleDatabase sampleConfig

theorem eq_of_any {ε : Type} {value : Option (Except ε String)} {a : String}
    (h : (value.any fun r => decide (r.toOption = some a)) = true) : value = some (.ok a) := by
  obtain ⟨r,rfl,hr⟩ := (any_eq_true _ _).mp h
  cases r with
  | error e => cases of_decide_eq_true hr
  | ok b => rw [some.inj (of_decide_eq_true hr)]

theorem listing_memoryHost : Listing memoryHost := by
  intro p m entries hlist
  by_cases hfault : .readDir p ∈ m.faults
  · rw [memoryHost_of_mem hfault] at hlist
    cases hlist
  · rw [memoryHost_of_not_mem hfault] at hlist
    cases hlist
    simp

def sampleCopy : FsOp := .copy ["plugins", ".tmp_install_1", "manifest.json"] samplePlugin

end RinaDown.PluginInstall
