import RinaDown.FileSystem
import RinaDown.PluginManifest

/-!
# Installation of plugins

A package is unpacked into a temporary directory of the plugin root; the plugin that its manifest
names is cleared, and the package copied there, loaded and checked. The reader of archives, the
reader of JSON and the script runtime are parameters, and so are the registered directories of
plugins in development.
-/

namespace RinaDown.PluginInstall

open FailingPrograms FileSystem
open MarketSources (MarketEntry MarketError PluginError)
open PluginManifest (Manifest Numbers SettingField parseSemver require validate)

/-! ## Paths -/

inductive Component where
  | drive (name : String)
  | rootDir
  | curDir
  | parentDir
  | normal (name : String)
deriving DecidableEq

def absolute (p : Path) : List Component := .rootDir :: p.map .normal

/-- A path from the root replaces the one it is joined to. -/
def joinPath (base : List Component) : List Component → List Component
  | .drive name :: rest => .drive name :: rest
  | .rootDir :: rest => .rootDir :: rest
  | path => base ++ path.filter (· ≠ .curDir)

def stripPrefix (base child : List Component) : Option (List Component) :=
  if base.isPrefixOf child then some (child.drop base.length) else none

def Component.escapes : Component → Bool
  | .parentDir | .rootDir | .drive _ => true
  | _ => false

def isWithin (base child : List Component) : Bool :=
  match stripPrefix base child with
  | none => false
  | some rel => !rel.any Component.escapes

def names (path : List Component) : Path :=
  path.filterMap fun
    | .normal name => some name
    | _ => none

/-! ## Archives -/

def maxTotalUncompressed : ℕ := 50 * 1024 * 1024

def maxEntries : ℕ := 200

/-- A member of an archive: the bytes that can be read of it, and what fails after them. -/
structure ZipFile where
  enclosedName : Option (List Component)
  isDir : Bool
  data : Bytes
  fault : Option String

/-- An archive, of which a member may not be found. -/
abbrev Archive := List (Except String ZipFile)

/-- What is read of a member by a reader that stops at a limit. -/
def readLimited (limit : ℕ) (file : ZipFile) : Except String Bytes :=
  if limit ≤ file.data.length then .ok (file.data.take limit)
  else match file.fault with
    | some e => .error e
    | none => .ok file.data

section
variable {α : Type}

abbrev Install (α : Type) := Failing FsOp FsOp.Reply PluginError α

def invalid (message : String) : Install α := throw (.manifestInvalid message)

/-- An error becomes that of a manifest, with a message before it. -/
def orInvalid (message : String) (p : Disk (Except String α)) : Install α :=
  ExceptT.mk ((fun r => r.mapError fun e => .manifestInvalid s!"{message}: {e}") <$> p)

end

def extractMember (out : Path) (total : ℕ) (file : ZipFile) : Install ℕ :=
  if file.isDir then do
    orInvalid "创建目录失败" (createDirAll out)
    pure total
  else do
    orInvalid "创建父目录失败" (createDirAll out.dropLast)
    let buf ← orInvalid "解压读取失败"
      (pure (readLimited (maxTotalUncompressed - total + 1) file))
    if maxTotalUncompressed < total + buf.length then
      invalid s!"解压总量超过 {maxTotalUncompressed} 字节上限（疑压缩炸弹）"
    else do
      orInvalid "写入解压文件失败" (write out buf)
      pure (total + buf.length)

def extractEntry (dest : Path) (total : ℕ) : Except String ZipFile → Install ℕ
  | .error e => invalid s!"读取 zip 条目失败: {e}"
  | .ok file =>
      match file.enclosedName with
      | none => invalid "zip 含非法路径（zip-slip）"
      | some enclosed =>
          if isWithin (absolute dest) (joinPath (absolute dest) enclosed) then
            extractMember (names (joinPath (absolute dest) enclosed)) total file
          else invalid "zip 成员越界（zip-slip）"

/-- The loop over the members, after the bytes that have been written. -/
def extractEntries (dest : Path) : ℕ → Archive → Install Unit
  | _, [] => pure ()
  | total, entry :: zip => do
      let total ← extractEntry dest total entry
      extractEntries dest total zip

def extractZip (openZip : Bytes → Except String Archive) (bytes : Bytes) (dest : Path) :
    Install Unit := do
  let zip ← orInvalid "zip 打开失败" (pure (openZip bytes))
  if maxEntries < zip.length then invalid s!"zip 条目数 {zip.length} 超过上限 {maxEntries}"
  else extractEntries dest 0 zip

/-! ## Packages -/

/-- The directories in a directory, and whether there is anything else. -/
def subdirsOf (dir : Path) : List String → Disk (List Path × Bool)
  | [] => pure ([], false)
  | name :: rest => do
      let directory ← isDir (dir ++ [name])
      let found ← subdirsOf dir rest
      pure (if directory then ((dir ++ [name]) :: found.1, found.2) else (found.1, true))

def noRootManifest {α : Type} : Install α := invalid "zip 内未找到根 manifest.json"

def readNames (dir : Path) : Disk (List String) := do
  let entries ← readDir dir
  pure (match entries with
    | .error _ => []
    | .ok entries => entries.reduceOption)

def resolvePkgRoot (tmp : Path) : Install Path := do
  let here ← ExceptT.lift (isFile (tmp ++ ["manifest.json"]))
  if here then pure tmp
  else do
    let entries ← ExceptT.lift (readNames tmp)
    let found ← ExceptT.lift (subdirsOf tmp entries)
    match found with
    | ([subdir], false) => do
        let inside ← ExceptT.lift (isFile (subdir ++ ["manifest.json"]))
        if inside then pure subdir else noRootManifest
    | _ => noRootManifest

def copyEntry (copyDir : Path → Path → Install Unit) (src dest : Path) (name : String) :
    Install Unit := do
  let directory ← ExceptT.lift (isDir (src ++ [name]))
  if directory then copyDir (src ++ [name]) (dest ++ [name])
  else orInvalid "拷贝文件失败" (copy (src ++ [name]) (dest ++ [name]))

/-- A directory and all that is in it, to the depth that paths may have. -/
def copyDir : ℕ → Path → Path → Install Unit
  | 0, _, _ => invalid "创建目标目录失败: File name too long"
  | depth + 1, src, dest => do
      orInvalid "创建目标目录失败" (createDirAll dest)
      let entries ← orInvalid "读取源目录失败" (readDir src)
      entries.reduceOption.forM (copyEntry (copyDir depth) src dest)

/-- The directory of the plugins, and what the code outside does. -/
structure PluginManager (F64 : Type) where
  root : Path
  appVersion : String
  devPaths : List Path
  numbers : Numbers F64
  openZip : Bytes → Except String Archive
  fromSlice : Bytes → Except String (Manifest F64)
  checkCompile : String → Except PluginError Unit
  regexValid : String → Bool
  maxDepth : ℕ

namespace PluginManager

variable {F64 : Type} (m : PluginManager F64)

def parse (bytes : Bytes) : Except PluginError (Manifest F64) :=
  (m.fromSlice bytes).mapError fun e => .manifestInvalid s!"JSON 解析失败: {e}"

/-- What passes the checks of a manifest. -/
def parseValid (bytes : Bytes) : Except PluginError (Manifest F64) := do
  let manifest ← m.parse bytes
  validate m.numbers manifest
  pure manifest

def readManifest (dir : Path) : Install (Manifest F64) := do
  let bytes ← orInvalid "读取 manifest.json 失败" (read (dir ++ ["manifest.json"]))
  ExceptT.mk (pure (m.parseValid bytes))

def tmp (uuid : String) : Path := m.root ++ [".tmp_install_" ++ uuid]

def pluginDir (identity : String) : Path := m.root ++ [identity]

/-- The directory of the package and its manifest, before any plugin is touched. -/
def unpackPackage (uuid : String) (bytes : Bytes) : Install (Path × Manifest F64) := do
  orInvalid "创建临时目录失败" (createDirAll (m.tmp uuid))
  extractZip m.openZip bytes (m.tmp uuid)
  let srcRoot ← resolvePkgRoot (m.tmp uuid)
  let manifest ← m.readManifest srcRoot
  pure (srcRoot, manifest)

/-- The old version is cleared before the copy. -/
def placePlugin (src : Path) (identity : String) : Install String := do
  let installed ← ExceptT.lift (pathExists (m.pluginDir identity))
  if installed then orInvalid "清理旧插件失败" (removeDirAll (m.pluginDir identity))
  else pure ()
  copyDir m.maxDepth src (m.pluginDir identity)
  pure identity

def unpackZip (uuid : String) (bytes : Bytes) : Install String := do
  let package ← m.unpackPackage uuid bytes
  m.placePlugin package.1 package.2.identity

/-- The temporary directory is removed at the end, whether that fails or not. -/
def installZip (uuid : String) (bytes : Bytes) : Install String :=
  ExceptT.mk do
    let result ← (m.unpackZip uuid bytes).run
    let _ ← removeDirAll (m.tmp uuid)
    pure result

def readPackage (path : Path) : Install (Path × Manifest F64) := do
  let manifest ← m.readManifest path
  orInvalid "创建插件根目录失败" (createDirAll m.root)
  pure (path, manifest)

def installDir (path : Path) : Install String := do
  let package ← m.readPackage path
  m.placePlugin package.1 package.2.identity

end PluginManager

/-! ## Loading -/

structure LoadedPlugin (F64 : Type) where
  manifest : Manifest F64
  dev : Bool
  resolverEntry : Option Path
  hooksEntry : Option Path
  resolverCache : Option String
  hooksCache : Option String

def readToString (p : Path) : Disk (Option String) := do
  let bytes ← read p
  pure (match bytes with
    | .error _ => none
    | .ok bytes => String.fromUTF8? ⟨bytes.toArray⟩)

/-- The source in a file, if there is a file; nothing where it cannot be read. -/
def readCache : Option Path → Disk (Option (Option String))
  | none => pure (some none)
  | some p => do
      let source ← readToString p
      pure (source.map some)

def entryPath (dir : Path) (entry : String) : Path :=
  dir ++ (entry.toList.splitOn '/').map String.ofList

def satisfiesMin (version min : String) : Bool :=
  match parseSemver version, parseSemver min with
  | some (h₁, h₂, h₃), some (m₁, m₂, m₃) =>
      m₁ < h₁ || m₁ = h₁ && (m₂ < h₂ || m₂ = h₂ && m₃ ≤ h₃)
  | _, _ => false

/-- In development a source is read at every use. -/
def sourceOf (entry : Option Path) (dev : Bool) (cache : Option String) : Disk (Option String) :=
  match entry, dev with
  | some p, true => readToString p
  | some _, false => pure cache
  | none, _ => pure none

namespace PluginManager

variable {F64 : Type} (m : PluginManager F64)

/-- Caches are read where the plugin is not in development. -/
def loadCaches (manifest : Manifest F64) (dev : Bool) (resolverEntry hooksEntry : Option Path) :
    Disk (Option (LoadedPlugin F64)) :=
  if dev then pure (some ⟨manifest,dev,resolverEntry,hooksEntry,none,none⟩)
  else do
    let resolverCache ← readCache resolverEntry
    match resolverCache with
    | none => pure none
    | some resolverCache => do
        let hooksCache ← readCache hooksEntry
        pure (hooksCache.map (⟨manifest,dev,resolverEntry,hooksEntry,resolverCache,·⟩))

/-- A version that is not known, or not asked for, excludes nothing. -/
def meetsMinApp (manifest : Manifest F64) : Bool :=
  manifest.minAppVersion = "" || m.appVersion = "" ||
    satisfiesMin m.appVersion manifest.minAppVersion

def loadOne (dir : Path) (dev : Bool) : Disk (Option (LoadedPlugin F64)) := do
  let bytes ← read (dir ++ ["manifest.json"])
  match bytes.toOption.bind fun bytes => (m.parseValid bytes).toOption with
  | none => pure none
  | some manifest =>
      if m.meetsMinApp manifest then
        loadCaches manifest dev (manifest.resolvers.head?.map fun r => entryPath dir r.entry)
          (manifest.hooks.map fun h => entryPath dir h.entry)
      else pure none

def loadDirs (dev : Bool) : List Path → Disk (List (LoadedPlugin F64))
  | [] => pure []
  | dir :: dirs => do
      let directory ← isDir dir
      let plugin ← if directory then m.loadOne dir dev else pure none
      let plugins ← loadDirs dev dirs
      pure (plugin.toList ++ plugins)

/-- The listing of the plugin root ends at the first entry that cannot be read. -/
def loadAll : Disk (List (LoadedPlugin F64)) := do
  let entries ← readDir m.root
  let dirs := match entries with
    | .error _ => []
    | .ok entries => (entries.takeWhile Option.isSome).reduceOption.map m.pluginDir
  let installed ← m.loadDirs false dirs
  let dev ← m.loadDirs true m.devPaths
  pure (installed ++ dev)

def checkSource : Option String → Except PluginError Unit
  | none => .ok ()
  | some src => m.checkCompile src

def checkPatterns (settings : List (SettingField F64)) : Except PluginError Unit :=
  settings.forM fun f => require (f.pattern.all m.regexValid)
    s!"setting '{f.key}': pattern 非法（JS RegExp 编译失败）"

def checkPlugin (p : LoadedPlugin F64) : Disk (Except PluginError Unit) := do
  let resolver ← sourceOf p.resolverEntry p.dev p.resolverCache
  match m.checkSource resolver with
  | .error e => pure (.error e)
  | .ok () => do
      let hooks ← sourceOf p.hooksEntry p.dev p.hooksCache
      match m.checkSource hooks with
      | .error e => pure (.error e)
      | .ok () => pure (m.checkPatterns p.manifest.settings)

def validation (identity : String) : Disk (Except PluginError Unit) := do
  let plugins ← m.loadAll
  match plugins.find? fun p => p.manifest.identity = identity with
  | some p => m.checkPlugin p
  | none => pure (.error (.manifestInvalid "安装后未能加载插件（校验失败或版本门槛不满足）"))

def purge (identity : String) : Disk Unit := do
  let installed ← pathExists (m.pluginDir identity)
  if installed then do
    let _ ← removeDirAll (m.pluginDir identity)
    pure ()
  else pure ()

/-- A plugin that does not pass the validation is removed; what becomes of the configuration is
beside the files. -/
def finishInstall (identity : String) : Install Unit := do
  let result ← ExceptT.lift (m.validation identity)
  match result with
  | .ok () => pure ()
  | .error e => do
      ExceptT.lift (m.purge identity)
      throw e

def finished (install : Install String) : Install String := do
  let identity ← install
  m.finishInstall identity
  pure identity

def installFromZip (uuid : String) (bytes : Bytes) : Install String :=
  m.finished (m.installZip uuid bytes)

def installFromDir (path : Path) : Install String := m.finished (m.installDir path)

end PluginManager

/-! ## The market -/

/-- A client of the market over its plugin manager. -/
structure MarketClient (F64 : Type) where
  manager : PluginManager F64
  sha256Hex : Bytes → String
  mirrorUrlAllowed : String → Bool

namespace MarketClient

variable {F64 : Type} (client : MarketClient F64)

def expectedHash (entry : MarketEntry) : String :=
  (String.ofList (let hash := entry.contentHash.toList
    if "sha256:".toList.isPrefixOf hash then hash.drop "sha256:".length else hash)).toLower

/-- The loop over the mirrors; `replies` has what is sent at each place of the list. -/
def tryMirrors (expected : String) (replies : ℕ → MarketSources.Reply) :
    ℕ → List String → Except MarketError Bytes
  | _, [] => .error .allMirrorsFailed
  | i, url :: mirrors =>
      if client.mirrorUrlAllowed url then
        match MarketSources.fetch MarketSources.maxFxplugBytes .tooLarge (replies i) with
        | .ok bytes =>
            if client.sha256Hex bytes = expected then .ok bytes
            else tryMirrors expected replies (i + 1) mirrors
        | .error _ => tryMirrors expected replies (i + 1) mirrors
      else tryMirrors expected replies (i + 1) mirrors

def downloadVerified (entry : MarketEntry) (replies : ℕ → MarketSources.Reply) :
    Except MarketError Bytes :=
  if entry.mirrors.isEmpty then .error (.notFound s!"{entry.pluginId} 无可用镜像")
  else client.tryMirrors (expectedHash entry) replies 0 entry.mirrors

/-- What an installation downloads, if the entry is not withdrawn. -/
def download (entry : MarketEntry) (allowYanked : Bool) (replies : ℕ → MarketSources.Reply) :
    Except MarketError Bytes :=
  if entry.yanked = "malicious" then .error (.yanked "malicious")
  else if entry.yanked ≠ "none" ∧ allowYanked = false then .error (.yanked entry.yanked)
  else client.downloadVerified entry replies

def installEntry (entry : MarketEntry) (allowYanked : Bool) (uuid : String)
    (replies : ℕ → MarketSources.Reply) : Failing FsOp FsOp.Reply MarketError String :=
  match client.download entry allowYanked replies with
  | .error e => throw e
  | .ok bytes => ExceptT.mk ((fun r => r.mapError MarketError.plugin) <$>
      (client.manager.installFromZip uuid bytes).run)

end MarketClient

end RinaDown.PluginInstall
