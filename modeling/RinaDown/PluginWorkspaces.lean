import RinaDown.PluginInstallFrame

/-!
# Workspaces of plugins

A plugin reads and writes files under plain names in a workspace of its own. Its directory is the
identity of the plugin, in which every character but letters, digits, `-` and `_` is replaced by
`_`. So two plugins have one workspace where their identities differ only in where the `@` stands
among underscores.
-/

namespace RinaDown.PluginWorkspaces
open List

open CharacterPatterns (Text)
open FileSystem (Bytes Path)
open PluginInstall (Component absolute joinPath)
open PluginManifest (identityChar_plain identity_parts isDriveLetter isIdentityChar isValidIdentity
  splitSeparators)

def maxFsFileBytes : ℕ := 8 * 1024 * 1024

def maxFsTotalBytes : ℕ := 64 * 1024 * 1024

def maxFsFiles : ℕ := 100

def maxFsNameLen : ℕ := 255

/-! ## Paths -/

def segmentComponent (segment : Text) : Option Component :=
  if segment = [] then none
  else if segment = ['.'] then some .curDir
  else if segment = ['.', '.'] then some .parentDir
  else some (.normal (String.ofList segment))

def components (name : String) : List Component :=
  let text := name.toList
  if isDriveLetter text then
    .drive (String.ofList (text.take 2)) :: (splitSeparators (text.drop 2)).filterMap segmentComponent
  else
    (if text.head?.any fun c => c = '/' || c = '\\' then [.rootDir] else []) ++
      (splitSeparators text).filterMap segmentComponent

def join (base : List Component) (name : String) : List Component := joinPath base (components name)

/-- What an identity is made of that is no letter, digit, `-` or `_` becomes `_`. -/
def sanitize (pluginId : String) : String :=
  String.ofList (pluginId.toList.map fun c => if c.isAlphanum || c = '-' || c = '_' then c else '_')

def pluginWorkspace (dataDir : Path) (pluginId : String) : List Component :=
  join (absolute (dataDir ++ ["plugins-work"])) (sanitize pluginId)

def fsNameRejectReason (name : String) : Option String :=
  if name = "" then some "空文件名"
  else if maxFsNameLen < name.utf8ByteSize then some "文件名过长"
  else if name = "." || name = ".." then some ". / .. 保留名"
  else if name.toList.any (fun c => c = '/' || c = '\\' || c = ':') ||
      name.toList.contains (Char.ofNat 0) then some "含路径分隔/盘符/NUL"
  else none

/-! ## Operations -/

inductive BridgeError where
  | invalidOutput (message : String)
  | runtime (message : String)

/-- A file, with the plugin that wrote it last. -/
structure File where
  writer : String
  bytes : Bytes

/-- A plugin read, overwrote or deleted a file that a plugin had written. -/
structure Access where
  actor : String
  path : List Component
  writer : String
deriving DecidableEq

/-- The files, and what has been read, overwritten or deleted. -/
structure State where
  files : List Component → Option File
  accesses : List Access

def emptyState : State := ⟨fun _ => none,[]⟩

def State.touch (s : State) (actor : String) (path : List Component) : State :=
  { s with accesses := s.accesses ++ (s.files path).toList.map fun f => ⟨actor,path,f.writer⟩ }

def State.put (s : State) (actor : String) (path : List Component) (bytes : Bytes) : State :=
  let s := s.touch actor path
  { s with files := Function.update s.files path (some ⟨actor,bytes⟩) }

def State.delete (s : State) (actor : String) (path : List Component) : State :=
  let s := s.touch actor path
  { s with files := Function.update s.files path none }

/-- What a write meets: a workspace that cannot be created, the files of the workspace with their
sizes, and a failure of the write, with what it leaves of the file. -/
structure WriteSeen where
  createError : Option String
  listing : List (String × ℕ)
  writeError : Option (String × Option Bytes)

def checkName (name : String) : Except BridgeError Unit :=
  match fsNameRejectReason name with
  | some reason => .error (.invalidOutput s!"flux.fs 文件名 '{name}' 非法: {reason}")
  | none => .ok ()

def existingSize (listing : List (String × ℕ)) (name : String) : Option ℕ :=
  (listing.filter fun e => e.1 = name).getLast?.map Prod.snd

def checkWrite (name : String) (content : Bytes) (seen : WriteSeen) : Except BridgeError Unit := do
  checkName name
  if maxFsFileBytes < content.length then
    throw (.invalidOutput s!"flux.fs 文件超过 {maxFsFileBytes} 字节上限")
  match seen.createError with
  | some e => throw (.runtime s!"flux.fs 创建工作区失败: {e}")
  | none => pure ()
  let existing := existingSize seen.listing name
  let total := (seen.listing.map Prod.snd).sum
  if existing = none ∧ maxFsFiles ≤ seen.listing.length then
    throw (.invalidOutput s!"flux.fs 文件数超过 {maxFsFiles} 上限")
  if maxFsTotalBytes < total - existing.getD 0 + content.length then
    throw (.invalidOutput s!"flux.fs 工作区总量超过 {maxFsTotalBytes} 字节上限")

section
variable (dataDir : Path)

def filePath (plugin name : String) : List Component := join (pluginWorkspace dataDir plugin) name

def fsWrite (s : State) (plugin name : String) (content : Bytes) (seen : WriteSeen) :
    Except BridgeError Unit × State :=
  match checkWrite name content seen with
  | .error e => (.error e, s)
  | .ok () =>
      let path := filePath dataDir plugin name
      match seen.writeError with
      | none => (.ok (), s.put plugin path content)
      | some (e, none) => (.error (.runtime s!"flux.fs 写入失败: {e}"), s)
      | some (e, some left) => (.error (.runtime s!"flux.fs 写入失败: {e}"), s.put plugin path left)

/-- The bytes that are read, of which a text is made. -/
def fsRead (s : State) (plugin name : String) (readError : Bool) : Option Bytes × State :=
  if (fsNameRejectReason name).isSome then (none, s)
  else
    let path := filePath dataDir plugin name
    if readError then (none, s)
    else ((s.files path).map fun f => f.bytes.take maxFsFileBytes, s.touch plugin path)

def fsRemove (s : State) (plugin name : String) (removeError : Option String) :
    Except BridgeError Unit × State :=
  match checkName name with
  | .error e => (.error e, s)
  | .ok () =>
      match removeError with
      | some e => (.error (.runtime s!"flux.fs 删除失败: {e}"), s)
      | none => (.ok (), s.delete plugin (filePath dataDir plugin name))

/-- What a run of yt-dlp does to a path below its working directory. -/
inductive Effect where
  | read
  | write (bytes : Bytes)
  | delete

def applyEffect (plugin : String) (s : State) (path : Path) (effect : Effect) : State :=
  let path := pluginWorkspace dataDir plugin ++ path.map .normal
  match effect with
  | .read => s.touch plugin path
  | .write bytes => s.put plugin path bytes
  | .delete => s.delete plugin path

inductive Label where
  | fsWrite (plugin name : String) (content : Bytes) (seen : WriteSeen)
  | fsRead (plugin name : String) (readError : Bool)
  | fsRemove (plugin name : String) (removeError : Option String)
  | ytdlp (plugin : String) (path : Path) (effect : Effect)

def Label.plugin : Label → String
  | .fsWrite plugin _ _ _ | .fsRead plugin _ _ | .fsRemove plugin _ _ | .ytdlp plugin _ _ => plugin

/-- One operation; a run of yt-dlp is interleaved effect by effect. -/
def step (s : State) : Label → State
  | .fsWrite plugin name content seen => (fsWrite dataDir s plugin name content seen).2
  | .fsRead plugin name readError => (fsRead dataDir s plugin name readError).2
  | .fsRemove plugin name removeError => (fsRemove dataDir s plugin name removeError).2
  | .ytdlp plugin path effect => applyEffect dataDir plugin s path effect

def run : State → List Label → State := List.foldl (step dataDir)

end

/-- No plugin touched a file that another had written. -/
def Isolated (s : State) : Prop := ∀ a ∈ s.accesses, a.writer = a.actor

/-! ## Names -/

theorem components_plain {name : String} (hne : name.toList ≠ [])
    (hchars : ∀ c ∈ name.toList, c ≠ '/' ∧ c ≠ '\\' ∧ c ≠ ':') (hdot : name.toList ≠ ['.'])
    (hdots : name.toList ≠ ['.', '.']) : components name = [.normal name] := by
  have hsplit : splitSeparators name.toList = [name.toList] := by
    apply splitOnP_eq_singleton
    intro c hc
    simp [(hchars c hc).1, (hchars c hc).2.1]
  have hdrive : isDriveLetter name.toList = false := by
    simp only [isDriveLetter]
    split
    · rename_i letter rest heq
      have hcolon : ':' ∈ name.toList := by
        rw [heq]
        exact mem_cons_of_mem letter mem_cons_self
      exact absurd rfl (hchars ':' hcolon).2.2
    · rfl
  have hroot : (name.toList.head?.any fun c => c = '/' || c = '\\') = false := by
    cases hhead : name.toList.head? with
    | none => rfl
    | some c =>
        have hc := hchars c (mem_of_head? hhead)
        simp [hc.1, hc.2.1]
  have hsegment : segmentComponent name.toList = some (.normal name) := by
    rw [segmentComponent, if_neg hne, if_neg hdot, if_neg hdots, String.ofList_toList]
  simp [components, hdrive, hroot, hsplit, hsegment]

theorem join_plain {base : List Component} {name : String} (h : components name = [.normal name]) :
    join base name = base ++ [.normal name] := by
  rw [join, h]
  rfl

theorem join_of_accepted {base : List Component} {name : String}
    (h : fsNameRejectReason name = none) : join base name = base ++ [.normal name] := by
  rw [fsNameRejectReason] at h
  split_ifs at h with hempty hlength hdots hchars
  rw [Bool.or_eq_true, not_or, decide_eq_true_iff, decide_eq_true_iff] at hdots
  rw [Bool.or_eq_true, not_or] at hchars
  have hname : ∀ t : String, name ≠ t → name.toList ≠ t.toList :=
    fun t hne heq => hne (String.toList_injective heq)
  apply join_plain
  apply components_plain
  · exact hname "" hempty
  · intro c hc
    have hfree := fun h => hchars.1 (any_eq_true.mpr ⟨c,hc,h⟩)
    rw [Bool.or_eq_true, Bool.or_eq_true, decide_eq_true_iff, decide_eq_true_iff,
      decide_eq_true_iff, imp_false, not_or, not_or] at hfree
    exact ⟨hfree.1.1,hfree.1.2,hfree.2⟩
  · exact hname "." hdots.1
  · exact hname ".." hdots.2

/-! ## Identities -/

/-- Two identities that differ in which of two places has the `@` and which an underscore. -/
def Collide (a b : String) : Prop :=
  ∃ p q r : Text, a.toList = p ++ '@' :: q ++ '_' :: r ∧ b.toList = p ++ '_' :: q ++ '@' :: r

theorem isIdentityChar_kept {c : Char} (h : isIdentityChar c = true) :
    (if c.isAlphanum || c = '-' || c = '_' then c else '_') = c := by
  apply if_pos
  rw [isIdentityChar, Bool.or_eq_true, Bool.or_eq_true, Bool.or_eq_true] at h
  delta Char.isAlphanum Char.isAlpha
  rw [Bool.or_eq_true, Bool.or_eq_true, Bool.or_eq_true, Bool.or_eq_true]
  rcases h with ((hlower | hdigit) | hunderscore) | hdash
  · exact .inl (.inl (.inl (.inr hlower)))
  · exact .inl (.inl (.inr hdigit))
  · exact .inr hunderscore
  · exact .inl (.inr hdash)

theorem map_kept {text : Text} (h : ∀ c ∈ text, isIdentityChar c = true) :
    (text.map fun c => if c.isAlphanum || c = '-' || c = '_' then c else '_') = text := by
  rw [map_congr_left fun c hc => isIdentityChar_kept (h c hc), map_id']

theorem toList_sanitize {s : String} {author name : Text} (hs : s.toList = author ++ '@' :: name)
    (hauthor : ∀ c ∈ author, isIdentityChar c = true) (hname : ∀ c ∈ name, isIdentityChar c = true) :
    (sanitize s).toList = author ++ '_' :: name := by
  rw [sanitize, String.toList_ofList, hs, map_append, map_cons, map_kept hauthor,
    map_kept hname]
  rfl

variable {dataDir : Path} {a b : String}

theorem pluginWorkspace_of_valid (dataDir : Path) (h : isValidIdentity a = true) :
    pluginWorkspace dataDir a = absolute (dataDir ++ ["plugins-work"]) ++ [.normal (sanitize a)] := by
  obtain ⟨author,name,ha,hne,hauthor,hname⟩ := identity_parts h
  have htext := toList_sanitize ha hauthor hname
  have hplain : ∀ c ∈ (sanitize a).toList, c ≠ '/' ∧ c ≠ '\\' ∧ c ≠ ':' ∧ c ≠ '.' := by
    rw [htext]
    intro c hc
    rcases mem_append.mp hc with hc | hc
    · exact identityChar_plain (hauthor c hc)
    · rcases mem_cons.mp hc with rfl | hc
      · decide
      · exact identityChar_plain (hname c hc)
  have hdot : ∀ rest : Text, (sanitize a).toList ≠ '.' :: rest := by
    intro rest heq
    refine (hplain '.' ?_).2.2.2 rfl
    rw [heq]
    exact mem_cons_self
  apply join_plain
  apply components_plain
  · rw [htext]
    exact append_ne_nil_of_left_ne_nil hne _
  · intro c hc
    exact ⟨(hplain c hc).1,(hplain c hc).2.1,(hplain c hc).2.2.1⟩
  · exact hdot []
  · exact hdot ['.']

/-- One beginning is longer, with an underscore where the other identity has its `@`. -/
theorem collide_of_append {a b : String} {u v x y rest : Text} (ha : a.toList = u ++ '@' :: v)
    (hb : b.toList = x ++ '@' :: y) (hx : x = u ++ rest) (hrest : '_' :: v = rest ++ '_' :: y) :
    a = b ∨ Collide a b := by
  cases rest with
  | nil =>
      left
      apply String.toList_injective
      rw [ha, hb, hx, append_nil, (cons.inj hrest).2]
  | cons c rest =>
      right
      obtain ⟨rfl,rfl⟩ := cons.inj hrest
      refine ⟨u,rest,y,?_,?_⟩
      · rw [ha, append_assoc]
        rfl
      · rw [hb, hx]

theorem not_collide_self {a : String} : ¬ Collide a a := by
  rintro ⟨p,q,r,ha,hb⟩
  rw [ha, append_assoc, append_assoc] at hb
  have hhead := (cons.inj (append_cancel_left hb)).1
  exact absurd hhead (by decide)

theorem sanitize_eq_of_collide {a b : String} (h : Collide a b) : sanitize a = sanitize b := by
  obtain ⟨p,q,r,ha,hb⟩ := h
  simp [sanitize, ha, hb]

/-- Two valid identities become one just where they are equal or collide. -/
theorem sanitize_eq_iff (ha : isValidIdentity a = true) (hb : isValidIdentity b = true) :
    sanitize a = sanitize b ↔ a = b ∨ Collide a b ∨ Collide b a := by
  constructor
  · intro h
    obtain ⟨u,v,hua,-,hu,hv⟩ := identity_parts ha
    obtain ⟨x,y,hxb,-,hx,hy⟩ := identity_parts hb
    rw [← String.toList_inj, toList_sanitize hua hu hv, toList_sanitize hxb hx hy] at h
    rcases append_eq_append_iff.mp h with ⟨rest,hbegins,hrest⟩ | ⟨rest,hbegins,hrest⟩
    · rcases collide_of_append hua hxb hbegins hrest with heq | hcollide
      · exact .inl heq
      · exact .inr (.inl hcollide)
    · rcases collide_of_append hxb hua hbegins hrest with heq | hcollide
      · exact .inl heq.symm
      · exact .inr (.inr hcollide)
  · rintro (rfl | hcollide | hcollide)
    · rfl
    · exact sanitize_eq_of_collide hcollide
    · exact (sanitize_eq_of_collide hcollide).symm

theorem pluginWorkspace_eq_iff (ha : isValidIdentity a = true) (hb : isValidIdentity b = true) :
    pluginWorkspace dataDir a = pluginWorkspace dataDir b ↔ a = b ∨ Collide a b ∨ Collide b a := by
  rw [pluginWorkspace_of_valid dataDir ha, pluginWorkspace_of_valid dataDir hb,
    ← sanitize_eq_iff ha hb]
  constructor
  · intro h
    exact Component.normal.inj (cons.inj (append_cancel_left h)).1
  · intro h
    rw [h]

/-- A path is below one workspace only. -/
theorem pluginWorkspace_eq_of_prefix {path : List Component} (ha : isValidIdentity a = true)
    (hb : isValidIdentity b = true) (hpa : pluginWorkspace dataDir a <+: path)
    (hpb : pluginWorkspace dataDir b <+: path) :
    pluginWorkspace dataDir a = pluginWorkspace dataDir b := by
  apply (prefix_of_prefix_length_le hpa hpb ?_).eq_of_length
  · rw [pluginWorkspace_of_valid dataDir ha, pluginWorkspace_of_valid dataDir hb,
      length_append, length_append]
    rfl
  · rw [pluginWorkspace_of_valid dataDir ha, pluginWorkspace_of_valid dataDir hb,
      length_append, length_append]
    exact Nat.le_refl _

/-! ## Runs -/

/-- Every file is in the workspace of its writer, and every access is of the writer. -/
structure Inv (dataDir : Path) (ids : String → Prop) (s : State) : Prop where
  writers : ∀ path f, s.files path = some f →
    ids f.writer ∧ pluginWorkspace dataDir f.writer <+: path
  isolated : Isolated s

/-- The identities are valid and no two collide. -/
structure Apart (ids : String → Prop) : Prop where
  valid : ∀ a, ids a → isValidIdentity a = true
  apart : ∀ a b, ids a → ids b → ¬ Collide a b

section
variable {ids : String → Prop} {s : State} {actor : String} {path : List Component}

theorem Apart.eq_of_prefix (h : Apart ids) (ha : ids a) (hb : ids b)
    (hpa : pluginWorkspace dataDir a <+: path) (hpb : pluginWorkspace dataDir b <+: path) :
    a = b := by
  have heq := pluginWorkspace_eq_of_prefix (h.valid a ha) (h.valid b hb) hpa hpb
  rcases (pluginWorkspace_eq_iff (h.valid a ha) (h.valid b hb)).mp heq with heq | hab | hba
  · exact heq
  · exact absurd hab (h.apart a b ha hb)
  · exact absurd hba (h.apart b a hb ha)

theorem Inv.touch (h : Inv dataDir ids s) (hids : Apart ids) (hactor : ids actor)
    (hpath : pluginWorkspace dataDir actor <+: path) : Inv dataDir ids (s.touch actor path) where
  writers := h.writers
  isolated access haccess := by
    rcases mem_append.mp haccess with hold | hnew
    · exact h.isolated access hold
    · obtain ⟨f,hf,rfl⟩ := mem_map.mp hnew
      obtain ⟨hwriter,hbelow⟩ := h.writers path f (Option.mem_toList.mp hf)
      exact hids.eq_of_prefix hwriter hactor hbelow hpath

theorem Inv.put (h : Inv dataDir ids s) (hids : Apart ids) (hactor : ids actor)
    (hpath : pluginWorkspace dataDir actor <+: path) (bytes : Bytes) :
    Inv dataDir ids (s.put actor path bytes) where
  writers p f hf := by
    change Function.update s.files path _ p = _ at hf
    by_cases hp : p = path
    · subst hp
      rw [Function.update_self] at hf
      cases hf
      exact ⟨hactor,hpath⟩
    · rw [Function.update_of_ne hp] at hf
      exact h.writers p f hf
  isolated := (h.touch hids hactor hpath).isolated

theorem Inv.delete (h : Inv dataDir ids s) (hids : Apart ids) (hactor : ids actor)
    (hpath : pluginWorkspace dataDir actor <+: path) : Inv dataDir ids (s.delete actor path) where
  writers p f hf := by
    change Function.update s.files path none p = _ at hf
    by_cases hp : p = path
    · subst hp
      rw [Function.update_self] at hf
      cases hf
    · rw [Function.update_of_ne hp] at hf
      exact h.writers p f hf
  isolated := (h.touch hids hactor hpath).isolated

theorem prefix_filePath {plugin name : String} (h : fsNameRejectReason name = none) :
    pluginWorkspace dataDir plugin <+: filePath dataDir plugin name := by
  rw [filePath, join_of_accepted h]
  exact prefix_append _ _

theorem accepted_of_checkName {name : String} (h : checkName name = .ok ()) :
    fsNameRejectReason name = none := by
  rw [checkName] at h
  cases hreason : fsNameRejectReason name with
  | none => rfl
  | some reason =>
      rw [hreason] at h
      cases h

theorem accepted_of_checkWrite {name : String} {content : Bytes} {seen : WriteSeen}
    (h : checkWrite name content seen = .ok ()) : fsNameRejectReason name = none := by
  apply accepted_of_checkName
  rw [checkWrite] at h
  cases hname : checkName name with
  | ok u => rfl
  | error e =>
      rw [hname] at h
      cases h

theorem step_inv (hids : Apart ids) (h : Inv dataDir ids s) (label : Label)
    (hplugin : ids label.plugin) : Inv dataDir ids (step dataDir s label) := by
  cases label with
  | fsWrite plugin name content seen =>
      rw [step, fsWrite]
      cases hcheck : checkWrite name content seen with
      | error e => exact h
      | ok u =>
          have hpath : pluginWorkspace dataDir plugin <+: filePath dataDir plugin name :=
            prefix_filePath (accepted_of_checkWrite hcheck)
          dsimp only
          split
          · exact h.put hids hplugin hpath content
          · exact h
          · exact h.put hids hplugin hpath _
  | fsRead plugin name readError =>
      rw [step, fsRead]
      split_ifs with hname hread
      · exact h
      · exact h
      · rw [Bool.not_eq_true, Option.isSome_eq_false_iff, Option.isNone_iff_eq_none] at hname
        exact h.touch hids hplugin (prefix_filePath hname)
  | fsRemove plugin name removeError =>
      simp only [step, fsRemove]
      cases hname : checkName name with
      | error e => exact h
      | ok u =>
          cases removeError with
          | some e => exact h
          | none => exact h.delete hids hplugin (prefix_filePath (accepted_of_checkName hname))
  | ytdlp plugin path effect =>
      have hpath : pluginWorkspace dataDir plugin <+:
          pluginWorkspace dataDir plugin ++ path.map .normal := prefix_append _ _
      cases effect with
      | read => exact h.touch hids hplugin hpath
      | write bytes => exact h.put hids hplugin hpath bytes
      | delete => exact h.delete hids hplugin hpath

theorem run_inv (hids : Apart ids) (h : Inv dataDir ids s) {labels : List Label}
    (hplugins : ∀ label ∈ labels, ids label.plugin) : Inv dataDir ids (run dataDir s labels) := by
  induction labels generalizing s with
  | nil => exact h
  | cons label labels ih =>
      apply ih (step_inv hids h label (hplugins label mem_cons_self))
      exact fun l hl => hplugins l (mem_cons_of_mem label hl)

theorem inv_emptyState : Inv dataDir ids emptyState where
  writers _ _ hf := by cases hf
  isolated access haccess := absurd haccess not_mem_nil

end

def nothingMet : WriteSeen := ⟨none,[],none⟩

/-- The second plugin reads what the first has written. -/
def sharingLabels (a b : String) : List Label := [.fsWrite a "f" [] nothingMet, .fsRead b "f" false]

theorem sharing_not_isolated (h : pluginWorkspace dataDir a = pluginWorkspace dataDir b)
    (hne : a ≠ b) : ¬ Isolated (run dataDir emptyState (sharingLabels a b)) := by
  intro hisolated
  have haccess : (⟨b,filePath dataDir b "f",a⟩ : Access) ∈
      (run dataDir emptyState (sharingLabels a b)).accesses := by
    have hpath : filePath dataDir b "f" = filePath dataDir a "f" := by
      rw [filePath, filePath, h]
    change _ ∈ ((emptyState.put a (filePath dataDir a "f") []).touch b
      (filePath dataDir b "f")).accesses
    rw [hpath]
    apply mem_append_right
    simp [State.put]
  exact hne (hisolated _ haccess)

/-- Two valid identities share a workspace, and one plugin reads the file of the other. -/
theorem workspaces_shared :
    isValidIdentity "a@b_c" = true ∧ isValidIdentity "a_b@c" = true ∧
      pluginWorkspace ["data"] "a@b_c" = pluginWorkspace ["data"] "a_b@c" ∧
      ¬ Isolated (run ["data"] emptyState (sharingLabels "a@b_c" "a_b@c")) := by
  have hsame : pluginWorkspace ["data"] "a@b_c" = pluginWorkspace ["data"] "a_b@c" := by decide
  exact ⟨by decide,by decide,hsame,sharing_not_isolated hsame (by decide)⟩

/-- The workspaces of two plugins are apart, a file is directly in the workspace of its plugin, and
no run of some plugins touches the files of another one, just where no two identities collide. -/
theorem workspaces_isolated_iff (dataDir : Path) :
    (∀ a b, isValidIdentity a = true → isValidIdentity b = true → a ≠ b →
      ((pluginWorkspace dataDir a ≠ pluginWorkspace dataDir b ∧
        ¬ pluginWorkspace dataDir a <+: pluginWorkspace dataDir b ∧
        ¬ pluginWorkspace dataDir b <+: pluginWorkspace dataDir a) ↔
          ¬ Collide a b ∧ ¬ Collide b a)) ∧
    (∀ plugin name, fsNameRejectReason name = none →
      filePath dataDir plugin name = pluginWorkspace dataDir plugin ++ [.normal name]) ∧
    ∀ ids : String → Prop, (∀ a, ids a → isValidIdentity a = true) →
      ((∀ labels : List Label, (∀ label ∈ labels, ids label.plugin) →
        Isolated (run dataDir emptyState labels)) ↔
          ∀ a b, ids a → ids b → ¬ Collide a b) := by
  refine ⟨fun a b ha hb hne => ?_,fun plugin name h => join_of_accepted h,fun ids hvalid => ?_⟩
  · have heq : pluginWorkspace dataDir a = pluginWorkspace dataDir b ↔
        a = b ∨ Collide a b ∨ Collide b a := pluginWorkspace_eq_iff ha hb
    have hbelow : ∀ {a b}, isValidIdentity a = true → isValidIdentity b = true →
        pluginWorkspace dataDir a <+: pluginWorkspace dataDir b →
          pluginWorkspace dataDir a = pluginWorkspace dataDir b :=
      fun ha hb hbegins => pluginWorkspace_eq_of_prefix ha hb hbegins (prefix_refl _)
    constructor
    · rintro ⟨hapart,-,-⟩
      exact ⟨fun hab => hapart (heq.mpr (.inr (.inl hab))),
        fun hba => hapart (heq.mpr (.inr (.inr hba)))⟩
    · rintro ⟨hab,hba⟩
      have hapart : pluginWorkspace dataDir a ≠ pluginWorkspace dataDir b := by
        intro hsame
        rcases heq.mp hsame with h | h | h
        · exact hne h
        · exact hab h
        · exact hba h
      exact ⟨hapart,fun hbegins => hapart (hbelow ha hb hbegins),
        fun hbegins => hapart (hbelow hb ha hbegins).symm⟩
  · constructor
    · intro hruns a b ha hb hcollide
      have hne : a ≠ b := by
        rintro rfl
        exact not_collide_self hcollide
      have hsame : pluginWorkspace dataDir a = pluginWorkspace dataDir b :=
        (pluginWorkspace_eq_iff (hvalid a ha) (hvalid b hb)).mpr (.inr (.inl hcollide))
      refine sharing_not_isolated hsame hne (hruns (sharingLabels a b) ?_)
      intro label hlabel
      rcases mem_cons.mp hlabel with rfl | hlabel
      · exact ha
      · rw [mem_singleton.mp hlabel]
        exact hb
    · intro hapart labels hplugins
      exact (run_inv ⟨hvalid,hapart⟩ inv_emptyState hplugins).isolated

end RinaDown.PluginWorkspaces
