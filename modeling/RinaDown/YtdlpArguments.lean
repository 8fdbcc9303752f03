import RinaDown.JailedArguments

/-!
# Arguments of yt-dlp

The jail of yt-dlp looks at each argument on its own; the program reads a command line. A long
option may be abbreviated and may carry its value behind an equals sign, short options may be
clustered, and the last of them may carry its value. What the jail accepts is harmless just where
nothing harmful is spelled in a way that the jail does not look at.
-/

namespace RinaDown.YtdlpArguments
open List Option

open CharacterPatterns (Text)
open JailedArguments (InvalidOutput contains forM_ok hasParent isAbsolute isSeparator)

def maxYtdlpArgLen : ℕ := 8 * 1024

def ytdlpBlockedFlags : List String :=
  ["--exec", "--exec-before-download", "--downloader", "--external-downloader",
    "--config-location", "--config-locations", "--plugin-dirs", "--ffmpeg-location",
    "--batch-file", "-a", "--load-info-json", "--load-info", "--cookies-from-browser", "--proxy",
    "--geo-verification-proxy"]

/-- What stands before the first equals sign. -/
def flagOf (a : String) : String := String.ofList (a.toList.takeWhile (· ≠ '='))

def startsWithLower (start a : Text) : Bool := start.isPrefixOf (a.map Char.toLower)

def isFileUrl (a : Text) : Bool := startsWithLower "file:".toList a

def isDrivePath : Text → Bool
  | [letter, ':'] => letter.isAlpha
  | letter :: ':' :: c :: _ => letter.isAlpha && isSeparator c
  | _ => false

def ytdlpArgRejectReason (arg : String) : Option String :=
  let a := arg.toList
  if ytdlpBlockedFlags.contains (flagOf arg) then some "危险开关"
  else if isFileUrl a then some "file: 本地方案"
  else if contains a [':', '/', '/'] then none
  else if isAbsolute a then some "绝对路径"
  else if isDrivePath a then some "盘符路径"
  else if hasParent a then some ".. 越级"
  else if contains a [':', '/'] || contains a [':', '\\'] then some "内嵌绝对路径"
  else none

def validateYtdlpArg (a : String) : Except InvalidOutput Unit :=
  if maxYtdlpArgLen < a.utf8ByteSize then .error "yt-dlp 参数过长"
  else if a.toList.contains (Char.ofNat 0) then .error "yt-dlp 参数含 NUL"
  else match ytdlpArgRejectReason a with
    | some reason => .error s!"yt-dlp 参数 '{a}' 被拒: {reason}"
    | none => .ok ()

def validateYtdlpArgs (args : List String) : Except InvalidOutput Unit :=
  args.forM validateYtdlpArg

/-! ## The command line -/

/-- The names of the options, long and short, with the number of values of each. -/
abbrev OptionTable := List (String × ℕ)

inductive Form where
  | full
  | abbreviated
  | clustered
deriving DecidableEq

/-- A value is attached where it stands in the argument of its option. -/
structure Value where
  text : String
  attached : Bool
deriving DecidableEq

/-- An option of the command line under its name in the table. -/
structure Selection where
  name : String
  form : Form
  values : List Value
deriving DecidableEq

/-- Options that are complete, and one that waits for values, with how many follow the next. -/
abbrev Options := List Selection × Option (Selection × ℕ)

def waiting (sel : Selection) : ℕ → Options
  | 0 => ([sel], none)
  | n + 1 => ([], some (sel, n))

/-- A name that is not in the table stands for the only one that it begins. -/
def matchLong (table : OptionTable) (flag : String) : Option (String × ℕ) :=
  match table.find? (·.1 = flag) with
  | some option => some option
  | none =>
      match table.filter fun option => flag.toList.isPrefixOf option.1.toList with
      | [option] => some option
      | _ => none

def longOption (table : OptionTable) (arg : String) : Option Options :=
  match matchLong table (flagOf arg) with
  | none => none
  | some (name, nargs) =>
      let form := if flagOf arg = name then .full else .abbreviated
      match arg.toList.dropWhile (· ≠ '='), nargs with
      | [], _ => some (waiting ⟨name,form,[]⟩ nargs)
      | _ :: _, 0 => none
      | _ :: value, n + 1 => some (waiting ⟨name,form,[⟨String.ofList value,true⟩]⟩ n)

/-- The letters of a cluster, to the first option with a value, which takes the rest. -/
def shortOptions (table : OptionTable) (flag : String) : Text → Option Options
  | [] => some ([], none)
  | c :: rest =>
      match table.find? (·.1 = String.ofList ['-', c]) with
      | none => none
      | some (name, nargs) =>
          let form := if flag = name then .full else .clustered
          match nargs, rest with
          | 0, _ => (shortOptions table flag rest).map fun o => (⟨name,form,[]⟩ :: o.1, o.2)
          | n + 1, [] => some ([], some (⟨name,form,[]⟩, n))
          | n + 1, _ :: _ => some (waiting ⟨name,form,[⟨String.ofList rest,true⟩]⟩ n)

def readOptions (table : OptionTable) (arg : String) : Option Options :=
  match arg.toList with
  | '-' :: '-' :: _ => longOption table arg
  | '-' :: c :: rest => shortOptions table (flagOf arg) (c :: rest)
  | _ => some ([], none)

def Selection.add (sel : Selection) (arg : String) : Selection :=
  { sel with values := sel.values ++ [⟨arg,false⟩] }

/-- The options of a command line, after one that waits for values; nothing where it is not
one. -/
def parse (table : OptionTable) : Option (Selection × ℕ) → List String → Option (List Selection)
  | none, [] => some []
  | some _, [] => none
  | some (sel, 0), arg :: rest => (parse table none rest).map (sel.add arg :: ·)
  | some (sel, n + 1), arg :: rest => parse table (some (sel.add arg, n)) rest
  | none, arg :: rest =>
      if arg = "--" then some []
      else (readOptions table arg).bind fun o => (parse table o.2 rest).map (o.1 ++ ·)

/-! ## What is harmful -/

def isNetworkUrl (v : Text) : Bool :=
  startsWithLower "http://".toList v || startsWithLower "https://".toList v ||
    startsWithLower "ftp://".toList v

def isHarmful (v : Text) : Bool :=
  !isNetworkUrl v && (isFileUrl v || isAbsolute v || isDrivePath v || hasParent v)

/-- The command line selects no blocked option, and no value is harmful. -/
def Safe (table : OptionTable) (args : List String) : Prop :=
  ∀ sels, parse table none args = some sels → ∀ sel ∈ sels,
    sel.name ∉ ytdlpBlockedFlags ∧ ∀ v ∈ sel.values, isHarmful v.text.toList = false

/-- No blocked option is abbreviated or in a cluster, and no value is harmful that is attached to
its option or has the mark of a URL in it. -/
def Covered (table : OptionTable) (args : List String) : Prop :=
  ∀ sels, parse table none args = some sels → ∀ sel ∈ sels,
    (sel.form ≠ .full → sel.name ∉ ytdlpBlockedFlags) ∧
    ∀ v ∈ sel.values, v.attached = true ∨ contains v.text.toList [':', '/', '/'] = true →
      isHarmful v.text.toList = false

/-! ## What comes from the arguments -/

/-- An option in full is the flag of an argument, and a value that is not attached is one. -/
structure FromArguments (args : List String) (sel : Selection) : Prop where
  flag : sel.form = .full → ∃ arg ∈ args, flagOf arg = sel.name
  values : ∀ v ∈ sel.values, v.attached = false → v.text ∈ args

variable {table : OptionTable} {args : List String} {arg : String}

theorem FromArguments.add {sel : Selection} (h : FromArguments args sel) (harg : arg ∈ args) :
    FromArguments args (sel.add arg) where
  flag := h.flag
  values v hv hattached := by
    rcases mem_append.mp hv with hv | hv
    · exact h.values v hv hattached
    · rw [mem_singleton.mp hv]
      exact harg

/-- What holds of the options that are complete and of the one that waits. -/
structure AllOptions (P : Selection → Prop) (o : Options) : Prop where
  complete : ∀ sel ∈ o.1, P sel
  pending : ∀ e ∈ o.2, P e.1

theorem allOptions_waiting {P : Selection → Prop} {sel : Selection} (h : P sel) (n : ℕ) :
    AllOptions P (waiting sel n) := by
  cases n with
  | zero => exact ⟨fun s hs => mem_singleton.mp hs ▸ h,fun e he => nomatch he⟩
  | succ n =>
      refine ⟨fun s hs => absurd hs not_mem_nil,fun e he => ?_⟩
      cases he
      exact h

/-- An option that has been read off an argument, with the attached values only. -/
theorem fromArguments_of_attached (harg : arg ∈ args) {name : String} {form : Form}
    {values : List Value} (hform : form = .full → flagOf arg = name)
    (hvalues : ∀ v ∈ values, v.attached = true) : FromArguments args ⟨name,form,values⟩ where
  flag hfull := ⟨arg,harg,hform hfull⟩
  values v hv hattached := by
    rw [hvalues v hv] at hattached
    cases hattached

theorem longOption_options (harg : arg ∈ args) {o : Options} (h : longOption table arg = some o) :
    AllOptions (FromArguments args) o := by
  rw [longOption] at h
  cases hmatch : matchLong table (flagOf arg) with
  | none =>
      rw [hmatch] at h
      cases h
  | some option =>
      obtain ⟨name,nargs⟩ := option
      rw [hmatch] at h
      have hform : (if flagOf arg = name then Form.full else .abbreviated) = .full →
          flagOf arg = name := by
        split_ifs with hname
        · exact fun _ => hname
        · exact fun hfull => nomatch hfull
      dsimp only at h
      split at h
      · cases h
        exact allOptions_waiting (fromArguments_of_attached harg hform
          fun v hv => absurd hv not_mem_nil) _
      · cases h
      · cases h
        exact allOptions_waiting (fromArguments_of_attached harg hform
          fun v hv => mem_singleton.mp hv ▸ rfl) _

theorem shortOptions_options (harg : arg ∈ args) {letters : Text} {o : Options}
    (h : shortOptions table (flagOf arg) letters = some o) :
    AllOptions (FromArguments args) o := by
  induction letters generalizing o with
  | nil =>
      cases h
      exact ⟨fun _ hs => absurd hs not_mem_nil,fun e he => nomatch he⟩
  | cons c rest ih =>
      rw [shortOptions] at h
      cases hfind : table.find? (·.1 = String.ofList ['-', c]) with
      | none =>
          rw [hfind] at h
          cases h
      | some option =>
          obtain ⟨name,nargs⟩ := option
          rw [hfind] at h
          have hform : (if flagOf arg = name then Form.full else .clustered) = .full →
              flagOf arg = name := by
            split_ifs with hname
            · exact fun _ => hname
            · exact fun hfull => nomatch hfull
          dsimp only at h
          split at h
          · obtain ⟨o',ho',rfl⟩ := map_eq_some_iff.mp h
            refine ⟨fun sel hsel => ?_,(ih ho').pending⟩
            rcases mem_cons.mp hsel with rfl | hsel
            · exact fromArguments_of_attached harg hform fun v hv => absurd hv not_mem_nil
            · exact (ih ho').complete sel hsel
          · cases h
            refine ⟨fun _ hs => absurd hs not_mem_nil,fun e he => ?_⟩
            cases he
            exact fromArguments_of_attached harg hform fun v hv => absurd hv not_mem_nil
          · cases h
            exact allOptions_waiting (fromArguments_of_attached harg hform
              fun v hv => mem_singleton.mp hv ▸ rfl) _

theorem readOptions_options (harg : arg ∈ args) {o : Options} (h : readOptions table arg = some o) :
    AllOptions (FromArguments args) o := by
  rw [readOptions] at h
  split at h
  · exact longOption_options harg h
  · exact shortOptions_options harg h
  · cases h
    exact ⟨fun _ hs => absurd hs not_mem_nil,fun e he => nomatch he⟩

/-- Every option of a command line comes from its arguments. -/
theorem parse_options {pending : Option (Selection × ℕ)} {rest : List String}
    (hrest : ∀ arg ∈ rest, arg ∈ args) (hpending : ∀ e ∈ pending, FromArguments args e.1)
    {sels : List Selection} (h : parse table pending rest = some sels) :
    ∀ sel ∈ sels, FromArguments args sel := by
  induction rest generalizing pending sels with
  | nil =>
      cases pending with
      | none =>
          cases h
          exact fun _ hmem => absurd hmem not_mem_nil
      | some e => cases h
  | cons arg rest ih =>
      have harg := hrest arg mem_cons_self
      have hrest' : ∀ arg ∈ rest, arg ∈ args := fun a ha => hrest a (mem_cons_of_mem arg ha)
      cases pending with
      | none =>
          rw [parse] at h
          split_ifs at h with hend
          · cases h
            exact fun _ hmem => absurd hmem not_mem_nil
          · obtain ⟨o,ho,h⟩ := bind_eq_some_iff.mp h
            obtain ⟨later,hlater,rfl⟩ := map_eq_some_iff.mp h
            have hoptions := readOptions_options harg ho
            intro sel hsel
            rcases mem_append.mp hsel with hsel | hsel
            · exact hoptions.complete sel hsel
            · exact ih hrest' hoptions.pending hlater sel hsel
      | some e =>
          obtain ⟨sel,n⟩ := e
          have hsel : FromArguments args (sel.add arg) := (hpending (sel, n) rfl).add harg
          cases n with
          | zero =>
              obtain ⟨later,hlater,rfl⟩ := map_eq_some_iff.mp h
              intro s hs
              rcases mem_cons.mp hs with rfl | hs
              · exact hsel
              · exact ih hrest' (fun e he => absurd he (not_mem_none e)) hlater s hs
          | succ n =>
              refine ih hrest' (fun e he => ?_) h
              cases he
              exact hsel

/-! ## What is accepted -/

theorem argRejectReason_of_validate (h : validateYtdlpArgs args = .ok ()) :
    ∀ arg ∈ args, ytdlpArgRejectReason arg = none := by
  intro arg harg
  have hvalid := forM_ok h arg harg
  rw [validateYtdlpArg] at hvalid
  split_ifs at hvalid with hlength hnul
  cases hreason : ytdlpArgRejectReason arg with
  | none => rfl
  | some reason =>
      rw [hreason] at hvalid
      cases hvalid

theorem not_blocked_of_accepted (h : ytdlpArgRejectReason arg = none) :
    flagOf arg ∉ ytdlpBlockedFlags := by
  intro hblocked
  rw [ytdlpArgRejectReason, if_pos (contains_iff_mem.mpr hblocked)] at h
  cases h

/-- An argument without the mark of a URL passes the checks of a path. -/
theorem not_harmful_of_accepted (h : ytdlpArgRejectReason arg = none)
    (hurl : contains arg.toList [':', '/', '/'] = false) : isHarmful arg.toList = false := by
  rw [ytdlpArgRejectReason] at h
  simp only [hurl, Bool.false_eq_true, if_false] at h
  split_ifs at h with hblocked hfile habsolute hdrive hparent hembedded
  rw [Bool.not_eq_true] at hfile habsolute hdrive hparent
  rw [isHarmful, hfile, habsolute, hdrive, hparent]
  exact Bool.and_false _

/-- What the jail accepts is safe just where it is covered. -/
theorem ytdlp_arguments_safe_iff (table : OptionTable) (args : List String) :
    (validateYtdlpArgs args = .ok () → Safe table args) ↔
      (validateYtdlpArgs args = .ok () → Covered table args) := by
  constructor
  · intro h hvalid sels hparse sel hsel
    have hsafe := h hvalid sels hparse sel hsel
    exact ⟨fun _ => hsafe.1,fun v hv _ => hsafe.2 v hv⟩
  · intro h hvalid sels hparse sel hsel
    have hcovered := h hvalid sels hparse sel hsel
    have haccepted := argRejectReason_of_validate hvalid
    have hfrom := parse_options (fun _ harg => harg)
      (fun e he => absurd he (not_mem_none e)) hparse sel hsel
    refine ⟨fun hblocked => ?_,fun v hv => ?_⟩
    · by_cases hfull : sel.form = .full
      · obtain ⟨arg,harg,hflag⟩ := hfrom.flag hfull
        rw [← hflag] at hblocked
        exact not_blocked_of_accepted (haccepted arg harg) hblocked
      · exact hcovered.1 hfull hblocked
    · by_cases hvisible : v.attached = true ∨ contains v.text.toList [':', '/', '/'] = true
      · exact hcovered.2 v hv hvisible
      · rw [not_or, Bool.not_eq_true, Bool.not_eq_true] at hvisible
        exact not_harmful_of_accepted (haccepted v.text (hfrom.values v hv hvisible.1)) hvisible.2

def sampleTable : OptionTable :=
  [("--batch-file", 1), ("-a", 1), ("--cookies", 1), ("--cookies-from-browser", 1), ("--proxy", 1)]

/-- A blocked flag by an abbreviation and by an attached value, and an absolute path behind an
equals sign. -/
theorem ytdlp_arguments_escape :
    validateYtdlpArgs ["--batch-f=list.txt", "-alist.txt", "--cookies=/etc/passwd"] = .ok () ∧
      parse sampleTable none ["--batch-f=list.txt", "-alist.txt", "--cookies=/etc/passwd"] =
        some [⟨"--batch-file",.abbreviated,[⟨"list.txt",true⟩]⟩,
          ⟨"-a",.clustered,[⟨"list.txt",true⟩]⟩,
          ⟨"--cookies",.full,[⟨"/etc/passwd",true⟩]⟩] ∧
      isHarmful "/etc/passwd".toList = true ∧
      ¬ Safe sampleTable ["--batch-f=list.txt", "-alist.txt", "--cookies=/etc/passwd"] := by
  have hparse : parse sampleTable none
      ["--batch-f=list.txt", "-alist.txt", "--cookies=/etc/passwd"] =
        some [⟨"--batch-file",.abbreviated,[⟨"list.txt",true⟩]⟩,
          ⟨"-a",.clustered,[⟨"list.txt",true⟩]⟩,
          ⟨"--cookies",.full,[⟨"/etc/passwd",true⟩]⟩] := by
    decide +kernel
  refine ⟨rfl,hparse,by decide,fun hsafe => ?_⟩
  exact (hsafe _ hparse _ mem_cons_self).1 (by decide)

end RinaDown.YtdlpArguments
