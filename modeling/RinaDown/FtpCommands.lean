import RinaDown.FtpUrls

/-!
# FTP commands

The user, the password and the path of an address are sent over the control connection, each as
the argument of a command that ends with the end of its line. A server reads line by line, so an
argument with an end of line in it is more than one command.
-/

namespace RinaDown.FtpCommands

open FtpUrls PercentDecoding List Option
open TextSlices

/-! ## The control connection -/

structure Command where
  verb : List Char
  argument : List Char
deriving DecidableEq

def Command.text (c : Command) : List Char := c.verb ++ ' ' :: c.argument ++ ['\r', '\n']

def wire (commands : List Command) : List Char := commands.flatMap Command.text

/-- The password is sent if the server asks for it. -/
def ftpConnectSyncWithProxy (needPassword : Bool) (f : FtpUrl) : List Command :=
  ⟨"USER".toList,f.username⟩ ::
    (if needPassword then [⟨"PASS".toList,f.password⟩] else []) ++ [⟨"TYPE".toList,['I']⟩]

def size (f : FtpUrl) : Command := ⟨"SIZE".toList,f.path⟩

def resumeTransfer (offset : ℕ) : Command := ⟨"REST".toList,Nat.toDigits 10 offset⟩

def retrAsStream (f : FtpUrl) : Command := ⟨"RETR".toList,f.path⟩

def resolveFtpInfoSync (needPassword : Bool) (f : FtpUrl) : List Command :=
  ftpConnectSyncWithProxy needPassword f ++ [size f]

def probeThroughput (needPassword : Bool) (f : FtpUrl) : List Command :=
  ftpConnectSyncWithProxy needPassword f ++ [retrAsStream f]

def verifyFtpRestHonouredSync (needPassword : Bool) (f : FtpUrl) (probeOffset : ℕ) :
    List Command :=
  ftpConnectSyncWithProxy needPassword f ++ [resumeTransfer probeOffset, retrAsStream f]

def ftpDownloadSingle (needPassword : Bool) (f : FtpUrl) (resumeOffset : ℕ) : List Command :=
  ftpConnectSyncWithProxy needPassword f ++
    (if 0 < resumeOffset then [resumeTransfer resumeOffset] else []) ++ [retrAsStream f]

def ftpDoSegment (needPassword : Bool) (f : FtpUrl) (actualStart : ℕ) : List Command :=
  ftpConnectSyncWithProxy needPassword f ++ [resumeTransfer actualStart, retrAsStream f]

/-- What is meant to be sent over the control connections for an address. Commands that have
no argument are left out. -/
inductive Session (f : FtpUrl) : List Command → Prop
  | resolve (needPassword : Bool) : Session f (resolveFtpInfoSync needPassword f)
  | throughput (needPassword : Bool) : Session f (probeThroughput needPassword f)
  | verify (needPassword : Bool) (offset : ℕ) :
      Session f (verifyFtpRestHonouredSync needPassword f offset)
  | single (needPassword : Bool) (offset : ℕ) :
      Session f (ftpDownloadSingle needPassword f offset)
  | segment (needPassword : Bool) (offset : ℕ) : Session f (ftpDoSegment needPassword f offset)

/-! ## The server -/

def withoutReturn (line : List Char) : List Char :=
  if line.getLast? = some '\r' then line.dropLast else line

/-- The verb ends at the first space. -/
def readCommand (line : List Char) : Command :=
  ⟨line.takeWhile (· ≠ ' '),(line.dropWhile (· ≠ ' ')).tail⟩

/-- A command is read when its line has ended. -/
def readCommands (line : List Char) : List Char → List Command
  | [] => []
  | c :: text =>
      if c = '\n' then readCommand (withoutReturn line) :: readCommands [] text
      else readCommands (line ++ [c]) text

/-- What ends a line, or a text for the server. -/
def controls : List Char := ['\r', '\n', Char.ofNat 0]

def Clean (text : List Char) : Prop := ∀ c ∈ controls, c ∉ text

/-- Nothing ends a command early, and the server reads the commands that are meant. -/
structure Carried (f : FtpUrl) : Prop where
  username : Clean f.username
  password : Clean f.password
  path : Clean f.path
  commands : ∀ session, Session f session → readCommands [] (wire session) = session

variable {f : FtpUrl} {c : Char} {l r line text : List Char}

theorem takeWhile_append (h : c ∉ l) : (l ++ c :: r).takeWhile (· ≠ c) = l := by
  have hl : ∀ d ∈ l, decide (d ≠ c) = true := fun d hd => decide_eq_true fun heq => h (heq ▸ hd)
  rw [takeWhile_append_of_pos hl]
  simp

theorem dropWhile_append (h : c ∉ l) : (l ++ c :: r).dropWhile (· ≠ c) = c :: r := by
  have hl : ∀ d ∈ l, decide (d ≠ c) = true := fun d hd => decide_eq_true fun heq => h (heq ▸ hd)
  rw [dropWhile_append_of_pos hl]
  simp

theorem readCommands_append (h : '\n' ∉ l) :
    readCommands line (l ++ '\n' :: text) =
      readCommand (withoutReturn (line ++ l)) :: readCommands [] text := by
  induction l generalizing line with
  | nil => rw [nil_append, readCommands, if_pos rfl, append_nil]
  | cons c l ih =>
    obtain ⟨hc,hl⟩ := not_or.mp (mt mem_cons.mpr h)
    rw [cons_append, readCommands, if_neg (Ne.symm hc), ih hl, append_assoc,
      singleton_append]

theorem withoutReturn_concat : withoutReturn (line ++ ['\r']) = line := by
  rw [withoutReturn, getLast?_concat, if_pos rfl, dropLast_concat]

theorem readCommands_text {command : Command} (hverb : ' ' ∉ command.verb ∧ '\n' ∉ command.verb)
    (h : Clean command.argument) :
    readCommands [] (command.text ++ text) = command :: readCommands [] text := by
  have hline : '\n' ∉ command.verb ++ ' ' :: command.argument ++ ['\r'] := by
    simp [hverb.2, h '\n' (by decide)]
  have htext : command.text ++ text =
      command.verb ++ ' ' :: command.argument ++ ['\r'] ++ '\n' :: text := by
    simp [Command.text]
  rw [htext, readCommands_append hline, nil_append, withoutReturn_concat, readCommand,
    takeWhile_append hverb.1, dropWhile_append hverb.1, tail_cons]

theorem readCommands_wire {commands : List Command}
    (hverb : ∀ command ∈ commands, ' ' ∉ command.verb ∧ '\n' ∉ command.verb)
    (h : ∀ command ∈ commands, Clean command.argument) :
    readCommands [] (wire commands) = commands := by
  induction commands with
  | nil => rfl
  | cons command commands ih =>
    obtain ⟨hverb,hverbs⟩ := forall_mem_cons.mp hverb
    obtain ⟨hargument,harguments⟩ := forall_mem_cons.mp h
    rw [wire, flatMap_cons, readCommands_text hverb hargument]
    exact congrArg _ (ih hverbs harguments)

/-! ## Control bytes -/

variable {gbk : List UInt8 → Option (List Char)} {part : List Char}

/-- The decoder keeps the controls of a text, and makes none. -/
def KeepsControls (gbk : List UInt8 → Option (List Char)) : Prop :=
  ∀ bytes text, gbk bytes = some text → ∀ c ∈ controls,
    (c ∈ text ↔ UInt8.ofNat c.toNat ∈ bytes)

/-- A control that stands for itself, or is written as an escape in a text that can be decoded. -/
def Injects (gbk : List UInt8 → Option (List Char)) (part : List Char) : Prop :=
  ∃ c ∈ controls, c ∈ part ∨ HasEscape (UInt8.ofNat c.toNat) (encode part) ∧
    (decodeBytesUtf8OrGbk gbk (percentDecode (encode part))).isSome

theorem controls_spec : ∀ c ∈ controls, c.toNat < 128 ∧
    hexNibble (UInt8.ofNat c.toNat) = none ∧ UInt8.ofNat c.toNat ≠ percentSign := by
  simp only [controls, forall_mem_cons, not_mem_nil, false_implies, implies_true]
  decide

theorem mem_of_decodeBytes (hgbk : KeepsControls gbk) {bytes : List UInt8}
    (h : decodeBytesUtf8OrGbk gbk bytes = some text) (hc : c ∈ controls) :
    c ∈ text ↔ UInt8.ofNat c.toNat ∈ bytes := by
  rw [decodeBytesUtf8OrGbk] at h
  cases hutf8 : fromUtf8 bytes with
  | none =>
    rw [hutf8] at h
    exact hgbk bytes text h c hc
  | some s =>
    rw [hutf8] at h
    rw [← encode_of_fromUtf8 hutf8, ← some.inj h, mem_encode (controls_spec c hc).1]

theorem mem_decoded (hgbk : KeepsControls gbk) (hc : c ∈ controls) :
    c ∈ decoded gbk part ↔ c ∈ part ∨ HasEscape (UInt8.ofNat c.toNat) (encode part) ∧
      (decodeBytesUtf8OrGbk gbk (percentDecode (encode part))).isSome := by
  obtain ⟨hascii,hdigit,hsign⟩ := controls_spec c hc
  rw [decoded]
  cases h : decodeBytesUtf8OrGbk gbk (percentDecode (encode part)) with
  | none => simp
  | some text =>
    rw [getD_some, mem_of_decodeBytes hgbk h hc, mem_percentDecode hdigit hsign,
      mem_encode hascii]
    simp

theorem clean_decoded (hgbk : KeepsControls gbk) :
    Clean (decoded gbk part) ↔ ¬ Injects gbk part := by
  constructor
  · rintro hclean ⟨c,hc,h⟩
    exact hclean c hc ((mem_decoded hgbk hc).mpr h)
  · intro h c hc hmem
    exact h ⟨c,hc,(mem_decoded hgbk hc).mp hmem⟩

theorem not_injects_nil : ¬ Injects gbk [] := by
  rintro ⟨c,-,hmem | ⟨⟨x,y,-,hinner⟩,-⟩⟩
  · exact not_mem_nil hmem
  · exact cons_ne_nil _ _ (infix_nil.mp hinner)

theorem not_injects_of_plain (hclean : Clean part) (h : '%' ∉ part) : ¬ Injects gbk part := by
  rintro ⟨c,hc,hmem | ⟨⟨x,y,-,hinner⟩,-⟩⟩
  · exact hclean c hc hmem
  · have hsign : percentSign ∈ encode part := hinner.subset mem_cons_self
    exact h ((mem_encode (by decide)).mp hsign)

/-! ## The parts that are sent -/

/-- The user, the password and the path as they are written. -/
def rawParts (text : List Char) : List (List Char) :=
  let hostpath := (text.reverse.takeWhile (· ≠ '@')).reverse
  let userinfo := (text.reverse.dropWhile (· ≠ '@')).tail.reverse
  [userinfo.takeWhile (· ≠ ':'), (userinfo.dropWhile (· ≠ ':')).tail,
    hostpath.dropWhile (· ≠ '/')]

theorem takeWhile_absent (h : c ∉ l) : l.takeWhile (· ≠ c) = l :=
  takeWhile_eq_self_iff.mpr fun _ hd => decide_eq_true fun heq => h (heq ▸ hd)

theorem dropWhile_absent (h : c ∉ l) : l.dropWhile (· ≠ c) = [] :=
  dropWhile_eq_nil_iff.mpr fun _ hd => decide_eq_true fun heq => h (heq ▸ hd)

theorem userinfoOf_eq : userinfoOf text =
    some ((text.reverse.dropWhile (· ≠ '@')).tail.reverse,
      (text.reverse.takeWhile (· ≠ '@')).reverse) := by
  by_cases h : '@' ∈ text
  · obtain ⟨l,r,rfl,hr⟩ := exists_last h
    have hreverse : (l ++ '@' :: r).reverse = r.reverse ++ '@' :: l.reverse := by simp
    have hr' : '@' ∉ r.reverse := mt mem_reverse.mp hr
    rw [userinfoOf_append hr, hreverse, takeWhile_append hr', dropWhile_append hr',
      tail_cons, reverse_reverse, reverse_reverse]
  · have h' : '@' ∉ text.reverse := mt mem_reverse.mp h
    rw [userinfoOf_absent h, takeWhile_absent h', dropWhile_absent h', reverse_reverse]
    rfl

theorem anonymous_clean : Clean "anonymous".toList ∧ Clean "anonymous@".toList := by
  unfold Clean controls
  simp

theorem clean_nil : Clean [] := fun _ _ => not_mem_nil

/-- The user and the password are clean if what they are decoded from injects nothing. -/
theorem clean_credentials (hgbk : KeepsControls gbk) {userinfo username password : List Char}
    (h : credentialsOf gbk userinfo = some (username, password)) :
    Clean username ∧ Clean password ↔ ¬ Injects gbk (userinfo.takeWhile (· ≠ ':')) ∧
      ¬ Injects gbk (userinfo.dropWhile (· ≠ ':')).tail := by
  by_cases hne : userinfo = []
  · rw [hne, credentialsOf_nil] at h
    obtain ⟨rfl,rfl⟩ := Prod.mk.inj (some.inj h)
    rw [hne]
    exact iff_of_true anonymous_clean ⟨not_injects_nil,not_injects_nil⟩
  by_cases hcolon : ':' ∈ userinfo
  · obtain ⟨l,r,rfl,hl⟩ := eq_append_cons_of_mem hcolon
    rw [credentialsOf_password hl] at h
    obtain ⟨rfl,rfl⟩ := Prod.mk.inj (some.inj h)
    rw [takeWhile_append hl, dropWhile_append hl, tail_cons, clean_decoded hgbk,
      clean_decoded hgbk]
  · rw [credentialsOf_user hne hcolon] at h
    obtain ⟨rfl,rfl⟩ := Prod.mk.inj (some.inj h)
    rw [takeWhile_absent hcolon, dropWhile_absent hcolon, clean_decoded hgbk]
    exact and_congr_right fun _ => iff_of_true clean_nil not_injects_nil

theorem clean_path (hgbk : KeepsControls gbk) {hostpath hostport path : List Char}
    (h : hostportOf hostpath = some (hostport, path)) :
    Clean (decoded gbk path) ↔ ¬ Injects gbk (hostpath.dropWhile (· ≠ '/')) := by
  by_cases hslash : '/' ∈ hostpath
  · obtain ⟨l,r,rfl,hl⟩ := eq_append_cons_of_mem hslash
    rw [hostportOf_append hl] at h
    obtain ⟨-,rfl⟩ := Prod.mk.inj (some.inj h)
    rw [dropWhile_append hl, clean_decoded hgbk]
  · rw [hostportOf_absent hslash] at h
    obtain ⟨-,rfl⟩ := Prod.mk.inj (some.inj h)
    have hpath : decoded gbk ['/'] = ['/'] := by
      have hbytes : percentDecode (encode ['/']) = encode ['/'] := rfl
      rw [decoded, hbytes, decode_encode, getD_some]
    rw [dropWhile_absent hslash, hpath]
    exact iff_of_true (by unfold Clean controls; simp) not_injects_nil

/-! ## The sessions -/

theorem clean_offset (offset : ℕ) : Clean (Nat.toDigits 10 offset) := by
  intro c hc hmem
  have hdigit := Texts.isDigit_of_mem hmem
  have hno : ∀ c ∈ controls, c.isDigit = false := by simp [controls]
  rw [hno c hc] at hdigit
  exact Bool.noConfusion hdigit

def Command.Plain (command : Command) : Prop :=
  (' ' ∉ command.verb ∧ '\n' ∉ command.verb) ∧ Clean command.argument

/-- A verb is one word, and an argument is taken from the address. -/
theorem session_plain (husername : Clean f.username) (hpassword : Clean f.password)
    (hpath : Clean f.path) {session : List Command} (h : Session f session) :
    ∀ command ∈ session, command.Plain := by
  have hword : ∀ {verb argument}, ' ' ∉ verb ∧ '\n' ∉ verb → Clean argument →
      (⟨verb,argument⟩ : Command).Plain := fun hverb hargument => ⟨hverb,hargument⟩
  have hsize : (size f).Plain := hword (by simp) hpath
  have hretr : (retrAsStream f).Plain := hword (by simp) hpath
  have hrest : ∀ offset, (resumeTransfer offset).Plain := fun offset =>
    hword (by simp) (clean_offset offset)
  have hconnect : ∀ needPassword, ∀ command ∈ ftpConnectSyncWithProxy needPassword f,
      command.Plain := by
    intro needPassword
    have huser : (⟨"USER".toList,f.username⟩ : Command).Plain := hword (by simp) husername
    have hpass : (⟨"PASS".toList,f.password⟩ : Command).Plain := hword (by simp) hpassword
    have htype : (⟨"TYPE".toList,['I']⟩ : Command).Plain := by
      refine hword (by simp) ?_
      unfold Clean controls
      simp
    cases needPassword with
    | false => exact forall_mem_cons.mpr ⟨huser,forall_mem_singleton.mpr htype⟩
    | true =>
      exact forall_mem_cons.mpr ⟨huser,
        forall_mem_cons.mpr ⟨hpass,forall_mem_singleton.mpr htype⟩⟩
  cases h with
  | resolve needPassword =>
    exact forall_mem_append.mpr ⟨hconnect needPassword,forall_mem_singleton.mpr hsize⟩
  | throughput needPassword =>
    exact forall_mem_append.mpr ⟨hconnect needPassword,forall_mem_singleton.mpr hretr⟩
  | verify needPassword offset | segment needPassword offset =>
    exact forall_mem_append.mpr ⟨hconnect needPassword,
      forall_mem_cons.mpr ⟨hrest offset,forall_mem_singleton.mpr hretr⟩⟩
  | single needPassword offset =>
    refine forall_mem_append.mpr ⟨forall_mem_append.mpr ⟨hconnect needPassword,?_⟩,
      forall_mem_singleton.mpr hretr⟩
    split_ifs
    · exact forall_mem_singleton.mpr (hrest offset)
    · exact forall_mem_nil _

theorem carried_iff : Carried f ↔ (Clean f.username ∧ Clean f.password) ∧ Clean f.path := by
  constructor
  · intro h
    exact ⟨⟨h.username,h.password⟩,h.path⟩
  · rintro ⟨⟨husername,hpassword⟩,hpath⟩
    refine ⟨husername,hpassword,hpath,fun session hsession => ?_⟩
    have hplain := session_plain husername hpassword hpath hsession
    exact readCommands_wire (fun command h => (hplain command h).1) fun command h =>
      (hplain command h).2

theorem eq_append_of_parse {url : List Char} (h : parseFtpUrl gbk url = some (.ok f)) :
    ∃ scheme, IsScheme scheme ∧ url = scheme ++ url.drop 6 := by
  by_contra hnone
  rw [parseFtpUrl_of_not_scheme] at h
  · simp at h
  · rintro scheme text hscheme rfl
    have hlength : scheme.length = 6 := by
      rw [← length_map Char.toLower, hscheme]
      rfl
    exact hnone ⟨scheme,hscheme,by rw [drop_left' hlength]⟩

/-- The server reads what is meant, and no control gets into a command, unless a part of the
address has a control in it or an escape of one that is decoded. -/
theorem carried_iff_injects (hgbk : KeepsControls gbk) {url : List Char}
    (h : parseFtpUrl gbk url = some (.ok f)) :
    Carried f ↔ ∀ part ∈ rawParts (url.drop 6), ¬ Injects gbk part := by
  obtain ⟨scheme,hscheme,hurl⟩ := eq_append_of_parse h
  generalize url.drop 6 = text at hurl ⊢
  obtain ⟨⟨username,password⟩,hcredentials⟩ := @credentialsOf_isSome gbk
    (text.reverse.dropWhile (· ≠ '@')).tail.reverse
  obtain ⟨⟨hostport,path⟩,hhostport⟩ := hostportOf_isSome
    (text.reverse.takeWhile (· ≠ '@')).reverse
  rw [hurl, parseFtpUrl_of_parts hscheme userinfoOf_eq hcredentials hhostport] at h
  obtain ⟨target,-,htarget⟩ := map_eq_some_iff.mp h
  split_ifs at htarget
  obtain rfl := Except.ok.inj htarget
  rw [carried_iff, clean_credentials hgbk hcredentials, clean_path hgbk hhostport]
  constructor
  · rintro ⟨⟨husername,hpassword⟩,hpath⟩
    exact forall_mem_cons.mpr ⟨husername,
      forall_mem_cons.mpr ⟨hpassword,forall_mem_singleton.mpr hpath⟩⟩
  · intro hparts
    obtain ⟨husername,hparts⟩ := forall_mem_cons.mp hparts
    obtain ⟨hpassword,hpath⟩ := forall_mem_cons.mp hparts
    exact ⟨⟨husername,hpassword⟩,hpath _ mem_cons_self⟩

theorem parseFtpUrl_host {path decodedPath : List Char} (hat : '@' ∉ path)
    (hdecoded : percentDecode (encode ('/' :: path)) = encode decodedPath) :
    parseFtpUrl gbk ("ftp://".toList ++ ('h' :: '/' :: path)) =
      some (.ok ⟨['h'],21,"anonymous".toList,"anonymous@".toList,decodedPath⟩) := by
  have hscheme : IsScheme "ftp://".toList := by
    rw [IsScheme]
    decide
  have hhostport : hostportOf ('h' :: '/' :: path) = some (['h'], '/' :: path) :=
    hostportOf_append (l := ['h']) (by simp)
  have huserinfo : userinfoOf ('h' :: '/' :: path) = some ([], 'h' :: '/' :: path) :=
    userinfoOf_absent (by simp [hat])
  have hparts := @parseFtpUrl_of_parts gbk _ _ _ _ _ _ _ hscheme huserinfo credentialsOf_nil
    hhostport
  rw [hostAndPort_absent (by simp), decoded, hdecoded, decode_encode] at hparts
  exact hparts

theorem carried_file :
    Carried ⟨['h'],21,"anonymous".toList,"anonymous@".toList,['/', 'a']⟩ := by
  have hgbk : KeepsControls fun _ => none := fun _ _ h => absurd h (by simp)
  have hparse := @parseFtpUrl_host (fun _ => none) ['a'] ['/', 'a'] (by simp) rfl
  refine (carried_iff_injects hgbk hparse).mpr fun part hpart => ?_
  have hparts : part = [] ∨ part = ['/', 'a'] := by
    simpa [rawParts] using hpart
  obtain rfl | rfl := hparts
  · exact not_injects_nil
  · refine not_injects_of_plain ?_ (by simp)
    unfold Clean controls
    simp

/-- An escaped end of line in the path is the end of the command, and a file is deleted. -/
theorem escaped_line_injects :
    ¬ (∀ url f, parseFtpUrl (fun _ => none) url = some (.ok f) → Carried f) ∧
      ∃ f, parseFtpUrl (fun _ => none)
          ("ftp://".toList ++ ('h' :: '/' :: "%0d%0aDELE x".toList)) = some (.ok f) ∧
        ⟨"DELE".toList,['x']⟩ ∈ readCommands [] (wire (resolveFtpInfoSync false f)) := by
  have hparse := @parseFtpUrl_host (fun _ => none) "%0d%0aDELE x".toList
    ['/', '\r', '\n', 'D', 'E', 'L', 'E', ' ', 'x'] (by decide) rfl
  refine ⟨fun hall => ?_,_,hparse,by decide⟩
  exact (hall _ _ hparse).path '\n' (by decide) (by simp)

end RinaDown.FtpCommands
