import RinaDown.KeyedTable
import RinaDown.SplitText
import RinaDown.Texts

/-!
# The stored form of the connection policies

What has been learnt about the hosts is stored as one text: a line with the version, and a line of
fields for each host. A table that was stored is read back as it was, and what is read is always
well formed.
-/

namespace RinaDown.ConnPolicyText

open CharacterPatterns KeyedTable Texts List Option

/-- An upper bound from refused connections and a hint from accepted ones, each with its time; zero
is no observation. -/
structure ConnPolicyEntry where
  cap : ℤ
  capTs : ℕ
  hint : ℤ
  hintTs : ℕ
deriving DecidableEq

def ConnPolicyEntry.default : ConnPolicyEntry := ⟨0,0,0,0⟩

abbrev ConnPolicies := Table String ConnPolicyEntry

def connCapFormatVersion : String := "v3"

/-! ## Writing -/

def formatInt (n : ℤ) : Text :=
  if n < 0 then '-' :: Nat.toDigits 10 n.natAbs else Nat.toDigits 10 n.natAbs

def formatLine (host : String) (e : ConnPolicyEntry) : Text :=
  host.toList ++ '\t' :: (formatInt e.cap ++ '\t' :: (Nat.toDigits 10 e.capTs ++
    '\t' :: (formatInt e.hint ++ '\t' :: Nat.toDigits 10 e.hintTs)))

def lineLe (a b : Text) : Bool :=
  !List.lex (b.map Char.toNat) (a.map Char.toNat) fun m n => decide (m < n)

def serializeConnCaps (map : ConnPolicies) : Text :=
  ((map.map fun e => formatLine e.1 e.2).mergeSort lineLe).foldl
    (fun out line => out ++ '\n' :: line) connCapFormatVersion.toList

/-! ## Reading -/

def stripCarriageReturn (line : Text) : Text :=
  if line.getLast? = some '\r' then line.dropLast else line

def lines (text : Text) : List Text :=
  let parts := text.splitOn '\n'
  parts.dropLast.map stripCarriageReturn ++ parts.getLast?.toList.filter (· ≠ [])

/-- `str::parse::<i32>`. -/
def parseI32 (text : Text) : Option ℤ := (parseI64 text).filter fun n => -2 ^ 31 ≤ n ∧ n < 2 ^ 31

/-- A host and its entry, unless a field is missing or malformed; further fields are ignored. -/
def parseLine (line : Text) : Option (String × ConnPolicyEntry) :=
  match line.splitOn '\t' with
  | host :: cap :: capTs :: hint :: hintTs :: _ =>
      match parseI32 cap, parseUnsigned (2 ^ 64) capTs, parseI32 hint,
          parseUnsigned (2 ^ 64) hintTs with
      | some cap, some capTs, some hint, some hintTs =>
          if host = [] ∨ cap < 0 ∨ hint < 0 ∨ cap = 0 ∧ hint = 0 then none
          else some (String.ofList host, ⟨cap,capTs,hint,hintTs⟩)
      | _, _, _, _ => none
  | _ => none

def parseConnCaps (raw : Text) : ConnPolicies :=
  match lines raw with
  | [] => []
  | version :: rest =>
      if trim version ≠ connCapFormatVersion.toList then []
      else insertAll (rest.filterMap parseLine) []

/-! ## Well-formed tables -/

structure ValidEntry (e : ConnPolicyEntry) : Prop where
  cap : 0 ≤ e.cap ∧ e.cap < 2 ^ 31
  capTs : e.capTs < 2 ^ 64
  hint : 0 ≤ e.hint ∧ e.hint < 2 ^ 31
  hintTs : e.hintTs < 2 ^ 64
  observed : e.cap ≠ 0 ∨ e.hint ≠ 0

/-- The syntax of hosts excludes white space. -/
structure ValidHost (host : String) : Prop where
  ne_nil : host.toList ≠ []
  noTab : '\t' ∉ host.toList
  noNewline : '\n' ∉ host.toList

structure ValidTable (map : ConnPolicies) : Prop where
  nodup : (keys map).Nodup
  entries : ∀ e ∈ map, ValidHost e.1 ∧ ValidEntry e.2

/-! ## What is read is well formed -/

variable {text : Text} {e : ConnPolicyEntry}

theorem parseUnsigned_lt {values n : ℕ} (h : parseUnsigned values text = some n) :
    n < values := by
  rw [parseUnsigned, filter_eq_some_iff] at h
  exact of_decide_eq_true h.2

theorem parseI32_range {n : ℤ} (h : parseI32 text = some n) :
    -2 ^ 31 ≤ n ∧ n < 2 ^ 31 := by
  rw [parseI32, filter_eq_some_iff] at h
  exact of_decide_eq_true h.2

theorem not_mem_of_mem_splitOn {sep : Char} {part : Text} (h : part ∈ text.splitOn sep) :
    sep ∉ part := by
  intro hmem
  obtain ⟨l,r,-,hpart⟩ := SplitText.mem_splitOnP.mp h
  have hfree := hpart.free sep hmem
  simp at hfree

theorem mem_of_mem_splitOn {sep c : Char} {part : Text} (h : part ∈ text.splitOn sep)
    (hc : c ∈ part) : c ∈ text := by
  obtain ⟨l,r,heq,-⟩ := SplitText.mem_splitOnP.mp h
  rw [heq]
  exact mem_append_left r (mem_append_right l hc)

theorem newline_not_mem_lines {line : Text} (h : line ∈ lines text) : '\n' ∉ line := by
  rcases mem_append.mp h with hline | hline
  · obtain ⟨part,hpart,rfl⟩ := mem_map.mp hline
    have hfree := not_mem_of_mem_splitOn (mem_of_mem_dropLast hpart)
    rw [stripCarriageReturn]
    split_ifs
    · exact fun hmem => hfree (mem_of_mem_dropLast hmem)
    · exact hfree
  · have hlast := mem_toList.mp (mem_of_mem_filter hline)
    exact not_mem_of_mem_splitOn (mem_of_getLast? hlast)

theorem valid_parseLine {line : Text} (hline : '\n' ∉ line) {e : String × ConnPolicyEntry}
    (h : parseLine line = some e) : ValidHost e.1 ∧ ValidEntry e.2 := by
  rw [parseLine] at h
  split at h
  next host cap capTs hint hintTs rest hparts =>
    split at h
    next c cTs n nTs hcap hcapTs hhint hhintTs =>
      split_ifs at h with hbad
      cases h
      have hhost : host ∈ line.splitOn '\t' := hparts ▸ mem_cons_self
      have hcapRange := parseI32_range hcap
      have hhintRange := parseI32_range hhint
      constructor
      · refine ⟨?_,?_,?_⟩
        · rw [String.toList_ofList]
          exact fun hnil => hbad (.inl hnil)
        · rw [String.toList_ofList]
          exact not_mem_of_mem_splitOn hhost
        · rw [String.toList_ofList]
          exact fun hmem => hline (mem_of_mem_splitOn hhost hmem)
      · refine ⟨⟨?_,hcapRange.2⟩,parseUnsigned_lt hcapTs,⟨?_,hhintRange.2⟩,
          parseUnsigned_lt hhintTs,?_⟩
        · show 0 ≤ c
          omega
        · show 0 ≤ n
          omega
        · show c ≠ 0 ∨ n ≠ 0
          omega
    next => cases h
  next => cases h

theorem valid_parseConnCaps (raw : Text) : ValidTable (parseConnCaps raw) := by
  rw [parseConnCaps]
  split
  next => exact ⟨nodup_nil,nofun⟩
  next version rest hlines =>
    split_ifs
    · exact ⟨nodup_nil,nofun⟩
    · refine ⟨nodup_insertAll _ nodup_nil,fun e he => ?_⟩
      rcases mem_of_mem_insertAll he with hnew | hold
      · obtain ⟨line,hline,hparse⟩ := mem_filterMap.mp hnew
        have hfree := newline_not_mem_lines (hlines ▸ mem_cons_of_mem version hline)
        exact valid_parseLine hfree hparse
      · cases hold

/-! ## What was stored is read back -/

theorem formatInt_of_nonneg {n : ℤ} (h : 0 ≤ n) : formatInt n = Nat.toDigits 10 n.toNat := by
  rw [formatInt, if_neg (by omega)]
  congr 1
  omega

theorem parseI32_formatInt {n : ℤ} (h : 0 ≤ n ∧ n < 2 ^ 31) : parseI32 (formatInt n) = some n := by
  have hcast : ((n.toNat : ℕ) : ℤ) = n := Int.toNat_of_nonneg h.1
  rw [formatInt_of_nonneg h.1, parseI32, parseI64_toDigits, if_pos (by omega), hcast,
    filter_eq_some_iff]
  exact ⟨rfl,decide_eq_true ⟨by omega,h.2⟩⟩

theorem not_mem_toDigits {n : ℕ} {c : Char} (hc : c.isDigit = false) : c ∉ Nat.toDigits 10 n :=
  fun hmem => ne_of_isDigit (isDigit_of_mem hmem) hc rfl

theorem not_mem_formatInt {n : ℤ} (h : 0 ≤ n) {c : Char} (hc : c.isDigit = false) :
    c ∉ formatInt n := by
  rw [formatInt_of_nonneg h]
  exact not_mem_toDigits hc

theorem formatLine_eq (host : String) (e : ConnPolicyEntry) : formatLine host e =
    ['\t'].intercalate [host.toList, formatInt e.cap, Nat.toDigits 10 e.capTs, formatInt e.hint,
      Nat.toDigits 10 e.hintTs] := by
  simp [formatLine, intercalate]

theorem parseLine_formatLine {host : String} (hhost : ValidHost host) (he : ValidEntry e) :
    parseLine (formatLine host e) = some (host, e) := by
  have hparts : (formatLine host e).splitOn '\t' = [host.toList, formatInt e.cap,
      Nat.toDigits 10 e.capTs, formatInt e.hint, Nat.toDigits 10 e.hintTs] := by
    rw [formatLine_eq]
    refine splitOn_intercalate '\t' ?_ (by simp)
    simp [hhost.noTab, not_mem_formatInt he.cap.1, not_mem_formatInt he.hint.1, not_mem_toDigits]
  have hgood : ¬ (host.toList = [] ∨ e.cap < 0 ∨ e.hint < 0 ∨ e.cap = 0 ∧ e.hint = 0) := by
    have hcap := he.cap.1
    have hhint := he.hint.1
    have hobserved := he.observed
    rintro (hnil | hbad)
    · exact hhost.ne_nil hnil
    · omega
  rw [parseLine, hparts]
  simp only [parseI32_formatInt he.cap, parseI32_formatInt he.hint, parseUnsigned_toDigits,
    if_pos he.capTs, if_pos he.hintTs, if_neg hgood, String.ofList_toList]

theorem foldl_lines (sorted : List Text) (start : Text) :
    sorted.foldl (fun out line => out ++ '\n' :: line) start =
      ['\n'].intercalate (start :: sorted) := by
  induction sorted generalizing start with
  | nil => simp [intercalate]
  | cons line sorted ih =>
      rw [foldl_cons, ih]
      cases sorted with
      | nil => simp [intercalate]
      | cons next sorted => simp [intercalate]

theorem getLast?_field {field rest : Text} (c : Char) (h : rest ≠ []) :
    (field ++ c :: rest).getLast? = rest.getLast? := by
  rw [getLast?_append, getLast?_cons_of_ne_nil h, getLast?_eq_some_getLast h]
  rfl

theorem formatLine_getLast {host : String} {c : Char} (h : (formatLine host e).getLast? = some c) :
    c.isDigit = true := by
  rw [formatLine, getLast?_field _ (by simp), getLast?_field _ (by simp),
    getLast?_field _ (by simp), getLast?_field _ Nat.toDigits_ne_nil] at h
  exact isDigit_of_mem (mem_of_getLast? h)

theorem stripCarriageReturn_formatLine (host : String) (e : ConnPolicyEntry) :
    stripCarriageReturn (formatLine host e) = formatLine host e := by
  rw [stripCarriageReturn, if_neg fun hlast => absurd (formatLine_getLast hlast) (by decide)]

theorem newline_not_mem_formatLine {host : String} (hhost : ValidHost host) (he : ValidEntry e) :
    '\n' ∉ formatLine host e := by
  simp [formatLine, hhost.noNewline, not_mem_formatInt he.cap.1, not_mem_formatInt he.hint.1,
    not_mem_toDigits]

/-- Lines that end in neither a line break nor a carriage return are read as they are. -/
theorem lines_intercalate {parts : List Text} (hne : parts ≠ []) (hnewline : ∀ l ∈ parts, '\n' ∉ l)
    (hstrip : ∀ l ∈ parts, stripCarriageReturn l = l) (hnil : ∀ l ∈ parts, l ≠ []) :
    lines (['\n'].intercalate parts) = parts := by
  have hsplit : (['\n'].intercalate parts).splitOn '\n' = parts :=
    splitOn_intercalate '\n' hnewline hne
  obtain ⟨init,last,rfl⟩ := (eq_nil_or_concat' parts).resolve_left hne
  have hinit : init.map stripCarriageReturn = init := by
    conv_rhs => rw [← map_id init]
    exact map_congr_left fun l hl => hstrip l (mem_append_left _ hl)
  have hlast : last ≠ [] := hnil last (mem_append_right _ mem_cons_self)
  simp [lines, hsplit, hinit, hlast]

section
variable {map : ConnPolicies}

theorem lines_serializeConnCaps (h : ValidTable map) : lines (serializeConnCaps map) =
    connCapFormatVersion.toList :: (map.map fun e => formatLine e.1 e.2).mergeSort lineLe := by
  have hsorted : ∀ l ∈ (map.map fun e => formatLine e.1 e.2).mergeSort lineLe,
      ∃ e ∈ map, formatLine e.1 e.2 = l := by
    intro l hl
    exact mem_map.mp (mem_mergeSort.mp hl)
  rw [serializeConnCaps, foldl_lines]
  apply lines_intercalate (cons_ne_nil _ _)
  · rw [forall_mem_cons]
    refine ⟨by decide,fun l hl => ?_⟩
    obtain ⟨e,he,rfl⟩ := hsorted l hl
    exact newline_not_mem_formatLine (h.entries e he).1 (h.entries e he).2
  · rw [forall_mem_cons]
    refine ⟨by decide,fun l hl => ?_⟩
    obtain ⟨e,-,rfl⟩ := hsorted l hl
    exact stripCarriageReturn_formatLine e.1 e.2
  · rw [forall_mem_cons]
    refine ⟨by decide,fun l hl => ?_⟩
    obtain ⟨e,-,rfl⟩ := hsorted l hl
    simp [formatLine]

/-- A stored table is read back with all faces and times. -/
theorem lookup_parse_serialize (h : ValidTable map) (host : String) :
    (parseConnCaps (serializeConnCaps map)).lookup host = map.lookup host := by
  have hversion : trim connCapFormatVersion.toList = connCapFormatVersion.toList := by
    decide
  have hall : (map.map fun e => formatLine e.1 e.2).filterMap parseLine = map := by
    rw [filterMap_map]
    conv_rhs => rw [← filterMap_some (l := map)]
    exact filterMap_congr fun e he =>
      parseLine_formatLine (h.entries e he).1 (h.entries e he).2
  have hperm : (((map.map fun e => formatLine e.1 e.2).mergeSort lineLe).filterMap parseLine).Perm
      map := by
    conv_rhs => rw [← hall]
    exact (mergeSort_perm _ lineLe).filterMap parseLine
  rw [parseConnCaps, lines_serializeConnCaps h]
  simp only [hversion, ne_eq, not_true_eq_false, if_false]
  rw [lookup_insertAll ((hperm.map Prod.fst).nodup_iff.mpr h.nodup), lookup_nil, or_none]
  exact (lookup_perm h.nodup hperm.symm host).symm

end

end RinaDown.ConnPolicyText
