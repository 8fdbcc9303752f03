import RinaDown.Aria2
import RinaDown.AsciiCase

/-!
# The task of a GID

A client names a task by a prefix of its identifier, in any letter case and with hyphens
anywhere. The prefix stands for a task exactly if it consists of digits and no other
identifier begins with it. Identifiers that differ in letter case only cannot be told apart.
-/

namespace RinaDown.TaskGids

open Aria2 AsciiCase List

/-! ## Digits -/

/-- What an identifier or a GID is compared by. -/
def digitsOf (s : String) : List Char := (toAsciiLowercase (withoutHyphens s)).toList

/-- An identifier of 36 characters: groups of hexadecimal digits in any letter case. -/
def IsUuid (id : String) : Prop :=
  ∃ a b c d e : List Char, id.toList = a ++ '-' :: (b ++ '-' :: (c ++ '-' :: (d ++ '-' :: e))) ∧
    a.length = 8 ∧ b.length = 4 ∧ c.length = 4 ∧ d.length = 4 ∧ e.length = 12 ∧
    ∀ x ∈ a ++ (b ++ (c ++ (d ++ e))), isAsciiHexdigit x = true

/-- From 1 to 32 hexadecimal digits, besides hyphens. -/
def IsGid (gid : String) : Prop :=
  digitsOf gid ≠ [] ∧ (digitsOf gid).length ≤ 32 ∧ ∀ c ∈ digitsOf gid, isAsciiHexdigit c = true

/-- The task is the only one whose identifier begins with the GID. -/
def IsOnlyMatch (tasks : List TaskDto) (gid : String) (t : TaskDto) : Prop :=
  t ∈ tasks ∧ digitsOf gid <+: digitsOf t.taskId ∧
    ∀ t' ∈ tasks, digitsOf gid <+: digitsOf t'.taskId → t' = t

theorem digitsOf_eq (s : String) :
    digitsOf s = (s.toList.filter (· ≠ '-')).map Char.toLower := by
  unfold digitsOf toAsciiLowercase withoutHyphens
  rw [String.toList_map, String.toList_ofList]

theorem digitsOf_append (s t : String) : digitsOf (s ++ t) = digitsOf s ++ digitsOf t := by
  rw [digitsOf_eq, digitsOf_eq, digitsOf_eq, String.toList_append, filter_append,
    map_append]

section
variable {c : Char}

theorem isAsciiHexdigit_iff : isAsciiHexdigit c = true ↔
    (48 ≤ c.toNat ∧ c.toNat ≤ 57) ∨ (97 ≤ c.toNat ∧ c.toNat ≤ 102) ∨
      (65 ≤ c.toNat ∧ c.toNat ≤ 70) := by
  simp only [isAsciiHexdigit, Char.isDigit, Bool.or_eq_true, Bool.and_eq_true, decide_eq_true_eq,
    Char.le_def, UInt32.le_iff_toNat_le, ge_iff_le, or_assoc]
  rfl

theorem ne_hyphen_of_hexdigit (h : isAsciiHexdigit c = true) : c ≠ '-' := by
  rintro rfl
  exact absurd h (by decide)

theorem utf8Size_of_hexdigit (h : isAsciiHexdigit c = true) : c.utf8Size = 1 := by
  apply Char.utf8Size_eq_one_iff.mpr
  have hle : c.toNat ≤ 127 := by
    obtain h | h | h := isAsciiHexdigit_iff.mp h <;> omega
  exact UInt32.le_iff_toNat_le.mpr hle

theorem isAsciiHexdigit_toLower (h : isAsciiHexdigit c = true) :
    isAsciiHexdigit c.toLower = true := by
  rw [isAsciiHexdigit_iff] at h ⊢
  rw [toNat_toLower]
  split_ifs <;> omega

end

theorem utf8ByteSize_of_hexdigits {s : String} (h : ∀ c ∈ s.toList, isAsciiHexdigit c = true) :
    s.utf8ByteSize = s.toList.length := by
  have hbytes : s.utf8ByteSize = (s.toList.flatMap String.utf8EncodeChar).length := by
    change s.toByteArray.size = _
    rw [← String.utf8Encode_toList]
    simp [utf8Encode]
  rw [hbytes]
  generalize s.toList = l at h
  induction l with
  | nil => rfl
  | cons c l ih =>
    obtain ⟨hc,hl⟩ := forall_mem_cons.mp h
    rw [flatMap_cons, length_append, ih hl, String.length_utf8EncodeChar,
      utf8Size_of_hexdigit hc, length_cons, Nat.add_comm]

/-! ## Identifiers -/

section
variable {id : String}

theorem IsUuid.length_digitsOf (h : IsUuid id) : (digitsOf id).length = 32 := by
  obtain ⟨a,b,c,d,e,hid,ha,hb,hc,hd,he,hdigits⟩ := h
  have hkeep : ∀ l : List Char, (∀ x ∈ l, isAsciiHexdigit x = true) →
      l.filter (· ≠ '-') = l := by
    intro l hl
    apply filter_eq_self.mpr
    intro x hx
    exact decide_eq_true (ne_hyphen_of_hexdigit (hl x hx))
  simp only [forall_mem_append] at hdigits
  obtain ⟨hda,hdb,hdc,hdd,hde⟩ := hdigits
  rw [digitsOf_eq, hid, length_map]
  simp only [filter_append, filter_cons, hkeep a hda, hkeep b hdb, hkeep c hdc,
    hkeep d hdd, hkeep e hde, length_append, ne_eq, not_true_eq_false, decide_false,
    Bool.false_eq_true, if_false, ha, hb, hc, hd, he]

theorem IsUuid.digits (h : IsUuid id) : ∀ x ∈ digitsOf id, isAsciiHexdigit x = true := by
  obtain ⟨a,b,c,d,e,hid,-,-,-,-,-,hdigits⟩ := h
  intro x hx
  rw [digitsOf_eq] at hx
  obtain ⟨y,hy,rfl⟩ := mem_map.mp hx
  obtain ⟨hmem,hhyphen⟩ := mem_filter.mp hy
  apply isAsciiHexdigit_toLower
  apply hdigits
  rw [hid] at hmem
  simp only [mem_append, mem_cons] at hmem ⊢
  have hne : y ≠ '-' := of_decide_eq_true hhyphen
  tauto

theorem isGid_of_begins {gid : String} (hid : IsUuid id) (hne : digitsOf gid ≠ [])
    (h : digitsOf gid <+: digitsOf id) : IsGid gid :=
  ⟨hne,hid.length_digitsOf ▸ h.length_le,fun c hc => hid.digits c (h.subset hc)⟩

theorem digitsOf_taskIdToGid (h : IsUuid id) :
    digitsOf (taskIdToGid id) = (digitsOf id).take 16 := by
  have hdigits : ∀ c ∈ (digitsOf id).take 16, decide (c ≠ '-') = true := fun c hc =>
    decide_eq_true (ne_hyphen_of_hexdigit (h.digits c (mem_of_mem_take hc)))
  have hlower : ∀ c ∈ (digitsOf id).take 16, c.toLower = c := by
    intro c hc
    have hmem := mem_of_mem_take hc
    rw [digitsOf_eq] at hmem
    obtain ⟨y,-,rfl⟩ := mem_map.mp hmem
    exact toLower_toLower y
  rw [digitsOf_eq, taskIdToGid, String.toList_ofList]
  change (((digitsOf id).take 16).filter _).map _ = _
  rw [filter_eq_self.mpr hdigits]
  exact (map_congr_left hlower).trans (map_id _)

end

/-! ## Resolution -/

section
variable {tasks : List TaskDto} {gid : String} {t : TaskDto}

/-- The tasks whose identifiers begin with the GID. -/
def matching (tasks : List TaskDto) (gid : String) : List TaskDto :=
  tasks.filter fun t => (digitsOf gid).isPrefixOf (digitsOf t.taskId)

theorem mem_matching : t ∈ matching tasks gid ↔ t ∈ tasks ∧ digitsOf gid <+: digitsOf t.taskId := by
  rw [matching, mem_filter, isPrefixOf_iff_prefix]

theorem resolveGid_of_not_isGid (h : ¬IsGid gid) :
    resolveGid tasks gid = .error s!"GID {gid} is not found" := by
  apply if_pos
  simp only [Bool.or_eq_true, decide_eq_true_eq, Bool.not_eq_true']
  by_contra hgood
  simp only [not_or, Bool.not_eq_false, all_eq_true, not_lt] at hgood
  obtain ⟨⟨hne,hsize⟩,hdigits⟩ := hgood
  refine h ⟨fun hnil => hne ?_,?_,hdigits⟩
  · exact String.isEmpty_iff.mpr (String.toList_inj.mp hnil)
  · rwa [utf8ByteSize_of_hexdigits hdigits] at hsize

theorem resolveGid_of_isGid (h : IsGid gid) : resolveGid tasks gid =
    match matching tasks gid with
    | [] => .error s!"GID {gid} is not found"
    | [t] => .ok t
    | _ => .error s!"GID {gid} is not unique" := by
  obtain ⟨hne,hlength,hdigits⟩ := h
  apply if_neg
  simp only [Bool.or_eq_true, decide_eq_true_eq, Bool.not_eq_true', not_or, Bool.not_eq_false,
    all_eq_true, not_lt]
  refine ⟨⟨fun hempty => hne ?_,?_⟩,hdigits⟩
  · exact String.toList_inj.mpr (String.isEmpty_iff.mp hempty)
  · rwa [utf8ByteSize_of_hexdigits hdigits]

theorem resolveGid_eq_ok (hdistinct : tasks.Pairwise fun a b => a.taskId ≠ b.taskId) :
    resolveGid tasks gid = .ok t ↔ IsGid gid ∧ IsOnlyMatch tasks gid t := by
  constructor
  · intro h
    by_cases hgid : IsGid gid
    · rw [resolveGid_of_isGid hgid] at h
      have hmatches : matching tasks gid = [t] := by
        split at h
        · cases h
        · next heq => rw [heq, Except.ok.inj h]
        · cases h
      have hmem (t' : TaskDto) : t' ∈ tasks ∧ digitsOf gid <+: digitsOf t'.taskId ↔ t' = t := by
        rw [← mem_matching, hmatches, mem_singleton]
      obtain ⟨ht,hbegins⟩ := (hmem t).mpr rfl
      exact ⟨hgid,ht,hbegins,fun t' ht' hbegins' => (hmem t').mp ⟨ht',hbegins'⟩⟩
    · rw [resolveGid_of_not_isGid hgid] at h
      cases h
  · rintro ⟨hgid,ht,hbegins,honly⟩
    have hall : ∀ t' ∈ matching tasks gid, t' = t := by
      intro t' ht'
      obtain ⟨hmem,hmatch⟩ := mem_matching.mp ht'
      exact honly t' hmem hmatch
    have hpairwise : (matching tasks gid).Pairwise fun a b => a.taskId ≠ b.taskId :=
      hdistinct.sublist filter_sublist
    rw [resolveGid_of_isGid hgid]
    match hmatches : matching tasks gid with
    | [] =>
      have hmem := mem_matching.mpr ⟨ht,hbegins⟩
      rw [hmatches] at hmem
      cases hmem
    | [t'] =>
      rw [hmatches] at hall
      rw [hall t' mem_cons_self]
    | t₁ :: t₂ :: _ =>
      rw [hmatches] at hall hpairwise
      have h₁ := hall t₁ mem_cons_self
      have h₂ := hall t₂ (mem_cons_of_mem t₁ mem_cons_self)
      exact absurd (congrArg TaskDto.taskId (h₁.trans h₂.symm))
        (rel_of_pairwise_cons hpairwise mem_cons_self)

theorem IsGid.ok_or_not_unique (hgid : IsGid gid)
    (hdistinct : tasks.Pairwise fun a b => a.taskId ≠ b.taskId) (ht : t ∈ tasks)
    (hbegins : digitsOf gid <+: digitsOf t.taskId) :
    resolveGid tasks gid = .ok t ∨ resolveGid tasks gid = .error s!"GID {gid} is not unique" := by
  by_cases honly : IsOnlyMatch tasks gid t
  · exact Or.inl ((resolveGid_eq_ok hdistinct).mpr ⟨hgid,honly⟩)
  · right
    rw [resolveGid_of_isGid hgid]
    have hmem := mem_matching.mpr ⟨ht,hbegins⟩
    match hmatches : matching tasks gid with
    | [] =>
      rw [hmatches] at hmem
      cases hmem
    | [t'] =>
      rw [hmatches, mem_singleton] at hmem
      refine absurd ⟨ht,hbegins,fun t'' ht'' hbegins'' => ?_⟩ honly
      have hother := mem_matching.mpr ⟨ht'',hbegins''⟩
      rw [hmatches, mem_singleton] at hother
      exact hother.trans hmem.symm
    | _ :: _ :: _ => rfl

end
/-- A GID stands for a task exactly if it is a prefix of that task's identifier only. The
whole identifier then stands for its task unless another one differs in letter case only,
the GID that is derived from it for its task or for none, and a longer prefix for the task of
a shorter one. -/
theorem gid_resolution {tasks : List TaskDto} (huuid : ∀ t ∈ tasks, IsUuid t.taskId)
    (hdistinct : tasks.Pairwise fun a b => a.taskId ≠ b.taskId) (t : TaskDto) :
    (∀ gid, resolveGid tasks gid = .ok t ↔ IsGid gid ∧ IsOnlyMatch tasks gid t) ∧
      (t ∈ tasks → (resolveGid tasks t.taskId = .ok t ↔
        ∀ t' ∈ tasks, digitsOf t'.taskId = digitsOf t.taskId → t' = t)) ∧
      (t ∈ tasks → resolveGid tasks (taskIdToGid t.taskId) = .ok t ∨
        resolveGid tasks (taskIdToGid t.taskId) =
          .error s!"GID {taskIdToGid t.taskId} is not unique") ∧
      ∀ gid more, resolveGid tasks gid = .ok t →
        digitsOf (gid ++ more) <+: digitsOf t.taskId → resolveGid tasks (gid ++ more) = .ok t := by
  have hne : ∀ t ∈ tasks, digitsOf t.taskId ≠ [] := by
    intro t ht hnil
    have hlength := (huuid t ht).length_digitsOf
    rw [hnil] at hlength
    cases hlength
  have hiff (gid : String) : resolveGid tasks gid = .ok t ↔ IsGid gid ∧ IsOnlyMatch tasks gid t :=
    resolveGid_eq_ok hdistinct
  refine ⟨hiff,fun ht => ?_,fun ht => ?_,?_⟩
  · have hgid := isGid_of_begins (huuid t ht) (hne t ht) prefix_rfl
    rw [resolveGid_eq_ok hdistinct]
    constructor
    · rintro ⟨-,-,-,honly⟩ t' ht' hsame
      apply honly t' ht'
      rw [hsame]
    · intro honly
      refine And.intro hgid ⟨ht,prefix_rfl,fun t' ht' hbegins => honly t' ht' ?_⟩
      have hlength : (digitsOf t.taskId).length = (digitsOf t'.taskId).length := by
        rw [(huuid t ht).length_digitsOf, (huuid t' ht').length_digitsOf]
      exact (hbegins.eq_of_length hlength).symm
  · have hdigits := digitsOf_taskIdToGid (huuid t ht)
    have hbegins : digitsOf (taskIdToGid t.taskId) <+: digitsOf t.taskId := by
      rw [hdigits]
      exact take_prefix 16 _
    have hlength : (digitsOf (taskIdToGid t.taskId)).length = 16 := by
      rw [hdigits, length_take, (huuid t ht).length_digitsOf]
      rfl
    have hnil : digitsOf (taskIdToGid t.taskId) ≠ [] := by
      intro hnil
      rw [hnil] at hlength
      cases hlength
    exact (isGid_of_begins (huuid t ht) hnil hbegins).ok_or_not_unique hdistinct ht hbegins
  · intro gid more hok hbegins
    obtain ⟨⟨hnil,-,-⟩,ht,-,honly⟩ := (resolveGid_eq_ok hdistinct).mp hok
    have hlonger : digitsOf gid <+: digitsOf (gid ++ more) := by
      rw [digitsOf_append]
      exact prefix_append _ _
    have hnil' : digitsOf (gid ++ more) ≠ [] := by
      intro hnil'
      rw [hnil'] at hlonger
      exact hnil (prefix_nil.mp hlonger)
    have hgid := isGid_of_begins (huuid t ht) hnil' hbegins
    have honly' : ∀ t' ∈ tasks, digitsOf (gid ++ more) <+: digitsOf t'.taskId → t' = t :=
      fun t' ht' hbegins' => honly t' ht' (hlonger.trans hbegins')
    exact (resolveGid_eq_ok hdistinct).mpr ⟨hgid,ht,hbegins,honly'⟩

/-! ## Samples -/

def sampleTask (taskId : String) : TaskDto where
  taskId := taskId
  url := ""
  fileName := ""
  saveDir := ""
  status := 0
  downloadedBytes := 0
  totalBytes := 0
  errorMessage := ""
  proxyUrl := ""
  checksum := ""
  ignoreTlsErrors := false

theorem sampleTask_taskId (taskId : String) : (sampleTask taskId).taskId = taskId := rfl

def sampleId (last : Char) : String :=
  String.ofList (List.replicate 8 'f' ++ '-' :: (List.replicate 4 '0' ++ '-' ::
    (List.replicate 4 '4' ++ '-' :: (List.replicate 4 '8' ++ '-' ::
      (List.replicate 11 '0' ++ [last])))))

theorem isUuid_sampleId (last : Char) (h : isAsciiHexdigit last = true) :
    IsUuid (sampleId last) := by
  have hgroup (n : ℕ) (c : Char) (hc : isAsciiHexdigit c = true) :
      ∀ x ∈ List.replicate n c, isAsciiHexdigit x = true := by
    intro x hx
    rw [eq_of_mem_replicate hx]
    exact hc
  have hlast : (List.replicate 11 '0' ++ [last]).length = 12 := by
    rw [length_append, length_replicate, length_singleton]
  unfold IsUuid sampleId
  rw [String.toList_ofList]
  refine ⟨_,_,_,_,_,rfl,length_replicate,length_replicate,
    length_replicate,length_replicate,hlast,?_⟩
  simp only [forall_mem_append, forall_mem_singleton]
  exact ⟨hgroup 8 'f' (by decide),hgroup 4 '0' (by decide),hgroup 4 '4' (by decide),
    hgroup 4 '8' (by decide),hgroup 11 '0' (by decide),h⟩

theorem digitsOf_sampleId (last : Char) :
    digitsOf (sampleId last) = ((List.replicate 8 'f' ++ '-' :: (List.replicate 4 '0' ++ '-' ::
      (List.replicate 4 '4' ++ '-' :: (List.replicate 4 '8' ++ '-' ::
        (List.replicate 11 '0' ++ [last]))))).filter (· ≠ '-')).map Char.toLower := by
  rw [digitsOf_eq, sampleId, String.toList_ofList]

theorem isGid_sampleId {last : Char} (h : isAsciiHexdigit last = true) : IsGid (sampleId last) := by
  have hid := isUuid_sampleId last h
  refine isGid_of_begins hid (fun hnil => ?_) prefix_rfl
  have hlength := hid.length_digitsOf
  rw [hnil] at hlength
  cases hlength

def sampleTasks : List TaskDto := [sampleTask (sampleId 'a'), sampleTask (sampleId 'b')]

theorem gid_resolution_sample :
    resolveGid sampleTasks (sampleId 'A') = .ok (sampleTask (sampleId 'a')) := by
  have hsame : digitsOf (sampleId 'A') = digitsOf (sampleId 'a') := by
    rw [digitsOf_sampleId, digitsOf_sampleId]
    decide
  have hother : digitsOf (sampleId 'b') ≠ digitsOf (sampleId 'a') := by
    rw [digitsOf_sampleId, digitsOf_sampleId]
    decide
  have huuid : ∀ t ∈ sampleTasks, IsUuid t.taskId := by
    intro t ht
    obtain rfl | ht := mem_cons.mp ht
    · exact isUuid_sampleId 'a' (by decide)
    · obtain rfl := mem_singleton.mp ht
      exact isUuid_sampleId 'b' (by decide)
  have hdistinct : sampleTasks.Pairwise fun a b => a.taskId ≠ b.taskId := by
    refine List.Pairwise.cons ?_ (pairwise_singleton _ _)
    intro b hb hid
    obtain rfl := mem_singleton.mp hb
    exact hother (congrArg digitsOf hid.symm)
  obtain ⟨hresolve,-,-,-⟩ := gid_resolution huuid hdistinct (sampleTask (sampleId 'a'))
  refine (hresolve _).mpr ⟨isGid_sampleId (by decide),mem_cons_self,?_,?_⟩
  · rw [sampleTask_taskId, hsame]
  · intro t' ht' hbegins
    obtain rfl | ht' := mem_cons.mp ht'
    · rfl
    · obtain rfl := mem_singleton.mp ht'
      rw [sampleTask_taskId, hsame] at hbegins
      refine absurd (hbegins.eq_of_length ?_).symm hother
      rw [(isUuid_sampleId 'a' (by decide)).length_digitsOf,
        (isUuid_sampleId 'b' (by decide)).length_digitsOf]

/-- Two identifiers that differ in the case of one letter. -/
theorem letter_case_not_unique :
    sampleId 'a' ≠ sampleId 'A' ∧ IsUuid (sampleId 'a') ∧ IsUuid (sampleId 'A') ∧
      resolveGid [sampleTask (sampleId 'a'), sampleTask (sampleId 'A')] (sampleId 'a') =
        .error ("GID " ++ sampleId 'a' ++ " is not unique") := by
  have hsame : digitsOf (sampleId 'A') = digitsOf (sampleId 'a') := by
    rw [digitsOf_sampleId, digitsOf_sampleId]
    decide
  have hboth : matching [sampleTask (sampleId 'a'), sampleTask (sampleId 'A')] (sampleId 'a') =
      [sampleTask (sampleId 'a'), sampleTask (sampleId 'A')] := by
    apply filter_eq_self.mpr
    intro t ht
    apply isPrefixOf_iff_prefix.mpr
    obtain rfl | ht := mem_cons.mp ht
    · exact prefix_rfl
    · obtain rfl := mem_singleton.mp ht
      rw [sampleTask_taskId, hsame]
  refine ⟨fun hid => ?_,isUuid_sampleId 'a' (by decide),isUuid_sampleId 'A' (by decide),?_⟩
  · exact absurd (String.ofList_inj.mp hid) (by decide)
  · rw [resolveGid_of_isGid (isGid_sampleId (by decide)), hboth]
    rfl

end RinaDown.TaskGids
