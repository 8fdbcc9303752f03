import Mathlib.Data.List.ReduceOption
import RinaDown.PluginInstall

/-!
# Copies of directories

A copy changes only what is below its target and creates the directories on the way there. Where
neither of two directories is in the other, a copy that does not fail has every file of the one
in the other.
-/

namespace RinaDown.PluginInstall

open FailingPrograms FileSystem Programs List Option

section
variable {α : Type} {P : FsOp → Prop}

theorem calls_invalid {message : String} : Calls P (invalid message : Install α).run := trivial

theorem calls_orInvalid {message : String} {p : Disk (Except String α)} (h : Calls P p) :
    Calls P (orInvalid message p).run :=
  h.map

end

section
variable {σ : Type*} {α : Type} {host : Host FsOp FsOp.Reply σ} {pre : σ → Prop}
  {post : α → σ → Prop}

theorem triple_invalid {message : String} :
    Triple host pre (invalid message : Install α) post :=
  Triple.throw _

theorem triple_orInvalid {message : String} {p : Disk (Except String α)}
    (h : ∀ s, pre s → ∀ a, (run host p s).value = some (.ok a) → post a (run host p s).state) :
    Triple host pre (orInvalid message p) post := by
  intro s hs a ha
  rw [orInvalid, ExceptT.run_mk, run_map] at ha ⊢
  obtain ⟨r,hr,heq⟩ := map_eq_some_iff.mp ha
  cases r with
  | error e => cases heq
  | ok b =>
      cases heq
      exact h s hs _ hr

end

/-! ## What a copy changes -/

theorem calls_copyEntry {copyDir : Path → Path → Install Unit} {src dest : Path} {name : String}
    (h : Calls (FsOp.Below (dest ++ [name])) (copyDir (src ++ [name]) (dest ++ [name])).run) :
    Calls (FsOp.Below (dest ++ [name])) (copyEntry copyDir src dest name).run := by
  refine Calls.bindFailing (Calls.lift (Calls.perform trivial)) ?_
  intro directory
  cases directory with
  | true => exact h
  | false => exact calls_orInvalid (Calls.perform (prefix_refl _))

theorem within_concat {dest : Path} {name : String} {op : FsOp}
    (h : op.Below (dest ++ [name])) : op.Below dest := by
  refine h.mono (fun q hq => (prefix_append dest [name]).trans hq) fun q hq => ?_
  rcases prefix_concat_iff.mp hq with rfl | hq
  · exact .inl (prefix_append dest [name])
  · exact .inr hq

theorem calls_copyDir (depth : ℕ) (src dest : Path) :
    Calls (FsOp.Below dest) (copyDir depth src dest).run := by
  induction depth generalizing src dest with
  | zero => exact calls_invalid
  | succ depth ih =>
      refine Calls.bindFailing (calls_orInvalid (Calls.perform fun q hq => .inr hq)) ?_
      intro _
      refine Calls.bindFailing (calls_orInvalid (Calls.perform trivial)) ?_
      intro entries
      refine Calls.forMFailing fun name _ => ?_
      exact (calls_copyEntry (ih (src ++ [name]) (dest ++ [name]))).mono fun _ => within_concat

/-! ## What a copy has -/

/-- A file below a directory, with directories on the way. -/
inductive FileBelow (t : Tree) : Path → Path → Bytes → Prop where
  | file {p : Path} {name : String} {bytes : Bytes} (node : t (p ++ [name]) = some (.file bytes)) :
      FileBelow t p [name] bytes
  | inside {p rel : Path} {name : String} {bytes : Bytes}
      (node : t (p ++ [name]) = some .directory) (rest : FileBelow t (p ++ [name]) rel bytes) :
      FileBelow t p (name :: rel) bytes

/-- Every listing is complete. -/
def Listing {σ : Type*} (host : Host FsOp FsOp.Reply σ) : Prop :=
  ∀ p s entries, (host (.readDir p) s).1 = .ok entries → none ∉ entries

section
variable {σ : Type*} {host : Host FsOp FsOp.Reply σ} {view : σ → Tree} {t : Tree}
  {src dest : Path}

/-- The source is as it was. -/
def Agrees (view : σ → Tree) (t : Tree) (src : Path) (s : σ) : Prop :=
  ∀ q, src <+: q → view s q = t q

def Copied (view : σ → Tree) (t : Tree) (src dest : Path) (s : σ) : Prop :=
  ∀ rel bytes, FileBelow t src rel bytes → view s (dest ++ rel) = some (.file bytes)

def CopiedEntry (view : σ → Tree) (t : Tree) (src dest : Path) (name : String) (s : σ) : Prop :=
  ∀ rel bytes, FileBelow t src (name :: rel) bytes → view s (dest ++ name :: rel) = some (.file bytes)

theorem Agrees.keeps {s s' : σ} (hs : Agrees view t src s) (hsrc : ¬ src <+: dest)
    (hdest : ¬ dest <+: src)
    (h : Keeps (fun q => dest <+: q) (fun q => q <+: dest) (view s) (view s')) :
    Agrees view t src s' := by
  intro q hq
  rcases h q with heq | hbelow | ⟨habove,-⟩
  · exact heq.trans (hs q hq)
  · rcases prefix_or_prefix_of_prefix hq hbelow with hcontra | hcontra
    · exact absurd hcontra hsrc
    · exact absurd hcontra hdest
  · exact absurd (hq.trans habove) hsrc

theorem Agrees.query {s s' : σ} (hs : Agrees view t src s) (h : view s' = view s) :
    Agrees view t src s' := by
  intro q hq
  rw [h]
  exact hs q hq

theorem CopiedEntry.keeps {name other : String} {s s' : σ} (hs : CopiedEntry view t src dest name s)
    (hne : other ≠ name)
    (h : Keeps (fun q => dest ++ [other] <+: q) (fun q => q <+: dest ++ [other]) (view s) (view s')) :
    CopiedEntry view t src dest name s' := by
  intro rel bytes hfile
  have hnode := hs rel bytes hfile
  rcases h (dest ++ name :: rel) with heq | hbelow | ⟨-,hnone,-⟩
  · exact heq.trans hnode
  · rw [prefix_append_right_inj, cons_prefix_cons] at hbelow
    exact absurd hbelow.1 hne
  · rw [hnode] at hnone
    cases hnone

theorem copyEntry_copies (h : Lawful host view) {copyDir : Path → Path → Install Unit}
    {name : String}
    (hcopy : Triple host (Agrees view t (src ++ [name]))
      (copyDir (src ++ [name]) (dest ++ [name])) fun _ =>
        Copied view t (src ++ [name]) (dest ++ [name])) :
    Triple host (Agrees view t src) (copyEntry copyDir src dest name) fun _ =>
      CopiedEntry view t src dest name := by
  refine Triple.bind (R := fun directory s => Agrees view t src s ∧
    (directory = true → t (src ++ [name]) = some .directory)) ?_ ?_
  · refine Triple.lift fun s hs directory hdirectory => ⟨?_,?_⟩
    · exact hs.query (h.query (.isDir (src ++ [name])) s rfl)
    · rintro rfl
      rw [← hs _ (prefix_append src [name])]
      exact h.isDir (src ++ [name]) s (some.inj hdirectory)
  · intro directory
    cases directory with
    | true =>
        intro s hs a ha rel bytes hfile
        have hcopied := hcopy s (fun q hq => hs.1 q ((prefix_append src [name]).trans hq)) a ha
        cases hfile with
        | file node =>
            rw [hs.2 rfl] at node
            cases node
        | inside _ rest =>
            have hnode := hcopied rel bytes rest
            rw [append_assoc] at hnode
            exact hnode
    | false =>
        refine triple_orInvalid fun s hs a ha rel bytes hfile => ?_
        obtain ⟨bytes',hsource,htarget⟩ := h.copied _ _ s (some.inj ha)
        rw [hs.1 _ (prefix_append src [name])] at hsource
        cases hfile with
        | file node =>
            rw [node] at hsource
            cases hsource
            exact htarget
        | inside node _ =>
            rw [node] at hsource
            cases hsource

theorem not_prefix_concat {p q : Path} (h : ¬ p <+: q) (name : String) :
    ¬ p ++ [name] <+: q ++ [name] := by
  intro hbegins
  rcases prefix_concat_iff.mp hbegins with heq | hbegins
  · rw [append_cancel_right heq] at h
    exact h (prefix_refl q)
  · exact h ((prefix_append p [name]).trans hbegins)

theorem copyDir_copies (h : Lawful host view) (hlist : Listing host) (depth : ℕ)
    (hsrc : ¬ src <+: dest) (hdest : ¬ dest <+: src) :
    Triple host (Agrees view t src) (copyDir depth src dest) fun _ => Copied view t src dest := by
  induction depth generalizing src dest with
  | zero => exact triple_invalid
  | succ depth ih =>
      refine Triple.bind (R := fun _ => Agrees view t src) ?_ ?_
      · refine triple_orInvalid fun s hs _ _ => hs.keeps hsrc hdest ?_
        exact h.keeps (o := .createDirAll dest) (fun q hq => .inr hq) s
      · intro _
        refine Triple.bind (R := fun entries s => Agrees view t src s ∧
          ∀ name, t (src ++ [name]) ≠ none → name ∈ entries.reduceOption) ?_ ?_
        · refine triple_orInvalid fun s hs entries hentries => ⟨?_,?_⟩
          · exact hs.query (h.query (.readDir src) s rfl)
          · intro name hname
            rw [← hs _ (prefix_append src [name])] at hname
            have hreply := some.inj hentries
            rw [reduceOption_mem_iff]
            exact h.listed src s entries hreply (hlist src s entries hreply) name hname
        · intro entries s hs a ha
          have hcalls := fun name => calls_copyEntry (calls_copyDir depth (src ++ [name])
            (dest ++ [name]))
          have hall := Triple.forM_each (D := CopiedEntry view t src dest)
            (fun name _ => (copyEntry_copies h (ih (not_prefix_concat hsrc name)
              (not_prefix_concat hdest name))).also fun s hs => hs.keeps hsrc hdest
                (h.run_keeps ((hcalls name).mono fun _ => within_concat) s))
            (fun name _ other _ hne s hs _ _ => hs.keeps hne (h.run_keeps (hcalls name) s))
            s hs.1 a ha
          intro rel bytes hfile
          cases hfile with
          | file node =>
              refine hall.2 _ (hs.2 _ ?_) [] bytes (FileBelow.file node)
              rw [node]
              exact some_ne_none _
          | inside node rest =>
              refine hall.2 _ (hs.2 _ ?_) _ bytes (FileBelow.inside node rest)
              rw [node]
              exact some_ne_none _

end

end RinaDown.PluginInstall
