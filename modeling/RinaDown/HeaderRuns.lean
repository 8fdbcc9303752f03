import Mathlib.Data.List.SplitBy

/-!
# Parts under headers

A list of parts, each with a key, is written part by part, and a part whose key differs from
the one before it is preceded by the header of its key. The result is run by run the header
of the run and then its parts, where a run is a maximal stretch of parts with one key.
-/

namespace RinaDown.HeaderRuns
open List Option

universe u v

variable {κ : Type u} {β : Type v} [DecidableEq κ] (header : κ → List β)

/-- The parts in order after a part with the given key. -/
def withHeaders : Option κ → List (κ × List β) → List β
  | _, [] => []
  | previous, part :: parts =>
      (if previous = some part.1 then [] else header part.1) ++ part.2 ++
        withHeaders (some part.1) parts

def runOutput (run : List (κ × List β)) : List β :=
  ((run.head?.map fun part => header part.1).getD []) ++ run.flatMap (·.2)

def runs (parts : List (κ × List β)) : List (List (κ × List β)) :=
  parts.splitBy fun a b => a.1 = b.1

/-- The key of the last part, or the given one if there is no part. -/
def lastKey (previous : Option κ) (parts : List (κ × List β)) : Option κ :=
  (parts.getLast?.map (·.1)).or previous

omit [DecidableEq κ] in
theorem lastKey_cons (previous : Option κ) (part : κ × List β) (parts : List (κ × List β)) :
    lastKey previous (part :: parts) = lastKey (some part.1) parts := by
  cases parts with
  | nil => rfl
  | cons next parts =>
      rw [lastKey, lastKey, getLast?_cons_cons]
      cases hlast : (next :: parts).getLast? with
      | none => exact absurd hlast (by simp)
      | some last => rfl

theorem withHeaders_append (previous : Option κ) (parts parts' : List (κ × List β)) :
    withHeaders header previous (parts ++ parts') =
      withHeaders header previous parts ++ withHeaders header (lastKey previous parts) parts' := by
  induction parts generalizing previous with
  | nil => rfl
  | cons part parts ih =>
      rw [cons_append, withHeaders, withHeaders, ih, lastKey_cons]
      simp only [append_assoc]

theorem withHeaders_of_run {run : List (κ × List β)} {key : κ} (h : ∀ part ∈ run, part.1 = key) :
    withHeaders header (some key) run = run.flatMap (·.2) := by
  induction run with
  | nil => rfl
  | cons part run ih =>
      rw [forall_mem_cons] at h
      rw [withHeaders, h.1, if_pos rfl, nil_append, ih h.2, flatMap_cons]

omit [DecidableEq κ] in
theorem key_of_mem_run {run : List (κ × List β)} (h : run.IsChain fun a b => a.1 = b.1) :
    ∀ first ∈ run.head?, ∀ part ∈ run, part.1 = first.1 := by
  induction run with
  | nil => exact fun _ hfirst => absurd hfirst (not_mem_none _)
  | cons part run ih =>
      intro first hfirst
      obtain rfl := some.inj hfirst
      rw [forall_mem_cons]
      refine ⟨rfl,fun other hother => ?_⟩
      cases run with
      | nil => exact absurd hother not_mem_nil
      | cons next run =>
          rw [isChain_cons_cons] at h
          exact (ih h.2 next rfl other hother).trans h.1.symm

/-- Runs with different neighbours are written run by run. -/
theorem withHeaders_flatten {previous : Option κ} {lists : List (List (κ × List β))}
    (hne : [] ∉ lists) (hsame : ∀ run ∈ lists, run.IsChain fun a b => a.1 = b.1)
    (hdiffer : lists.IsChain fun run next =>
      ∃ hrun hnext, (run.getLast hrun).1 ≠ (next.head hnext).1)
    (hprevious : ∀ run ∈ lists.head?, ∀ first ∈ run.head?, previous ≠ some first.1) :
    withHeaders header previous lists.flatten = lists.flatMap (runOutput header) := by
  induction lists generalizing previous with
  | nil => rfl
  | cons run lists ih =>
      rw [mem_cons, not_or] at hne
      rw [forall_mem_cons] at hsame
      cases run with
      | nil => exact absurd rfl hne.1
      | cons first run =>
          have hkeys := key_of_mem_run hsame.1 first rfl
          have hfirst : previous ≠ some first.1 := hprevious _ rfl first rfl
          have hlast : lastKey previous (first :: run) = some first.1 := by
            rw [lastKey, getLast?_eq_some_getLast (cons_ne_nil first run)]
            exact congrArg some (hkeys _ (getLast_mem _))
          rw [flatten_cons, withHeaders_append, hlast, withHeaders, if_neg hfirst,
            withHeaders_of_run header fun part hpart => hkeys part (mem_cons_of_mem _ hpart)]
          rw [ih hne.2 hsame.2 hdiffer.tail]
          · simp [runOutput, flatMap_cons]
          · intro next hnext head hhead
            rw [isChain_cons] at hdiffer
            obtain ⟨hrun,hnonempty,hkey⟩ := hdiffer.1 next hnext
            have hhead' : next.head hnonempty = head := head_of_mem_head? hhead
            rw [hkeys _ (getLast_mem hrun), hhead'] at hkey
            exact fun heq => hkey (some.inj heq)

theorem withHeaders_eq_runs (parts : List (κ × List β)) :
    withHeaders header none parts = (runs parts).flatMap (runOutput header) := by
  have hflatten : (runs parts).flatten = parts := flatten_splitBy _ parts
  have hne : [] ∉ runs parts := nil_notMem_splitBy _ parts
  rw [← withHeaders_flatten header hne, hflatten]
  · intro run hrun
    exact (isChain_of_mem_splitBy hrun).imp fun a b h => of_decide_eq_true h
  · refine (isChain_getLast_head_splitBy _ parts).imp fun run next h => ?_
    obtain ⟨hrun,hnext,hkey⟩ := h
    exact ⟨hrun,hnext,of_decide_eq_false hkey⟩
  · intro run _ first _
    exact nofun

end RinaDown.HeaderRuns
