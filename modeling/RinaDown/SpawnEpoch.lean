import RinaDown.SegmentRows

/-!
# Two spawns on the rows of one task

A new spawn has taken `segments_epoch` and loaded the rows while database
operations of an old spawn are still on their way. The progress writes carry
the epoch of their spawn and have no effect any more. The layout writes and the
final flush of a coordinator carry none, and take effect whenever they arrive.
-/

namespace RinaDown.SpawnEpoch
open Std (TreeMap)
open OrderedMap SegmentLayout SegmentRows List

inductive RowWrite where
  | updateSegmentProgressBounded (index downloaded startByte epoch : ℤ)
  | updateSegmentsProgressBatch (epoch : ℤ) (rows : List (ℤ × ℤ × ℤ))
  | flushSegmentsProgress (updates : List (ℤ × ℤ))
  | upsertSegment (index startByte endByte downloaded : ℤ)
  | persistSplit (childIndex childStart childEnd childDownloaded parentIndex parentNewEnd : ℤ)
  | persistMerge (parentIndex parentNewEnd : ℤ) (absorbed : List ℤ)
  deriving DecidableEq, Repr

/-- The epoch in the guard of the statement. -/
def RowWrite.epoch? : RowWrite → Option ℤ
  | .updateSegmentProgressBounded _ _ _ epoch => some epoch
  | .updateSegmentsProgressBatch epoch _ => some epoch
  | _ => none

def RowWrite.apply (t : TaskTables) : RowWrite → TaskTables
  | .updateSegmentProgressBounded index downloaded startByte epoch =>
    SegmentRows.updateSegmentProgressBounded t index downloaded startByte epoch
  | .updateSegmentsProgressBatch epoch rows => SegmentRows.updateSegmentsProgressBatch t epoch rows
  | .flushSegmentsProgress updates => SegmentRows.flushSegmentsProgress t updates
  | .upsertSegment index startByte endByte downloaded =>
    SegmentRows.upsertSegment t index startByte endByte downloaded
  | .persistSplit childIndex childStart childEnd childDownloaded parentIndex parentNewEnd =>
    SegmentRows.persistSplit t childIndex childStart childEnd childDownloaded parentIndex
      parentNewEnd
  | .persistMerge parentIndex parentNewEnd absorbed =>
    SegmentRows.persistMerge t parentIndex parentNewEnd absorbed

inductive Spawn where
  | old
  | new
  deriving DecidableEq, Repr

/-- An operation that reaches the database; a failed one is rolled back. -/
structure Operation where
  spawn : Spawn
  write : RowWrite
  ok : Bool
  deriving DecidableEq, Repr

def Operation.apply (t : TaskTables) (op : Operation) : TaskTables :=
  if op.ok then op.write.apply t else t

def run (t : TaskTables) (ops : List Operation) : TaskTables := ops.foldl Operation.apply t

def Operation.Stale (op : Operation) : Prop := op.spawn = .old ∧ op.write.epoch? ≠ none

instance (op : Operation) : Decidable op.Stale :=
  inferInstanceAs (Decidable (op.spawn = .old ∧ op.write.epoch? ≠ none))

/-- The rows are those that the operations of the new spawn alone have persisted. -/
def Isolated (t : TaskTables) (ops : List Operation) : Prop :=
  loadSegments (run t ops) = loadSegments (run t (ops.filter (fun op => op.spawn = .new)))

instance (t : TaskTables) (ops : List Operation) : Decidable (Isolated t ops) :=
  inferInstanceAs (Decidable (_ = _))

theorem apply_epoch (t : TaskTables) (w : RowWrite) :
    (w.apply t).segmentsEpoch = t.segmentsEpoch := by
  cases w with
  | updateSegmentProgressBounded index downloaded startByte epoch => exact updateGuarded_epoch ..
  | updateSegmentsProgressBatch epoch rows =>
    simp only [RowWrite.apply, updateSegmentsProgressBatch]
    induction rows generalizing t with
    | nil => rfl
    | cons row rows ih => rw [foldl_cons, ih, updateGuarded_epoch]
  | flushSegmentsProgress updates =>
    simp only [RowWrite.apply, flushSegmentsProgress]
    induction updates generalizing t with
    | nil => rfl
    | cons u updates ih => rw [foldl_cons, ih]
  | upsertSegment index startByte endByte downloaded => rfl
  | persistSplit childIndex childStart childEnd childDownloaded parentIndex parentNewEnd => rfl
  | persistMerge parentIndex parentNewEnd absorbed => rfl

theorem operation_apply_epoch (t : TaskTables) (op : Operation) :
    (op.apply t).segmentsEpoch = t.segmentsEpoch := by
  unfold Operation.apply
  split_ifs
  · exact apply_epoch t op.write
  · rfl

theorem apply_of_epoch_ne {t : TaskTables} {w : RowWrite} {epoch : ℤ}
    (hw : w.epoch? = some epoch) (he : t.segmentsEpoch ≠ epoch) : w.apply t = t := by
  cases w with
  | updateSegmentProgressBounded index downloaded startByte e =>
    cases hw
    exact updateSegmentProgressBounded_of_epoch_ne he
  | updateSegmentsProgressBatch e rows =>
    cases hw
    exact updateSegmentsProgressBatch_of_epoch_ne he
  | flushSegmentsProgress updates => cases hw
  | upsertSegment index startByte endByte downloaded => cases hw
  | persistSplit childIndex childStart childEnd childDownloaded parentIndex parentNewEnd => cases hw
  | persistMerge parentIndex parentNewEnd absorbed => cases hw

/-- Erasing the stale progress writes from an interleaving changes nothing. -/
theorem run_filter_stale {epoch : ℤ} {ops : List Operation}
    (hops : ∀ op ∈ ops, op.spawn = .old → ∀ e, op.write.epoch? = some e → e = epoch) :
    ∀ {t : TaskTables}, t.segmentsEpoch ≠ epoch →
      run t ops = run t (ops.filter (fun op => ¬ op.Stale)) := by
  induction ops with
  | nil => exact fun _ => rfl
  | cons op ops ih =>
    intro t ht
    have hrest := @ih (fun o ho => hops o (mem_cons_of_mem op ho))
    by_cases hstale : op.Stale
    · have hskip : op.apply t = t := by
        unfold Operation.apply
        split_ifs
        · obtain ⟨hold,hguard⟩ := hstale
          obtain ⟨e,he⟩ := Option.ne_none_iff_exists'.mp hguard
          have := hops op mem_cons_self hold e he
          exact apply_of_epoch_ne he (this ▸ ht)
        · rfl
      rw [filter_cons_of_neg (by simpa using hstale), ← hrest ht]
      show run (op.apply t) ops = run t ops
      rw [hskip]
    · rw [filter_cons_of_pos (by simpa using hstale)]
      show run (op.apply t) ops = run (op.apply t) (ops.filter (fun op => ¬ op.Stale))
      exact hrest (by rwa [operation_apply_epoch])

/-- After the new spawn has taken the epoch, the progress writes of the old spawn have no effect in
any interleaving, whatever the other operations do; if the old spawn has only progress writes left,
the rows always equal the layout that the new spawn has persisted. -/
theorem progress_writes_isolated {t : TaskTables} (epoch : ℤ) {ops : List Operation}
    (htaken : t.segmentsEpoch ≠ epoch)
    (hops : ∀ op ∈ ops, op.spawn = .old → ∀ e, op.write.epoch? = some e → e = epoch) :
    run t ops = run t (ops.filter (fun op => ¬ op.Stale)) ∧
      ((∀ op ∈ ops, op.spawn = .old → op.write.epoch? ≠ none) →
        ∀ before, before <+: ops → Isolated t before) := by
  refine ⟨run_filter_stale hops htaken,?_⟩
  intro hguarded before hbefore
  have hmem : ∀ op ∈ before, op ∈ ops := fun op hop => hbefore.subset hop
  have hfilter : before.filter (fun op => ¬ op.Stale) =
      before.filter (fun op => op.spawn = .new) := by
    apply filter_congr
    intro op hop
    cases hspawn : op.spawn with
    | old => simp [Operation.Stale, hspawn, hguarded op (hmem op hop) hspawn]
    | new => simp [Operation.Stale, hspawn]
  rw [Isolated, ← hfilter]
  exact congrArg loadSegments
    (run_filter_stale (fun op hop => hops op (hmem op hop)) htaken)

/-- The new spawn has taken epoch 2 and loaded two rows, the first one in part downloaded. -/
def sampleTables : TaskTables where
  segmentsEpoch := 2
  rows := ((∅ : TreeMap ℤ Row).insert 0 ⟨0,49,20⟩).insert 1 ⟨50,99,0⟩

/-- Each kind of unguarded operation of an old spawn breaks the isolation. -/
theorem layout_writes_not_isolated :
    ¬ Isolated sampleTables [⟨.old,.persistSplit 2 35 49 0 0 34,true⟩] ∧
      ¬ Isolated sampleTables [⟨.old,.upsertSegment 1 50 99 30,true⟩] ∧
      ¬ Isolated sampleTables [⟨.old,.persistMerge 0 99 [1],true⟩] ∧
      ¬ Isolated sampleTables [⟨.old,.flushSegmentsProgress [(0, 50), (1, 50)],true⟩] := by
  decide +kernel

theorem progress_writes_isolated_sample :
    Isolated sampleTables [⟨.old,.updateSegmentsProgressBatch 1 [(0, 40, 0)],true⟩,
      ⟨.new,.persistSplit 2 35 49 0 0 34,true⟩,
      ⟨.old,.updateSegmentProgressBounded 0 50 0 1,true⟩] :=
  (progress_writes_isolated 1 (by decide) (by decide)).2 (by decide) _ (prefix_refl _)

end RinaDown.SpawnEpoch
