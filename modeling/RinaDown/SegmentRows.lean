import RinaDown.SegmentLayout

/-!
# The segment rows of one task

The rows of `task_segments` that belong to one task, by segment index, which is
the primary key within the task, and the owner token `segments_epoch` of the
task. A function is one statement or one transaction; a transaction that fails
leaves the tables as they are.
-/

namespace RinaDown.SegmentRows
open Std (TreeMap)
open OrderedMap SegmentLayout

structure Row where
  startByte : ℤ
  endByte : ℤ
  downloadedBytes : ℤ
  deriving DecidableEq, Repr

structure TaskTables where
  segmentsEpoch : ℤ
  rows : TreeMap ℤ Row

def Row.size (r : Row) : ℤ := r.endByte - r.startByte + 1

def loadSegments (t : TaskTables) : List SegmentRow :=
  t.rows.toList.map (fun p => ⟨p.1,p.2.startByte,p.2.endByte,p.2.downloadedBytes⟩)

def setSegmentsEpoch (t : TaskTables) (epoch : ℤ) : TaskTables := { t with segmentsEpoch := epoch }

/-- `WHERE segment_index = $3 AND start_byte = $4 AND EXISTS (.. segments_epoch = $6)`. -/
def updateGuarded (t : TaskTables) (index startByte epoch : ℤ) (f : Row → ℤ) : TaskTables :=
  if t.segmentsEpoch = epoch then
    { t with rows := t.rows.modify index (fun r =>
        if r.startByte = startByte then { r with downloadedBytes := f r } else r) }
  else t

def updateSegmentProgressBounded (t : TaskTables) (index downloaded startByte epoch : ℤ) :
    TaskTables :=
  updateGuarded t index startByte epoch (fun r =>
    if downloaded > r.size then r.size else downloaded)

def updateSegmentsProgressBatch (t : TaskTables) (epoch : ℤ) (rows : List (ℤ × ℤ × ℤ)) :
    TaskTables :=
  rows.foldl (fun t row =>
    updateGuarded t row.1 row.2.2 epoch (fun r =>
      if row.2.1 > r.size then r.size
      else if r.downloadedBytes > row.2.1 then r.downloadedBytes
      else row.2.1)) t

def flushSegmentsProgress (t : TaskTables) (updates : List (ℤ × ℤ)) : TaskTables :=
  updates.foldl (fun t u =>
    { t with rows := t.rows.modify u.1 (fun r => { r with downloadedBytes := u.2 }) }) t

/-- DELETE and INSERT of one row. -/
def upsertSegment (t : TaskTables) (index startByte endByte downloaded : ℤ) : TaskTables :=
  { t with rows := (t.rows.erase index).insert index ⟨startByte,endByte,downloaded⟩ }

def setEnd (t : TaskTables) (index endByte : ℤ) : TaskTables :=
  { t with rows := t.rows.modify index (fun r => { r with endByte := endByte }) }

/-- The upsert of the child and the new end of the parent, in one transaction. -/
def persistSplit (t : TaskTables) (childIndex childStart childEnd childDownloaded parentIndex
    parentNewEnd : ℤ) : TaskTables :=
  setEnd (upsertSegment t childIndex childStart childEnd childDownloaded) parentIndex parentNewEnd

def persistMerge (t : TaskTables) (parentIndex parentNewEnd : ℤ) (absorbed : List ℤ) :
    TaskTables :=
  let extended := setEnd t parentIndex parentNewEnd
  { extended with rows := absorbed.foldl (fun m idx => m.erase idx) extended.rows }

theorem updateGuarded_get (t : TaskTables) (index startByte epoch : ℤ) (f : Row → ℤ) (k : ℤ) :
    (updateGuarded t index startByte epoch f).rows[k]? =
      if t.segmentsEpoch = epoch ∧ k = index then
        t.rows[k]?.map (fun r =>
          if r.startByte = startByte then { r with downloadedBytes := f r } else r)
      else t.rows[k]? := by
  unfold updateGuarded
  by_cases he : t.segmentsEpoch = epoch
  · rw [if_pos he]
    simp only [getElem?_modify_eq]
    by_cases hk : k = index
    · simp [he, hk]
    · simp [hk]
  · simp [he]

theorem updateGuarded_of_epoch_ne {t : TaskTables} {index startByte epoch : ℤ} {f : Row → ℤ}
    (he : t.segmentsEpoch ≠ epoch) : updateGuarded t index startByte epoch f = t := by
  rw [updateGuarded, if_neg he]

@[simp] theorem updateGuarded_epoch (t : TaskTables) (index startByte epoch : ℤ) (f : Row → ℤ) :
    (updateGuarded t index startByte epoch f).segmentsEpoch = t.segmentsEpoch := by
  unfold updateGuarded
  split_ifs <;> rfl

theorem updateSegmentProgressBounded_of_epoch_ne {t : TaskTables}
    {index downloaded startByte epoch : ℤ} (he : t.segmentsEpoch ≠ epoch) :
    updateSegmentProgressBounded t index downloaded startByte epoch = t :=
  updateGuarded_of_epoch_ne he

theorem updateSegmentsProgressBatch_of_epoch_ne {t : TaskTables} {epoch : ℤ}
    {rows : List (ℤ × ℤ × ℤ)} (he : t.segmentsEpoch ≠ epoch) :
    updateSegmentsProgressBatch t epoch rows = t := by
  induction rows with
  | nil => rfl
  | cons row rows ih =>
    rw [updateSegmentsProgressBatch, List.foldl_cons, updateGuarded_of_epoch_ne he]
    exact ih

theorem upsertSegment_get (t : TaskTables) (index startByte endByte downloaded k : ℤ) :
    (upsertSegment t index startByte endByte downloaded).rows[k]? =
      if k = index then some ⟨startByte,endByte,downloaded⟩ else t.rows[k]? := by
  simp only [upsertSegment, getElem?_insert_eq, getElem?_erase_eq]
  split_ifs <;> rfl

theorem setEnd_get (t : TaskTables) (index endByte k : ℤ) :
    (setEnd t index endByte).rows[k]? =
      if k = index then t.rows[k]?.map (fun r => { r with endByte := endByte })
      else t.rows[k]? := by
  simp only [setEnd, getElem?_modify_eq]
  by_cases hk : k = index <;> simp [hk]

end RinaDown.SegmentRows
