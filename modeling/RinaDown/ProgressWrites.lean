import RinaDown.LabelledExecutions
import RinaDown.SegmentRows

/-!
# Progress writes

The writes to the rows of a task while it is downloaded: the progress of one row from a worker, a
batch of older progress from the coordinator, splits, merges and a new owner of the rows. Only the
two updates look at the owner token and at the start of the row, and only they cut what they write
to the size of the row.
-/

namespace RinaDown.ProgressWrites

open OrderedMap SegmentRows LabelledExecutions Option

inductive Write where
  | single (index downloaded startByte epoch : ℤ)
  | batch (epoch : ℤ) (rows : List (ℤ × ℤ × ℤ))
  | split (childIndex childStart childEnd childDownloaded parentIndex parentNewEnd : ℤ)
  | merge (parentIndex parentNewEnd : ℤ) (absorbed : List ℤ)
  | epoch (epoch : ℤ)
deriving DecidableEq

def step (t : TaskTables) : Write → Option TaskTables
  | .single index downloaded startByte epoch =>
      some (updateSegmentProgressBounded t index downloaded startByte epoch)
  | .batch epoch rows => some (updateSegmentsProgressBatch t epoch rows)
  | .split childIndex childStart childEnd childDownloaded parentIndex parentNewEnd =>
      some (persistSplit t childIndex childStart childEnd childDownloaded parentIndex parentNewEnd)
  | .merge parentIndex parentNewEnd absorbed =>
      some (persistMerge t parentIndex parentNewEnd absorbed)
  | .epoch epoch => some (setSegmentsEpoch t epoch)

def Row.Bounded (r : Row) : Prop := 0 ≤ r.downloadedBytes ∧ r.downloadedBytes ≤ r.size

def Bounded (t : TaskTables) : Prop := ∀ (k : ℤ) r, t.rows[k]? = some r → Row.Bounded r

/-- A row that ends there still has room for the progress recorded in it. -/
def KeepsProgress (t : TaskTables) (index newEnd : ℤ) : Prop :=
  t.rows[index]?.all (fun r => decide (r.downloadedBytes ≤ newEnd - r.startByte + 1)) = true

/-- No progress below zero is written by a worker or for a child, and neither a split nor a merge
ends a row before its progress. -/
def Sound (t : TaskTables) : Write → Prop
  | .single _ downloaded _ _ => 0 ≤ downloaded
  | .batch _ _ => True
  | .split childIndex childStart childEnd childDownloaded parentIndex parentNewEnd =>
      (0 ≤ childDownloaded ∧ childDownloaded ≤ childEnd - childStart + 1) ∧
        KeepsProgress (upsertSegment t childIndex childStart childEnd childDownloaded) parentIndex
          parentNewEnd
  | .merge parentIndex parentNewEnd _ => KeepsProgress t parentIndex parentNewEnd
  | .epoch _ => True

instance (t : TaskTables) (index newEnd : ℤ) : Decidable (KeepsProgress t index newEnd) :=
  inferInstanceAs (Decidable (_ = true))

instance (t : TaskTables) : (w : Write) → Decidable (Sound t w)
  | .single _ downloaded _ _ => inferInstanceAs (Decidable (0 ≤ downloaded))
  | .batch _ _ => isTrue trivial
  | .split .. => inferInstanceAs (Decidable ((_ ∧ _) ∧ _))
  | .merge .. => inferInstanceAs (Decidable (KeepsProgress ..))
  | .epoch _ => isTrue trivial

/-! ## What the updates do to a row -/

/-- A row after an update of its progress: it is as it was, or the update names it and its start. -/
structure Updated (r r' : Row) (named : Prop) : Prop where
  start : r'.startByte = r.startByte
  stop : r'.endByte = r.endByte
  changed : r'.downloadedBytes ≠ r.downloadedBytes → named

variable {t u : TaskTables} {k : ℤ} {r r' : Row}

theorem Updated.refl (r : Row) {named : Prop} : Updated r r named := ⟨rfl,rfl,fun h => absurd rfl h⟩

theorem Updated.size {named : Prop} (h : Updated r r' named) : r'.size = r.size := by
  rw [Row.size, Row.size, h.start, h.stop]

theorem updateGuarded_row (index startByte epoch : ℤ) (f : Row → ℤ) (hr : t.rows[k]? = some r) :
    ∃ r', (updateGuarded t index startByte epoch f).rows[k]? = some r' ∧
      Updated r r' (t.segmentsEpoch = epoch ∧ k = index ∧ r.startByte = startByte) ∧
      (r'.downloadedBytes = r.downloadedBytes ∨ r'.downloadedBytes = f r) := by
  rw [updateGuarded_get, hr]
  by_cases hguard : t.segmentsEpoch = epoch ∧ k = index
  · rw [if_pos hguard]
    by_cases hstart : r.startByte = startByte
    · refine ⟨{ r with downloadedBytes := f r },?_,?_,.inr rfl⟩
      · simp [hstart]
      · exact ⟨rfl,rfl,fun _ => ⟨hguard.1,hguard.2,hstart⟩⟩
    · exact ⟨r,by simp [hstart],Updated.refl r,.inl rfl⟩
  · exact ⟨r,if_neg hguard,Updated.refl r,.inl rfl⟩

theorem single_row (index downloaded startByte epoch : ℤ) (hr : t.rows[k]? = some r) :
    ∃ r', (updateSegmentProgressBounded t index downloaded startByte epoch).rows[k]? = some r' ∧
      Updated r r' (t.segmentsEpoch = epoch ∧ k = index ∧ r.startByte = startByte) ∧
      (r'.downloadedBytes = r.downloadedBytes ∨ r'.downloadedBytes = min downloaded r.size) := by
  obtain ⟨r',hr',hupdated,hvalue⟩ := updateGuarded_row index startByte epoch
    (fun r => if downloaded > r.size then r.size else downloaded) hr
  refine ⟨r',hr',hupdated,?_⟩
  rcases hvalue with hsame | hwritten
  · exact .inl hsame
  · right
    rw [hwritten]
    split_ifs
    · omega
    · omega

/-- A batch only raises the progress of a row, or cuts it to the size. -/
structure Raised (r r' : Row) : Prop where
  raised : r.downloadedBytes ≤ r'.downloadedBytes ∨ r'.downloadedBytes = r.size
  bounded : r'.downloadedBytes ≤ max r.downloadedBytes r.size

theorem Raised.refl (r : Row) : Raised r r := ⟨.inl le_rfl,le_max_left _ _⟩

theorem batch_row (epoch : ℤ) (rows : List (ℤ × ℤ × ℤ)) : ∀ {t : TaskTables} {r : Row},
    t.rows[k]? = some r →
      ∃ r', (updateSegmentsProgressBatch t epoch rows).rows[k]? = some r' ∧
        Updated r r' (t.segmentsEpoch = epoch ∧ ∃ row ∈ rows, row.1 = k ∧ row.2.2 = r.startByte) ∧
        Raised r r' := by
  induction rows with
  | nil =>
    intro t r hr
    exact ⟨r,hr,Updated.refl r,Raised.refl r⟩
  | cons row rows ih =>
    intro t r hr
    set write := fun r : Row =>
      if row.2.1 > r.size then r.size
      else if r.downloadedBytes > row.2.1 then r.downloadedBytes
      else row.2.1 with hwrite
    obtain ⟨r₁,hr₁,hupdated₁,hvalue⟩ := updateGuarded_row row.1 row.2.2 epoch write hr
    obtain ⟨r',hr',hupdated,hraised⟩ := ih hr₁
    rw [updateGuarded_epoch] at hupdated
    have hsize : r₁.size = r.size := hupdated₁.size
    have hraised₁ : Raised r r₁ := by
      rcases hvalue with hsame | hwritten
      · exact ⟨.inl hsame.ge,by omega⟩
      · rw [hwrite] at hwritten
        dsimp only at hwritten
        constructor
        · split_ifs at hwritten
          all_goals omega
        · split_ifs at hwritten
          all_goals omega
    refine ⟨r',hr',⟨hupdated.start.trans hupdated₁.start,hupdated.stop.trans hupdated₁.stop,?_⟩,
      ?_,?_⟩
    · intro hne
      by_cases hsame : r₁.downloadedBytes = r.downloadedBytes
      · obtain ⟨hepoch,named,hmem,hindex,hstart⟩ := hupdated.changed (hsame ▸ hne)
        exact ⟨hepoch,named,List.mem_cons_of_mem row hmem,hindex,
          hstart.trans hupdated₁.start⟩
      · obtain ⟨hepoch,hindex,hstart⟩ := hupdated₁.changed hsame
        exact ⟨hepoch,row,List.mem_cons_self,hindex.symm,hstart.symm⟩
    · have hbefore := hraised₁.raised
      have hafter := hraised.raised
      have hbound := hraised.bounded
      omega
    · have hbefore := hraised₁.bounded
      have hafter := hraised.bounded
      omega

theorem updateGuarded_none {index startByte epoch : ℤ} {f : Row → ℤ} (hr : t.rows[k]? = none) :
    (updateGuarded t index startByte epoch f).rows[k]? = none := by
  rw [updateGuarded_get, hr]
  split_ifs
  · rfl
  · rfl

theorem batch_none (epoch : ℤ) (rows : List (ℤ × ℤ × ℤ)) : ∀ {t : TaskTables},
    t.rows[k]? = none → (updateSegmentsProgressBatch t epoch rows).rows[k]? = none := by
  induction rows with
  | nil => exact fun hr => hr
  | cons row rows ih => exact fun hr => ih (updateGuarded_none hr)

/-! ## Splits and merges -/

theorem split_row (childIndex childStart childEnd childDownloaded parentIndex parentNewEnd : ℤ)
    (hr' : (persistSplit t childIndex childStart childEnd childDownloaded parentIndex
      parentNewEnd).rows[k]? = some r') :
    ∃ r, (upsertSegment t childIndex childStart childEnd childDownloaded).rows[k]? = some r ∧
      r'.downloadedBytes = r.downloadedBytes ∧ r'.startByte = r.startByte ∧
      r'.endByte = if k = parentIndex then parentNewEnd else r.endByte := by
  rw [persistSplit, setEnd_get] at hr'
  split_ifs at hr' ⊢ with hk
  · obtain ⟨r,hr,rfl⟩ := map_eq_some_iff.1 hr'
    exact ⟨r,hr,rfl,rfl,rfl⟩
  · exact ⟨r',hr',rfl,rfl,rfl⟩

theorem merge_row (parentIndex parentNewEnd : ℤ) (absorbed : List ℤ)
    (hr' : (persistMerge t parentIndex parentNewEnd absorbed).rows[k]? = some r') :
    ∃ r, t.rows[k]? = some r ∧ r'.downloadedBytes = r.downloadedBytes ∧
      r'.startByte = r.startByte ∧
      r'.endByte = if k = parentIndex then parentNewEnd else r.endByte := by
  have herased : ∀ (l : List ℤ) (m : Std.TreeMap ℤ Row),
      (l.foldl (fun m idx => m.erase idx) m)[k]? = some r' → m[k]? = some r' := by
    intro l
    induction l with
    | nil => exact fun m h => h
    | cons idx l ih =>
      intro m h
      have hm := ih _ h
      rw [getElem?_erase_eq] at hm
      split_ifs at hm
      exact hm
  have hset := herased absorbed _ hr'
  rw [setEnd_get] at hset
  split_ifs at hset ⊢ with hk
  · obtain ⟨r,hr,rfl⟩ := map_eq_some_iff.1 hset
    exact ⟨r,hr,rfl,rfl,rfl⟩
  · exact ⟨r',hset,rfl,rfl,rfl⟩

theorem KeepsProgress.le {index newEnd : ℤ} (h : KeepsProgress t index newEnd)
    (hr : t.rows[index]? = some r) : r.downloadedBytes ≤ newEnd - r.startByte + 1 := by
  rw [KeepsProgress, hr] at h
  simpa using h

/-- A row that keeps its progress and its start, with an end behind the progress. -/
theorem bounded_of_end {index newEnd : ℤ} (hkeeps : KeepsProgress t index newEnd)
    (hr : t.rows[k]? = some r) (hbounded : Row.Bounded r)
    (hprogress : r'.downloadedBytes = r.downloadedBytes) (hstart : r'.startByte = r.startByte)
    (hend : r'.endByte = if k = index then newEnd else r.endByte) : Row.Bounded r' := by
  obtain ⟨hzero,hsize⟩ := hbounded
  rw [Row.size] at hsize
  refine ⟨hprogress ▸ hzero,?_⟩
  rw [Row.size, hprogress, hstart, hend]
  split_ifs with hk
  · subst hk
    exact hkeeps.le hr
  · exact hsize

/-! ## Every run -/

theorem Bounded.step {w : Write} (h : Bounded t) (hsound : Sound t w)
    (hstep : ProgressWrites.step t w = some u) : Bounded u := by
  intro k r' hr'
  cases w with
  | single index downloaded startByte epoch =>
    cases hstep
    cases hr : t.rows[k]? with
    | none => exact nomatch (updateGuarded_none hr).symm.trans hr'
    | some r =>
      obtain ⟨q,hq,hupdated,hvalue⟩ := single_row index downloaded startByte epoch hr
      obtain rfl := some.inj (hq.symm.trans hr')
      have hbounded := h k r hr
      have hdownloaded : 0 ≤ downloaded := hsound
      rw [Row.Bounded, hupdated.size]
      unfold Row.Bounded at hbounded
      omega
  | batch epoch rows =>
    cases hstep
    cases hr : t.rows[k]? with
    | none => exact nomatch (batch_none epoch rows hr).symm.trans hr'
    | some r =>
      obtain ⟨q,hq,hupdated,hraised⟩ := batch_row epoch rows hr
      obtain rfl := some.inj (hq.symm.trans hr')
      have hbounded := h k r hr
      have hraised₁ := hraised.raised
      have hraised₂ := hraised.bounded
      rw [Row.Bounded, hupdated.size]
      unfold Row.Bounded at hbounded
      omega
  | split childIndex childStart childEnd childDownloaded parentIndex parentNewEnd =>
    cases hstep
    obtain ⟨r,hr,hprogress,hstart,hend⟩ := split_row childIndex childStart childEnd
      childDownloaded parentIndex parentNewEnd hr'
    have hchild : Row.Bounded r := by
      rw [upsertSegment_get] at hr
      split_ifs at hr with hk
      · cases hr
        exact hsound.1
      · exact h k r hr
    exact bounded_of_end hsound.2 hr hchild hprogress hstart hend
  | merge parentIndex parentNewEnd absorbed =>
    cases hstep
    obtain ⟨r,hr,hprogress,hstart,hend⟩ := merge_row parentIndex parentNewEnd absorbed hr'
    exact bounded_of_end hsound hr (h k r hr) hprogress hstart hend
  | epoch epoch =>
    cases hstep
    exact h k r' hr'

/-- The write is an update by the owner that names the row and its start. -/
def Write.Updates (owner index startByte : ℤ) : Write → Prop
  | .single i _ s e => owner = e ∧ index = i ∧ startByte = s
  | .batch e rows => owner = e ∧ ∃ row ∈ rows, row.1 = index ∧ row.2.2 = startByte
  | _ => False

def Write.Creates (index : ℤ) : Write → Prop
  | .split childIndex .. => childIndex = index
  | _ => False

/-- A worker writes less progress than the row has. -/
def Write.Lowers (index : ℤ) (r r' : Row) : Write → Prop
  | .single i downloaded _ _ => index = i ∧ downloaded < r.downloadedBytes ∧
      r'.downloadedBytes = downloaded
  | _ => False

/-- What a write may do to the progress of a row that it does not create. -/
structure Admitted (owner : ℤ) (w : Write) (k : ℤ) (r r' : Row) : Prop where
  updated : r'.downloadedBytes ≠ r.downloadedBytes → w.Updates owner k r.startByte
  lowered : r'.downloadedBytes < r.downloadedBytes →
    r'.downloadedBytes = r'.size ∨ w.Lowers k r r'

theorem admitted_of_eq {owner : ℤ} {w : Write} (h : r'.downloadedBytes = r.downloadedBytes) :
    Admitted owner w k r r' := ⟨fun hne => absurd h hne,fun hlt => absurd h hlt.ne⟩

theorem admitted_step {w : Write} (hstep : step t w = some u) (hr : t.rows[k]? = some r)
    (hr' : u.rows[k]? = some r') (hcreates : ¬ w.Creates k) :
    Admitted t.segmentsEpoch w k r r' := by
  cases w with
  | single index downloaded startByte epoch =>
    cases hstep
    obtain ⟨q,hq,hupdated,hvalue⟩ := single_row index downloaded startByte epoch hr
    obtain rfl := some.inj (hq.symm.trans hr')
    refine ⟨hupdated.changed,?_⟩
    intro hlt
    have hindex : k = index := (hupdated.changed hlt.ne).2.1
    rw [hupdated.size]
    rcases hvalue with hsame | hwritten
    · omega
    · by_cases hcut : r.size ≤ downloaded
      · left
        omega
      · right
        exact ⟨hindex,by omega,by omega⟩
  | batch epoch rows =>
    cases hstep
    obtain ⟨q,hq,hupdated,hraised⟩ := batch_row epoch rows hr
    obtain rfl := some.inj (hq.symm.trans hr')
    refine ⟨hupdated.changed,?_⟩
    intro hlt
    rw [hupdated.size]
    exact .inl (hraised.raised.resolve_left (not_le.2 hlt))
  | split childIndex childStart childEnd childDownloaded parentIndex parentNewEnd =>
    cases hstep
    obtain ⟨q,hq,hprogress,-,-⟩ := split_row childIndex childStart childEnd childDownloaded
      parentIndex parentNewEnd hr'
    have hchild : k ≠ childIndex := fun h => hcreates h.symm
    rw [upsertSegment_get, if_neg hchild, hr, some.injEq] at hq
    exact admitted_of_eq (hprogress.trans (hq ▸ rfl))
  | merge parentIndex parentNewEnd absorbed =>
    cases hstep
    obtain ⟨q,hq,hprogress,-,-⟩ := merge_row parentIndex parentNewEnd absorbed hr'
    rw [hr, some.injEq] at hq
    exact admitted_of_eq (hprogress.trans (hq ▸ rfl))
  | epoch epoch =>
    cases hstep
    rw [setSegmentsEpoch, hr, some.injEq] at hr'
    exact admitted_of_eq (hr' ▸ rfl)

/-- In every run of writes that are sound, from rows whose progress is within their sizes: the
progress of every row stays between zero and its size; a write changes the progress of a row only
if it is an update by the owner that names the row and its start; and it lowers the progress only
to the size of the row, or because a worker wrote less. -/
theorem progress_bounded (t u : TaskTables) (writes : List Write) (ht : Bounded t)
    (hsound : Meets step Sound t writes) (hrun : exec step t writes = some u) :
    Bounded u ∧ ∀ w v k r r', step u w = some v → u.rows[k]? = some r → v.rows[k]? = some r' →
      ¬ w.Creates k → Admitted u.segmentsEpoch w k r r' :=
  ⟨exec_invariant_of_meets (fun _ _ _ h hs hstep => h.step hs hstep) ht hsound hrun,
    fun _ _ _ _ _ hstep hr hr' hcreates => admitted_step hstep hr hr' hcreates⟩

/-- One row of a thousand bytes with half of them. -/
def halfRow : TaskTables := ⟨1,(∅ : Std.TreeMap ℤ Row).insert 0 ⟨0,999,500⟩⟩

theorem bounded_halfRow : Bounded halfRow := by
  intro k r hr
  rw [halfRow, getElem?_insert_eq] at hr
  split_ifs at hr
  · cases hr
    exact ⟨by decide,by decide⟩
  · simp at hr

def halfWrites : List Write :=
  [.split 1 700 999 0 0 699, .batch 1 [(0, 400, 0), (0, 5000, 0)], .epoch 2, .single 0 5 0 1,
    .merge 0 999 [1]]

theorem halfRow_bounded :
    ∃ u, exec step halfRow halfWrites = some u ∧ Bounded u := by
  have hrun : (exec step halfRow halfWrites).isSome := rfl
  obtain ⟨u,hu⟩ := isSome_iff_exists.1 hrun
  exact ⟨u,hu,(progress_bounded halfRow u halfWrites bounded_halfRow (by decide +kernel) hu).1⟩

/-- A worker that writes less lowers the progress, also below zero, and a split that ends the row
before its progress leaves it above the size. -/
theorem halfRow_overwritten :
    (exec step halfRow [.single 0 300 0 1]).bind (fun u => u.rows[(0 : ℤ)]?) =
        some ⟨0,999,300⟩ ∧
      (exec step halfRow [.single 0 (-5) 0 1]).bind (fun u => u.rows[(0 : ℤ)]?) =
        some ⟨0,999,-5⟩ ∧
      (exec step halfRow [.split 1 100 999 0 0 99]).bind (fun u => u.rows[(0 : ℤ)]?) =
        some ⟨0,99,500⟩ :=
  ⟨by decide +kernel,by decide +kernel,by decide +kernel⟩

end RinaDown.ProgressWrites
