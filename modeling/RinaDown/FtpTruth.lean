import Mathlib.Data.List.Nodup
import RinaDown.FtpDownload
import RinaDown.LabelledExecutions

/-!
# What a completed FTP download holds

A file that is renamed has the length that the server reported, and every byte came from its own
offset in a run that reported this length; without a length the server confirmed the transfer.
Excluded are runs beside each other, resumes of a file that was written for another size or in
segments, segments in a file that is longer than the size, progress for data that was not written,
and servers without a size that do not confirm a transfer.
-/

namespace RinaDown.FtpTruth

open FtpDownload IntervalPartition LabelledExecutions SegmentLayout SourcedFiles List Bool

/-- Each byte comes from its own offset, from a run that reported the size. -/
def source (total i : ℤ) : Origin := ⟨total,i⟩

structure Truthful (c : Completion) : Prop where
  known : 0 < c.total → c.file.len = c.total ∧ c.file.Holds (source c.total) 0 c.total
  unknown : c.total ≤ 0 → c.replied = true

/-! ## The condition -/

/-- The bytes that a transfer has received and not written are counted and lost. -/
def loses : Event → Bool
  | .writeFailed _ | .cancelled false _ => true
  | _ => false

def Zero (rows : List SegmentRow) : Prop := ∀ row ∈ rows, row.downloadedBytes = 0

instance (rows : List SegmentRow) : Decidable (Zero rows) :=
  inferInstanceAs (Decidable (∀ row ∈ rows, row.downloadedBytes = 0))

/-- The server honours the offset at which a file is resumed, and single streams for its size alone
have written the file; where it is not resumed, rows that count progress are deleted. -/
def CarefulOpen (s : State) (r : Run) (deleted : Bool) : Prop :=
  if resumes r s.file = true then r.honours = true ∧ s.made = some r.total
  else deleted = true ∨ Zero s.rows

instance (s : State) (r : Run) (deleted : Bool) : Decidable (CarefulOpen s r deleted) :=
  inferInstanceAs (Decidable (ite _ _ _))

/-- The file in which segments are written is not longer than the size. -/
def CarefulNext (s : State) (r : Run) : Prop := r.phase = .allocating → fileLen s.file ≤ r.total

instance (s : State) (r : Run) : Decidable (CarefulNext s r) :=
  inferInstanceAs (Decidable (_ → _))

def writerOf : WorkerPhase → Option Writer
  | .running a => some a
  | _ => none

/-- Nothing is left to write when a segment fails to write or is cancelled without a flush. -/
def CarefulWorker (event : Event) (w : Worker) : Prop :=
  ∀ a ∈ writerOf w.phase, loses event = true → a.flushed = a.pos

instance (event : Event) (w : Worker) : Decidable (CarefulWorker event w) :=
  inferInstanceAs (Decidable (∀ a ∈ writerOf w.phase, _ → _))

def workersOf : Phase → List Worker
  | .working workers => workers
  | _ => []

/-- A run without a size is not cancelled: the reader may see it first, and end the transfer. -/
def CarefulRun (s : State) (r : Run) : Label → Prop
  | .open deleted => CarefulOpen s r deleted
  | .next _ => CarefulNext s r
  | .worker k event => ∀ w ∈ (workersOf r.phase)[k]?, CarefulWorker event w
  | .cancel => 0 < r.total
  | _ => True

instance (s : State) (r : Run) (label : Label) : Decidable (CarefulRun s r label) :=
  match label with
  | .open deleted => inferInstanceAs (Decidable (CarefulOpen s r deleted))
  | .next _ => inferInstanceAs (Decidable (CarefulNext s r))
  | .worker k event =>
      inferInstanceAs (Decidable (∀ w ∈ (workersOf r.phase)[k]?, CarefulWorker event w))
  | .cancel => inferInstanceAs (Decidable (0 < r.total))
  | .create _ | .single _ | .complete _ => isTrue trivial

/-- The file is not deleted and no run started before the last run has ended, and a server that
reports no size confirms its transfers. -/
def Careful (t : Task) : Action → Prop
  | .start p _ _ => t.state.run = none ∧ (p.total ≤ 0 → p.confirms = true)
  | .last label => ∀ r ∈ t.state.run, CarefulRun t.state r label
  | .deleteTemp => t.state.run = none
  | _ => True

instance (t : Task) (a : Action) : Decidable (Careful t a) :=
  match a with
  | .start .. => inferInstanceAs (Decidable (_ ∧ _))
  | .last _ => inferInstanceAs (Decidable (∀ _ ∈ _, _))
  | .deleteTemp => inferInstanceAs (Decidable (_ = _))
  | .earlier .. | .crash => isTrue trivial

/-! ## Rows -/

def planned (rows : List SegmentRow) : ℤ := lastEnd rows + 1

structure RowsInv (file : Option TempFile) (rows : List SegmentRow) : Prop where
  tiles : Tiles SegmentRow.startByte SegmentRow.endByte 0 rows (planned rows)
  indices : (rows.map SegmentRow.index).Nodup
  progress : ∀ row ∈ rows, 0 ≤ row.downloadedBytes ∧
    row.downloadedBytes ≤ row.endByte - row.startByte + 1
  held : ∀ f ∈ file, ∀ row ∈ rows, 0 < row.downloadedBytes → planned rows ≤ f.len ∧
    f.Holds (source (planned rows)) row.startByte (row.startByte + row.downloadedBytes)

theorem rowsInv_nil (file : Option TempFile) : RowsInv file [] where
  tiles := rfl
  indices := nodup_nil
  progress _ h := absurd h not_mem_nil
  held _ _ _ h := absurd h not_mem_nil

variable {file : Option TempFile} {rows : List SegmentRow} {f : TempFile} {total : ℤ} {w : Worker}

theorem RowsInv.of_zero {file' : Option TempFile} (h : RowsInv file rows) (hzero : Zero rows) :
    RowsInv file' rows where
  tiles := h.tiles
  indices := h.indices
  progress := h.progress
  held _ _ row hrow hpos := absurd (hzero row hrow) hpos.ne'

theorem RowsInv.of_file {f' : TempFile} (h : RowsInv (some f) rows) (hlen : f.len ≤ f'.len)
    (hheld : ∀ a b, f.Holds (source (planned rows)) a b → f'.Holds (source (planned rows)) a b) :
    RowsInv (some f') rows where
  tiles := h.tiles
  indices := h.indices
  progress := h.progress
  held _ hf row hrow hpos := by
    cases hf
    obtain ⟨hplanned,hholds⟩ := h.held f rfl row hrow hpos
    exact ⟨hplanned.trans hlen,hheld _ _ hholds⟩

theorem lastEnd_map {g : SegmentRow → SegmentRow} (hg : ∀ row, (g row).endByte = row.endByte) :
    lastEnd (rows.map g) = lastEnd rows := by
  rw [lastEnd, lastEnd, getLast?_map]
  cases rows.getLast? with
  | none => rfl
  | some row => exact hg row

/-- Rows keep their ranges and change what they count. -/
theorem RowsInv.map {g : SegmentRow → SegmentRow} (h : RowsInv file rows)
    (hg : ∀ row, (g row).index = row.index ∧ (g row).startByte = row.startByte ∧ (g row).endByte = row.endByte)
    (hprogress : ∀ row ∈ rows, 0 ≤ (g row).downloadedBytes ∧
      (g row).downloadedBytes ≤ row.endByte - row.startByte + 1)
    (hheld : ∀ f ∈ file, ∀ row ∈ rows, 0 < (g row).downloadedBytes → planned rows ≤ f.len ∧
      f.Holds (source (planned rows)) row.startByte (row.startByte + (g row).downloadedBytes))
    : RowsInv file (rows.map g) := by
  have hplanned : planned (rows.map g) = planned rows := by
    rw [planned, planned, lastEnd_map fun row => (hg row).2.2]
  refine ⟨?_,?_,?_,?_⟩
  · rw [hplanned]
    exact h.tiles.map fun row => (hg row).2
  · rw [map_map]
    have hindex : SegmentRow.index ∘ g = SegmentRow.index := funext fun row => (hg row).1
    rw [hindex]
    exact h.indices
  · intro row hrow
    obtain ⟨old,hold,rfl⟩ := mem_map.mp hrow
    rw [(hg old).2.1, (hg old).2.2]
    exact hprogress old hold
  · intro f hf row hrow hpos
    obtain ⟨old,hold,rfl⟩ := mem_map.mp hrow
    rw [hplanned, (hg old).2.1]
    exact hheld f hf old hold hpos

theorem zero_reset (rows : List SegmentRow) : Zero (resetSegmentsProgress rows) := by
  intro row hrow
  obtain ⟨old,-,rfl⟩ := mem_map.mp hrow
  rfl

theorem RowsInv.reset (h : RowsInv file rows) :
    RowsInv file (resetSegmentsProgress rows) := by
  apply h.map (g := fun row => { row with downloadedBytes := 0 }) (fun _ => ⟨rfl,rfl,rfl⟩)
  · intro row hrow
    exact ⟨le_rfl,(h.progress row hrow).1.trans (h.progress row hrow).2⟩
  · exact fun _ _ _ _ hpos => absurd hpos (lt_irrefl _)

theorem RowsInv.zero_of_dbDownloaded (h : RowsInv file rows) (hdb : dbDownloaded rows ≤ 0) :
    Zero rows := by
  intro row hrow
  have hnonneg : ∀ x ∈ rows.map SegmentRow.downloadedBytes, 0 ≤ x := by
    intro x hx
    obtain ⟨row',hrow',rfl⟩ := mem_map.mp hx
    exact (h.progress row' hrow').1
  have hle := single_le_sum hnonneg _ (mem_map_of_mem hrow)
  exact le_antisymm (hle.trans hdb) (h.progress row hrow).1

/-- If the progress of the rows adds up to what they plan, each row has all of its range. -/
theorem RowsInv.full (h : RowsInv file rows) (hdb : dbDownloaded rows = planned rows)
    (row : SegmentRow) (hrow : row ∈ rows) :
    row.downloadedBytes = row.endByte - row.startByte + 1 := by
  by_contra hne
  have hsum := h.tiles.sum
  have hlt := sum_lt_sum SegmentRow.downloadedBytes
    (fun row => row.endByte - row.startByte + 1) (fun row hrow => (h.progress row hrow).2)
    ⟨row,hrow,lt_of_le_of_ne (h.progress row hrow).2 hne⟩
  rw [hsum, ← dbDownloaded, hdb] at hlt
  omega

theorem RowsInv.holds (h : RowsInv (some f) rows) (hdb : dbDownloaded rows = planned rows) :
    f.Holds (source (planned rows)) 0 (planned rows) := by
  intro i hi hi'
  obtain ⟨row,hrow,hlo,hhi⟩ := h.tiles.cover i hi hi'
  have hfull := h.full hdb row hrow
  obtain ⟨-,hholds⟩ := h.held f rfl row hrow (by omega)
  exact hholds i hlo (by omega)

/-- A file that was received for a size that it is shorter than has no rows that count. -/
theorem RowsInv.zero_of_holds (h : RowsInv (some f) rows) (hholds : f.Holds (source total) 0 f.len)
    (hlt : f.len < total) :
    Zero rows := by
  intro row hrow
  by_contra hne
  have hprogress := h.progress row hrow
  have hwithin := h.tiles.within row hrow
  obtain ⟨hplanned,hheld⟩ := h.held f rfl row hrow (by omega)
  obtain ⟨hlen,hbyte⟩ := hheld row.startByte le_rfl (by omega)
  have hbyte' := (hholds row.startByte hwithin.1 hlen).2
  rw [hbyte, Option.some.injEq, source, source, Origin.mk.injEq] at hbyte'
  omega

/-! ## A fresh plan -/

theorem clampCount_spec (segments : ℤ) (htotal : 0 < total) :
    1 ≤ clampCount segments total ∧ clampCount segments total ≤ total := by
  rw [clampCount]
  split_ifs <;> omega

theorem tiles_freshRow {count : ℤ} (hcount : 1 ≤ count) (hle : count ≤ total) (n : ℕ)
    (hn : n ≤ count) :
    Tiles SegmentRow.startByte SegmentRow.endByte 0 ((List.range n).map (freshRow count total))
      (if (n : ℤ) = count then total else n * total.tdiv count) := by
  have hdiv : total.tdiv count = total / count := Int.tdiv_eq_ediv_of_nonneg (by omega)
  have hchunk : 1 ≤ total.tdiv count := hdiv ▸ Int.le_ediv_of_mul_le (by omega) (by omega)
  have hmul : total.tdiv count * count ≤ total := hdiv ▸ Int.ediv_mul_le total (by omega)
  induction n with
  | zero =>
      rw [if_neg (by omega)]
      simp [Tiles]
  | succ n ih =>
      have htiles := ih (by omega)
      rw [if_neg (by omega)] at htiles
      have hmono : (n + 1) * total.tdiv count ≤ count * total.tdiv count :=
        mul_le_mul_of_nonneg_right (by omega) (by omega)
      have hsucc : (n + 1) * total.tdiv count = n * total.tdiv count + total.tdiv count := by ring
      have hrange : (freshRow count total n).startByte ≤ (freshRow count total n).endByte := by
        simp only [freshRow]
        split_ifs
        · rw [mul_comm] at hmul
          omega
        · omega
      have hend : (freshRow count total n).endByte + 1 =
          if ((n + 1 : ℕ) : ℤ) = count then total else (n + 1 : ℕ) * total.tdiv count := by
        simp only [freshRow, Nat.cast_add, Nat.cast_one]
        split_ifs <;> omega
      rw [range_succ, map_append, ← hend]
      exact Tiles.concat hrange htiles

theorem tiles_freshRows (segments : ℤ) (htotal : 0 < total) :
    Tiles SegmentRow.startByte SegmentRow.endByte 0 (freshRows segments total) total := by
  obtain ⟨hcount,hle⟩ := clampCount_spec segments htotal
  have htiles := tiles_freshRow hcount hle (clampCount segments total).toNat (by omega)
  rwa [if_pos (by omega)] at htiles

theorem freshRows_ne_nil (segments : ℤ) (htotal : 0 < total) :
    freshRows segments total ≠ [] := by
  intro hnil
  have htiles := tiles_freshRows segments htotal
  rw [hnil] at htiles
  exact htotal.ne htiles

theorem planned_of_tiles (hne : rows ≠ [])
    (h : Tiles SegmentRow.startByte SegmentRow.endByte 0 rows total) : planned rows = total := by
  have hlast := h.last (rows.getLast hne) (getLast?_eq_some_getLast hne)
  rw [planned, lastEnd, getLast?_eq_some_getLast hne]
  exact hlast

theorem zero_freshRows (segments total : ℤ) : Zero (freshRows segments total) := by
  intro row hrow
  obtain ⟨i,-,rfl⟩ := mem_map.mp hrow
  rfl

theorem planned_freshRows (segments : ℤ) (htotal : 0 < total) :
    planned (freshRows segments total) = total :=
  planned_of_tiles (freshRows_ne_nil segments htotal) (tiles_freshRows segments htotal)

theorem rowsInv_freshRows (file : Option TempFile) (segments : ℤ) (htotal : 0 < total) :
    RowsInv file (freshRows segments total) where
  tiles := by
    rw [planned_freshRows segments htotal]
    exact tiles_freshRows segments htotal
  indices := by
    rw [freshRows, map_map]
    exact List.Nodup.map (fun _ _ h => Int.ofNat.inj h) nodup_range
  progress row hrow := by
    rw [zero_freshRows segments total row hrow]
    have hwithin := (tiles_freshRows segments htotal).within row hrow
    omega
  held _ _ row hrow hpos := absurd (zero_freshRows segments total row hrow) hpos.ne'

/-! ## The invariant -/

/-- What a transfer of a single stream has written. -/
structure WriterInv (r : Run) (f : TempFile) (a : Writer) : Prop where
  len : f.len = a.flushed
  holds : f.Holds (source r.total) 0 a.flushed
  le : a.flushed ≤ a.pos
  honest : r.honours = true ∨ a.start = 0

/-- What a transfer of a segment has written. -/
structure AttemptInv (f : TempFile) (total : ℤ) (w : Worker) (a : Writer) : Prop where
  start : w.startByte ≤ a.start ∧ a.start ≤ a.flushed
  le : a.flushed ≤ a.pos ∧ a.pos ≤ w.endByte + 1
  holds : f.Holds (source total) w.startByte a.flushed

def WorkerPhaseInv (f : TempFile) (total : ℤ) (w : Worker) : Prop :=
  match w.phase with
  | .running a => AttemptInv f total w a
  | .waiting start => w.startByte ≤ start ∧ f.Holds (source total) w.startByte start
  | .ended _ => True

structure WorkerInv (f : TempFile) (total : ℤ) (rows : List SegmentRow) (w : Worker) : Prop where
  row : ∀ row ∈ rows, row.index = w.index →
    row.startByte = w.startByte ∧ row.endByte = w.endByte
  within : w.startByte ≤ w.endByte ∧ w.endByte < total
  phase : WorkerPhaseInv f total w

/-- Segments are downloaded from a server that honours offsets. -/
def Segmented (r : Run) : Prop := r.honours = true ∧ 0 < r.total

def PhaseInv (s : State) (r : Run) : Phase → Prop
  | .resetting => Segmented r
  | .dropping => Segmented r ∧ (s.file = none → Zero s.rows)
  | .planning => Segmented r ∧ (s.file = none → Zero s.rows) ∧
      (s.rows = [] ∨ planned s.rows = r.total)
  | .allocating => Segmented r ∧ (s.file = none → Zero s.rows) ∧ planned s.rows = r.total
  | .working workers => Segmented r ∧ planned s.rows = r.total ∧ s.made = none ∧
      ∃ f, s.file = some f ∧ f.len = r.total ∧ ∀ w ∈ workers, WorkerInv f r.total s.rows w
  | .opening _ => True
  | .creating _ => Zero s.rows
  | .writing _ a => Zero s.rows ∧ s.made = some r.total ∧ ∃ f, s.file = some f ∧ WriterInv r f a
  | .checking replied => Zero s.rows ∧ ∃ f, s.file = some f ∧
      f.Holds (source r.total) 0 f.len ∧ (r.total ≤ 0 → replied = true)

/-- A run without a size ends its transfers with a positive reply only. -/
def Confirming (r : Run) : Prop := r.total ≤ 0 → r.confirms = true ∧ r.cancelled = false

/-- A file that single streams for one size have written was received for it. -/
def MadeInv (file : Option TempFile) (made : Option ℤ) : Prop :=
  ∀ total ∈ made, ∀ f ∈ file, f.Holds (source total) 0 f.len

structure Inv (s : State) : Prop where
  rows : RowsInv s.file s.rows
  made : MadeInv s.file s.made
  run : ∀ r ∈ s.run, Confirming r ∧ PhaseInv s r r.phase
  completed : ∀ c ∈ s.completed, Truthful c

theorem inv_initial (file : Option TempFile) : Inv (initial file).state where
  rows := rowsInv_nil file
  made _ h := nomatch h
  run _ h := nomatch h
  completed _ h := absurd h not_mem_nil

theorem RowsInv.row (h : RowsInv (some f) rows) {row : SegmentRow} (hrow : row ∈ rows) :
    f.Holds (source (planned rows)) row.startByte (row.startByte + row.downloadedBytes) := by
  by_cases hpos : 0 < row.downloadedBytes
  · exact (h.held f rfl row hrow hpos).2
  · exact File.holds_of_le (by omega)

theorem RowsInv.eq_of_index (h : RowsInv file rows) {row row' : SegmentRow} (hrow : row ∈ rows)
    (hrow' : row' ∈ rows) (hindex : row.index = row'.index) : row = row' :=
  inj_on_of_nodup_map h.indices hrow hrow' hindex

theorem RowsInv.spawn (h : RowsInv (some f) rows) :
    ∀ w ∈ spawnWorkers rows, WorkerInv f (planned rows) rows w := by
  intro w hw
  obtain ⟨row,hmem,rfl⟩ := mem_map.mp hw
  obtain ⟨hrow,hleft⟩ := mem_filter.mp hmem
  have hleft := of_decide_eq_true hleft
  have hwithin := h.tiles.within row hrow
  have hprogress := h.progress row hrow
  refine ⟨fun row' hrow' hindex => ?_,hwithin.2,?_⟩
  · rw [h.eq_of_index hrow' hrow hindex]
    exact ⟨rfl,rfl⟩
  · refine ⟨⟨?_,le_rfl⟩,⟨le_rfl,?_⟩,h.row hrow⟩
    · exact le_add_of_nonneg_right hprogress.1
    · simp only
      omega

section
variable {s : State} (h : Inv s)
include h

theorem Inv.stop : Inv (stop s) := ⟨h.rows,h.made,nofun,h.completed⟩

theorem Inv.become {file : Option TempFile} {made : Option ℤ} {rows : List SegmentRow} {r : Run}
    {phase : Phase} (hr : Confirming r) (hrows : RowsInv file rows) (hmade : MadeInv file made)
    (hphase : PhaseInv { s with file, made, rows } { r with phase } phase) :
    Inv (setPhase { s with file, made, rows } r phase) := by
  refine ⟨hrows,hmade,fun r' hr' => ?_,h.completed⟩
  cases hr'
  cases phase <;> exact ⟨hr,hphase⟩

theorem Inv.clearRows (deleted : Bool) : RowsInv s.file (if deleted then [] else s.rows) := by
  cases deleted
  · exact h.rows
  · exact rowsInv_nil s.file

theorem Inv.startRun {p : Params} {epochSet deleted : Bool} {t : State}
    (hconfirms : p.total ≤ 0 → p.confirms = true)
    (hstep : startRun s p epochSet deleted = some t) : Inv t := by
  have hrun (htotal : p.total ≤ 0) : p.confirms = true ∧ false = false := ⟨hconfirms htotal,rfl⟩
  unfold FtpDownload.startRun at hstep
  by_cases hwants : p.wantsSegments s.rows = true
  · by_cases hprobe : p.probe = some false
    · simp only [hwants, hprobe, if_true] at hstep
      cases hstep
      exact ⟨h.clearRows deleted,h.made,fun r hr => by cases hr; exact ⟨hrun,trivial⟩,h.completed⟩
    · by_cases hhonours : p.honours = true
      · simp only [hwants, hprobe, hhonours, if_true, if_false] at hstep
        cases hstep
        refine ⟨h.rows,h.made,fun r hr => ?_,h.completed⟩
        cases hr
        simp only [Params.wantsSegments, and_eq_true, decide_eq_true_eq] at hwants
        exact ⟨hrun,rfl,hwants.1.1⟩
      · simp only [hwants, hprobe, hhonours, if_true, if_false] at hstep
        exact nomatch hstep
  · rw [if_neg hwants] at hstep
    cases hstep
    exact ⟨h.rows,h.made,fun r hr => by cases hr; exact ⟨hrun,trivial⟩,h.completed⟩

/-! ## Preparing segments -/

theorem Inv.nextPhase {r : Run} {t : State} (hr : r ∈ s.run) (hcareful : CarefulNext s r)
    (hstep : nextPhase s r r.phase = some t) : Inv t := by
  obtain ⟨hconfirming,hphase⟩ := h.run r hr
  cases heq : r.phase with
  | resetting =>
      rw [heq] at hphase hstep
      cases hstep
      have hrows : RowsInv s.file (resetRows s.file s.rows) := by
        rw [resetRows]
        split_ifs
        · exact h.rows.reset
        · exact h.rows
      refine h.become hconfirming hrows h.made ⟨hphase,fun hnone => ?_⟩
      simp only at hnone ⊢
      rw [resetRows]
      split_ifs with hreset
      · exact zero_reset s.rows
      · rw [hnone, fileLen] at hreset
        exact h.rows.zero_of_dbDownloaded (by simpa using hreset)
  | dropping =>
      rw [heq] at hphase hstep
      obtain ⟨hsegmented,hzero⟩ := hphase
      cases hstep
      by_cases hdrop : s.rows ≠ [] ∧ 0 < r.total ∧ lastEnd s.rows ≠ r.total - 1
      · have hnil : dropRows r.total s.rows = [] := if_pos hdrop
        rw [hnil]
        exact h.become hconfirming (rowsInv_nil s.file) h.made
          ⟨hsegmented,fun _ _ hrow => absurd hrow not_mem_nil,.inl rfl⟩
      · have hkept : dropRows r.total s.rows = s.rows := if_neg hdrop
        rw [hkept]
        refine h.become hconfirming h.rows h.made ⟨hsegmented,hzero,?_⟩
        by_cases hnil : s.rows = []
        · exact .inl hnil
        · right
          have hend : lastEnd s.rows = r.total - 1 := by
            by_contra hne
            exact hdrop ⟨hnil,hsegmented.2,hne⟩
          change lastEnd s.rows + 1 = r.total
          omega
  | planning =>
      rw [heq] at hphase hstep
      obtain ⟨hsegmented,hzero,hplan⟩ := hphase
      cases hstep
      by_cases hnil : s.rows = []
      · have hfresh : planRows r s.rows = freshRows r.segments r.total := if_pos hnil
        rw [hfresh]
        exact h.become hconfirming (rowsInv_freshRows s.file r.segments hsegmented.2) h.made
          ⟨hsegmented,fun _ => zero_freshRows r.segments r.total,
            planned_freshRows r.segments hsegmented.2⟩
      · have hkept : planRows r s.rows = s.rows := if_neg hnil
        rw [hkept]
        exact h.become hconfirming h.rows h.made ⟨hsegmented,hzero,hplan.resolve_left hnil⟩
  | allocating =>
      rw [heq] at hphase hstep
      obtain ⟨hsegmented,hzero,hplan⟩ := hphase
      have hlen := hcareful heq
      cases hstep
      have hrows : RowsInv (some ((s.file.getD empty).extend r.total)) s.rows := by
        cases hfile : s.file with
        | none => exact h.rows.of_zero (hzero hfile)
        | some f =>
            have hold := h.rows
            rw [hfile] at hold
            exact hold.of_file (le_max_left _ _) fun _ _ hholds => hholds.extend r.total
      refine h.become hconfirming hrows nofun ⟨hsegmented,hplan,rfl,_,rfl,?_,hplan ▸ hrows.spawn⟩
      apply max_eq_right
      cases hfile : s.file with
      | none => exact hsegmented.2.le
      | some f =>
          rw [hfile] at hlen
          exact hlen
  | _ =>
      rw [heq] at hstep
      exact nomatch hstep

end

/-! ## Segments -/

/-- What a segment leaves as it is: the file keeps its length and what it holds, and the rows
their ranges. -/
structure Progressed (total : ℤ) (f f' : TempFile) (rows rows' : List SegmentRow) : Prop where
  len : f'.len = f.len
  holds : ∀ a b, f.Holds (source total) a b → f'.Holds (source total) a b
  ranges : ∀ row' ∈ rows', ∃ row ∈ rows, row'.index = row.index ∧
    row'.startByte = row.startByte ∧ row'.endByte = row.endByte
  planned : planned rows' = planned rows

theorem Progressed.refl (total : ℤ) (f : TempFile) (rows : List SegmentRow) :
    Progressed total f f rows rows :=
  ⟨rfl,fun _ _ h => h,fun row h => ⟨row,h,rfl,rfl,rfl⟩,rfl⟩

theorem Progressed.trans {f' f'' : TempFile} {rows' rows'' : List SegmentRow}
    (h : Progressed total f f' rows rows') (h' : Progressed total f' f'' rows' rows'') :
    Progressed total f f'' rows rows'' where
  len := h'.len.trans h.len
  holds a b hab := h'.holds a b (h.holds a b hab)
  ranges row'' hrow'' := by
    obtain ⟨row',hrow',hindex',hstart',hend'⟩ := h'.ranges row'' hrow''
    obtain ⟨row,hrow,hindex,hstart,hend⟩ := h.ranges row' hrow'
    exact ⟨row,hrow,hindex'.trans hindex,hstart'.trans hstart,hend'.trans hend⟩
  planned := h'.planned.trans h.planned

theorem progressed_write (total : ℤ) (rows : List SegmentRow) (a : ℤ) {b : ℤ} (hb : b ≤ f.len) :
    Progressed total f (f.write a b (source total)) rows rows where
  len := File.len_write_of_le hb
  holds _ _ h := h.write a b
  ranges row h := ⟨row,h,rfl,rfl,rfl⟩
  planned := rfl

theorem progressed_save (total : ℤ) (f : TempFile) (s : State) (r : Run) (w : Worker) (pos : ℤ)
    (saved : Bool) : Progressed total f f s.rows (saveProgress s r w pos saved) := by
  rw [saveProgress]
  split_ifs
  · refine ⟨rfl,fun _ _ h => h,fun row' hrow' => ?_,?_⟩
    · obtain ⟨row,hrow,rfl⟩ := mem_map.mp hrow'
      refine ⟨row,hrow,?_⟩
      split_ifs <;> exact ⟨rfl,rfl,rfl⟩
    · rw [planned, planned, updateSegmentProgressBounded, lastEnd_map]
      intro row
      split_ifs <;> rfl
  · exact .refl total f s.rows

theorem RowsInv.save {s : State} (h : RowsInv (some f) s.rows) (r : Run) {pos : ℤ} (saved : Bool)
    (hpos : w.startByte ≤ pos) (hlen : planned s.rows ≤ f.len)
    (hholds : f.Holds (source (planned s.rows)) w.startByte pos) :
    RowsInv (some f) (saveProgress s r w pos saved) := by
  rw [saveProgress]
  split_ifs
  · apply h.map
    · intro row
      split_ifs <;> exact ⟨rfl,rfl,rfl⟩
    · intro row hrow
      have hwithin := h.tiles.within row hrow
      have hprogress := h.progress row hrow
      split_ifs with hmatch hclamp
      · exact ⟨hprogress.1.trans hprogress.2,le_rfl⟩
      · simp only
        omega
      · exact hprogress
    · intro f' hf' row hrow hdownloaded
      cases hf'
      split_ifs at hdownloaded ⊢ with hmatch hclamp
      · refine ⟨hlen,hholds.mono hmatch.2.ge ?_⟩
        simp only
        omega
      · refine ⟨hlen,hholds.mono hmatch.2.ge ?_⟩
        simp only
        omega
      · exact h.held f rfl row hrow hdownloaded
  · exact h

theorem WorkerInv.progressed {f' : TempFile} {rows' : List SegmentRow}
    (h : WorkerInv f total rows w) (hp : Progressed total f f' rows rows') :
    WorkerInv f' total rows' w where
  row row' hrow' hindex := by
    obtain ⟨row,hrow,hindex',hstart,hend⟩ := hp.ranges row' hrow'
    obtain ⟨hstart',hend'⟩ := h.row row hrow (hindex'.symm.trans hindex)
    exact ⟨hstart.trans hstart',hend.trans hend'⟩
  within := h.within
  phase := by
    have hphase := h.phase
    unfold WorkerPhaseInv at hphase ⊢
    cases hw : w.phase with
    | running a =>
        rw [hw] at hphase
        exact ⟨hphase.start,hphase.le,hp.holds _ _ hphase.holds⟩
    | waiting start =>
        rw [hw] at hphase
        exact ⟨hphase.1,hp.holds _ _ hphase.2⟩
    | ended result => trivial

theorem WorkerInv.become (h : WorkerInv f total rows w) {phase : WorkerPhase}
    (hphase : WorkerPhaseInv f total (w.become phase)) :
    WorkerInv f total rows (w.become phase) :=
  ⟨h.row,h.within,hphase⟩

theorem WorkerInv.fail (h : WorkerInv f total rows w) {start : ℤ} (hstart : w.startByte ≤ start)
    (hholds : f.Holds (source total) w.startByte start) :
    WorkerInv f total rows (w.fail start) := by
  refine ⟨h.row,h.within,?_⟩
  unfold WorkerPhaseInv Worker.fail
  by_cases hattempts : maxRetries ≤ w.attempts + 1
  · simp only [hattempts, if_true]
  · simp only [hattempts, if_false]
    exact ⟨hstart,hholds⟩

theorem source_eq {r : Run} {a : Writer} (h : r.honours = true ∨ a.start = 0) :
    a.source r = source r.total := by
  funext i
  rw [Writer.source, source, Origin.mk.injEq]
  refine ⟨rfl,?_⟩
  rcases h with hhonours | hstart
  · rw [if_pos hhonours]
  · rw [hstart, Int.sub_zero, ite_self]

structure Advanced (r : Run) (f f' : TempFile) (rows rows' : List SegmentRow) (w' : Worker) :
    Prop where
  progressed : Progressed r.total f f' rows rows'
  rows : RowsInv (some f') rows'
  worker : WorkerInv f' r.total rows' w'

section
variable {r : Run} {f f' : TempFile} {rows rows' : List SegmentRow} {w : Worker}
  (hw : WorkerInv f r.total rows w) (hp : Progressed r.total f f' rows rows')
  (hrows : RowsInv (some f') rows')
include hw hp hrows

theorem advanced_fail {a : Writer} (ha : AttemptInv f r.total w a) :
    Advanced r f f' rows rows' (w.fail a.start) := by
  refine ⟨hp,hrows,(hw.progressed hp).fail ha.start.1 ?_⟩
  exact (hp.holds _ _ ha.holds).mono le_rfl ha.start.2

theorem advanced_end (result : Result) : Advanced r f f' rows rows' (w.become (.ended result)) :=
  ⟨hp,hrows,(hw.progressed hp).become trivial⟩

end

/-- Segments are downloaded into a file that has the length of the plan. -/
structure Working (s : State) (r : Run) (f : TempFile) : Prop where
  segmented : Segmented r
  planned : planned s.rows = r.total
  len : f.len = r.total
  rows : RowsInv (some f) s.rows

section
variable {s : State} {r : Run} {f : TempFile} (h : Working s r f) {w : Worker} {a : Writer}
include h

theorem Working.write {b : ℤ} (hb : b ≤ r.total) :
    Progressed r.total f (f.write a.flushed b (a.source r)) s.rows s.rows ∧
      RowsInv (some (f.write a.flushed b (a.source r))) s.rows := by
  rw [source_eq (.inl h.segmented.1)]
  have hwritten := progressed_write r.total s.rows a.flushed (hb.trans h.len.ge)
  refine ⟨hwritten,h.rows.of_file hwritten.len.ge ?_⟩
  rw [h.planned]
  exact hwritten.holds

theorem Working.flush (hw : WorkerInv f r.total s.rows w) (ha : AttemptInv f r.total w a)
    (saved : Bool) : Progressed r.total f (a.flush r f) s.rows (saveProgress s r w a.pos saved) ∧
      RowsInv (some (a.flush r f)) (saveProgress s r w a.pos saved) ∧
      (a.flush r f).Holds (source r.total) w.startByte a.pos := by
  have hwithin := hw.within
  have hle := ha.le
  have hstart := ha.start
  obtain ⟨hwritten,hrows⟩ := h.write (a := a) (b := a.pos) (by omega)
  have hholds : (a.flush r f).Holds (source r.total) w.startByte a.pos := by
    refine (hwritten.holds _ _ ha.holds).append ?_
    rw [source_eq (.inl h.segmented.1)]
    exact File.holds_write
  refine ⟨hwritten.trans (progressed_save _ _ s r w a.pos saved),?_,hholds⟩
  refine hrows.save r saved (by omega) ?_ (h.planned ▸ hholds)
  rw [hwritten.len, h.planned, h.len]

theorem Working.save (ha : AttemptInv f r.total w a) (hall : a.flushed = a.pos) (saved : Bool) :
    Progressed r.total f f s.rows (saveProgress s r w a.pos saved) ∧
      RowsInv (some f) (saveProgress s r w a.pos saved) := by
  have hstart := ha.start
  refine ⟨progressed_save _ _ s r w a.pos saved,h.rows.save r saved (by omega) ?_ ?_⟩
  · rw [h.planned, h.len]
  · rw [h.planned, ← hall]
    exact ha.holds

theorem Working.running (hw : WorkerInv f r.total s.rows w) (ha : AttemptInv f r.total w a)
    {event : Event} (hcareful : loses event = true → a.flushed = a.pos) {f' : TempFile}
    {rows' : List SegmentRow} {w' : Worker}
    (hevent : runningEvent s r f w a event = some (f', rows', w')) :
    Advanced r f f' s.rows rows' w' := by
  have hle := ha.le
  have hstart := ha.start
  have hwithin := hw.within
  have hsame := Progressed.refl r.total f s.rows
  cases event with
  | receive n =>
      simp only [runningEvent] at hevent
      split_ifs at hevent with hn
      cases hevent
      refine ⟨hsame,h.rows,hw.become ⟨hstart,⟨?_,hn.2⟩,ha.holds⟩⟩
      simp only
      omega
  | spill n =>
      simp only [runningEvent] at hevent
      split_ifs at hevent with hn
      cases hevent
      obtain ⟨hp,hrows⟩ := h.write (a := a) (b := a.flushed + n) (by omega)
      refine ⟨hp,hrows,(hw.progressed hp).become ⟨⟨hstart.1,?_⟩,⟨hn.2,hle.2⟩,?_⟩⟩
      · simp only
        omega
      · refine (hp.holds _ _ ha.holds).append ?_
        rw [source_eq (.inl h.segmented.1)]
        exact File.holds_write
  | save saved =>
      cases hevent
      obtain ⟨hp,hrows,hholds⟩ := h.flush hw ha saved
      refine ⟨hp,hrows,(hw.progressed hp).become ?_⟩
      exact ⟨⟨hstart.1,hstart.2.trans hle.1⟩,⟨le_rfl,hle.2⟩,hholds⟩
  | close reader flushed saved =>
      obtain ⟨hp,hrows,-⟩ := h.flush hw ha saved
      cases flushed with
      | false =>
          cases reader <;> cases hevent <;> exact advanced_fail hw hsame h.rows ha
      | true =>
          cases reader with
          | complete replied | stopped =>
              simp only [runningEvent] at hevent
              split_ifs at hevent
              cases hevent
              exact advanced_end hw hp hrows .ok
          | failed =>
              cases hevent
              exact advanced_fail hw hp hrows ha
  | writeFailed saved =>
      cases hevent
      obtain ⟨hp,hrows⟩ := h.save ha (hcareful rfl) saved
      exact advanced_fail hw hp hrows ha
  | cancelled flushed saved =>
      simp only [runningEvent] at hevent
      by_cases hcancelled : r.cancelled = true
      · rw [if_pos hcancelled] at hevent
        cases flushed with
        | true =>
            cases hevent
            obtain ⟨hp,hrows,-⟩ := h.flush hw ha saved
            exact advanced_end hw hp hrows .cancelled
        | false =>
            cases hevent
            obtain ⟨hp,hrows⟩ := h.save ha (hcareful rfl) saved
            exact advanced_end hw hp hrows .cancelled
      · rw [if_neg hcancelled] at hevent
        exact nomatch hevent
  | openFailed =>
      cases hevent
      exact advanced_fail hw hsame h.rows ha
  | retry loaded => exact nomatch hevent

theorem Working.resumeAt (hw : WorkerInv f r.total s.rows w) {start : ℤ}
    (hstart : w.startByte ≤ start) (hholds : f.Holds (source r.total) w.startByte start)
    (loaded : Bool) : w.startByte ≤ resumeAt s.rows w start loaded ∧
      f.Holds (source r.total) w.startByte (resumeAt s.rows w start loaded) := by
  unfold FtpDownload.resumeAt
  cases hfind : s.rows.find? fun row => row.index = w.index with
  | none => exact ⟨hstart,hholds⟩
  | some row =>
      cases loaded with
      | false => exact ⟨hstart,hholds⟩
      | true =>
          have hrow := mem_of_find?_eq_some hfind
          have hindex : row.index = w.index := by simpa using find?_some hfind
          have hcounted := h.rows.row hrow
          rw [(hw.row row hrow hindex).1, h.planned] at hcounted
          exact ⟨le_add_of_nonneg_right (h.rows.progress row hrow).1,hcounted⟩

theorem Working.worker (hw : WorkerInv f r.total s.rows w) {event : Event}
    (hcareful : CarefulWorker event w) {f' : TempFile} {rows' : List SegmentRow} {w' : Worker}
    (hevent : workerEvent s r f w event = some (f', rows', w')) :
    Advanced r f f' s.rows rows' w' := by
  have hphase := hw.phase
  have hsame := Progressed.refl r.total f s.rows
  unfold workerEvent at hevent
  unfold WorkerPhaseInv at hphase
  unfold CarefulWorker at hcareful
  cases hwphase : w.phase with
  | running a =>
      rw [hwphase] at hphase hevent hcareful
      exact h.running hw hphase (hcareful a rfl) hevent
  | waiting start =>
      rw [hwphase] at hphase hevent
      cases event with
      | retry loaded =>
          obtain ⟨hstart,hholds⟩ := h.resumeAt hw hphase.1 hphase.2 loaded
          cases hevent
          refine ⟨hsame,h.rows,hw.become ?_⟩
          by_cases hend : w.endByte < FtpDownload.resumeAt s.rows w start loaded
          · rw [if_pos hend]
            trivial
          · rw [if_neg hend]
            refine ⟨⟨hstart,le_rfl⟩,⟨le_rfl,?_⟩,hholds⟩
            simp only [Worker.become]
            omega
      | cancelled flushed saved =>
          simp only at hevent
          split_ifs at hevent
          cases hevent
          exact advanced_end hw hsame h.rows .cancelled
      | _ => exact nomatch hevent
  | ended result =>
      rw [hwphase] at hevent
      exact nomatch hevent

end

/-! ## A single stream -/

theorem WriterInv.write {r : Run} {a : Writer} (h : WriterInv r f a) {b : ℤ} (hb : a.flushed ≤ b) :
    (f.write a.flushed b (a.source r)).len = b ∧
      (f.write a.flushed b (a.source r)).Holds (source r.total) 0 b := by
  refine ⟨File.len_write_append h.len hb,?_⟩
  rw [source_eq h.honest]
  exact (h.holds.write _ _).append File.holds_write

/-- What the stream of the run has written was received for its size. -/
theorem madeInv_of_holds {made : Option ℤ} {b : ℤ} (hmade : made = some total) (hlen : f.len = b)
    (hholds : f.Holds (source total) 0 b) : MadeInv (some f) made := by
  intro total' htotal f' hf
  cases hf
  cases hmade.symm.trans htotal
  exact hlen ▸ hholds

section
variable {s : State} (h : Inv s)
include h

variable {r : Run} {attempts : ℕ} {t : State} {f : TempFile}

theorem Inv.retrySingle {file : Option TempFile} {rows : List SegmentRow} (hr : Confirming r)
    (hrows : RowsInv file rows) (hmade : MadeInv file s.made) (attempts : ℕ) :
    Inv (retrySingle { s with file, rows } r attempts) := by
  rw [FtpDownload.retrySingle]
  split_ifs
  · exact ⟨hrows,hmade,nofun,h.completed⟩
  · exact h.become hr hrows hmade trivial

theorem Inv.open {deleted : Bool} (hr : Confirming r) (hphase : r.phase = .opening attempts)
    (hcareful : CarefulOpen s r deleted) (hstep : runStep s r (.open deleted) = some t) :
    Inv t := by
  simp only [runStep, hphase] at hstep
  rw [CarefulOpen] at hcareful
  by_cases hresumes : resumes r s.file = true
  · rw [if_pos hresumes] at hstep hcareful
    cases hstep
    simp only [resumes, and_eq_true, decide_eq_true_eq] at hresumes
    have hrows := h.rows
    cases hfile : s.file with
    | none =>
        rw [hfile] at hresumes
        exact absurd hresumes.1.2 (lt_irrefl 0)
    | some f =>
        rw [hfile] at hresumes hrows
        have hholds := h.made r.total hcareful.2 f hfile
        have hmade : (if s.made = some r.total then s.made else none) = s.made := if_pos hcareful.2
        rw [hmade]
        refine h.become hr hrows (hfile ▸ h.made)
          ⟨hrows.zero_of_holds hholds hresumes.2,hcareful.2,f,rfl,?_⟩
        exact ⟨rfl,hholds,le_rfl,.inl hcareful.1⟩
  · rw [if_neg hresumes] at hstep hcareful
    cases hstep
    refine h.become hr (h.clearRows deleted) h.made ?_
    cases deleted with
    | true => exact fun _ hrow => absurd hrow not_mem_nil
    | false => exact hcareful.resolve_left false_ne_true

theorem Inv.create {ok : Bool} (hr : Confirming r) (hphase : r.phase = .creating attempts)
    (hzero : Zero s.rows) (hstep : runStep s r (.create ok) = some t) : Inv t := by
  simp only [runStep, hphase] at hstep
  cases ok with
  | true =>
      cases hstep
      have hmade : MadeInv (some empty) (some r.total) := fun _ _ f hf => by
        cases hf
        exact File.holds_of_le le_rfl
      refine h.become hr (h.rows.of_zero hzero) hmade ⟨hzero,rfl,empty,rfl,?_⟩
      exact ⟨rfl,File.holds_of_le le_rfl,le_rfl,.inr rfl⟩
  | false =>
      cases hstep
      exact h.retrySingle hr h.rows h.made attempts

theorem Inv.singleEvent {a : Writer} {event : Event} (hr : Confirming r) (hzero : Zero s.rows)
    (hmade : s.made = some r.total) (ha : WriterInv r f a) (hfile : s.file = some f)
    (hstep : singleEvent s r f attempts a event = some t) : Inv t := by
  have hle := ha.le
  have hrows (file : Option TempFile) : RowsInv file s.rows := h.rows.of_zero hzero
  obtain ⟨hlen,hholds⟩ := ha.write hle
  have hflush : MadeInv (some (a.flush r f)) s.made := madeInv_of_holds hmade hlen hholds
  cases event with
  | receive n =>
      simp only [FtpDownload.singleEvent] at hstep
      split_ifs at hstep with hn
      cases hstep
      refine h.become hr h.rows h.made ⟨hzero,hmade,f,hfile,ha.len,ha.holds,?_,ha.honest⟩
      simp only
      omega
  | spill n =>
      simp only [FtpDownload.singleEvent] at hstep
      split_ifs at hstep with hn
      cases hstep
      obtain ⟨hlen',hholds'⟩ := ha.write (b := a.flushed + n) (by omega)
      exact h.become hr (hrows _) (madeInv_of_holds hmade hlen' hholds')
        ⟨hzero,hmade,_,rfl,hlen',hholds',hn.2,ha.honest⟩
  | save saved =>
      cases hstep
      exact h.become hr (hrows _) hflush ⟨hzero,hmade,_,rfl,hlen,hholds,le_rfl,ha.honest⟩
  | close reader flushed saved =>
      cases flushed with
      | false => cases reader <;> cases hstep <;> exact h.retrySingle hr h.rows h.made attempts
      | true =>
          cases reader with
          | complete replied =>
              simp only [FtpDownload.singleEvent] at hstep
              split_ifs at hstep with hreplied
              cases hstep
              exact h.become hr (hrows _) hflush
                ⟨hzero,_,rfl,hlen.symm ▸ hholds,fun htotal => hreplied (hr htotal).1⟩
          | stopped =>
              simp only [FtpDownload.singleEvent] at hstep
              split_ifs at hstep with hcancelled
              cases hstep
              exact h.become hr (hrows _) hflush ⟨hzero,_,rfl,hlen.symm ▸ hholds,fun htotal =>
                absurd ((hr htotal).2.symm.trans hcancelled) false_ne_true⟩
          | failed =>
              cases hstep
              exact h.retrySingle hr (hrows _) hflush attempts
  | writeFailed saved | openFailed =>
      cases hstep
      exact h.retrySingle hr h.rows h.made attempts
  | cancelled flushed saved =>
      simp only [FtpDownload.singleEvent] at hstep
      by_cases hcancelled : r.cancelled = true
      · rw [if_pos hcancelled] at hstep
        cases hstep
        refine ⟨hrows _,?_,nofun,h.completed⟩
        cases flushed with
        | true => exact hflush
        | false => exact hfile ▸ h.made
      · rw [if_neg hcancelled] at hstep
        exact nomatch hstep
  | retry loaded => exact nomatch hstep

/-! ## Completion -/

theorem Inv.rename {total : ℤ} {replied : Bool} (htruthful : Truthful ⟨total,f,replied⟩) :
    Inv (rename s total f replied) := by
  refine ⟨⟨h.rows.tiles,h.rows.indices,h.rows.progress,nofun⟩,fun _ _ => nofun,nofun,fun c hc => ?_⟩
  rcases mem_append.mp hc with hold | hnew
  · exact h.completed c hold
  · rw [mem_singleton.mp hnew]
    exact htruthful

theorem Inv.completeSingle {replied ok : Bool} (hzero : Zero s.rows) (hfile : s.file = some f)
    (hholds : f.Holds (source r.total) 0 f.len) (hreplied : r.total ≤ 0 → replied = true) :
    Inv (completeSingle s r f replied ok) := by
  rw [FtpDownload.completeSingle]
  by_cases hlen : 0 < r.total ∧ f.len ≠ r.total
  · rw [if_pos hlen]
    refine ⟨h.rows.of_zero hzero,fun total htotal f' hf => ?_,nofun,h.completed⟩
    refine h.made total htotal f' (hfile.trans ?_)
    simp only [FtpDownload.stop] at hf
    split_ifs at hf
    · exact nomatch hf
    · exact hf
  · rw [if_neg hlen]
    cases ok with
    | true =>
        refine h.rename ⟨fun hpos => ?_,hreplied⟩
        have heq : f.len = r.total := by
          by_contra hne
          exact hlen ⟨hpos,hne⟩
        exact ⟨heq,heq ▸ hholds⟩
    | false => exact h.stop

theorem Inv.completeSegments {workers : List Worker} {ok : Bool} (hworking : Working s r f) :
    Inv (completeSegments s r f workers ok) := by
  rw [FtpDownload.completeSegments]
  split_ifs with hcomplete
  · have hholds := hworking.rows.holds (hcomplete.2.1.trans hworking.planned.symm)
    rw [hworking.planned] at hholds
    exact h.rename ⟨fun _ => ⟨hworking.len,hholds⟩,
      fun htotal => absurd hworking.segmented.2 htotal.not_gt⟩
  · exact h.stop

/-! ## Every step -/

theorem Inv.runStep {label : Label} (hr : r ∈ s.run) (hcareful : CarefulRun s r label)
    (hstep : runStep s r label = some t) : Inv t := by
  obtain ⟨hconfirming,hphase⟩ := h.run r hr
  cases label with
  | next ok =>
      cases ok with
      | true => exact h.nextPhase hr hcareful hstep
      | false =>
          cases hstep
          exact h.stop
  | worker k event =>
      simp only [FtpDownload.runStep] at hstep
      cases hworking : r.phase with
      | working workers =>
          rw [hworking] at hphase hstep
          obtain ⟨hsegmented,hplanned,hmade,f,hfile,hlen,hworkers⟩ := hphase
          have hrows := h.rows
          rw [hfile] at hrows hstep
          simp only at hstep
          cases hk : workers[k]? with
          | none =>
              rw [hk] at hstep
              exact nomatch hstep
          | some w =>
              rw [hk] at hstep
              obtain ⟨⟨f',rows',w'⟩,hevent,rfl⟩ := Option.map_eq_some_iff.mp hstep
              have hw : CarefulWorker event w := hcareful w (by rw [hworking]; exact hk)
              obtain ⟨hp,hrows',hw'⟩ := Working.worker ⟨hsegmented,hplanned,hlen,hrows⟩
                (hworkers w (mem_of_getElem? hk)) hw hevent
              refine h.become hconfirming hrows' (hmade ▸ nofun) ⟨hsegmented,
                hp.planned.trans hplanned,hmade,f',rfl,hp.len.trans hlen,fun other hother => ?_⟩
              rcases mem_or_eq_of_mem_set hother with hold | rfl
              · exact (hworkers other hold).progressed hp
              · exact hw'
      | _ =>
          rw [hworking] at hstep
          exact nomatch hstep
  | «open» deleted =>
      cases hopening : r.phase with
      | opening attempts => exact h.open hconfirming hopening hcareful hstep
      | _ =>
          simp only [FtpDownload.runStep, hopening] at hstep
          exact nomatch hstep
  | create ok =>
      cases hcreating : r.phase with
      | creating attempts =>
          rw [hcreating] at hphase
          exact h.create hconfirming hcreating hphase hstep
      | _ =>
          simp only [FtpDownload.runStep, hcreating] at hstep
          exact nomatch hstep
  | single event =>
      simp only [FtpDownload.runStep] at hstep
      cases hwriting : r.phase with
      | writing attempts a =>
          rw [hwriting] at hphase hstep
          obtain ⟨hzero,hmade,f,hfile,ha⟩ := hphase
          rw [hfile] at hstep
          exact h.singleEvent hconfirming hzero hmade ha hfile hstep
      | _ =>
          rw [hwriting] at hstep
          exact nomatch hstep
  | complete ok =>
      simp only [FtpDownload.runStep] at hstep
      cases hcomplete : r.phase with
      | checking replied =>
          rw [hcomplete] at hphase hstep
          obtain ⟨hzero,f,hfile,hholds,hreplied⟩ := hphase
          rw [hfile] at hstep
          cases hstep
          exact h.completeSingle hzero hfile hholds hreplied
      | working workers =>
          rw [hcomplete] at hphase hstep
          obtain ⟨hsegmented,hplanned,-,f,hfile,hlen,-⟩ := hphase
          have hrows := h.rows
          rw [hfile] at hrows hstep
          simp only at hstep
          split_ifs at hstep
          cases hstep
          exact h.completeSegments ⟨hsegmented,hplanned,hlen,hrows⟩
      | _ =>
          rw [hcomplete] at hstep
          exact nomatch hstep
  | cancel =>
      cases hstep
      refine ⟨h.rows,h.made,fun r' hr' => ?_,h.completed⟩
      cases hr'
      refine ⟨fun htotal => absurd hcareful htotal.not_gt,?_⟩
      change PhaseInv _ _ r.phase
      cases hpreserved : r.phase <;> rw [hpreserved] at hphase
      case writing attempts a =>
        obtain ⟨hzero,hmade,f,hfile,ha⟩ := hphase
        exact ⟨hzero,hmade,f,hfile,ha.len,ha.holds,ha.le,ha.honest⟩
      all_goals exact hphase

end

/-- No run goes on beside the last one. -/
structure TaskInv (t : Task) : Prop where
  alone : t.earlier = []
  state : Inv t.state

theorem step_inv (t : Task) (a : Action) (u : Task) (h : TaskInv t) (hcareful : Careful t a)
    (hstep : step t a = some u) : TaskInv u := by
  cases a with
  | start p epochSet deleted =>
      obtain ⟨s,hs,rfl⟩ := Option.map_eq_some_iff.mp hstep
      refine ⟨?_,h.state.startRun hcareful.2 hs⟩
      rw [hcareful.1, h.alone]
      rfl
  | last label =>
      obtain ⟨r,hr,hstep⟩ := Option.bind_eq_some_iff.mp hstep
      obtain ⟨s,hs,rfl⟩ := Option.map_eq_some_iff.mp hstep
      exact ⟨h.alone,h.state.runStep hr (hcareful r hr) hs⟩
  | earlier k label =>
      simp only [step, h.alone] at hstep
      exact nomatch hstep
  | crash =>
      cases hstep
      exact ⟨rfl,h.state.stop⟩
  | deleteTemp =>
      cases hstep
      have hrows := h.state.rows
      refine ⟨h.alone,⟨hrows.tiles,hrows.indices,hrows.progress,nofun⟩,fun _ _ => nofun,?_,
        h.state.completed⟩
      rw [hcareful]
      exact nofun

/-- In every careful history of runs each file that is renamed is what the server has. -/
theorem completions_truthful {file : Option TempFile} {actions : List Action} {t : Task}
    (hcareful : Meets step Careful (initial file) actions)
    (h : exec step (initial file) actions = some t) : ∀ c ∈ t.state.completed, Truthful c :=
  (exec_invariant_of_meets step_inv ⟨rfl,inv_initial file⟩ hcareful h).state.completed

def sampleParams (segmentCount total : ℤ) : Params :=
  ⟨false,segmentCount,true,1,total,true,true,some true,1⟩

/-- A run from its start, until it ends or the process does. -/
def sampleRun (segmentCount total : ℤ) (labels : List Label) : List Action :=
  .start (sampleParams segmentCount total) true true :: labels.map .last

def prepared : List Label := [.next true, .next true, .next true, .next true]

def firstRun : List Action :=
  sampleRun 2 1048578
    (prepared ++ [.worker 0 (.receive 524289), .worker 0 (.save true), .worker 1 (.receive 1)]) ++
    [.crash]

/-- Two segments, one of them after a crash; then a stream that is resumed, and one without a
size. -/
def sampleActions : List Action :=
  firstRun ++
    sampleRun 2 1048578 (prepared ++ [.worker 0 (.receive 524289),
      .worker 0 (.close (.complete true) true true), .complete true]) ++
    sampleRun 1 3 [.open true, .create true, .single (.receive 2), .single (.save true)] ++
    [.crash] ++
    sampleRun 1 3 [.open true, .single (.receive 1), .single (.close (.complete true) true true),
      .complete true] ++
    sampleRun 1 0 [.open true, .create true, .single (.receive 2),
      .single (.close (.complete true) true true), .complete true]

theorem completions_truthful_sample :
    ∃ t, exec step (initial none) sampleActions = some t ∧ t.state.completed.length = 3 ∧
      ∀ c ∈ t.state.completed, Truthful c := by
  have hexec : (exec step (initial none) sampleActions).any
      (fun t => t.state.completed.length = 3) = true := by decide +kernel
  obtain ⟨t,ht,hlength⟩ := (Option.any_eq_true _ _).mp hexec
  exact ⟨t,ht,of_decide_eq_true hlength,completions_truthful (by decide +kernel) ht⟩

/-- Wherever a careful history stops, the rows tile the planned file, and the bytes that they count
are in the temp file at their own offsets. -/
theorem rows_truthful {file : Option TempFile} {actions : List Action} {t : Task}
    (hcareful : Meets step Careful (initial file) actions)
    (h : exec step (initial file) actions = some t) : RowsInv t.state.file t.state.rows :=
  (exec_invariant_of_meets step_inv ⟨rfl,inv_initial file⟩ hcareful h).state.rows

theorem rows_truthful_crashed :
    ∃ t, exec step (initial none) firstRun = some t ∧ RowsInv t.state.file t.state.rows := by
  have hexec : (exec step (initial none) firstRun).isSome = true := by decide +kernel
  obtain ⟨t,ht⟩ := Option.isSome_iff_exists.mp hexec
  exact ⟨t,ht,rows_truthful (by decide +kernel) ht⟩

/-- A file that was allocated for segments is resumed by a single stream for a larger size. -/
def staleActions : List Action :=
  sampleRun 2 1048577 prepared ++ [.crash] ++
    sampleRun 1 1048578 [.open true, .single (.receive 1),
      .single (.close (.complete true) true true), .complete true]

theorem completions_not_truthful :
    ¬ ∀ (file : Option TempFile) (actions : List Action) (t : Task),
      exec step (initial file) actions = some t → ∀ c ∈ t.state.completed, Truthful c := by
  intro h
  have hexec : (exec step (initial none) staleActions).any (fun t =>
      t.state.completed.any fun c => 0 < c.total ∧ c.file.byte 0 = none) = true := by decide +kernel
  obtain ⟨t,ht,hany⟩ := (Option.any_eq_true _ _).mp hexec
  obtain ⟨c,hc,hhole⟩ := any_eq_true.mp hany
  obtain ⟨hpos,hnone⟩ := of_decide_eq_true hhole
  have hbyte := (((h none staleActions t ht c hc).known hpos).2 0 le_rfl hpos).2
  exact absurd (hnone.symm.trans hbyte) (Option.some_ne_none _).symm

end RinaDown.FtpTruth
