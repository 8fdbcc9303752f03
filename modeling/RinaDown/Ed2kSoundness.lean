import RinaDown.Ed2kScheduling

/-!
# What the ED2K downloader hands over

Whatever the peers send and whatever a former run has left, a file that is
renamed has the length of the link, and its parts hash to a hashset with the
root of the link. The blocks are verified as they come, but it is the reading of
the whole file at the end that decides.
-/

namespace RinaDown.Ed2kDownload
open LabelledExecutions Ed2kHash Ed2kBlockTask Option List Bool

variable {md4 : Bytes → Digest} {job : Job} {s t : Download}

/-- The content hashes to the root, in parts if there are several. -/
def Genuine (md4 : Bytes → Digest) (job : Job) (content : Bytes) : Prop :=
  if partCount job.totalBytes job.partSize = 1 then md4 content = job.rootHash
  else ∃ hashset : List Digest, hashset.length = partCount job.totalBytes job.partSize ∧
    computeRoot md4 (buildRootInput hashset job.totalBytes job.partSize) = job.rootHash ∧
    ∀ i < partCount job.totalBytes job.partSize,
      hashset[i]? = some (md4 (part content i job.totalBytes job.partSize))

theorem mapM_eq_some {α β : Type} {f : α → Option β} {g : α → β} (hf : ∀ a b, f a = some b → b = g a)
    {xs : List α} {ys : List β} (h : xs.mapM f = some ys) : ys = xs.map g := by
  induction xs generalizing ys with
  | nil =>
    cases h
    rfl
  | cons x xs ih =>
    rw [mapM_cons] at h
    obtain ⟨y,hy,h⟩ := bind_eq_some_iff.mp h
    obtain ⟨rest,hrest,h⟩ := bind_eq_some_iff.mp h
    cases h
    rw [map_cons, hf x y hy, ih hrest]

theorem diskHashes_eq {file : File} {disk : List Digest} (h : diskHashes md4 job file = some disk) :
    disk = (List.range (partCount job.totalBytes job.partSize)).map
      (fun i => md4 (part file.1 i job.totalBytes job.partSize)) := by
  refine mapM_eq_some (fun i d hread => ?_) h
  simp only [readPart] at hread
  split_ifs at hread
  cases hread
  rfl

/-- A root over the hashes of the parts makes the file genuine. -/
theorem genuine_of_rootOf (hps : 0 < job.partSize) {file : File}
    (hlen : file.1.length = job.totalBytes) {disk : List Digest}
    (hdisk : diskHashes md4 job file = some disk) (hroot : RootOf md4 job disk) :
    Genuine md4 job file.1 := by
  obtain rfl := diskHashes_eq hdisk
  rw [RootOf] at hroot
  rw [Genuine]
  split_ifs at hroot ⊢ with hone
  · have hbound : file.1.length < 2 ^ 64 := Nat.lt_trans file.2 (by decide)
    have hpart := part_single hps hbound (by rw [hlen]; exact hone)
    rw [hlen] at hpart
    rw [hone] at hroot
    have hfirst : some (md4 (part file.1 0 job.totalBytes job.partSize)) = some job.rootHash := hroot
    rw [hpart] at hfirst
    exact some.inj hfirst
  · refine ⟨_,by simp,hroot,fun i hi => ?_⟩
    simp [hi]

structure FileInv (md4 : Bytes → Digest) (job : Job) (s : Download) : Prop where
  sameJob : s.job = job
  trusted : s.shared.Trusted md4 job
  length : s.phase.prepared = true →
    s.shared.temp.map (fun file => file.1.length) = some job.totalBytes
  genuine : s.phase = .renaming → ∀ file, s.shared.temp = some file → Genuine md4 job file.1
  handed : ∀ total, s.phase = .returned (.ok total) → ∃ file, s.finalFile = some file ∧
    total = job.totalBytes ∧ file.1.length = job.totalBytes ∧ Genuine md4 job file.1

/-- No file is to be renamed, and no length has been returned. -/
def RunPhase.undecided : RunPhase → Bool
  | .renaming => false
  | .returned (.ok _) => false
  | _ => true

theorem RunPhase.returned_of_decided {p : RunPhase} (hprepared : p.prepared = false)
    (hdecided : p.undecided = false) : ∃ total, p = .returned (.ok total) := by
  cases p with
  | returned result =>
    cases result with
    | ok total => exact ⟨total,rfl⟩
    | error error => cases hdecided
  | _ => simp [RunPhase.prepared, RunPhase.undecided] at hprepared hdecided

theorem toI64_of_lt {n : ℕ} (h : n < 2 ^ 63) : toI64 n = n := if_pos h

namespace FileInv

theorem of_undecided (hjob : t.job = job) (htrusted : t.shared.Trusted md4 job)
    (hlength : t.phase.prepared = true →
      t.shared.temp.map (fun file => file.1.length) = some job.totalBytes)
    (hphase : t.phase.undecided = true) : FileInv md4 job t where
  sameJob := hjob
  trusted := htrusted
  length := hlength
  genuine hp := by
    rw [hp] at hphase
    cases hphase
  handed total hp := by
    rw [hp] at hphase
    cases hphase

/-- The file and the job are as they were, and the phase asks for no more. -/
theorem congr (h : FileInv md4 job s) (hjob : t.job = s.job) (hshared : t.shared = s.shared)
    (hprepared : t.phase.prepared = true → s.phase.prepared = true)
    (hphase : t.phase.undecided = true) : FileInv md4 job t :=
  of_undecided (hjob.trans h.sameJob) (hshared ▸ h.trusted)
    (fun hp => hshared ▸ h.length (hprepared hp)) hphase

theorem giveUp (h : FileInv md4 job s) (error : DownloadError) : FileInv md4 job (s.giveUp error) :=
  h.congr rfl rfl (fun hp => absurd hp false_ne_true) rfl

theorem goesOn (h : FileInv md4 job s) (hprepared : s.phase.prepared = true) (hjob : t.job = s.job)
    (hshared : t.shared = s.shared) (hphase : t.phase.undecided = true) : FileInv md4 job t :=
  h.congr hjob hshared (fun _ => hprepared) hphase

theorem prepare (h : FileInv md4 job s) (hmd4 : md4 [] = md4Empty) : FileInv md4 job s.prepare := by
  have hafter : ∀ {t : Download}, t.job = s.job → t.shared.hashsetCache = s.shared.hashsetCache →
      t.shared.temp.map (fun file => file.1.length) = some job.totalBytes →
        FileInv md4 job (if t.job.totalBytes = 0 then
          if t.job.rootHash = md4Empty then { t with phase := .renaming }
          else t.giveUp (.ed2kIntegrity "0-byte file root hash mismatch")
        else { t with phase := .loading }) := by
    intro t hjob hcache hlength
    have hjob : t.job = job := hjob.trans h.sameJob
    have htrusted : t.shared.Trusted md4 job := fun hashes hc => h.trusted hashes (hcache ▸ hc)
    split_ifs with hzero hroot
    · refine ⟨hjob,htrusted,fun _ => hlength,fun _ file hfile => ?_,
        fun _ hp => RunPhase.noConfusion hp⟩
      have hlen : file.1.length = job.totalBytes := by
        have hfile : t.shared.temp = some file := hfile
        rw [hfile] at hlength
        exact some.inj hlength
      rw [hjob] at hzero hroot
      rw [Genuine, if_pos (by rw [partCount, if_pos hzero]), hroot,
        eq_nil_of_length_eq_zero (hlen.trans hzero), hmd4]
    · exact of_undecided hjob htrusted (fun hp => absurd hp false_ne_true) rfl
    · exact of_undecided hjob htrusted (fun _ => hlength) rfl
  rw [Download.prepare]
  split_ifs with htemp
  · exact hafter rfl rfl (htemp.trans (by rw [h.sameJob]))
  · cases hlen : File.setLen s.job.totalBytes with
    | none => exact h.giveUp _
    | some file =>
      refine hafter rfl rfl ?_
      rw [File.setLen] at hlen
      split_ifs at hlen
      cases hlen
      simp [h.sameJob]

theorem load (h : FileInv md4 job s) (hprepared : s.phase.prepared = true) :
    FileInv md4 job s.load := by
  rw [Download.load]
  split_ifs
  · exact h.goesOn hprepared rfl rfl rfl
  · exact h.goesOn hprepared rfl rfl rfl

theorem finalize (h : FileInv md4 job s) (hps : 0 < job.partSize) (hphase : s.phase = .finalizing) :
    FileInv md4 job (s.finalize md4) := by
  have hprepared : s.phase.prepared = true := by rw [hphase]; rfl
  have hlength := h.length hprepared
  rw [Download.finalize]
  dsimp only
  rcases finalizeAndVerify_cases md4 s.job s.shared.temp s.rows s.hashsetRow with
    ⟨hok,-,disk,hdisk,hroot⟩ | ⟨error,herror,-⟩
  · rw [hok]
    refine ⟨h.sameJob,h.trusted,fun _ => hlength,fun _ file hfile => ?_,
      fun _ hp => RunPhase.noConfusion hp⟩
    have hfile : s.shared.temp = some file := hfile
    rw [hfile] at hlength hdisk
    rw [h.sameJob] at hdisk hroot
    exact genuine_of_rootOf hps (some.inj hlength) hdisk hroot
  · rw [herror]
    dsimp only
    split_ifs
    · exact h.goesOn hprepared rfl rfl rfl
    · exact of_undecided h.sameJob h.trusted (fun hp => absurd hp false_ne_true) rfl

theorem leaveFilling (h : FileInv md4 job s) (hprepared : s.phase.prepared = true) :
    FileInv md4 job s.leaveFilling := by
  rw [Download.leaveFilling]
  split_ifs <;> exact h.goesOn hprepared rfl rfl rfl

theorem fill (h : FileInv md4 job s) (hphase : s.phase = .filling) : FileInv md4 job s.fill := by
  have hprepared : s.phase.prepared = true := by rw [hphase]; rfl
  rw [Download.fill]
  split_ifs
  · split
    · exact h.goesOn hprepared rfl rfl (by rw [hphase]; rfl)
    · exact leaveFilling (h.goesOn hprepared rfl rfl (by rw [hphase]; rfl)) hprepared
  · exact h.leaveFilling hprepared

theorem handle (h : FileInv md4 job s) (hprepared : s.phase.prepared = true) {task : BlockTask}
    {stored saved : Bool} (hstep : s.handle task stored saved = some t) : FileInv md4 job t := by
  cases hphase : task.phase with
  | panicked =>
    simp only [Download.handle, hphase] at hstep
    cases hstep
    exact h.goesOn hprepared rfl rfl rfl
  | finished result =>
    cases result with
    | ok digest =>
      simp only [Download.handle, hphase] at hstep
      by_cases hmatch : s.matchesBlock task.index digest = true
      · rw [if_pos hmatch] at hstep
        cases hstep
        exact h.goesOn hprepared rfl rfl rfl
      · rw [if_neg hmatch] at hstep
        cases hstep
        split_ifs
        · exact h.congr rfl rfl (fun hp => absurd hp false_ne_true) rfl
        · exact h.goesOn hprepared rfl rfl rfl
    | error error =>
      simp only [Download.handle, hphase] at hstep
      cases hstep
      by_cases herror : error.isIntegrity = true
      · rw [if_pos herror]
        exact h.goesOn hprepared rfl rfl rfl
      · rw [if_neg herror]
        exact h.goesOn hprepared rfl rfl rfl
  | _ => simp only [Download.handle, hphase, reduceCtorEq] at hstep

theorem task (h : FileInv md4 job s) (hloop : s.phase.inBlockLoop = true) {task task' : BlockTask}
    {shared : Shared} (hframe : Frame md4 s.job task s.shared task' shared) (k : ℕ) :
    FileInv md4 job { s with join := s.join.set k task', shared := shared } where
  sameJob := h.sameJob
  trusted := h.sameJob ▸ hframe.trusted (h.sameJob ▸ h.trusted)
  length hp := hframe.length.trans (h.length hp)
  genuine hp := by
    have hp : s.phase = .renaming := hp
    rw [hp] at hloop
    cases hloop
  handed total hp := by
    have hp : s.phase = .returned (.ok total) := hp
    rw [hp] at hloop
    cases hloop

theorem rename (h : FileInv md4 job s) (hphase : s.phase = .renaming) {file : File}
    (hfile : s.shared.temp = some file) :
    FileInv md4 job { s with
      phase := .returned (.ok (toI64 s.job.totalBytes))
      finalFile := some file
      shared := { s.shared with temp := none } } where
  sameJob := h.sameJob
  trusted := h.trusted
  length hp := absurd hp false_ne_true
  genuine hp := RunPhase.noConfusion hp
  handed total hp := by
    cases hp
    have hlength := h.length (by rw [hphase]; rfl)
    rw [hfile] at hlength
    have hlength : file.1.length = job.totalBytes := some.inj hlength
    refine ⟨file,rfl,?_,hlength,h.genuine hphase file hfile⟩
    rw [h.sameJob, toI64_of_lt (hlength ▸ file.2)]

theorem step (h : FileInv md4 job s) (hinv : s.Inv) (hmd4 : md4 [] = md4Empty)
    (hps : 0 < job.partSize) {a : Label} (hstep : Ed2kDownload.step md4 s a = some t) :
    FileInv md4 job t := by
  cases a with
  | prepare =>
    simp only [Ed2kDownload.step] at hstep
    split at hstep
    · cases hstep; exact h.prepare hmd4
    · cases hstep
  | load =>
    simp only [Ed2kDownload.step] at hstep
    split at hstep
    · next hphase => cases hstep; exact h.load (by rw [hphase]; rfl)
    · next hphase => cases hstep; exact h.load (by rw [hphase]; rfl)
    · cases hstep
  | finalize =>
    simp only [Ed2kDownload.step] at hstep
    split at hstep
    · next hphase => cases hstep; exact h.finalize hps hphase
    · cases hstep
  | enter =>
    simp only [Ed2kDownload.step, Download.enter] at hstep
    split at hstep
    · next hphase =>
      cases hstep
      split_ifs
      · exact h.giveUp _
      · exact h.goesOn (by rw [hphase]; rfl) rfl rfl rfl
    · cases hstep
  | fill =>
    simp only [Ed2kDownload.step] at hstep
    split at hstep
    · next hphase => cases hstep; exact h.fill hphase
    · cases hstep
  | refresh merged =>
    simp only [Ed2kDownload.step, Download.refresh] at hstep
    split at hstep
    · next hphase =>
      cases hstep
      split_ifs
      · exact h.goesOn (by rw [hphase]; rfl) rfl rfl rfl
      · exact h.congr rfl rfl (fun hp => absurd hp false_ne_true) rfl
      · exact h.goesOn (by rw [hphase]; rfl) rfl rfl rfl
    · cases hstep
  | joinNext k stored saved =>
    simp only [Ed2kDownload.step] at hstep
    split at hstep
    · next hphase _ =>
      have herased : FileInv md4 job { s with join := s.join.eraseIdx k } :=
        h.goesOn (by rw [hphase]; rfl) rfl rfl (by rw [hphase]; rfl)
      exact herased.handle (by rw [hphase]; rfl) hstep
    · cases hstep
  | task k event =>
    simp only [Ed2kDownload.step] at hstep
    split at hstep
    · next task hk =>
      have hloop : s.phase.inBlockLoop = true := by
        by_contra hnot
        rw [hinv.idle (by simpa using hnot)] at hk
        cases hk
      obtain ⟨⟨task',shared⟩,hevent,rfl⟩ := map_eq_some_iff.mp hstep
      exact h.task hloop (step_frame hevent) k
    · cases hstep
  | cancel => cases hstep; exact ⟨h.sameJob,h.trusted,h.length,h.genuine,h.handed⟩
  | interrupt =>
    simp only [Ed2kDownload.step] at hstep
    split at hstep
    · split_ifs at hstep
      cases hstep
      exact h.giveUp _
    · cases hstep
  | fail error =>
    simp only [Ed2kDownload.step] at hstep
    split at hstep <;> try split_ifs at hstep
    all_goals first
      | (cases hstep; exact h.giveUp _)
      | cases hstep
  | rename =>
    simp only [Ed2kDownload.step] at hstep
    split at hstep
    · next hphase hfile => cases hstep; exact h.rename hphase hfile
    · cases hstep

end FileInv

/-- Whatever the peers and the former runs have done: when the run returns a length, the renamed file
has that length and is genuine. -/
theorem run_genuine {s t : Download} {as : List Label} (hmd4 : md4 [] = md4Empty) (hs : Initial s)
    (hrun : exec (step md4) s as = some t) {total : ℤ} (hreturned : t.phase = .returned (.ok total)) :
    ∃ file, t.finalFile = some file ∧ total = s.job.totalBytes ∧
      file.1.length = s.job.totalBytes ∧ Genuine md4 s.job file.1 := by
  have hstart : s.Inv ∧ FileInv md4 s.job s := by
    refine ⟨Download.Initial.inv hs,.of_undecided rfl (fun hashes hcache => ?_) (fun hp => ?_) ?_⟩
    · rw [hs.hashsetCache] at hcache
      cases hcache
    · rw [hs.phase] at hp
      cases hp
    · rw [hs.phase]
      rfl
  have hstep : ∀ (r : Download) a u, r.Inv ∧ FileInv md4 s.job r → step md4 r a = some u →
      u.Inv ∧ FileInv md4 s.job u :=
    fun r a u h hstep => ⟨h.1.step hstep,h.2.step h.1 hmd4 hs.partSize hstep⟩
  exact (exec_invariant hstep hstart hrun).2.handed total hreturned

theorem run_genuine_downloading :
    ∃ t, exec (step sampleMd4) newDownload downloading = some t ∧
      ∃ file, t.finalFile = some file ∧ file.1 = [97, 98, 99] ∧
        Genuine sampleMd4 newDownload.job file.1 := by
  have hrun : (exec (step sampleMd4) newDownload downloading).any (fun t =>
      !t.phase.prepared && !t.phase.undecided &&
        t.finalFile.map Subtype.val = some [97, 98, 99]) = true := by decide +kernel
  obtain ⟨t,ht,hend⟩ := (any_eq_true _ _).mp hrun
  obtain ⟨hphase,hfinal⟩ := (and_eq_true _ _).mp hend
  obtain ⟨hprepared,hdecided⟩ := (and_eq_true _ _).mp hphase
  obtain ⟨total,hreturned⟩ := RunPhase.returned_of_decided ((not_eq_true' _).mp hprepared)
    ((not_eq_true' _).mp hdecided)
  obtain ⟨file,hfile,hbytes⟩ := map_eq_some_iff.mp (of_decide_eq_true hfinal)
  obtain ⟨file',hfile',-,-,hgenuine⟩ := run_genuine rfl newDownload_initial ht hreturned
  cases hfile.symm.trans hfile'
  exact ⟨t,ht,file,hfile,hbytes,hgenuine⟩

end RinaDown.Ed2kDownload
