import Mathlib.Algebra.Order.Ring.Int

/-!
# What a completed sync makes durable

A history numbers its events and reads a clock that never goes back but may stand still. A flush
hands a range of a keyed stream to the operating system, a sync makes durable what was flushed
before it started. A prefix is covered if each of its offsets was flushed before some completed
sync started.
-/

namespace RinaDown.DurabilityLog
open List

universe u

structure Flush (κ : Type u) where
  key : κ
  lo : ℤ
  hi : ℤ
  seq : ℕ
  deriving DecidableEq, Repr

/-- A sync, by the event at which its start was noted and what the clock read there. -/
structure Sync where
  seq : ℕ
  start : ℕ
  deriving DecidableEq, Repr

structure History (κ : Type u) where
  seq : ℕ
  now : ℕ
  flushes : List (Flush κ)
  starts : List Sync
  syncs : List Sync
  deriving Repr

variable {κ : Type u}

namespace History

def tick (h : History κ) (d : ℕ) : History κ := { h with seq := h.seq + 1, now := h.now + d }

def flush (h : History κ) (key : κ) (lo hi : ℤ) : History κ :=
  { h with seq := h.seq + 1, flushes := ⟨key,lo,hi,h.seq⟩ :: h.flushes }

def start (h : History κ) : History κ :=
  { h with seq := h.seq + 1, starts := ⟨h.seq,h.now⟩ :: h.starts }

def complete (h : History κ) (s : Sync) : History κ :=
  { h with seq := h.seq + 1, syncs := s :: h.syncs }

def Flushed (h : History κ) (key : κ) (off : ℤ) : Prop :=
  ∀ b, 0 ≤ b → b < off → ∃ f ∈ h.flushes, f.key = key ∧ f.lo ≤ b ∧ b < f.hi

/-- The offsets below `off` were flushed before every sync whose start reads `t` or later. -/
def FlushedBefore (h : History κ) (key : κ) (off : ℤ) (t : ℕ) : Prop :=
  ∀ b, 0 ≤ b → b < off → ∃ f ∈ h.flushes, (f.key = key ∧ f.lo ≤ b ∧ b < f.hi) ∧
    ∀ s ∈ h.starts, t ≤ s.start → f.seq < s.seq

/-- The offsets below `off` were flushed before the start of a sync that has completed. -/
def Covered (h : History κ) (key : κ) (off : ℤ) : Prop :=
  ∀ b, 0 ≤ b → b < off → ∃ f ∈ h.flushes, (f.key = key ∧ f.lo ≤ b ∧ b < f.hi) ∧
    ∃ s ∈ h.syncs, f.seq < s.seq

structure WellTimed (h : History κ) : Prop where
  flush_lt : ∀ f ∈ h.flushes, f.seq < h.seq
  start_le : ∀ s ∈ h.starts, s.start ≤ h.now
  syncs : h.syncs ⊆ h.starts

structure Extends (h' h : History κ) : Prop where
  now_le : h.now ≤ h'.now
  flushes : h.flushes ⊆ h'.flushes
  starts : h.starts ⊆ h'.starts
  syncs : h.syncs ⊆ h'.syncs
  later : ∀ s ∈ h'.starts, s ∈ h.starts ∨ h.seq ≤ s.seq

theorem extends_tick (h : History κ) (d : ℕ) : (h.tick d).Extends h :=
  ⟨Nat.le_add_right _ _,fun _ hf => hf,fun _ hs => hs,fun _ hs => hs,fun _ hs => .inl hs⟩

theorem extends_flush (h : History κ) (key : κ) (lo hi : ℤ) : (h.flush key lo hi).Extends h :=
  ⟨le_rfl,fun _ hf => mem_cons_of_mem _ hf,fun _ hs => hs,fun _ hs => hs,
    fun _ hs => .inl hs⟩

theorem extends_start (h : History κ) : h.start.Extends h := by
  refine ⟨le_rfl,fun _ hf => hf,fun _ hs => mem_cons_of_mem _ hs,fun _ hs => hs,fun s hs => ?_⟩
  rcases mem_cons.mp hs with rfl | hs
  · exact .inr le_rfl
  · exact .inl hs

theorem extends_complete (h : History κ) (s : Sync) : (h.complete s).Extends h :=
  ⟨le_rfl,fun _ hf => hf,fun _ hs => hs,fun _ hs => mem_cons_of_mem _ hs,
    fun _ hs => .inl hs⟩

variable {key : κ} {off : ℤ} {h h' : History κ}

theorem Flushed.mono {off' : ℤ} (hf : h.Flushed key off) (he : h'.Extends h) (hoff : off' ≤ off) :
    h'.Flushed key off' := by
  intro b hb0 hb
  obtain ⟨f,hmem,hrange⟩ := hf b hb0 (by omega)
  exact ⟨f,he.flushes hmem,hrange⟩

/-- A start that is read later has a later number. -/
theorem FlushedBefore.mono {t : ℕ} (hf : h.FlushedBefore key off t) (hw : h.WellTimed)
    (he : h'.Extends h) :
    h'.FlushedBefore key off t := by
  intro b hb0 hb
  obtain ⟨f,hmem,hrange,hbefore⟩ := hf b hb0 hb
  refine ⟨f,he.flushes hmem,hrange,fun s hs ht => ?_⟩
  rcases he.later s hs with hs | hlater
  · exact hbefore s hs ht
  · exact (hw.flush_lt f hmem).trans_le hlater

theorem Covered.mono {off' : ℤ} (hc : h.Covered key off) (he : h'.Extends h) (hoff : off' ≤ off) :
    h'.Covered key off' := by
  intro b hb0 hb
  obtain ⟨f,hmem,hrange,s,hs,hlt⟩ := hc b hb0 (by omega)
  exact ⟨f,he.flushes hmem,hrange,s,he.syncs hs,hlt⟩

theorem Flushed.flush {lo hi : ℤ} (hf : h.Flushed key lo) :
    (h.flush key lo hi).Flushed key hi := by
  intro b hb0 hb
  by_cases hlo : b < lo
  · exact (hf.mono (extends_flush h key lo hi) le_rfl) b hb0 hlo
  · exact ⟨⟨key,lo,hi,h.seq⟩,mem_cons_self,rfl,not_lt.mp hlo,hb⟩

theorem FlushedBefore.covered {t : ℕ} {s : Sync} (hf : h.FlushedBefore key off t) (hw : h.WellTimed)
    (hs : s ∈ h.syncs) (ht : t ≤ s.start) :
    h.Covered key off := by
  intro b hb0 hb
  obtain ⟨f,hmem,hrange,hbefore⟩ := hf b hb0 hb
  exact ⟨f,hmem,hrange,s,hs,hbefore s (hw.syncs hs) ht⟩

/-- What a party has flushed is flushed before every sync that will read the current instant,
unless a sync read it before one of the flushes. -/
theorem Flushed.before (hf : h.Flushed key off) (hw : h.WellTimed)
    (hties : ∀ s ∈ h.starts, s.start = h.now → ∀ f ∈ h.flushes, f.key = key → f.lo < f.hi → f.seq < s.seq) :
    h.FlushedBefore key off h.now := by
  intro b hb0 hb
  obtain ⟨f,hmem,hkey,hlo,hhi⟩ := hf b hb0 hb
  exact ⟨f,hmem,⟨hkey,hlo,hhi⟩,fun s hs ht =>
    hties s hs (le_antisymm (hw.start_le s hs) ht) f hmem hkey (by omega)⟩

theorem WellTimed.tick (hw : h.WellTimed) (d : ℕ) : (h.tick d).WellTimed :=
  ⟨fun f hf => Nat.lt_succ_of_lt (hw.flush_lt f hf),
    fun s hs => (hw.start_le s hs).trans (Nat.le_add_right _ _),hw.syncs⟩

theorem WellTimed.flush (hw : h.WellTimed) (key : κ) (lo hi : ℤ) :
    (h.flush key lo hi).WellTimed := by
  refine ⟨fun f hf => ?_,hw.start_le,hw.syncs⟩
  rcases mem_cons.mp hf with rfl | hf
  · exact Nat.lt_succ_self _
  · exact Nat.lt_succ_of_lt (hw.flush_lt f hf)

theorem WellTimed.start (hw : h.WellTimed) : h.start.WellTimed := by
  refine ⟨fun f hf => Nat.lt_succ_of_lt (hw.flush_lt f hf),fun s hs => ?_,
    fun s hs => mem_cons_of_mem _ (hw.syncs hs)⟩
  rcases mem_cons.mp hs with rfl | hs
  · exact le_rfl
  · exact hw.start_le s hs

theorem WellTimed.complete (hw : h.WellTimed) {s : Sync} (hs : s ∈ h.starts) :
    (h.complete s).WellTimed :=
  ⟨fun f hf => Nat.lt_succ_of_lt (hw.flush_lt f hf),hw.start_le,
    cons_subset.mpr ⟨hs,hw.syncs⟩⟩

end History

end RinaDown.DurabilityLog
