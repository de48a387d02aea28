import OxiSql.Wal.File

namespace OxiSql.Wal
open List Function LimboRwLock

def Held (locks : ReadLocks) (i : Slot) : Prop :=
  (locks i).lock ≠ .noLock

instance (locks : ReadLocks) (i : Slot) : Decidable (Held locks i) :=
  inferInstanceAs (Decidable (_ ≠ _))

theorem freeSlot_eq_none : freeSlot locks = none ↔ ∀ i, Held locks i := by
  simp [freeSlot,write_ok,Held]

theorem freeSlot_eq_some (h : freeSlot locks = some i) : (locks i).lock = .noLock := by
  have := find?_some h
  exact write_ok.mp (by simpa using this)

structure BestMark (locks : ReadLocks) (maxFrame : Nat) (best : Nat × Option Slot) : Prop where
  set : ∀ i, best.2 = some i → (locks i).value = best.1 ∧ 0 < best.1 ∧ best.1 ≤ asU32 maxFrame
  unset : best.2 = none → best.1 = 0

theorem BestMark.step (h : BestMark locks maxFrame best) (i : Slot) :
    BestMark locks maxFrame (markStep locks maxFrame best i) := by
  unfold markStep
  simp only
  split
  · rename_i hc
    refine ⟨?_,nofun⟩
    intro j hj
    cases hj
    exact ⟨rfl,Nat.zero_lt_of_lt hc.1,hc.2⟩
  · exact h

variable (slots : List Slot)

theorem BestMark.foldl (h : BestMark locks maxFrame best) :
    BestMark locks maxFrame (slots.foldl (markStep locks maxFrame) best) := by
  induction slots generalizing best with
  | nil => exact h
  | cons i is ih => exact ih (h.step i)

theorem markStep_le (maxFrame : Nat) (i : Slot) :
    best.1 ≤ (markStep locks maxFrame best i).1 ∧ ((locks i).value ≤ asU32 maxFrame →
        (locks i).value ≤ (markStep locks maxFrame best i).1) := by
  unfold markStep
  simp only
  split
  · omega
  · omega

theorem foldl_markStep_le (best : Nat × Option Slot) :
    best.1 ≤ (slots.foldl (markStep locks maxFrame) best).1 ∧ ∀ i ∈ slots, (locks i).value ≤ asU32 maxFrame →
        (locks i).value ≤ (slots.foldl (markStep locks maxFrame) best).1 := by
  induction slots generalizing best with
  | nil => simp
  | cons i is ih =>
    obtain ⟨hmo,hmem⟩ := ih (markStep locks maxFrame best i)
    obtain ⟨hb,hi⟩ := markStep_le maxFrame i
    refine ⟨hb.trans hmo,?_⟩
    intro j hj hle
    rcases mem_cons.mp hj with rfl | hj
    · exact (hi hle).trans hmo
    · exact hmem j hj hle

theorem largestMark_spec (locks : ReadLocks) (maxFrame : Nat) :
    BestMark locks maxFrame (largestMark locks maxFrame) :=
  BestMark.foldl _ ⟨nofun,fun _ => rfl⟩

theorem le_largestMark (locks : ReadLocks) (maxFrame : Nat) (i : Slot)
    (h : (locks i).value ≤ asU32 maxFrame) : (locks i).value ≤ (largestMark locks maxFrame).1 :=
  (foldl_markStep_le (List.finRange 5) (0, none)).2 i (mem_finRange i) h

/-- How a chosen mark came about: a free slot moved to the end of the log, or a slot
already marked, which is behind the end only when no slot is free. -/
inductive MarkChoice (locks : ReadLocks) (maxFrame : Nat) (i : Slot) (mark : Nat) : Prop where
  | moved (free : (locks i).lock = .noLock) (current : mark = asU32 maxFrame)
  | joined (value : (locks i).value = mark) (pos : 0 < mark) (range : mark ≤ asU32 maxFrame)
      (largest : ∀ j, (locks j).value ≤ asU32 maxFrame → (locks j).value ≤ mark)
      (behind : mark < maxFrame → ∀ j, Held locks j)

def NoMark (locks : ReadLocks) (maxFrame : Nat) : Prop :=
  ∀ i, Held locks i ∧ ((locks i).value = 0 ∨ asU32 maxFrame < (locks i).value)

instance (locks : ReadLocks) (maxFrame : Nat) : Decidable (NoMark locks maxFrame) :=
  inferInstanceAs (Decidable (∀ _, _))

theorem MarkChoice.not_noMark (h : MarkChoice locks maxFrame i mark) : ¬ NoMark locks maxFrame := by
  intro hn
  obtain ⟨hhe,hmark⟩ := hn i
  cases h with
  | moved hfr _ => exact hhe hfr
  | joined hv hpos hra _ _ => omega

theorem chooseMark_cases (maxFrame : Nat) :
    (NoMark locks maxFrame ∧ ∃ mark, chooseMark locks maxFrame = (mark,none,locks)) ∨
    ∃ i mark locks', chooseMark locks maxFrame = (mark,some i,locks') ∧
      locks' = Function.update locks i { locks i with value := mark } ∧
      MarkChoice locks maxFrame i mark := by
  have hsp := largestMark_spec locks maxFrame
  have hmax := le_largestMark locks maxFrame
  generalize hl : largestMark locks maxFrame = best at hsp hmax
  obtain ⟨mark,slot⟩ := best
  have hke : ∀ i, slot = some i → (mark < maxFrame → ∀ j, Held locks j) →
      locks = Function.update locks i { locks i with value := mark } ∧ MarkChoice locks maxFrame i mark := by
    intro i hi hb
    obtain ⟨hv,hpos,hr⟩ : (locks i).value = mark ∧ 0 < mark ∧ mark ≤ asU32 maxFrame :=
      hsp.set i hi
    refine ⟨?_,.joined hv hpos hr hmax hb⟩
    rw [← hv,update_eq_self]
  unfold chooseMark
  simp only [hl]
  by_cases hc : mark < maxFrame ∨ slot = none
  · simp only [hc]
    cases hf : freeSlot locks with
    | some i =>
      have hfr := freeSlot_eq_some hf
      exact .inr ⟨i,_,_,rfl,by rw [setValue_of_free hfr],.moved hfr rfl⟩
    | none =>
      cases hs : slot with
      | none =>
        have hze : mark = 0 := hsp.unset hs
        refine .inl ⟨fun i => ⟨freeSlot_eq_none.mp hf i,?_⟩,mark,rfl⟩
        have := hmax i
        omega
      | some i =>
        obtain ⟨hu,hm⟩ := hke i hs fun _ => freeSlot_eq_none.mp hf
        exact .inr ⟨i,mark,locks,rfl,hu,hm⟩
  · simp only [hc]
    cases hs : slot with
    | none => simp [hs] at hc
    | some i =>
      obtain ⟨hu,hm⟩ := hke i hs fun hlt => absurd (.inl hlt) hc
      exact .inr ⟨i,mark,locks,rfl,hu,hm⟩

/-- Every slot of the table is free or shared, never exclusive, between two calls. -/
def TableShared (locks : ReadLocks) : Prop :=
  ∀ i, (locks i).Shared

def acquire (locks : ReadLocks) (i : Slot) (mark : Nat) : ReadLocks :=
  Function.update locks i ⟨.sharedLock, (locks i).nreads + 1, mark⟩

theorem acquire_same : acquire locks i mark i = ⟨.sharedLock,(locks i).nreads + 1,mark⟩ :=
  update_self ..

theorem acquire_of_ne (h : j ≠ i) : acquire locks i mark j = locks j :=
  update_of_ne h ..

theorem table_acquire (h : TableShared locks) : TableShared (acquire locks i mark) := by
  intro j
  by_cases hj : j = i
  · subst hj
    rw [acquire_same]
    exact ⟨nofun,fun _ => Nat.succ_pos _,nofun⟩
  · rw [acquire_of_ne hj]
    exact h j

/-- `begin_read_tx` gives up and changes nothing, or adds one reader to one slot. -/
theorem beginReadTx_cases (w : WalFile) (hl : TableShared s.readLocks) :
    (NoMark s.readLocks s.maxFrame ∧ w.beginReadTx s = (.busy,w,s)) ∨
    ∃ i mark, MarkChoice s.readLocks s.maxFrame i mark ∧ w.beginReadTx s = (.ok,
        { w with minFrame := s.nbackfills + 1, maxFrameReadLockIndex := i, maxFrame := mark },
        { s with readLocks := acquire s.readLocks i mark }) := by
  rcases chooseMark_cases s.maxFrame with
    ⟨hn,mark,hc⟩ | ⟨i,mark,locks,hc,hu,hm⟩
  · exact .inl ⟨hn,by simp [WalFile.beginReadTx,hc]⟩
  · refine .inr ⟨i,mark,hm,?_⟩
    subst hu
    have hre := ((hl i).value mark).read_eq
    simp [WalFile.beginReadTx,hc,hre,acquire]

theorem beginReadTx_shared (w : WalFile) : ∃ locks, (w.beginReadTx s).2.2 = { s with readLocks := locks } := by
  unfold WalFile.beginReadTx
  split
  · exact ⟨_,rfl⟩
  · split <;> exact ⟨_,rfl⟩

theorem clampStep_lock (i j : Slot) : ((clampStep acc j).1 i).lock = (acc.1 i).lock ∧
      ((clampStep acc j).1 i).nreads = (acc.1 i).nreads := by
  unfold clampStep
  simp only
  split
  · split
    · rename_i hw
      have hfr := write_ok.mp hw
      by_cases hij : i = j
      · subst hij
        simp [setValue_of_free hfr]
      · simp [update_of_ne hij]
    · exact ⟨rfl,rfl⟩
  · exact ⟨rfl,rfl⟩

theorem foldl_clampStep_lock (acc : ReadLocks × Nat) : ((slots.foldl clampStep acc).1 i).lock = (acc.1 i).lock ∧
      ((slots.foldl clampStep acc).1 i).nreads = (acc.1 i).nreads := by
  induction slots generalizing acc with
  | nil => exact ⟨rfl,rfl⟩
  | cons j js ih =>
    obtain ⟨hl,hn⟩ := ih (clampStep acc j)
    obtain ⟨hl',hn'⟩ := clampStep_lock i j
    exact ⟨hl.trans hl',hn.trans hn'⟩

theorem startCheckpoint_lock : ((startCheckpoint s).1 i).lock = (s.readLocks i).lock ∧
      ((startCheckpoint s).1 i).nreads = (s.readLocks i).nreads :=
  foldl_clampStep_lock _ _

/-- What `CheckpointState::Start` has established once the slots in `seen` are done. -/
structure Clamped (locks : ReadLocks) (maxFrame : Nat) (seen : List Slot)
    (acc : ReadLocks × Nat) : Prop where
  lock : ∀ i, (acc.1 i).lock = (locks i).lock
  nreads : ∀ i, (acc.1 i).nreads = (locks i).nreads
  value : ∀ i, Held locks i → (acc.1 i).value = (locks i).value
  le_maxFrame : acc.2 ≤ maxFrame
  le_mark : ∀ i ∈ seen, Held locks i → acc.2 ≤ (locks i).value
  cause : acc.2 < maxFrame → ∃ i, Held locks i ∧ (locks i).value = acc.2

theorem Clamped.skip {locks : ReadLocks} {maxFrame : Nat} {seen : List Slot}
    {acc : ReadLocks × Nat} (h : Clamped locks maxFrame seen acc) {i : Slot}
    (hi : Held locks i → acc.2 ≤ (locks i).value) : Clamped locks maxFrame (i :: seen) acc := by
  refine { h with le_mark := ?_ }
  intro j hj hhe
  rcases mem_cons.mp hj with rfl | hj
  · exact hi hhe
  · exact h.le_mark j hj hhe

theorem Clamped.step (h : Clamped locks maxFrame seen acc) (hb : maxFrame < 2 ^ 32) (i : Slot) :
    Clamped locks maxFrame (i :: seen) (clampStep acc i) := by
  obtain ⟨cur,maxSafe⟩ := acc
  have hle : maxSafe ≤ maxFrame := h.le_maxFrame
  have hsa : asU32 maxSafe = maxSafe := asU32_of_lt (by omega)
  unfold clampStep
  simp only [hsa]
  by_cases hlt : (cur i).value < maxSafe
  · by_cases hw : (cur i).write.1 = true
    · -- A free slot: only its mark moves.
      have hfr : (cur i).lock = .noLock := write_ok.mp hw
      have hnot : ¬ Held locks i := fun hh => hh ((h.lock i).symm.trans hfr)
      simp only [hlt,hw,setValue_of_free hfr]
      refine Clamped.skip ?_ fun hh => absurd hh hnot
      refine ⟨?_,?_,?_,h.le_maxFrame,h.le_mark,h.cause⟩
      · intro j
        by_cases hj : j = i
        · subst hj
          simpa using h.lock j
        · simpa [update_of_ne hj] using h.lock j
      · intro j
        by_cases hj : j = i
        · subst hj
          simpa using h.nreads j
        · simpa [update_of_ne hj] using h.nreads j
      · intro j hj
        have hne : j ≠ i := fun he => hnot (he ▸ hj)
        simpa [update_of_ne hne] using h.value j hj
    · -- A reader holds it: nothing beyond its mark may be copied.
      have hhe : Held locks i := fun hf => hw (write_ok.mpr ((h.lock i).trans hf))
      have hv : (cur i).value = (locks i).value := h.value i hhe
      simp only [hlt,hw]
      have hnew : Clamped locks maxFrame seen (cur, (cur i).value) :=
        ⟨h.lock,h.nreads,h.value,hlt.le.trans hle,
          fun j hj hh => hlt.le.trans (h.le_mark j hj hh),fun _ => ⟨i,hhe,hv.symm⟩⟩
      exact hnew.skip fun _ => hv.le
  · simp only [hlt]
    exact h.skip fun hh => (Nat.not_lt.mp hlt).trans (h.value i hh).le

theorem Clamped.foldl (hb : maxFrame < 2 ^ 32) (slots seen : List Slot) (h : Clamped locks maxFrame seen acc) :
    Clamped locks maxFrame (slots.reverse ++ seen) (slots.foldl clampStep acc) := by
  induction slots generalizing seen acc with
  | nil => exact h
  | cons i is ih =>
    have := ih (i :: seen) (h.step hb i)
    simpa using this

/-- The safe frame is bounded by the log and by every held mark, and it is below the
end of the log only because some reader is. -/
theorem startCheckpoint_spec (hb : s.maxFrame < 2 ^ 32) :
    Clamped s.readLocks s.maxFrame (List.finRange 5) (startCheckpoint s) := by
  have hin : Clamped s.readLocks s.maxFrame [] (s.readLocks, s.maxFrame) :=
    ⟨fun _ => rfl,fun _ => rfl,fun _ _ => rfl,le_rfl,by simp,fun h => absurd h (by simp)⟩
  have h := Clamped.foldl hb (List.finRange 5) [] hin
  exact { h with le_mark := fun i _ => h.le_mark i (by simp) }

end OxiSql.Wal
