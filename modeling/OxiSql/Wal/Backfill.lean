import OxiSql.Wal.System

namespace OxiSql.Wal
open Lib Wal.System

/-- History of when each page image was written: a counter of appended frames, the age of
the image in each frame, and the age of each page of the database file. -/
structure Ages where
  clock : Nat
  frameAge : Nat → Nat
  dbAge : Nat → Nat

namespace Ages

/-- A log opened with frames: each of them is newer than the one before it and than the
database file. -/
def opened {n : Nat} (S : System n) : Ages :=
  ⟨S.shared.maxFrame, id, fun _ => 0⟩

def append (A : Ages) (frame : Nat) : Ages :=
  { A with clock := A.clock + 1, frameAge := Function.update A.frameAge frame (A.clock + 1) }

def appendMany (A : Ages) (frame : Nat) : Nat → Ages
  | 0 => A
  | k + 1 => (A.append (frame + 1)).appendMany (frame + 1) k

def checkpoint (A : Ages) (w : WalFile) (s : WalFileShared) : Ages :=
  { A with dbAge := fun p => match w.copiedFrame s p with
      | some f => A.frameAge f
      | none => A.dbAge p }

def observe {n : Nat} (S : System n) (A : Ages) : Op n → Ages
  | .appendFrame _ _ _ _ => A.append (S.shared.maxFrame + 1)
  | .openSavepoint _ dirty _ => A.appendMany S.shared.maxFrame dirty.length
  | .checkpoint c _ _ => A.checkpoint (S.conns c).wal S.shared
  | _ => A

end Ages

def agedStep {n : Nat} (X : System n × Ages) (op : Op n) : Option (System n × Ages) :=
  (X.1.step op).map fun S' => (S', X.2.observe X.1 op)

/-- Of every frame a checkpoint by `c` forgets, the database file holds an image at least
as new. -/
def NothingLost {n : Nat} (X : System n × Ages) (c : Fin n) (mode : CheckpointMode)
    (random : UInt32) : Prop :=
  ∀ S' A', agedStep X (.checkpoint c mode random) = some (S', A') →
    ∀ p, ∀ f ∈ X.1.shared.frames p, f ∉ S'.shared.frames p → X.2.frameAge f ≤ A'.dbAge p

/-- Ages follow frame numbers, and nothing in the log is as old as the database file. -/
structure AgeInv (s : WalFileShared) (A : Ages) : Prop where
  log : s.LogWf
  frame_le : ∀ p, ∀ f ∈ s.frames p, A.frameAge f ≤ A.clock
  db_le : ∀ p, A.dbAge p ≤ A.clock
  db_lt : ∀ p, ∀ f ∈ s.frames p, A.dbAge p < A.frameAge f
  mono : ∀ p, ∀ f ∈ s.frames p, ∀ g ∈ s.frames p, f < g → A.frameAge f < A.frameAge g

namespace AgeInv

theorem opened (h : S.Opened ps) : AgeInv S.shared (.opened S) where
  log := h.log
  frame_le := fun p f hf => (h.log.bounded p f hf).2
  db_le := fun _ => Nat.zero_le _
  db_lt := fun p f hf => (h.log.bounded p f hf).1
  mono := fun _ _ _ _ _ hlt => hlt

section

variable (h : AgeInv s A)
include h

/-- Only the frame cache and the end of the log matter. -/
theorem congr (hc : s'.frameCache = s.frameCache) (hp : s'.pagesInFrames = s.pagesInFrames)
    (hm : s'.maxFrame = s.maxFrame) : AgeInv s' A := by
  have hf : s'.frames = s.frames := by
    funext p
    simp [WalFileShared.frames,hc]
  have hlog : s'.LogWf :=
    ⟨by rw [hf]; exact h.log.ascending,by rw [hf,hm]; exact h.log.bounded,
      by rw [hc]; exact h.log.no_empty,by rw [hc,hp]; exact h.log.listed⟩
  exact ⟨hlog,by rw [hf]; exact h.frame_le,h.db_le,by rw [hf]; exact h.db_lt,by rw [hf]; exact h.mono⟩

/-- Dropping frames cannot break the order of ages. -/
theorem sublog (hlog : s'.LogWf) (hsub : ∀ p, ∀ f ∈ s'.frames p, f ∈ s.frames p) : AgeInv s' A where
  log := hlog
  frame_le := fun p f hf => h.frame_le p f (hsub p f hf)
  db_le := h.db_le
  db_lt := fun p f hf => h.db_lt p f (hsub p f hf)
  mono := fun p f hf g hg => h.mono p f (hsub p f hf) g (hsub p g hg)

theorem rollbackToFrame (target : Nat) (sum : Checksum) : AgeInv (s.rollbackToFrame target sum) A := by
  refine h.sublog (h.log.rollbackToFrame target sum) ?_
  intro p f hf
  have hr : (s.rollbackToFrame target sum).frames p = (s.frames p).filter fun f => f ≤ target :=
    frames_retain
  rw [hr] at hf
  exact (List.mem_filter.mp hf).1

theorem appendFrame (w : WalFile) (page : Nat) (content : PageBytes) (dbSize : UInt32) :
    AgeInv (w.appendFrame s page content dbSize) (A.append (s.maxFrame + 1)) := by
  have hold : ∀ p, ∀ f ∈ s.frames p, (A.append (s.maxFrame + 1)).frameAge f = A.frameAge f := by
    intro p f hf
    have := (h.log.bounded p f hf).2
    exact Function.update_of_ne (by omega) _ _
  have hnew : (A.append (s.maxFrame + 1)).frameAge (s.maxFrame + 1) = A.clock + 1 :=
    Function.update_self ..
  have hmem : ∀ p, ∀ f ∈ (w.appendFrame s page content dbSize).frames p,
      f ∈ s.frames p ∨ f = s.maxFrame + 1 := by
    intro p f hf
    by_cases hp : p = page
    · subst hp
      rw [frames_appendFrame_same] at hf
      simpa using hf
    · rw [frames_appendFrame_of_ne _ _ _ _ _ hp] at hf
      exact .inl hf
  refine ⟨h.log.appendFrame w page content dbSize,?_,?_,?_,?_⟩
  · intro p f hf
    rcases hmem p f hf with hf | rfl
    · rw [hold p f hf]
      exact Nat.le_succ_of_le (h.frame_le p f hf)
    · exact hnew.le
  · exact fun p => Nat.le_succ_of_le (h.db_le p)
  · intro p f hf
    rcases hmem p f hf with hf | rfl
    · rw [hold p f hf]
      exact h.db_lt p f hf
    · rw [hnew]
      exact Nat.lt_succ_of_le (h.db_le p)
  · intro p f hf g hg hlt
    rcases hmem p f hf with hf | rfl
    · rcases hmem p g hg with hg | rfl
      · rw [hold p f hf,hold p g hg]
        exact h.mono p f hf g hg hlt
      · rw [hold p f hf,hnew]
        exact Nat.lt_succ_of_le (h.frame_le p f hf)
    · rcases hmem p g hg with hg | rfl
      · have := (h.log.bounded p g hg).2
        omega
      · exact absurd hlt (lt_irrefl _)

theorem appendAll (w : WalFile) (dbSize : UInt32) (dirty : List (Nat × PageBytes)) :
    AgeInv (w.appendAll dbSize s dirty) (A.appendMany s.maxFrame dirty.length) := by
  induction dirty generalizing s A with
  | nil => exact h
  | cons page rest ih =>
    have := ih (h.appendFrame w page.1 page.2 dbSize)
    rw [appendFrame_maxFrame] at this
    exact this

omit h in
theorem copiedFrame_eq (h : s.LogWf) (w : WalFile) :
    w.copiedFrame s p = newestWithin w.minFrame (safeFrame s) (s.frames p) := by
  unfold WalFile.copiedFrame
  split
  · rfl
  · rename_i hp
    have hnil : s.frames p = [] := by
      by_contra hne
      exact hp (h.mem_pages.mpr hne)
    rw [hnil,newestWithin_nil]

theorem checkpoint (w : WalFile) (db : DbFile) (mode : CheckpointMode) (random : UInt32) :
    AgeInv (w.checkpoint s db mode random).2.1 (A.checkpoint w s) := by
  have hmem : ∀ p, ∀ f ∈ (w.checkpoint s db mode random).2.1.frames p, f ∈ s.frames p ∧ safeFrame s < f := by
    intro p f hf
    rw [checkpoint_frames h.log] at hf
    split at hf
    · cases hf
    · simpa using List.mem_filter.mp hf
  have hco : ∀ p f, w.copiedFrame s p = some f → f ∈ s.frames p ∧ f ≤ safeFrame s := by
    intro p f hf
    rw [copiedFrame_eq h.log] at hf
    obtain ⟨hm,-,hle⟩ := newestWithin_mem hf
    exact ⟨hm,hle⟩
  refine ⟨h.log.checkpoint,?_,?_,?_,?_⟩
  · exact fun p f hf => h.frame_le p f (hmem p f hf).1
  · intro p
    simp only [Ages.checkpoint]
    split
    · rename_i f hf
      exact h.frame_le p f (hco p f hf).1
    · exact h.db_le p
  · intro p g hg
    obtain ⟨hg,hsa⟩ := hmem p g hg
    simp only [Ages.checkpoint]
    split
    · rename_i f hf
      obtain ⟨hf,hle⟩ := hco p f hf
      exact h.mono p f hf g hg (by omega)
    · exact h.db_lt p g hg
  · exact fun p f hf g hg => h.mono p f (hmem p f hf).1 g (hmem p g hg).1

end

/-- Every call keeps ages in order, whoever makes it and whatever state it is in. -/
theorem step (h : AgeInv X.1.shared X.2) (hs : agedStep X op = some X') : AgeInv X'.1.shared X'.2 := by
  obtain ⟨S,A⟩ := X
  simp only [agedStep,Option.map_eq_some_iff] at hs
  obtain ⟨S',hs,rfl⟩ := hs
  cases op with
  | beginReadTx c =>
    obtain ⟨locks,hlo⟩ := beginReadTx_shared (S.conns c).wal
    simp only [System.step] at hs
    split at hs
    · cases hs
    · split at hs <;> cases hs <;> rename_i hb <;> rw [hb] at hlo <;> subst hlo <;>
        exact h.congr rfl rfl rfl
  | endReadTx c =>
    obtain ⟨-,-,rfl⟩ := step_endReadTx hs
    exact h.congr rfl rfl rfl
  | beginWriteTx c =>
    obtain ⟨-,-,rfl | ⟨-,rfl⟩⟩ := step_beginWriteTx hs
    · exact h
    · exact h.congr rfl rfl rfl
  | appendFrame c page content dbSize =>
    obtain ⟨-,-,rfl⟩ := step_appendFrame hs
    exact h.appendFrame _ page content dbSize
  | endWriteTx c =>
    obtain ⟨-,rfl⟩ := step_endWriteTx hs
    exact h.congr rfl rfl rfl
  | checkpoint c mode random =>
    cases hs
    exact h.checkpoint _ S.db mode random
  | rollback c =>
    cases hs
    exact h.rollbackToFrame _ _
  | giveUp c =>
    obtain ⟨-,-,rfl⟩ := step_giveUp hs
    exact h
  | openSavepoint c dirty dbSize =>
    obtain ⟨-,-,rfl⟩ := step_openSavepoint hs
    exact h.appendAll _ dbSize dirty
  | rollbackToSavepoint c index =>
    obtain ⟨sp,-,rfl⟩ := step_rollbackToSavepoint hs
    exact h.rollbackToFrame _ _
  | releaseSavepoint c index =>
    obtain ⟨-,rfl⟩ := step_releaseSavepoint hs
    exact h

theorem run {ps : Nat} {S0 : System n} {ops : List (Op n)} {X : System n × Ages}
    (h0 : S0.Opened ps) (hrun : Lib.run agedStep (S0,.opened S0) ops = some X) : AgeInv X.1.shared X.2 :=
  run_invariant_of_step (I := fun X : System n × Ages => AgeInv X.1.shared X.2)
    (fun _ _ _ h hs => h.step hs) (opened h0) hrun

/-- A checkpoint forgets exactly the frames up to its safe frame. -/
theorem forgotten_iff (h : s.LogWf) {w : WalFile} {db : DbFile} (hf : f ∈ s.frames p) :
    f ∉ (w.checkpoint s db mode random).2.1.frames p ↔ f ≤ safeFrame s := by
  rw [checkpoint_frames h]
  split
  · rename_i hfu
    simpa [← hfu] using (h.bounded p f hf).2
  · simp [hf]

theorem nothingLost_unfold : NothingLost (S,A) c mode random ↔ ∀ p, ∀ f ∈ S.shared.frames p,
      f ∉ ((S.conns c).wal.checkpoint S.shared S.db mode random).2.1.frames p →
        A.frameAge f ≤ (A.checkpoint (S.conns c).wal S.shared).dbAge p := by
  constructor
  · exact fun h => h _ _ rfl
  · intro h S' A' hs
    cases hs
    exact h

theorem newestWithin_above (hs : fs.Pairwise (· < ·)) (h : ∀ f, newestWithin 0 m fs = some f → lo ≤ f) :
    newestWithin lo m fs = newestWithin 0 m fs := by
  cases hn : newestWithin 0 m fs with
  | none => exact newestWithin_eq_none.mpr fun f hf _ => newestWithin_eq_none.mp hn f hf (Nat.zero_le f)
  | some g =>
    obtain ⟨hg,-,hle,hmax⟩ := (newestWithin_eq_some hs).mp hn
    exact (newestWithin_eq_some hs).mpr ⟨hg,h g hn,hle,fun k hk _ => hmax k hk (Nat.zero_le k)⟩

/-- In a state with its ages in order, nothing is lost exactly when the newest frame the
checkpoint forgets of each page is within the range its connection copies. -/
theorem nothingLost_iff (h : AgeInv S.shared A) :
    NothingLost (S,A) c mode random ↔ ∀ p f, newestWithin 0 (safeFrame S.shared) (S.shared.frames p) = some f →
        (S.conns c).wal.minFrame ≤ f := by
  rw [nothingLost_unfold]
  constructor
  · intro hke p f hn
    obtain ⟨hf,-,hle,hmax⟩ := (newestWithin_eq_some (h.log.ascending p)).mp hn
    have hage := hke p f hf ((forgotten_iff h.log hf).mpr hle)
    by_contra hlt
    -- All frames up to the safe frame are older than the range, so none is copied.
    have hnone : (S.conns c).wal.copiedFrame S.shared p = none := by
      rw [copiedFrame_eq h.log,newestWithin_eq_none]
      intro g hg hmin
      by_contra hgle
      have := hmax g hg (Nat.zero_le g) (by omega)
      omega
    simp only [Ages.checkpoint,hnone] at hage
    have := h.db_lt p f hf
    omega
  · intro hmin p f hf hgo
    have hle := (forgotten_iff h.log hf).mp hgo
    cases hn : newestWithin 0 (safeFrame S.shared) (S.shared.frames p) with
    | none =>
      have := newestWithin_eq_none.mp hn f hf (Nat.zero_le f)
      omega
    | some g =>
      obtain ⟨hg,-,hgle,hmax⟩ := (newestWithin_eq_some (h.log.ascending p)).mp hn
      have hco : (S.conns c).wal.copiedFrame S.shared p = some g := by
        rw [copiedFrame_eq h.log,newestWithin_above (h.log.ascending p) (hmin p),hn]
      simp only [Ages.checkpoint,hco]
      rcases Nat.lt_or_eq_of_le (hmax f hf (Nat.zero_le f) hle) with hlt | rfl
      · exact (h.mono p f hf g hg hlt).le
      · exact le_rfl

/-- Where nothing is lost, a reader of the database file finds what the log showed at the safe
frame. -/
theorem db_of_nothingLost (h : AgeInv S.shared A) (hn : NothingLost (S,A) c mode random)
    (hs : S.step (.checkpoint c mode random) = some S') (p : Nat) :
    S'.db p = viewAt (S.conns c).wal.pageSize S.shared S.db (safeFrame S.shared) p := by
  obtain ⟨-,-,hdb⟩ := step_checkpoint hs
  rw [hdb,checkpoint_db h.log,newestWithin_above (h.log.ascending p) (h.nothingLost_iff.mp hn p)]
  rfl

end AgeInv

/-- Whether a checkpoint by `c` forgets frame `f` of page `p` with an older image in the
database file. -/
def losesFrame {n : Nat} (X : System n × Ages) (c : Fin n) (mode : CheckpointMode)
    (random : UInt32) (p f : Nat) : Bool :=
  match agedStep X (.checkpoint c mode random) with
  | some (S', A') =>
    decide (f ∈ X.1.shared.frames p) && !decide (f ∈ S'.shared.frames p) &&
      decide (A'.dbAge p < X.2.frameAge f)
  | none => false

theorem not_nothingLost (h : losesFrame X c mode random p f = true) : ¬ NothingLost X c mode random := by
  intro hke
  unfold losesFrame at h
  split at h
  · rename_i S' A' hs
    simp only [Bool.and_eq_true,Bool.not_eq_eq_eq_not,Bool.not_true,decide_eq_true_eq,
      decide_eq_false_iff_not] at h
    have := hke S' A' hs p f h.1.1 h.1.2
    omega
  · cases h

/-- Over every run: a checkpoint loses no frame exactly when, for each page, the newest frame
it is about to forget is not older than the range recorded by its connection's last
`begin_read_tx`. A range recorded before another connection restarted the log can be. -/
theorem checkpoint_loses_nothing_iff {n ps : Nat} {S₀ S : System n} {A : Ages}
    {ops : List (Op n)} (h₀ : S₀.Opened ps)
    (hrun : run agedStep (S₀, .opened S₀) ops = some (S, A)) (c : Fin n)
    (mode : CheckpointMode) (random : UInt32) : NothingLost (S, A) c mode random ↔
      ∀ p f, newestWithin 0 (safeFrame S.shared) (S.shared.frames p) = some f → (S.conns c).wal.minFrame ≤ f :=
  AgeInv.nothingLost_iff (AgeInv.run h₀ hrun)

/-- A connection that checkpoints what it just committed loses nothing. -/
theorem own_commit_loses_nothing : ∃ S A, run agedStep (twoConnections, .opened twoConnections)
        (writeOnce 0 1 blankPage ++ [.endReadTx 0]) = some (S, A) ∧
      NothingLost (S, A) 0 .passive 0 := by
  have hch : (run agedStep (twoConnections, .opened twoConnections)
      (writeOnce 0 1 blankPage ++ [.endReadTx 0])).any (fun X => (X.1.conns 0).wal.minFrame == 1) = true := by
    decide +kernel
  obtain ⟨⟨S,A⟩,hrun,hmin⟩ := exists_of_run_any hch
  have hop : twoConnections.Opened 512 := opened_fresh 0 0 _
  refine ⟨S,A,hrun,(checkpoint_loses_nothing_iff hop hrun 0 .passive 0).mpr ?_⟩
  intro p f hn
  have hfr := (AgeInv.run hop hrun).log.bounded p f (newestWithin_mem hn).1
  have hmin : (S.conns 0).wal.minFrame = 1 := by simpa using hmin
  omega

/-- Connection 0 reads once while one frame is backfilled; connection 1 then restarts the log
and commits page 1 again as frame 1. -/
def staleRangeRun : List (Op 2) :=
  writeOnce 1 1 blankPage ++ [.endReadTx 1] ++ writeOnce 1 2 blankPage ++
    [.checkpoint 1 .passive 0, .beginReadTx 0, .endReadTx 0, .endReadTx 1, .checkpoint 1 .passive 0] ++
    writeOnce 1 1 blankPage ++ [.endReadTx 1]

/-- After it, a checkpoint by connection 0 copies nothing and forgets the committed frame. -/
theorem stale_range_loses_frame :
    ∃ X, run agedStep (twoConnections, .opened twoConnections) staleRangeRun = some X ∧
      ¬ NothingLost X 0 .passive 0 := by
  have hch : (run agedStep (twoConnections, .opened twoConnections) staleRangeRun).any
      (fun X => losesFrame X 0 .passive 0 1 1) = true := by
    decide +kernel
  obtain ⟨X,hX,hl⟩ := exists_of_run_any hch
  exact ⟨X,hX,not_nothingLost hl⟩

end OxiSql.Wal
