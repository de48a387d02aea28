import OxiSql.Wal.Marks

namespace OxiSql.Wal
open Lib List Wal.System System.MarkInv

/-- The uncommitted frames of the log, each with the connection that appended it. -/
abbrev Uncommitted (n : Nat) := List (Fin n × Nat)

namespace Uncommitted

/-- How a call changes the uncommitted frames. A frame that leaves the frame cache, because it
was rolled back or backfilled, is no longer one. -/
def observe (S : System n) (U : Uncommitted n) : Op n → Uncommitted n
  | .appendFrame c _ _ _ => (c, S.shared.maxFrame + 1) :: U
  | .openSavepoint c dirty _ =>
    (List.range dirty.length).map (fun k => (c, S.shared.maxFrame + 1 + k)) ++ U
  | .endWriteTx c => U.filter fun e => e.1 ≠ c
  | .rollback c => U.filter fun e => e.1 ≠ c ∧ e.2 ≤ (S.conns c).wal.txnStartMaxFrame
  | .rollbackToSavepoint c index =>
    match (S.conns c).savepoints[index]? with
    | some sp => U.filter fun e => e.2 ≤ sp.1
    | none => U
  | .checkpoint _ _ _ =>
    if S.shared.maxFrame = safeFrame S.shared then [] else U.filter fun e => safeFrame S.shared < e.2
  | _ => U

end Uncommitted

def dirtyStep {n : Nat} (X : System n × Uncommitted n) (op : Op n) : Option (System n × Uncommitted n) :=
  (X.1.step op).map fun S' => (S', X.2.observe X.1 op)

/-- A call that exposes no uncommitted frame: a new reader's boundary is below every frame
another connection has not committed, and a checkpoint copies none. -/
def CleanStep {n : Nat} (X : System n × Uncommitted n) : Op n → Prop
  | .beginReadTx c =>
    ∀ S' ∈ X.1.step (.beginReadTx c), (S'.conns c).reading = true →
      ∀ e ∈ X.2, e.1 ≠ c → (S'.conns c).wal.maxFrame < e.2
  | .checkpoint c _ _ =>
    ∀ p f, (X.1.conns c).wal.copiedFrame X.1.shared p = some f → ∀ e ∈ X.2, e.2 ≠ f
  | _ => True

/-- Uncommitted frames belong to the writer and lie beyond the last committed frame. -/
structure DirtyInv {n : Nat} (S : System n) (U : Uncommitted n) (committed : Nat) : Prop where
  marks : S.MarkInv committed
  owner : ∀ e ∈ U, (S.conns e.1).writing = true
  beyond : ∀ e ∈ U, committed < e.2 ∧ e.2 ≤ S.shared.maxFrame

namespace DirtyInv
variable {U : Uncommitted n}

theorem opened (h : S.Opened ps) : DirtyInv S [] S.shared.maxFrame :=
  ⟨.opened h,nofun,nofun⟩

theorem copiedFrame_le {w : WalFile} (h : w.copiedFrame s p = some f) : f ≤ safeFrame s := by
  unfold WalFile.copiedFrame at h
  split at h
  · exact (newestWithin_mem h).2.2
  · cases h

variable (h : DirtyInv S U committed)
include h

/-- With uncommitted frames in their place, an allowed call is clean. -/
theorem clean (hsa : S.MarkSafe op) : CleanStep (S,U) op := by
  cases op with
  | beginReadTx c =>
    have hmax := h.marks.committed_eq_of_noUncommitted hsa
    intro S' _ _ e he _
    have := h.beyond e he
    omega
  | checkpoint c mode random =>
    intro p f hf e he
    have hle := (copiedFrame_le hf).trans h.marks.safeFrame_le_committed
    have := (h.beyond e he).1
    omega
  | _ => trivial

/-- Nobody but the writer owns uncommitted frames. -/
theorem owner_eq (hc : (S.conns c).writing = true) (he : e ∈ U) : e.1 = c :=
  h.marks.one_writer e.1 c (h.owner e he) hc

theorem step (hsa : S.MarkSafe op) (hs : S.step op = some S') :
    DirtyInv S' (U.observe S op) (nextCommitted S committed op) := by
  have hma := h.marks.step hsa hs
  have how {s c k} (hk : k.writing = (S.conns c).writing) : ∀ e ∈ U,
      (((S.setShared s).setConn c k).conns e.1).writing = true :=
    fun e he => (writing_setConn hk e.1).trans (h.owner e he)
  cases op with
  | beginReadTx c =>
    obtain ⟨hr,rfl | ⟨i,mark,-,rfl⟩⟩ := step_beginReadTx h.marks.table hs
    · exact h
    · exact ⟨hma,how rfl,h.beyond⟩
  | endReadTx c =>
    obtain ⟨-,-,rfl⟩ := step_endReadTx hs
    exact ⟨hma,how rfl,h.beyond⟩
  | beginWriteTx c =>
    obtain ⟨-,hw,rfl | ⟨-,rfl⟩⟩ := step_beginWriteTx hs
    · exact h
    · refine ⟨hma,fun e he => ?_,h.beyond⟩
      have how := h.owner e he
      have hne : e.1 ≠ c := by
        rintro heq
        rw [heq] at how
        exact absurd (hw.symm.trans how) nofun
      rw [setConn_conns_of_ne hne]
      exact how
  | appendFrame c page content dbSize =>
    obtain ⟨hw,-,rfl⟩ := step_appendFrame hs
    have hle := h.marks.committed_le
    refine ⟨hma,?_,?_⟩
    · intro e he
      rcases mem_cons.mp he with rfl | he
      · exact hw
      · exact h.owner e he
    · intro e he
      simp only [setShared_shared,appendFrame_maxFrame,nextCommitted]
      rcases mem_cons.mp he with rfl | he
      · omega
      · have := h.beyond e he
        omega
  | endWriteTx c =>
    obtain ⟨hw,rfl⟩ := step_endWriteTx hs
    have hnone : ∀ e ∈ U.filter fun e => e.1 ≠ c, False := by
      intro e he
      obtain ⟨he,hne⟩ := mem_filter.mp he
      exact absurd (h.owner_eq hw he) (by simpa using hne)
    exact ⟨hma,fun e he => (hnone e he).elim,fun e he => (hnone e he).elim⟩
  | checkpoint c mode random =>
    obtain ⟨hco,hsh,-⟩ := step_checkpoint hs
    have hmem : ∀ e ∈ U.observe S (.checkpoint c mode random),
        S.shared.maxFrame ≠ safeFrame S.shared ∧ e ∈ U := by
      intro e he
      simp only [Uncommitted.observe] at he
      split at he
      · cases he
      · exact ⟨‹_›,(mem_filter.mp he).1⟩
    refine ⟨hma,fun e he => ?_,fun e he => ?_⟩
    · simp only [hco]
      exact h.owner e (hmem e he).2
    · obtain ⟨hpa,he⟩ := hmem e he
      have hmax : S'.shared.maxFrame = S.shared.maxFrame := by
        rw [hsh,checkpoint_ends.1,if_neg hpa]
      simp only [nextCommitted,hmax,if_neg hpa]
      exact h.beyond e he
  | rollback c =>
    have hnone : ∀ e ∈ U.filter fun e => e.1 ≠ c ∧ e.2 ≤ (S.conns c).wal.txnStartMaxFrame, False := by
      intro e he
      obtain ⟨he,hne⟩ := mem_filter.mp he
      simp only [decide_eq_true_eq] at hne
      exact hne.1 (h.owner_eq hsa he)
    exact ⟨hma,fun e he => (hnone e he).elim,fun e he => (hnone e he).elim⟩
  | giveUp c =>
    obtain ⟨-,-,rfl⟩ := step_giveUp hs
    exact ⟨hma,how rfl,h.beyond⟩
  | openSavepoint c dirty dbSize =>
    obtain ⟨-,-,rfl⟩ := step_openSavepoint hs
    have hle := h.marks.committed_le
    refine ⟨hma,?_,?_⟩
    · intro e he
      refine (writing_setConn (by rfl) e.1).trans ?_
      rcases mem_append.mp he with he | he
      · obtain ⟨k,-,rfl⟩ := mem_map.mp he
        exact hsa.1
      · exact h.owner e he
    · intro e he
      simp only [setConn_shared,setShared_shared,appendAll_maxFrame, nextCommitted]
      rcases mem_append.mp he with he | he
      · obtain ⟨k,hk,rfl⟩ := mem_map.mp he
        have := mem_range.mp hk
        omega
      · have := h.beyond e he
        omega
  | rollbackToSavepoint c index =>
    obtain ⟨sp,hsp,rfl⟩ := step_rollbackToSavepoint hs
    refine ⟨hma,?_,?_⟩
    · intro e he
      simp only [Uncommitted.observe,hsp] at he
      exact (writing_setConn (by rfl) e.1).trans (h.owner e (mem_filter.mp he).1)
    · intro e he
      simp only [Uncommitted.observe,hsp] at he
      obtain ⟨he,hle⟩ := mem_filter.mp he
      have hle : e.2 ≤ sp.1 := by simpa using hle
      exact ⟨(h.beyond e he).1,hle⟩
  | releaseSavepoint c index =>
    obtain ⟨-,rfl⟩ := step_releaseSavepoint hs
    exact ⟨hma,how rfl,h.beyond⟩

end DirtyInv

/-- In every run whose calls are all allowed, nobody reads or backfills an uncommitted frame. -/
theorem clean_of_markSafe {n ps : Nat} {S₀ : System n} {ops : List (Op n)} (h₀ : S₀.Opened ps)
    (hsafe : Meets dirtyStep (fun X op => X.1.MarkSafe op) (S₀, []) ops) :
    Meets dirtyStep CleanStep (S₀, []) ops := by
  refine meets_of_invariant (I := fun X => ∃ committed, DirtyInv X.1 X.2 committed) ?_ ?_
    ⟨_,DirtyInv.opened h₀⟩ hsafe
  · rintro ⟨S,U⟩ op ⟨committed,h⟩ hop
    exact h.clean hop
  · rintro ⟨S,U⟩ op X' ⟨committed,h⟩ hop hs
    simp only [dirtyStep,Option.map_eq_some_iff] at hs
    obtain ⟨S',hs,rfl⟩ := hs
    exact ⟨_,h.step hop hs⟩

/-- Connection 1 reads frame 1 while connection 0 commits another one and checkpoints. -/
theorem reader_beside_writer_clean : Meets dirtyStep CleanStep (twoConnections, [])
      (writeOnce 0 1 blankPage ++ [.endReadTx 0, .beginReadTx 1] ++ writeOnce 0 2 blankPage ++
        [.checkpoint 0 .passive 0, .endReadTx 0, .endReadTx 1]) :=
  clean_of_markSafe (opened_fresh 0 0 _) (by decide +kernel)

/-- Whether `begin_read_tx` by `c` adopts a boundary that covers a frame of someone else. -/
def readsDirty {n : Nat} (X : System n × Uncommitted n) (c : Fin n) : Bool :=
  (X.1.step (.beginReadTx c)).any fun S' => (S'.conns c).reading &&
    X.2.any fun e => e.1 != c && decide (e.2 ≤ (S'.conns c).wal.maxFrame)

theorem not_clean_of_readsDirty (h : readsDirty X c = true) : ¬ CleanStep X (.beginReadTx c) := by
  intro hcl
  unfold readsDirty at h
  cases hs : X.1.step (.beginReadTx c) with
  | none => simp [hs] at h
  | some S' =>
    simp only [hs,Option.any_some,Bool.and_eq_true,any_eq_true,bne_iff_ne,decide_eq_true_eq] at h
    obtain ⟨hr,e,he,hne,hle⟩ := h
    have := hcl S' hs hr e he hne
    omega

/-- Whether a checkpoint by `c` copies an uncommitted frame of page `p`. -/
def copiesDirty {n : Nat} (X : System n × Uncommitted n) (c : Fin n) (p : Nat) : Bool :=
  ((X.1.conns c).wal.copiedFrame X.1.shared p).any fun f => X.2.any fun e => e.2 == f

theorem not_clean_of_copiesDirty (h : copiesDirty X c p = true) :
    ¬ CleanStep X (.checkpoint c mode random) := by
  intro hcl
  unfold copiesDirty at h
  cases hf : (X.1.conns c).wal.copiedFrame X.1.shared p with
  | none => simp [hf] at h
  | some f =>
    simp only [hf,Option.any_some,any_eq_true,beq_iff_eq] at h
    obtain ⟨e,he,heq⟩ := h
    exact hcl p f hf e he heq

/-- Connection 0 has appended a frame and not committed it. -/
def openWriterRun : List (Op 2) :=
  [.beginReadTx 0, .beginWriteTx 0, .appendFrame 0 1 blankPage 2]

/-- Connection 0 reads at the end of the log, connection 1 restarts the log under it, and
connection 0 then appends a frame at or below its own old mark. -/
def restartUnderReaderRun : List (Op 2) :=
  writeOnce 1 1 blankPage ++ [.endReadTx 1, .beginReadTx 0, .checkpoint 1 .passive 0,
    .beginWriteTx 0, .appendFrame 0 1 blankPage 2]

/-- A reader that starts beside an open writer adopts its frame, and a checkpoint after a
restart under the writer copies it. -/
theorem uncommitted_frame_exposed :
    ¬ Meets dirtyStep CleanStep (twoConnections, []) (openWriterRun ++ [.beginReadTx 1]) ∧
    ¬ Meets dirtyStep CleanStep (twoConnections, [])
      (restartUnderReaderRun ++ [.checkpoint 1 .passive 0]) := by
  constructor
  · have hch : (run dirtyStep (twoConnections, []) openWriterRun).any (fun X => readsDirty X 1) = true := by
      decide +kernel
    obtain ⟨X,hX,hd⟩ := exists_of_run_any hch
    exact not_meets_of_run hX (not_clean_of_readsDirty hd)
  · have hch : (run dirtyStep (twoConnections, []) restartUnderReaderRun).any
        (fun X => copiesDirty X 1 1) = true := by
      decide +kernel
    obtain ⟨X,hX,hd⟩ := exists_of_run_any hch
    exact not_meets_of_run hX (not_clean_of_copiesDirty hd)

end OxiSql.Wal
