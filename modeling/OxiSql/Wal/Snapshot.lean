import OxiSql.Wal.Marks

namespace OxiSql.Wal
open Lib List Function Wal.System

/-- The database as its transactions wrote it: the committed pages, the pages the open write
transaction has written since (newest first), and the committed pages each reader started
from. -/
structure Ledger (n : Nat) where
  committed : Nat → PageBytes
  pending : List (Nat × PageBytes)
  snapshot : Fin n → Nat → PageBytes

namespace Ledger

def overlay (pending : List (Nat × PageBytes)) (base : Nat → PageBytes) (page : Nat) : PageBytes :=
  ((pending.find? fun w => w.1 = page).map Prod.snd).getD (base page)

def opened (pageSize : Nat) (S : System n) : Ledger n :=
  ⟨viewAt pageSize S.shared S.db S.shared.maxFrame, [], fun _ _ => []⟩

/-- How a call changes what should be there; `S'` tells whether `begin_read_tx` succeeded. -/
def observe (S' : System n) (L : Ledger n) : Op n → Ledger n
  | .beginReadTx c =>
    if (S'.conns c).reading then { L with snapshot := Function.update L.snapshot c L.committed }
    else L
  | .appendFrame _ page content _ => { L with pending := (page, content) :: L.pending }
  | .openSavepoint _ dirty _ => { L with pending := dirty.reverse ++ L.pending }
  | .endWriteTx _ => { L with committed := overlay L.pending L.committed, pending := [] }
  | .rollback _ => { L with pending := [] }
  | _ => L

theorem overlay_cons (pending : List (Nat × PageBytes)) : overlay ((page,content) :: pending) base p =
      if p = page then content else overlay pending base p := by
  by_cases h : p = page
  · simp [overlay,h]
  · simp [overlay,h,Ne.symm h]

end Ledger

def ledgerStep {n : Nat} (X : System n × Ledger n) (op : Op n) : Option (System n × Ledger n) :=
  (X.1.step op).map fun S' => (S', X.2.observe S' op)

/-- Every reader reads the committed pages it started from. -/
def SnapshotStable {n : Nat} (X : System n × Ledger n) : Prop :=
  ∀ c, (X.1.conns c).reading = true →
    ∀ p, (X.1.conns c).wal.readPage X.1.shared X.1.db p = X.2.snapshot c p

/-- The calls under which snapshots stay stable: no savepoint (it moves the read boundary of
its own connection), a reader starts only over committed frames and where a slot can carry the
current mark, a checkpoint restarts no log that is being read and copies from the first frame
that is not backfilled on. -/
def SnapshotSafe {n : Nat} (S : System n) (op : Op n) : Prop :=
  S.MarkSafe op ∧ match op with
  | .beginReadTx _ =>
    (∃ i, ¬ Held S.shared.readLocks i) ∨ ∃ i, (S.shared.readLocks i).value = S.shared.maxFrame
  | .checkpoint c _ _ => (S.conns c).wal.minFrame ≤ S.shared.nbackfills + 1
  | .openSavepoint _ _ _ | .rollbackToSavepoint _ _ | .releaseSavepoint _ _ => False
  | _ => True

instance {n : Nat} (S : System n) (op : Op n) : Decidable (SnapshotSafe S op) :=
  haveI : Decidable (match op with
    | .beginReadTx _ => (∃ i, ¬ Held S.shared.readLocks i) ∨
        ∃ i, (S.shared.readLocks i).value = S.shared.maxFrame
    | .checkpoint c _ _ => (S.conns c).wal.minFrame ≤ S.shared.nbackfills + 1
    | .openSavepoint _ _ _ | .rollbackToSavepoint _ _ | .releaseSavepoint _ _ => False
    | _ => True) := by
    cases op <;> infer_instance
  instDecidableAnd

/-- The log shows every reader its snapshot, the committed pages at the last committed frame
and the pending ones at its end. -/
structure SnapInv {n : Nat} (ps : Nat) (S : System n) (L : Ledger n) (committed : Nat) : Prop where
  marks : S.MarkInv committed
  log : S.shared.LogWf
  pageSize : ∀ c, (S.conns c).wal.pageSize = ps
  boundary : ∀ c, (S.conns c).reading = true →
    (S.shared.readLocks (S.conns c).wal.maxFrameReadLockIndex).value = (S.conns c).wal.maxFrame
  snapshot : ∀ c, (S.conns c).reading = true →
    ∀ p, viewAt ps S.shared S.db (S.conns c).wal.maxFrame p = L.snapshot c p
  base : ∀ p, viewAt ps S.shared S.db committed p = L.committed p
  tip : ∀ p, viewAt ps S.shared S.db S.shared.maxFrame p = Ledger.overlay L.pending L.committed p
  backfilled : ∀ p, ∀ f ∈ S.shared.frames p, S.shared.nbackfills < f
  nbackfills_le : S.shared.nbackfills ≤ committed

namespace SnapInv
variable {L : Ledger n}

theorem opened (h : S.Opened ps) : SnapInv ps S (.opened ps S) S.shared.maxFrame where
  marks := .opened h
  log := h.log
  pageSize := fun c => by rw [h.conns c]; rfl
  boundary := fun c hc => by rw [h.conns c] at hc; exact absurd hc nofun
  snapshot := fun c hc => by rw [h.conns c] at hc; exact absurd hc nofun
  base := fun _ => rfl
  tip := fun _ => rfl
  backfilled := fun p f hf => by
    rw [h.nbackfills]
    exact (h.log.bounded p f hf).1
  nbackfills_le := by
    rw [h.nbackfills]
    exact Nat.zero_le _

/-- The invariant says what is claimed of readers. -/
theorem stable (h : SnapInv ps S L committed) : SnapshotStable (S,L) := by
  intro c hc p
  rw [readPage_eq,h.pageSize]
  exact h.snapshot c hc p

theorem pageSize_setConn (h : SnapInv ps S L committed) (hk : k.wal.pageSize = ps) (d : Fin n) :
    ((S.setConn c k).conns d).wal.pageSize = ps :=
  forall_setConn (P := fun _ k => k.wal.pageSize = ps) hk (fun d _ => h.pageSize d) d

/-- Reader boundaries are at or below the last committed frame. -/
theorem boundary_le (h : SnapInv ps S L committed) (hc : (S.conns c).reading = true) :
    (S.conns c).wal.maxFrame ≤ committed := by
  rw [← h.boundary c hc]
  exact (h.marks.conns c).mark hc

variable {S' : System n}

theorem beginReadTx (h : SnapInv ps S L committed)
    (hsafe : SnapshotSafe S (.beginReadTx c)) (hs : S.step (.beginReadTx c) = some S') :
    SnapInv ps S' (L.observe S' (.beginReadTx c)) committed := by
  have hma := h.marks.step hsafe.1 hs
  have hmax : committed = S.shared.maxFrame := h.marks.committed_eq_of_noUncommitted hsafe.1
  obtain ⟨hid,rfl | ⟨i,mark,hm,rfl⟩⟩ := step_beginReadTx h.marks.table hs
  · simp only [Ledger.observe,hid]
    exact h
  · have hu : asU32 S.shared.maxFrame = S.shared.maxFrame :=
      asU32_of_lt (h.marks.bound.trans (by decide))
    have hcur : mark = S.shared.maxFrame := by
      cases hm with
      | moved _ hcur => rw [hcur,hu]
      | joined _ _ hra hla hbe =>
        by_contra hne
        have hhe := hbe (by omega)
        rcases hsafe.2 with ⟨j,hj⟩ | ⟨j,hj⟩
        · exact hj (hhe j)
        · have := hla j (by omega)
          omega
    have hsl : ∀ d, d ≠ c → (S.conns d).reading = true → (S.conns d).wal.maxFrameReadLockIndex = i →
        (S.shared.readLocks i).value = mark := by
      intro d _ hd hi
      cases hm with
      | moved hfr _ => exact absurd hfr (hi ▸ h.marks.held hd)
      | joined hv _ _ _ _ => exact hv
    simp only [Ledger.observe,setConn_conns_same,reader]
    refine ⟨hma,⟨h.log.ascending,h.log.bounded,h.log.no_empty,h.log.listed⟩,?_,?_,?_,
      h.base,h.tip,h.backfilled,h.nbackfills_le⟩
    · exact h.pageSize_setConn (h.pageSize c)
    · refine forall_setConn (P := fun _ k => k.reading = true →
        (acquire S.shared.readLocks i mark k.wal.maxFrameReadLockIndex).value = k.wal.maxFrame)
        (fun _ => by rw [acquire_same]) ?_
      intro d hd hr
      change (acquire S.shared.readLocks i mark (S.conns d).wal.maxFrameReadLockIndex).value = _
      by_cases hj : (S.conns d).wal.maxFrameReadLockIndex = i
      · rw [hj,acquire_same,← hsl d hd hr hj,← hj]
        exact h.boundary d hr
      · rw [acquire_of_ne hj]
        exact h.boundary d hr
    · refine forall_setConn (P := fun d k => k.reading = true →
        ∀ p, viewAt ps S.shared S.db k.wal.maxFrame p = Function.update L.snapshot c L.committed d p) ?_ ?_
      · intro _ p
        rw [update_self,← h.base p,hmax,← hcur]
      · intro d hd hr p
        rw [update_of_ne hd]
        exact h.snapshot d hr p

/-- A connection that reads after a call read before it, at the same mark. -/
def KeepsReading (locks locks' : ReadLocks) (k k' : Conn) : Prop :=
  k'.reading = true → k.reading = true ∧ k'.wal.maxFrame = k.wal.maxFrame ∧
    (locks' k'.wal.maxFrameReadLockIndex).value = (locks k.wal.maxFrameReadLockIndex).value

section

variable (h : SnapInv ps S L committed)
include h

/-- A call that changes only locks, transaction flags or other fields no view depends on. -/
theorem same_views (hma : S'.MarkInv committed) (hf : S'.shared.frameCache = S.shared.frameCache)
    (hp : S'.shared.pagesInFrames = S.shared.pagesInFrames)
    (hm : S'.shared.maxFrame = S.shared.maxFrame) (hfi : S'.shared.file = S.shared.file)
    (hn : S'.shared.nbackfills = S.shared.nbackfills) (hdb : S'.db = S.db)
    (hsi : ∀ d, (S'.conns d).wal.pageSize = ps)
    (hre : ∀ d, KeepsReading S.shared.readLocks S'.shared.readLocks (S.conns d) (S'.conns d)) :
    SnapInv ps S' L committed := by
  have hfr : S'.shared.frames = S.shared.frames := by
    funext p
    simp [WalFileShared.frames,hf]
  have hvi : ∀ m p, viewAt ps S'.shared S'.db m p = viewAt ps S.shared S.db m p := by
    intro m p
    refine viewAt_congr (by rw [hfr]) (fun f _ => ?_) (by rw [hdb])
    rw [imageAt,imageAt,hfi]
  refine ⟨hma,?_,hsi,?_,?_,?_,?_,?_,?_⟩
  · exact ⟨by rw [hfr]; exact h.log.ascending,by rw [hfr,hm]; exact h.log.bounded,
      by rw [hf]; exact h.log.no_empty,by rw [hf,hp]; exact h.log.listed⟩
  · intro d hd
    obtain ⟨hr,hmax,hv⟩ := hre d hd
    rw [hv,hmax]
    exact h.boundary d hr
  · intro d hd p
    obtain ⟨hr,hmax,-⟩ := hre d hd
    rw [hvi,hmax]
    exact h.snapshot d hr p
  · exact fun p => (hvi _ p).trans (h.base p)
  · intro p
    rw [hvi,hm]
    exact h.tip p
  · rw [hfr,hn]
    exact h.backfilled
  · rw [hn]
    exact h.nbackfills_le

theorem endReadTx (hs : S.step (.endReadTx c) = some S') : SnapInv ps S' L committed := by
  have hma := h.marks.step (show S.MarkSafe (.endReadTx c) from trivial) hs
  obtain ⟨hr,hw,rfl⟩ := step_endReadTx hs
  refine h.same_views hma rfl rfl rfl rfl rfl rfl ?_ ?_
  · exact h.pageSize_setConn (h.pageSize c)
  · refine forall_setConn (P := fun d => KeepsReading S.shared.readLocks
      ((S.conns c).wal.endReadTx S.shared).readLocks (S.conns d)) (fun hr => absurd hr nofun) ?_
    intro d _ hd
    refine ⟨hd,rfl,?_⟩
    have hun := (h.marks.table _).unlock_spec (h.marks.counted hr)
    simp only [setShared_conns,WalFile.endReadTx]
    by_cases hj : (S.conns d).wal.maxFrameReadLockIndex = (S.conns c).wal.maxFrameReadLockIndex
    · rw [hj,update_self]
      exact hun.2.2
    · rw [update_of_ne hj]

theorem giveUp (hs : S.step (.giveUp c) = some S') : SnapInv ps S' L committed := by
  have hma := h.marks.step (show S.MarkSafe (.giveUp c) from trivial) hs
  obtain ⟨hr,hw,rfl⟩ := step_giveUp hs
  refine h.same_views hma rfl rfl rfl rfl rfl rfl ?_ ?_
  · exact h.pageSize_setConn (h.pageSize c)
  · exact forall_setConn (P := fun d => KeepsReading S.shared.readLocks S.shared.readLocks
      (S.conns d)) (fun hr => absurd hr nofun) fun d _ hd => ⟨hd,rfl,rfl⟩

theorem beginWriteTx (hs : S.step (.beginWriteTx c) = some S') : SnapInv ps S' L committed := by
  have hma := h.marks.step (show S.MarkSafe (.beginWriteTx c) from trivial) hs
  obtain ⟨hr,-,rfl | ⟨-,rfl⟩⟩ := step_beginWriteTx hs
  · exact h
  · refine h.same_views hma rfl rfl rfl rfl rfl rfl ?_ ?_
    · exact h.pageSize_setConn (h.pageSize c)
    · exact forall_setConn (P := fun d => KeepsReading S.shared.readLocks
        S.shared.readLocks (S.conns d)) (fun _ => ⟨hr,rfl,rfl⟩) fun d _ hd => ⟨hd,rfl,rfl⟩

theorem appendFrame (hsafe : S.MarkSafe (.appendFrame c page content dbSize))
    (hs : S.step (.appendFrame c page content dbSize) = some S') :
    SnapInv ps S' { L with pending := (page,content) :: L.pending } committed := by
  have hma := h.marks.step hsafe hs
  obtain ⟨hw,hlen,rfl⟩ := step_appendFrame hs
  have hsi := h.pageSize c
  have hold : ∀ m p, m ≤ S.shared.maxFrame →
      viewAt ps ((S.conns c).wal.appendFrame S.shared page content dbSize) S.db m p =
        viewAt ps S.shared S.db m p :=
    fun m p hm => viewAt_appendFrame_old h.log hsi hm
  refine ⟨hma,h.log.appendFrame _ page content dbSize,h.pageSize,?_,?_,?_,?_,?_,?_⟩
  · intro d hd
    rw [setShared_shared,appendFrame_readLocks]
    exact h.boundary d hd
  · intro d hd p
    exact (hold _ p ((h.boundary_le hd).trans h.marks.committed_le)).trans (h.snapshot d hd p)
  · exact fun p => (hold _ p h.marks.committed_le).trans (h.base p)
  · intro p
    rw [setShared_shared,appendFrame_maxFrame,Ledger.overlay_cons,← h.tip p]
    exact viewAt_appendFrame_new h.log hsi (hlen.trans hsi)
  · intro p f hf
    rw [setShared_shared,appendFrame_nbackfills]
    have hnew := h.nbackfills_le.trans h.marks.committed_le
    by_cases hp : p = page
    · subst hp
      rw [setShared_shared,frames_appendFrame_same] at hf
      rcases mem_append.mp hf with hf | hf
      · exact h.backfilled p f hf
      · rw [mem_singleton.mp hf]
        omega
    · rw [setShared_shared,frames_appendFrame_of_ne _ _ _ _ _ hp] at hf
      exact h.backfilled p f hf
  · rw [setShared_shared,appendFrame_nbackfills]
    exact h.nbackfills_le

theorem endWriteTx (hs : S.step (.endWriteTx c) = some S') :
    SnapInv ps S' { L with committed := Ledger.overlay L.pending L.committed, pending := [] }
      S.shared.maxFrame := by
  have hma := h.marks.step (show S.MarkSafe (.endWriteTx c) from trivial) hs
  obtain ⟨hw,rfl⟩ := step_endWriteTx hs
  refine ⟨hma,⟨h.log.ascending,h.log.bounded,h.log.no_empty,h.log.listed⟩,?_,?_,?_,
    h.tip,h.tip,h.backfilled,h.nbackfills_le.trans h.marks.committed_le⟩
  · exact h.pageSize_setConn (h.pageSize c)
  · exact forall_setConn (P := fun _ k => k.reading = true →
      (S.shared.readLocks k.wal.maxFrameReadLockIndex).value = k.wal.maxFrame) (h.boundary c)
      fun d _ => h.boundary d
  · exact forall_setConn (P := fun d k => k.reading = true →
      ∀ p, viewAt ps S.shared S.db k.wal.maxFrame p = L.snapshot d p) (h.snapshot c)
      fun d _ => h.snapshot d

/-- The frames a checkpoint forgets start right after the backfilled ones, so a range that
starts there covers them. -/
theorem covers (hmin : (S.conns c).wal.minFrame ≤ S.shared.nbackfills + 1) :
    ∀ f ∈ S.shared.frames p, (S.conns c).wal.minFrame ≤ f := by
  intro f hf
  have := h.backfilled p f hf
  omega

end

section Checkpoint

variable (h : SnapInv ps S L committed)
include h

theorem checkpoint_boundary (hs : S.step (.checkpoint c mode random) = some S') (d : Fin n)
    (hd : (S'.conns d).reading = true) : (S'.shared.readLocks (S'.conns d).wal.maxFrameReadLockIndex).value =
      (S'.conns d).wal.maxFrame := by
  obtain ⟨hco,hsh,-⟩ := step_checkpoint hs
  rw [hco] at hd
  rw [hco,hsh,checkpoint_readLocks,h.marks.checkpoint_table.2.2 d hd]
  exact h.boundary d hd

variable (hsafe : SnapshotSafe S (.checkpoint c mode random))
include hsafe

variable (hs : S.step (.checkpoint c mode random) = some S')
include hs

/-- A pass that copied the whole log: what was committed is all there was, because the log
was empty or nobody was writing. -/
theorem checkpoint_restart (hfu : S.shared.maxFrame = safeFrame S.shared) : SnapInv ps S' L 0 := by
  have hma := h.marks.step hsafe.1 hs
  simp only [System.MarkInv.nextCommitted,if_pos hfu] at hma
  have hbo := h.checkpoint_boundary hs
  obtain ⟨hco,hsh,hdb⟩ := step_checkpoint hs
  have hvi : ∀ m p, viewAt ps S'.shared S'.db m p = Ledger.overlay L.pending L.committed p := by
    intro m p
    rw [hsh,hdb,viewAt_checkpoint_restart h.log (h.pageSize c) (h.covers hsafe.2) hfu]
    exact h.tip p
  have hall : committed = S.shared.maxFrame := by
    rcases h.marks.restart_cases hsafe.1 hfu with hze | hun
    · have := h.marks.committed_le
      omega
    · exact h.marks.idle fun d => h.marks.not_writing (hun d)
  have hba : ∀ p, Ledger.overlay L.pending L.committed p = L.committed p := by
    intro p
    rw [← h.tip p,← hall,h.base p]
  have hfr : ∀ p, S'.shared.frames p = [] := by
    intro p
    rw [hsh,checkpoint_frames h.log,if_pos hfu]
  refine ⟨hma,?_,?_,hbo,?_,?_,fun p => hvi _ p,?_,?_⟩
  · rw [hsh]
    exact h.log.checkpoint
  · rw [hco]
    exact h.pageSize
  · intro d hd p
    rw [hco] at hd
    rw [hvi,hba]
    rcases h.marks.restart_cases hsafe.1 hfu with hze | hun
    · have hm : (S.conns d).wal.maxFrame = committed := by
        have := h.boundary_le hd
        omega
      rw [← h.snapshot d hd p,hm,h.base p]
    · cases (hun d).symm.trans hd
  · exact fun p => (hvi _ p).trans (hba p)
  · intro p f hf
    rw [hfr] at hf
    cases hf
  · rw [hsh,checkpoint_ends.2,if_pos hfu]

/-- A pass that left frames behind: views from its safe frame on are as before. -/
theorem checkpoint_trim (hpa : S.shared.maxFrame ≠ safeFrame S.shared) : SnapInv ps S' L committed := by
  have hma := h.marks.step hsafe.1 hs
  simp only [System.MarkInv.nextCommitted,if_neg hpa] at hma
  have hbo := h.checkpoint_boundary hs
  have hle := h.marks.safeFrame_le_committed
  obtain ⟨hco,hsh,hdb⟩ := step_checkpoint hs
  have hvi : ∀ m p, safeFrame S.shared ≤ m → viewAt ps S'.shared S'.db m p = viewAt ps S.shared S.db m p := by
    intro m p hm
    rw [hsh,hdb]
    exact viewAt_checkpoint h.log (h.pageSize c) (fun f hf _ => h.covers hsafe.2 f hf) hpa hm
  have hnb : S'.shared.nbackfills = safeFrame S.shared := by
    rw [hsh,checkpoint_ends.2,if_neg hpa]
  refine ⟨hma,?_,?_,hbo,?_,?_,?_,?_,?_⟩
  · rw [hsh]
    exact h.log.checkpoint
  · rw [hco]
    exact h.pageSize
  · intro d hd p
    rw [hco] at hd ⊢
    have hmark := h.marks.safeFrame_le_mark hd
    rw [h.boundary d hd] at hmark
    exact (hvi _ p hmark).trans (h.snapshot d hd p)
  · exact fun p => (hvi _ p hle).trans (h.base p)
  · intro p
    have hmax : S'.shared.maxFrame = S.shared.maxFrame := by
      rw [hsh,checkpoint_ends.1,if_neg hpa]
    rw [hmax]
    exact (hvi _ p (hle.trans h.marks.committed_le)).trans (h.tip p)
  · intro p f hf
    rw [hsh,checkpoint_frames h.log,if_neg hpa] at hf
    rw [hnb]
    simpa using (mem_filter.mp hf).2
  · rw [hnb]
    exact hle

theorem checkpoint : ∃ committed', SnapInv ps S' L committed' := by
  by_cases hfu : S.shared.maxFrame = safeFrame S.shared
  · exact ⟨0,h.checkpoint_restart hsafe hs hfu⟩
  · exact ⟨committed,h.checkpoint_trim hsafe hs hfu⟩

end Checkpoint

theorem rollback (h : SnapInv ps S L committed) (hw : (S.conns c).writing = true)
    (hs : S.step (.rollback c) = some S') : SnapInv ps S' { L with pending := [] } committed := by
  have hma := h.marks.step (show S.MarkSafe (.rollback c) from hw) hs
  have hst := (h.marks.conns c).start hw
  cases hs
  have hvi : ∀ m p, m ≤ committed →
      viewAt ps ((S.conns c).wal.rollback S.shared) S.db m p = viewAt ps S.shared S.db m p :=
    fun m p hm => viewAt_rollbackToFrame (hst ▸ hm)
  have hot : ∀ d, d ≠ c → (S.conns d).reading = true → _ := fun d _ => h.boundary_le (c := d)
  refine ⟨hma,h.log.rollbackToFrame _ _,?_,?_,?_,?_,?_,?_,h.nbackfills_le⟩
  · exact h.pageSize_setConn (h.pageSize c)
  · exact forall_setConn (P := fun _ k => k.reading = true →
      (S.shared.readLocks k.wal.maxFrameReadLockIndex).value = k.wal.maxFrame)
      (fun hr => absurd hr nofun) fun d _ => h.boundary d
  · exact forall_setConn (P := fun d k => k.reading = true →
      ∀ p, viewAt ps ((S.conns c).wal.rollback S.shared) S.db k.wal.maxFrame p = L.snapshot d p)
      (fun hr => absurd hr nofun)
      fun d hd hr p => (hvi _ p (hot d hd hr)).trans (h.snapshot d hr p)
  · exact fun p => (hvi _ p le_rfl).trans (h.base p)
  · intro p
    have hm : ((S.conns c).wal.rollback S.shared).maxFrame = committed := hst
    simp only [setConn_shared,setShared_shared,hm]
    exact (hvi _ p le_rfl).trans (h.base p)
  · intro p f hf
    have hfr : ((S.conns c).wal.rollback S.shared).frames p =
        (S.shared.frames p).filter fun f => f ≤ (S.conns c).wal.txnStartMaxFrame :=
      frames_retain
    simp only [setConn_shared,setShared_shared,hfr] at hf
    exact h.backfilled p f (mem_filter.mp hf).1

/-- Every allowed call keeps the log in step with what should be there. -/
theorem step (h : SnapInv ps S L committed) (hsafe : SnapshotSafe S op) (hs : S.step op = some S') :
    ∃ committed', SnapInv ps S' (L.observe S' op) committed' := by
  cases op with
  | beginReadTx c => exact ⟨_,h.beginReadTx hsafe hs⟩
  | endReadTx c => exact ⟨_,h.endReadTx hs⟩
  | beginWriteTx c => exact ⟨_,h.beginWriteTx hs⟩
  | appendFrame c page content dbSize => exact ⟨_,h.appendFrame hsafe.1 hs⟩
  | endWriteTx c => exact ⟨_,h.endWriteTx hs⟩
  | checkpoint c mode random => exact h.checkpoint hsafe hs
  | rollback c => exact ⟨_,h.rollback hsafe.1 hs⟩
  | giveUp c => exact ⟨_,h.giveUp hs⟩
  | openSavepoint c dirty dbSize | rollbackToSavepoint c index | releaseSavepoint c index => exact hsafe.2.elim

end SnapInv

/-- In every run whose calls are all allowed, every reader reads, at every point of its
transaction, the committed pages of the moment it began. -/
theorem snapshot_stable_of_safe {n ps : Nat} {S₀ : System n} {ops : List (Op n)}
    {X : System n × Ledger n} (h₀ : S₀.Opened ps) (hrun : run ledgerStep (S₀, .opened ps S₀) ops = some X)
    (hsafe : Meets ledgerStep (fun X op => SnapshotSafe X.1 op) (S₀, .opened ps S₀) ops) :
    SnapshotStable X := by
  have hinv : ∃ committed, SnapInv ps X.1 X.2 committed := by
    refine run_invariant (I := fun X : System n × Ledger n =>
      ∃ committed, SnapInv ps X.1 X.2 committed) ?_ ⟨_,SnapInv.opened h₀⟩ hsafe hrun
    rintro ⟨S,L⟩ op X' ⟨committed,h⟩ hop hs
    simp only [ledgerStep,Option.map_eq_some_iff] at hs
    obtain ⟨S',hs,rfl⟩ := hs
    exact h.step hop hs
  obtain ⟨committed,h⟩ := hinv
  exact h.stable

/-- Connection 1 reads beside two commits and a checkpoint of connection 0. -/
theorem reader_beside_writer_stable : ∃ X, run ledgerStep (twoConnections, .opened 512 twoConnections)
        (writeOnce 0 1 blankPage ++ [.endReadTx 0, .beginReadTx 1] ++ writeOnce 0 1 blankPage ++
          [.checkpoint 0 .passive 0, .endReadTx 0]) = some X ∧ SnapshotStable X := by
  have hch : (run ledgerStep (twoConnections, .opened 512 twoConnections)
      (writeOnce 0 1 blankPage ++ [.endReadTx 0,.beginReadTx 1] ++ writeOnce 0 1 blankPage ++
        [.checkpoint 0 .passive 0,.endReadTx 0])).any (fun _ => true) = true := by
    decide +kernel
  obtain ⟨X,hrun,-⟩ := exists_of_run_any hch
  exact ⟨X,hrun,snapshot_stable_of_safe (opened_fresh 0 0 _) hrun (by decide +kernel)⟩

/-- Whether connection `c` is reading and page `p` does not start with the byte its snapshot
starts with. -/
def readsAnother {n : Nat} (X : System n × Ledger n) (c : Fin n) (p : Nat) : Bool :=
  (X.1.conns c).reading &&
    ((X.1.conns c).wal.readPage X.1.shared X.1.db p).head? != (X.2.snapshot c p).head?

theorem not_stable_of_readsAnother (h : readsAnother X c p = true) : ¬ SnapshotStable X := by
  intro hst
  simp only [readsAnother,Bool.and_eq_true,bne_iff_ne] at h
  exact h.2 (congrArg List.head? (hst c h.1 p))

/-- Connection 0 reads page 1 at the end of the log, connection 1 checkpoints the log away
under it and appends page 1 again, as frame 1 of the restarted log. -/
def reusedFrameRun : List (Op 2) :=
  writeOnce 1 1 (List.replicate 512 1) ++ [.endReadTx 1, .beginReadTx 0,
    .checkpoint 1 .passive 0, .beginReadTx 1, .beginWriteTx 1,
    .appendFrame 1 1 (List.replicate 512 2) 2]

/-- The reader then reads the new frame, which is not even committed. -/
theorem reused_frame_breaks_snapshot :
    ∃ X, run ledgerStep (twoConnections, .opened 512 twoConnections) reusedFrameRun = some X ∧
      ¬ SnapshotStable X := by
  have hch : (run ledgerStep (twoConnections, .opened 512 twoConnections) reusedFrameRun).any
      (fun X => readsAnother X 0 1) = true := by
    decide +kernel
  obtain ⟨X,hrun,hre⟩ := exists_of_run_any hch
  exact ⟨X,hrun,not_stable_of_readsAnother hre⟩

end OxiSql.Wal
