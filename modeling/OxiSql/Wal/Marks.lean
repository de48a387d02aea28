import OxiSql.Lib.Counting
import OxiSql.Wal.System

namespace OxiSql.Wal
open Lib List Function

def Conn.ReadsAt (i : Slot) (k : Conn) : Prop :=
  k.reading = true ∧ k.wal.maxFrameReadLockIndex = i

instance (i : Slot) : DecidablePred (Conn.ReadsAt i) :=
  fun _ => inferInstanceAs (Decidable (_ ∧ _))

namespace System

/-- No write transaction has appended a frame yet. -/
def NoUncommittedFrames (S : System n) : Prop :=
  ∀ d, (S.conns d).writing = true → S.shared.maxFrame = (S.conns d).wal.txnStartMaxFrame

/-- A checkpoint now would not restart a log that somebody is reading. -/
def RestartsUnread (S : System n) : Prop :=
  S.shared.maxFrame = 0 ∨
    (∃ i, Held S.shared.readLocks i ∧ (S.shared.readLocks i).value < S.shared.maxFrame) ∨
    ∀ d, (S.conns d).reading = false

/-- The calls that keep read marks at or below the last committed frame. -/
def MarkSafe (S : System n) : Op n → Prop
  | .beginReadTx _ => S.NoUncommittedFrames
  | .appendFrame _ _ _ _ => S.shared.maxFrame + 1 < readmarkNotUsed
  | .checkpoint _ _ _ => S.RestartsUnread
  | .rollback c => (S.conns c).writing = true
  | .openSavepoint c dirty _ =>
    (S.conns c).writing = true ∧ S.shared.maxFrame + dirty.length < readmarkNotUsed
  | _ => True

instance (S : System n) : ∀ op, Decidable (S.MarkSafe op)
  | .beginReadTx _ => inferInstanceAs (Decidable (∀ _, _ → _))
  | .appendFrame _ _ _ _ => inferInstanceAs (Decidable (_ < _))
  | .checkpoint _ _ _ => inferInstanceAs (Decidable (_ ∨ (∃ _, _) ∨ ∀ _, _))
  | .rollback _ => inferInstanceAs (Decidable (_ = _))
  | .openSavepoint _ _ _ => inferInstanceAs (Decidable (_ ∧ _))
  | .endReadTx _ | .beginWriteTx _ | .endWriteTx _ | .giveUp _ | .rollbackToSavepoint _ _
  | .releaseSavepoint _ _ => isTrue trivial

structure ConnInv (s : WalFileShared) (committed : Nat) (k : Conn) : Prop where
  mark : k.reading = true → (s.readLocks k.wal.maxFrameReadLockIndex).value ≤ committed
  writer_reads : k.writing = true → k.reading = true
  write_lock : k.writing = true → s.writeLock.lock = .writeLock
  start : k.writing = true → k.wal.txnStartMaxFrame = committed
  savepoints : ∀ sp ∈ k.savepoints,
    k.writing = true ∧ committed ≤ sp.1 ∧ sp.1 < readmarkNotUsed

theorem ConnInv.congr (h : ConnInv s committed k) (hl : s'.readLocks = s.readLocks)
    (hwl : s'.writeLock = s.writeLock) : ConnInv s' committed k := by
  obtain ⟨hmark,hre,hlock,hst,hsp⟩ := h
  exact ⟨by rwa [hl],hre,by rwa [hwl],hst,hsp⟩

/-- The state of locks and marks when `committed` is the last committed frame. A slot may count
more readers than there are: an abandoned transaction leaves its lock behind. -/
structure MarkInv (S : System n) (committed : Nat) : Prop where
  bound : S.shared.maxFrame < readmarkNotUsed
  committed_le : committed ≤ S.shared.maxFrame
  table : TableShared S.shared.readLocks
  readers : ∀ i, countWhere S.conns (Conn.ReadsAt i) ≤ (S.shared.readLocks i).nreads
  conns : ∀ c, ConnInv S.shared committed (S.conns c)
  one_writer : ∀ c d, (S.conns c).writing = true → (S.conns d).writing = true → c = d
  idle : (∀ c, (S.conns c).writing = false) → committed = S.shared.maxFrame

namespace MarkInv
variable {S : System n}

theorem opened (h : S.Opened ps) : MarkInv S S.shared.maxFrame where
  bound := h.frames
  committed_le := le_rfl
  table := fun i => by rw [h.readLocks]; exact .new
  readers := by
    intro i
    have hze : countWhere S.conns (Conn.ReadsAt i) = 0 := by
      refine Finset.card_eq_zero.mpr (Finset.filter_eq_empty_iff.mpr ?_)
      intro c _ hc
      rw [h.conns c] at hc
      exact absurd hc.1 nofun
    omega
  conns := fun c => by rw [h.conns c]; exact ⟨nofun,nofun,nofun,nofun,nofun⟩
  one_writer := fun c _ hc => by rw [h.conns c] at hc; exact absurd hc nofun
  idle := fun _ => rfl

theorem writer_or_idle (h : MarkInv S committed) :
    (∃ c, (S.conns c).writing = true) ∨ committed = S.shared.maxFrame := by
  by_cases hw : ∃ c, (S.conns c).writing = true
  · exact .inl hw
  · refine .inr (h.idle fun c => ?_)
    cases hc : (S.conns c).writing with
    | false => rfl
    | true => exact absurd ⟨c,hc⟩ hw

variable {c : Fin n}

variable (h : MarkInv S committed)
include h

theorem not_writing (hc : (S.conns c).reading = false) : (S.conns c).writing = false := by
  cases hw : (S.conns c).writing with
  | false => rfl
  | true => exact absurd (((h.conns c).writer_reads hw).symm.trans hc) nofun

section

variable (hc : (S.conns c).reading = true)
include hc

/-- A reader's slot counts it, so it is held. -/
theorem counted : 0 < (S.shared.readLocks (S.conns c).wal.maxFrameReadLockIndex).nreads := by
  have hco := countWhere_pos (f := S.conns)
    (P := Conn.ReadsAt (S.conns c).wal.maxFrameReadLockIndex) (c := c) ⟨hc,rfl⟩
  exact Nat.lt_of_lt_of_le hco (h.readers _)

theorem held : Held S.shared.readLocks (S.conns c).wal.maxFrameReadLockIndex := by
  intro hfr
  have := (h.table _).free hfr
  have := h.counted hc
  omega

omit hc in
theorem clamped : Clamped S.shared.readLocks S.shared.maxFrame (List.finRange 5) (startCheckpoint S.shared) :=
  startCheckpoint_spec (h.bound.trans (by decide))

/-- The safe frame of a checkpoint is at most every active reader's mark. -/
theorem safeFrame_le_mark :
    safeFrame S.shared ≤ (S.shared.readLocks (S.conns c).wal.maxFrameReadLockIndex).value :=
  h.clamped.le_mark _ (mem_finRange _) (h.held hc)

end

theorem safeFrame_le_committed : safeFrame S.shared ≤ committed := by
  rcases h.writer_or_idle with ⟨c,hc⟩ | hid
  · have hr := (h.conns c).writer_reads hc
    exact (h.safeFrame_le_mark hr).trans ((h.conns c).mark hr)
  · rw [hid]
    exact h.clamped.le_maxFrame

theorem one_writer_congr {S' : System n} (hfl : ∀ d, (S'.conns d).writing = (S.conns d).writing) (d e : Fin n)
    (hd : (S'.conns d).writing = true) (he : (S'.conns e).writing = true) : d = e :=
  h.one_writer d e ((hfl d).symm.trans hd) ((hfl e).symm.trans he)

theorem readers_leave (hk : k.reading = false) (j : Slot) :
    countWhere (update S.conns c k) (Conn.ReadsAt j) ≤ (S.shared.readLocks j).nreads := by
  have hco := countWhere_update S.conns (Conn.ReadsAt j) c k
  rw [if_neg fun hr : k.ReadsAt j => absurd (hk.symm.trans hr.1) nofun] at hco
  have hbe := h.readers j
  omega

theorem readers_stay (hr : k.reading = (S.conns c).reading)
    (hi : k.wal.maxFrameReadLockIndex = (S.conns c).wal.maxFrameReadLockIndex) (j : Slot) :
    countWhere (update S.conns c k) (Conn.ReadsAt j) ≤ (S.shared.readLocks j).nreads := by
  have hco := countWhere_update S.conns (Conn.ReadsAt j) c k
  have hsa : k.ReadsAt j ↔ (S.conns c).ReadsAt j := by rw [Conn.ReadsAt,hr,hi,Conn.ReadsAt]
  have hbe := h.readers j
  simp only [hsa] at hco
  omega

theorem committed_eq_of_noUncommitted (hn : S.NoUncommittedFrames) : committed = S.shared.maxFrame := by
  rcases h.writer_or_idle with ⟨c,hc⟩ | hid
  · rw [hn c hc,(h.conns c).start hc]
  · exact hid

end MarkInv

theorem writing_setConn {S : System n} (hk : k.writing = (S.conns c).writing) (d : Fin n) :
    ((S.setConn c k).conns d).writing = (S.conns d).writing := by
  by_cases hd : d = c
  · subst hd
    rw [setConn_conns_same,hk]
  · rw [setConn_conns_of_ne hd]

theorem one_writer_setConn {S : System n} (hot : ∀ d, d ≠ c → (S.conns d).writing ≠ true) (d e : Fin n)
    (hd : ((S.setConn c k).conns d).writing = true) (he : ((S.setConn c k).conns e).writing = true) : d = e := by
  have hc : ∀ {d}, ((S.setConn c k).conns d).writing = true → d = c := by
    intro d hd
    by_contra hne
    rw [setConn_conns_of_ne hne] at hd
    exact hot d hne hd
  rw [hc hd,hc he]

namespace MarkInv
variable {S S' : System n} {c : Fin n}

section

variable (h : MarkInv S committed)
include h

theorem beginReadTx (hmark : mark ≤ committed) : MarkInv ((S.setShared { S.shared with
      readLocks := acquire S.shared.readLocks i mark }).setConn c (S.reader c i mark)) committed := by
  have hfl := writing_setConn (S := S.setShared { S.shared with
    readLocks := acquire S.shared.readLocks i mark }) (c := c) (k := S.reader c i mark) rfl
  refine ⟨h.bound,h.committed_le,table_acquire h.table,?_,?_,?_,?_⟩
  · intro j
    have hco := countWhere_update S.conns (Conn.ReadsAt j) c (S.reader c i mark)
    have hbe := h.readers j
    simp only [setConn,setShared]
    by_cases hj : j = i
    · subst hj
      have hnew : (S.reader c j mark).ReadsAt j := ⟨rfl,rfl⟩
      rw [if_pos hnew] at hco
      rw [acquire_same]
      simp only
      omega
    · have hnew : ¬ (S.reader c i mark).ReadsAt j := fun hr => hj hr.2.symm
      rw [if_neg hnew] at hco
      rw [acquire_of_ne hj]
      omega
  · refine forall_setConn (P := fun _ k => ConnInv _ committed k) ?_ ?_
    · have hk := h.conns c
      refine ⟨fun _ => ?_,fun _ => rfl,hk.write_lock,hk.start,hk.savepoints⟩
      simp [reader,acquire_same,hmark]
    · intro d _
      refine { h.conns d with mark := fun hd => ?_ }
      by_cases hj : (S.conns d).wal.maxFrameReadLockIndex = i
      · simp [hj,acquire_same,hmark]
      · simpa [acquire_of_ne hj] using (h.conns d).mark hd
  · exact h.one_writer_congr hfl
  · intro hid
    exact h.idle fun d => (hfl d).symm.trans (hid d)

/-- A transaction that is forgotten without giving its lock back. -/
theorem giveUp (hw : (S.conns c).writing = false) :
    MarkInv (S.setConn c { S.conns c with reading := false }) committed := by
  have hfl := writing_setConn (S := S) (c := c) (k := { S.conns c with reading := false }) rfl
  refine ⟨h.bound,h.committed_le,h.table,?_,?_,?_,?_⟩
  · exact h.readers_leave rfl
  · refine forall_setConn (P := fun _ k => ConnInv _ committed k) ?_ fun d _ => h.conns d
    have hk := h.conns c
    exact ⟨nofun,fun hk' => absurd (hw.symm.trans hk') nofun,hk.write_lock,hk.start,hk.savepoints⟩
  · exact h.one_writer_congr hfl
  · exact fun hid => h.idle fun d => (hfl d).symm.trans (hid d)

/-- A slot that counts more readers than it has gives one up. -/
theorem unlock (hlo : s.readLocks = update S.shared.readLocks i (S.shared.readLocks i).unlock)
    (hwl : s.writeLock = S.shared.writeLock) (hmax : s.maxFrame = S.shared.maxFrame)
    (hlt : countWhere S.conns (Conn.ReadsAt i) < (S.shared.readLocks i).nreads) :
    MarkInv (S.setShared s) committed := by
  have hun := (h.table i).unlock_spec (by omega)
  refine ⟨hmax ▸ h.bound,hmax ▸ h.committed_le,fun j => ?_,fun j => ?_,fun d => ?_,h.one_writer,hmax ▸ h.idle⟩
  · rw [setShared_shared,hlo]
    by_cases hj : j = i
    · rw [hj,update_self]
      exact hun.1
    · rw [update_of_ne hj]
      exact h.table j
  · rw [setShared_shared,hlo]
    by_cases hj : j = i
    · rw [hj,update_self,hun.2.1]
      exact Nat.le_sub_one_of_lt hlt
    · rw [update_of_ne hj]
      exact h.readers j
  · refine { h.conns d with mark := fun hd => ?_, write_lock := hwl ▸ (h.conns d).write_lock }
    rw [setShared_shared,setShared_conns,hlo]
    by_cases hj : (S.conns d).wal.maxFrameReadLockIndex = i
    · rw [hj,update_self,hun.2.2,← hj]
      exact (h.conns d).mark hd
    · rw [update_of_ne hj]
      exact (h.conns d).mark hd

theorem endReadTx (hr : (S.conns c).reading = true)
    (hw : (S.conns c).writing = false) : MarkInv ((S.setShared ((S.conns c).wal.endReadTx S.shared)).setConn c
      { S.conns c with reading := false }) committed := by
  have hco := countWhere_update S.conns (Conn.ReadsAt (S.conns c).wal.maxFrameReadLockIndex) c
    { S.conns c with reading := false }
  rw [if_pos ⟨hr,rfl⟩,if_neg fun hk => absurd hk.1 nofun] at hco
  have hbe := h.readers (S.conns c).wal.maxFrameReadLockIndex
  refine (h.giveUp hw).unlock rfl rfl rfl (Nat.lt_of_lt_of_le ?_ hbe)
  exact Nat.lt_of_succ_le hco.le

theorem readers_congr (hr : ∀ d, (S'.conns d).reading = (S.conns d).reading)
    (hi : ∀ d, (S'.conns d).wal.maxFrameReadLockIndex = (S.conns d).wal.maxFrameReadLockIndex)
    (hn : ∀ i, (S'.shared.readLocks i).nreads = (S.shared.readLocks i).nreads) (i : Slot) :
    countWhere S'.conns (Conn.ReadsAt i) ≤ (S'.shared.readLocks i).nreads := by
  have hsa : ∀ d, (S'.conns d).ReadsAt i ↔ (S.conns d).ReadsAt i := by
    intro d
    simp [Conn.ReadsAt,hr,hi]
  rw [countWhere_congr hsa,hn]
  exact h.readers i

theorem beginWriteTx (hr : (S.conns c).reading = true)
    (hfr : S.shared.writeLock.lock = .noLock) (hlo : lock.lock = .writeLock) (hi : w.maxFrameReadLockIndex =
      (S.conns c).wal.maxFrameReadLockIndex) (hst : w.txnStartMaxFrame = S.shared.maxFrame) :
    MarkInv ((S.setShared { S.shared with writeLock := lock }).setConn c
      { S.conns c with wal := w, writing := true }) committed := by
  have hnone : ∀ d, (S.conns d).writing = false := by
    intro d
    cases hd : (S.conns d).writing with
    | false => rfl
    | true => exact absurd (((h.conns d).write_lock hd).symm.trans hfr) nofun
  have hco := h.idle hnone
  refine ⟨h.bound,h.committed_le,h.table,h.readers_stay rfl hi,?_,?_,?_⟩
  · refine forall_setConn (P := fun _ k => ConnInv _ committed k) ?_ ?_
    · have hk := h.conns c
      refine ⟨fun _ => ?_,fun _ => hr,fun _ => hlo,fun _ => hst.trans hco.symm,?_⟩
      · rw [hi]
        exact hk.mark hr
      · exact fun sp hsp => ⟨rfl,(hk.savepoints sp hsp).2⟩
    · exact fun d _ => { h.conns d with write_lock := fun _ => hlo }
  · exact one_writer_setConn fun d _ hd => absurd ((hnone d).symm.trans hd) nofun
  · intro hid
    have := hid c
    rw [setConn_conns_same] at this
    exact absurd this nofun

section

variable (hw : (S.conns c).writing = true)
include hw

/-- The log grows under its writer; marks and locks stay. -/
theorem grow (hl : s.readLocks = S.shared.readLocks) (hwl : s.writeLock = S.shared.writeLock)
    (hle : S.shared.maxFrame ≤ s.maxFrame) (hb : s.maxFrame < readmarkNotUsed) :
    MarkInv (S.setShared s) committed := by
  refine ⟨hb,h.committed_le.trans hle,?_,?_,?_,h.one_writer,?_⟩
  · rw [setShared_shared,hl]
    exact h.table
  · exact h.readers_congr (fun _ => rfl) (fun _ => rfl) fun i => by rw [setShared_shared,hl]
  · exact fun d => (h.conns d).congr hl hwl
  · exact fun hid => absurd ((hid c).symm.trans hw) nofun

/-- Committing: everything in the log is committed from now on. -/
theorem endWriteTx (lock : LimboRwLock) : MarkInv ((S.setShared { S.shared with writeLock := lock }).setConn c
      { S.conns c with writing := false, savepoints := [] }) S.shared.maxFrame := by
  have hot : ∀ d, d ≠ c → (S.conns d).writing ≠ true :=
    fun d hd hdw => hd (h.one_writer d c hdw hw)
  refine ⟨h.bound,le_rfl,h.table,h.readers_stay rfl rfl,?_,?_,fun _ => rfl⟩
  · refine forall_setConn (P := fun _ k => ConnInv _ S.shared.maxFrame k) ?_ ?_
    · exact ⟨fun hr => ((h.conns c).mark hr).trans h.committed_le,nofun,nofun,nofun,nofun⟩
    · intro d hd
      have hk := h.conns d
      have hno := hot d hd
      exact ⟨fun hr => (hk.mark hr).trans h.committed_le,fun hdw => absurd hdw hno,
        fun hdw => absurd hdw hno,fun hdw => absurd hdw hno,
        fun sp hsp => absurd (hk.savepoints sp hsp).1 hno⟩
  · exact one_writer_setConn hot

/-- A rolled-back writer leaves its locks behind, and the log as it was committed. -/
theorem rollback (hl : s.readLocks = S.shared.readLocks) (hm : s.maxFrame = committed) :
    MarkInv ((S.setShared s).setConn c
      { S.conns c with reading := false, writing := false, savepoints := [] }) committed := by
  have hot : ∀ d, d ≠ c → (S.conns d).writing ≠ true :=
    fun d hd hdw => hd (h.one_writer d c hdw hw)
  refine ⟨?_,hm.ge,?_,?_,?_,?_,fun _ => hm.symm⟩
  · rw [setConn_shared,setShared_shared,hm]
    exact h.committed_le.trans_lt h.bound
  · rw [setConn_shared,setShared_shared,hl]
    exact h.table
  · rw [setConn_shared,setShared_shared,hl]
    exact h.readers_leave rfl
  · refine forall_setConn (P := fun _ k => ConnInv _ committed k) ?_ ?_
    · exact ⟨nofun,nofun,nofun,nofun,nofun⟩
    · intro d hd
      have hk := h.conns d
      have hno := hot d hd
      refine ⟨?_,hk.writer_reads,fun hdw => absurd hdw hno,hk.start,hk.savepoints⟩
      rw [setConn_shared,setShared_shared,hl]
      exact hk.mark
  · exact one_writer_setConn hot

/-- The writer's own bookkeeping: its read boundary and its savepoints may change, and with
a rollback to a savepoint the end of the log. -/
theorem savepoint (hl : s.readLocks = S.shared.readLocks) (hwl : s.writeLock = S.shared.writeLock)
    (hle : committed ≤ s.maxFrame) (hb : s.maxFrame < readmarkNotUsed)
    (hi : w.maxFrameReadLockIndex = (S.conns c).wal.maxFrameReadLockIndex)
    (hst : w.txnStartMaxFrame = (S.conns c).wal.txnStartMaxFrame)
    (hsp : ∀ sp ∈ sps, committed ≤ sp.1 ∧ sp.1 < readmarkNotUsed) :
    MarkInv ((S.setShared s).setConn c { S.conns c with wal := w, savepoints := sps }) committed := by
  have hfl := writing_setConn (S := S.setShared s) (c := c)
    (k := { S.conns c with wal := w, savepoints := sps }) rfl
  refine ⟨hb,hle,?_,?_,?_,?_,?_⟩
  · rw [setConn_shared,setShared_shared,hl]
    exact h.table
  · rw [setConn_shared,setShared_shared,hl]
    exact h.readers_stay rfl hi
  · refine forall_setConn (P := fun _ k => ConnInv _ committed k) ?_ ?_
    · have hk := (h.conns c).congr hl hwl
      exact ⟨fun hr => (hi ▸ hk.mark hr :),hk.writer_reads,hk.write_lock,
        fun _ => hst.trans (hk.start hw),fun sp hmem => ⟨hw,hsp sp hmem⟩⟩
    · exact fun d _ => (h.conns d).congr hl hwl
  · exact h.one_writer_congr hfl
  · exact fun hid => absurd ((hid c).symm.trans ((hfl c).trans hw)) nofun

end

theorem checkpoint_table : TableShared (startCheckpoint S.shared).1 ∧
      (∀ i, ((startCheckpoint S.shared).1 i).nreads = (S.shared.readLocks i).nreads) ∧
      ∀ d, (S.conns d).reading = true →
        ((startCheckpoint S.shared).1 (S.conns d).wal.maxFrameReadLockIndex).value =
          (S.shared.readLocks (S.conns d).wal.maxFrameReadLockIndex).value := by
  have hc := h.clamped
  refine ⟨?_,hc.nreads,fun d hd => hc.value _ (h.held hd)⟩
  intro i
  have hi := h.table i
  refine ⟨?_,?_,?_⟩
  · rw [hc.lock,hc.nreads]
    exact hi.free
  · rw [hc.lock,hc.nreads]
    exact hi.held
  · rw [hc.lock]
    exact hi.never_exclusive

theorem restart_cases (hsa : S.RestartsUnread) (hfu : S.shared.maxFrame = safeFrame S.shared) :
    S.shared.maxFrame = 0 ∨ ∀ d, (S.conns d).reading = false := by
  rcases hsa with hze | ⟨i,hhe,hlt⟩ | hun
  · exact .inl hze
  · have := h.clamped.le_mark i (mem_finRange i) hhe
    have hle : safeFrame S.shared ≤ (S.shared.readLocks i).value := this
    omega
  · exact .inr hun

end

def nextCommitted (S : System n) (committed : Nat) : Op n → Nat
  | .endWriteTx _ => S.shared.maxFrame
  | .checkpoint _ _ _ => if S.shared.maxFrame = safeFrame S.shared then 0 else committed
  | _ => committed

theorem checkpoint (h : MarkInv S committed) (hsa : S.RestartsUnread) (mode : CheckpointMode)
    (random : UInt32) (hs : S.step (.checkpoint c mode random) = some S') :
    MarkInv S' (nextCommitted S committed (.checkpoint c mode random)) := by
  obtain ⟨hta,hnr,hva⟩ := h.checkpoint_table
  obtain ⟨hco,hsh,-⟩ := step_checkpoint hs
  have hlo : S'.shared.readLocks = (startCheckpoint S.shared).1 := by
    rw [hsh,checkpoint_readLocks]
  have hwl : S'.shared.writeLock = S.shared.writeLock := by
    rw [hsh,checkpoint_writeLock]
  have hmax : S'.shared.maxFrame = if S.shared.maxFrame = safeFrame S.shared then 0 else S.shared.maxFrame := by
    rw [hsh,checkpoint_ends.1]
  have hre := h.readers_congr (fun d => congrArg Conn.reading (congrFun hco d))
    (fun d => congrArg (fun k => k.wal.maxFrameReadLockIndex) (congrFun hco d))
    fun i => by rw [hlo,hnr]
  have hkeep : ∀ d, ConnInv S'.shared committed (S.conns d) := by
    intro d
    have hk := h.conns d
    refine ⟨fun hr => ?_,hk.writer_reads,by rw [hwl]; exact hk.write_lock,hk.start,hk.savepoints⟩
    rw [hlo,hva d hr]
    exact hk.mark hr
  simp only [nextCommitted]
  by_cases hfu : S.shared.maxFrame = safeFrame S.shared
  · rw [if_pos hfu] at hmax ⊢
    refine ⟨by rw [hmax]; decide,Nat.zero_le _,by rw [hlo]; exact hta,hre,?_,?_, fun _ => hmax.symm⟩
    · intro d
      rw [hco]
      have hk := h.conns d
      rcases h.restart_cases hsa hfu with hze | hun
      · obtain rfl : committed = 0 := Nat.le_zero.mp (hze ▸ h.committed_le)
        exact hkeep d
      · have hr := hun d
        have hno : (S.conns d).writing ≠ true := by simp [h.not_writing hr]
        exact ⟨fun hr' => absurd (hr.symm.trans hr') nofun,hk.writer_reads,
          fun hdw => absurd hdw hno,fun hdw => absurd hdw hno,
          fun sp hsp => absurd (hk.savepoints sp hsp).1 hno⟩
    · rw [hco]
      exact h.one_writer
  · rw [if_neg hfu] at hmax ⊢
    refine ⟨by rw [hmax]; exact h.bound,by rw [hmax]; exact h.committed_le, by rw [hlo]; exact hta,hre,?_,?_,?_⟩
    · rw [hco]
      exact hkeep
    · rw [hco]
      exact h.one_writer
    · rw [hco,hmax]
      exact h.idle

theorem step (h : MarkInv S committed) (hsa : S.MarkSafe op) (hs : S.step op = some S') :
    MarkInv S' (nextCommitted S committed op) := by
  cases op with
  | beginReadTx c =>
    obtain ⟨-,rfl | ⟨i,mark,hm,rfl⟩⟩ := step_beginReadTx h.table hs
    · exact h
    · have hmax := h.committed_eq_of_noUncommitted hsa
      have hle : mark ≤ S.shared.maxFrame := by
        have := asU32_le S.shared.maxFrame
        cases hm with
        | moved _ hcur | joined _ _ hra _ _ => omega
      exact h.beginReadTx (hmax ▸ hle)
  | endReadTx c =>
    obtain ⟨hr,hw,rfl⟩ := step_endReadTx hs
    exact h.endReadTx hr hw
  | beginWriteTx c =>
    obtain ⟨hr,-,rfl | ⟨hfr,rfl⟩⟩ := step_beginWriteTx hs
    · exact h
    · exact h.beginWriteTx hr hfr rfl rfl rfl
  | appendFrame c page content dbSize =>
    obtain ⟨hw,-,rfl⟩ := step_appendFrame hs
    have hb : S.shared.maxFrame + 1 < readmarkNotUsed := hsa
    exact h.grow hw (appendFrame_readLocks ..) (appendFrame_writeLock ..) (by simp) (by simpa using hb)
  | endWriteTx c =>
    obtain ⟨hw,rfl⟩ := step_endWriteTx hs
    exact h.endWriteTx hw _
  | checkpoint c mode random => exact h.checkpoint hsa mode random hs
  | rollback c =>
    cases hs
    exact h.rollback hsa rfl ((h.conns c).start hsa)
  | giveUp c =>
    obtain ⟨-,hw,rfl⟩ := step_giveUp hs
    exact h.giveUp hw
  | openSavepoint c dirty dbSize =>
    obtain ⟨-,-,rfl⟩ := step_openSavepoint hs
    obtain ⟨hw,hb⟩ := hsa
    have hle := h.committed_le
    refine h.savepoint hw (appendAll_readLocks ..) (appendAll_writeLock ..) (by simp; omega)
      (by simpa using hb) ?_ ?_ ?_
    · unfold flushed
      split <;> rfl
    · unfold flushed
      split <;> rfl
    · intro sp hsp
      rcases mem_append.mp hsp with hsp | hsp
      · exact ((h.conns c).savepoints sp hsp).2
      · rw [mem_singleton.mp hsp]
        simp only [WalFileShared.currentFrameState,appendAll_maxFrame]
        omega
  | rollbackToSavepoint c index =>
    obtain ⟨sp,hsp,rfl⟩ := step_rollbackToSavepoint hs
    obtain ⟨hw,hle,hb⟩ := (h.conns c).savepoints sp (mem_of_getElem? hsp)
    exact h.savepoint hw rfl rfl hle hb rfl rfl fun sp' hsp' =>
      ((h.conns c).savepoints sp' (mem_of_mem_take hsp')).2
  | releaseSavepoint c index =>
    obtain ⟨hlen,rfl⟩ := step_releaseSavepoint hs
    have hw : (S.conns c).writing = true :=
      ((h.conns c).savepoints _ (getElem_mem hlen)).1
    exact h.savepoint hw (s := S.shared) rfl rfl h.committed_le h.bound rfl rfl fun sp' hsp' =>
      ((h.conns c).savepoints sp' (mem_of_mem_take hsp')).2

end MarkInv

end System

end OxiSql.Wal
