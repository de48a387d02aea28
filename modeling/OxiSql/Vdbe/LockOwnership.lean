import OxiSql.Lib.Counting
import OxiSql.Vdbe.Txn
import OxiSql.Wal.Views

namespace OxiSql.Vdbe
open Lib Wal Function LimboRwLock

def Connection.Writes (k : Connection) : Prop :=
  k.transactionState = .write

instance : DecidablePred Connection.Writes :=
  fun _ => inferInstanceAs (Decidable (_ = _))

def Connection.ReadsAt (i : Slot) (k : Connection) : Prop :=
  k.transactionState ≠ .none ∧ k.wal.maxFrameReadLockIndex = i

instance (i : Slot) : DecidablePred (Connection.ReadsAt i) :=
  fun _ => inferInstanceAs (Decidable (_ ∧ _))

def Connection.new (pageSize : Nat) : Connection :=
  ⟨WalFile.new pageSize, .none, true, []⟩

namespace Database

/-- Every lock belongs to a connection that is in the transaction it is for. -/
structure LockOwnership (D : Database n) : Prop where
  writeLock : D.shared.writeLock.lock = .writeLock ↔ countWhere D.conns Connection.Writes = 1
  readLocks : ∀ i, (D.shared.readLocks i).nreads = countWhere D.conns (Connection.ReadsAt i)

instance (D : Database n) : Decidable D.LockOwnership :=
  decidable_of_iff (_ ∧ _) ⟨fun h => ⟨h.1, h.2⟩, fun h => ⟨h.1, h.2⟩⟩

/-- `begin_read_tx` will find a slot and `begin_write_tx` will then find the lock taken. -/
def StrandsReadLock (D : Database n) (c : Fin n) : Prop :=
  (D.conns c).transactionState = .none ∧ ¬ NoMark D.shared.readLocks D.shared.maxFrame ∧
    D.shared.writeLock.lock ≠ .noLock

instance (D : Database n) (c : Fin n) : Decidable (D.StrandsReadLock c) :=
  inferInstanceAs (Decidable (_ ∧ _ ∧ _))

/-- When an instruction leaves no lock behind: a `ROLLBACK` must have none to release, and one
that needs both locks must not get only the first. -/
def LockSafe (D : Database n) : Insn n → Prop
  | .transaction c write cookie =>
    cookie = D.schemaCookie → write = true → D.readOnly = false → ¬ D.StrandsReadLock c
  | .autoCommit c autoCommit rollback resuming _ _ =>
    resuming = false → autoCommit ≠ (D.conns c).autoCommit → rollback = true →
      (D.conns c).transactionState = .none
  | .savepoint c .begin _ resuming _ _ =>
    resuming = false → (D.conns c).autoCommit = true → ¬ D.StrandsReadLock c
  | _ => True

instance (D : Database n) : ∀ i, Decidable (D.LockSafe i)
  | .transaction .. => inferInstanceAs (Decidable (_ → _))
  | .autoCommit .. => inferInstanceAs (Decidable (_ → _))
  | .savepoint _ .begin .. => inferInstanceAs (Decidable (_ → _))
  | .savepoint _ .release .. | .savepoint _ .rollbackTo .. | .halt .. | .checkpoint .. =>
    isTrue trivial

/-- Ownership with what keeps it: no slot of the read-lock table is exclusive, and no two
connections write. -/
structure LockInv (D : Database n) : Prop where
  table : TableShared D.shared.readLocks
  readers : ∀ i, (D.shared.readLocks i).nreads = countWhere D.conns (Connection.ReadsAt i)
  writer :
    D.shared.writeLock.lock = .writeLock ∧ countWhere D.conns Connection.Writes = 1 ∨
    D.shared.writeLock.lock = .noLock ∧ countWhere D.conns Connection.Writes = 0

variable {D : Database n}

theorem LockInv.owned (h : LockInv D) : D.LockOwnership where
  writeLock := by
    rcases h.writer with ⟨hl,hc⟩ | ⟨hl,hc⟩
    · simp [hl,hc]
    · simp [hl,hc]
  readLocks := h.readers

@[simp] theorem setConn_setConn : (D.setConn c k).setConn c k' = D.setConn c k' := by
  simp [setConn]

@[simp] theorem conns_setConn : (D.setConn c k).conns c = k :=
  update_self ..

theorem setConn_self (D : Database n) (c : Fin n) : D.setConn c (D.conns c) = D := by
  simp [setConn]

@[simp] theorem shared_setConn : (D.setConn c k).shared = D.shared :=
  rfl

/-- The locks and the beliefs of two states agree. -/
structure SameLocks (D D' : Database n) : Prop where
  lock : ∀ i, (D'.shared.readLocks i).lock = (D.shared.readLocks i).lock
  nreads : ∀ i, (D'.shared.readLocks i).nreads = (D.shared.readLocks i).nreads
  writeLock : D'.shared.writeLock = D.shared.writeLock
  state : ∀ d, (D'.conns d).transactionState = (D.conns d).transactionState
  slot : ∀ d, (D'.conns d).wal.maxFrameReadLockIndex = (D.conns d).wal.maxFrameReadLockIndex

theorem SameLocks.refl (D : Database n) : SameLocks D D :=
  ⟨fun _ => rfl,fun _ => rfl,rfl,fun _ => rfl,fun _ => rfl⟩

theorem SameLocks.shared (hr : s.readLocks = D.shared.readLocks) (hw : s.writeLock = D.shared.writeLock) :
    SameLocks D { D with shared := s } :=
  ⟨fun i => by rw [hr],fun i => by rw [hr],hw,fun _ => rfl,fun _ => rfl⟩

variable {k : Connection}

/-- A connection that keeps its transaction state and its slot keeps its locks. -/
theorem SameLocks.setConn (h : SameLocks D D') (hs : k.transactionState = (D.conns c).transactionState)
    (hi : k.wal.maxFrameReadLockIndex = (D.conns c).wal.maxFrameReadLockIndex) :
    SameLocks D (D'.setConn c k) := by
  refine ⟨h.lock,h.nreads,h.writeLock,fun d => ?_,fun d => ?_⟩
  · by_cases hd : d = c
    · subst hd
      simpa using hs
    · simpa [Database.setConn,update_of_ne hd] using h.state d
  · by_cases hd : d = c
    · subst hd
      simpa using hi
    · simpa [Database.setConn,update_of_ne hd] using h.slot d

section

variable (h : LockInv D)
include h

theorem LockInv.congr (hs : SameLocks D D') : LockInv D' where
  table := by
    intro i
    obtain ⟨hfr,hhe,hex⟩ := h.table i
    refine ⟨?_,?_,?_⟩
    · rw [hs.lock,hs.nreads]
      exact hfr
    · rw [hs.lock,hs.nreads]
      exact hhe
    · rw [hs.lock]
      exact hex
  readers := by
    intro i
    rw [hs.nreads,h.readers]
    apply countWhere_congr
    simp [Connection.ReadsAt,hs.state,hs.slot]
  writer := by
    have hco : countWhere D'.conns Connection.Writes = countWhere D.conns Connection.Writes := by
      apply countWhere_congr
      simp [Connection.Writes,hs.state]
    rw [hs.writeLock,hco]
    exact h.writer

/-- One connection changes its transaction and the locks change with it. -/
theorem LockInv.change (ht : TableShared s.readLocks)
    (hr : ∀ i, (s.readLocks i).nreads + (if (D.conns c).ReadsAt i then 1 else 0) =
      (D.shared.readLocks i).nreads + (if k.ReadsAt i then 1 else 0))
    (hw : s.writeLock.lock = D.shared.writeLock.lock ∧ (k.Writes ↔ (D.conns c).Writes) ∨
      s.writeLock.lock = .writeLock ∧ D.shared.writeLock.lock = .noLock ∧ k.Writes ∨
      s.writeLock.lock = .noLock ∧ (D.conns c).Writes ∧ ¬ k.Writes) :
    LockInv ({ D with shared := s }.setConn c k) where
  table := ht
  readers := by
    intro i
    have hco := countWhere_update D.conns (Connection.ReadsAt i) c k
    have := hr i
    have := h.readers i
    change (s.readLocks i).nreads = countWhere (update D.conns c k) (Connection.ReadsAt i)
    omega
  writer := by
    have hco := countWhere_update D.conns Connection.Writes c k
    change s.writeLock.lock = .writeLock ∧ countWhere (update D.conns c k) Connection.Writes = 1 ∨
      s.writeLock.lock = .noLock ∧ countWhere (update D.conns c k) Connection.Writes = 0
    rcases hw with ⟨hl,hk⟩ | ⟨hl,hfr,hk⟩ | ⟨hl,hc,hk⟩
    · simp only [hk] at hco
      rw [hl,Nat.add_right_cancel hco]
      exact h.writer
    · have hze : countWhere D.conns Connection.Writes = 0 := by
        rcases h.writer with ⟨hl',-⟩ | ⟨-,hc⟩
        · simp [hfr] at hl'
        · exact hc
      have hnot : ¬ (D.conns c).Writes := by
        intro hc
        have := countWhere_pos (P := Connection.Writes) hc
        omega
      simp only [hk,hnot,↓reduceIte] at hco
      exact .inl ⟨hl,by omega⟩
    · have hone : countWhere D.conns Connection.Writes = 1 := by
        have := countWhere_pos (P := Connection.Writes) hc
        rcases h.writer with ⟨-,hc⟩ | ⟨-,hc⟩ <;> omega
      simp only [hk,hc,↓reduceIte] at hco
      exact .inr ⟨hl,by omega⟩

/-- A slot whose count moves without its readers is no longer accounted for. -/
theorem LockInv.unowned (i : Slot) (hr : (s.readLocks i).nreads + (if (D.conns c).ReadsAt i then 1 else 0) ≠
      (D.shared.readLocks i).nreads + (if k.ReadsAt i then 1 else 0)) :
    ¬ ({ D with shared := s }.setConn c k).LockOwnership := by
  intro ho
  have hnew : (s.readLocks i).nreads = countWhere (update D.conns c k) (Connection.ReadsAt i) := ho.readLocks i
  have hco := countWhere_update D.conns (Connection.ReadsAt i) c k
  have hold := h.readers i
  omega

omit h in
theorem cacheflush_conns : (D.cacheflush c flush).conns = D.conns := by
  unfold cacheflush
  simp only
  split <;> rfl

omit h in
/-- Appending frames and checkpointing take and release nothing. -/
theorem SameLocks.cacheflush (D : Database n) (c : Fin n) (flush : Flush) :
    SameLocks D (D.cacheflush c flush) := by
  unfold Database.cacheflush
  simp only
  split
  · refine ⟨fun i => ?_,fun i => ?_,?_,fun _ => rfl,fun _ => rfl⟩
    · simp [checkpoint_readLocks,startCheckpoint_lock]
    · simp [checkpoint_readLocks,startCheckpoint_lock]
    · simp [checkpoint_writeLock]
  · exact ⟨by simp,by simp,by simp,fun _ => rfl,fun _ => rfl⟩

/-- A connection in a transaction is one of the readers counted at its slot. -/
theorem LockInv.nreads_pos (hc : (D.conns c).transactionState ≠ .none) :
    0 < (D.shared.readLocks (D.conns c).wal.maxFrameReadLockIndex).nreads := by
  rw [h.readers]
  exact countWhere_pos (P := Connection.ReadsAt _) ⟨hc,rfl⟩

omit h in
theorem table_endReadTx (ht : TableShared s.readLocks) {w : WalFile}
    (hn : 0 < (s.readLocks w.maxFrameReadLockIndex).nreads) : TableShared (w.endReadTx s).readLocks := by
  intro i
  change (update s.readLocks _ _ i).Shared
  by_cases hi : i = w.maxFrameReadLockIndex
  · subst hi
    rw [update_self]
    exact ((ht _).unlock_spec hn).1
  · rw [update_of_ne hi]
    exact ht i

omit h in
theorem nreads_endReadTx (ht : TableShared s.readLocks) {w : WalFile}
    (hn : 0 < (s.readLocks w.maxFrameReadLockIndex).nreads) (i : Slot) :
    ((w.endReadTx s).readLocks i).nreads + (if w.maxFrameReadLockIndex = i then 1 else 0) =
      (s.readLocks i).nreads := by
  change (update s.readLocks _ _ i).nreads + _ = _
  by_cases hi : w.maxFrameReadLockIndex = i
  · subst hi
    have := ((ht _).unlock_spec hn).2.1
    simp only [update_self,↓reduceIte]
    omega
  · simp [update_of_ne (Ne.symm hi),hi]

theorem LockInv.endRead (hc : (D.conns c).transactionState ≠ .none) (hk : k.transactionState = .none)
    (hs : s.readLocks = ((D.conns c).wal.endReadTx D.shared).readLocks)
    (hw : s.writeLock.lock = D.shared.writeLock.lock ∧ (D.conns c).transactionState = .read ∨
      s.writeLock.lock = .noLock ∧ (D.conns c).transactionState = .write) :
    LockInv ({ D with shared := s }.setConn c k) := by
  have hpos := h.nreads_pos hc
  refine h.change ?_ ?_ ?_
  · rw [hs]
    exact table_endReadTx h.table hpos
  · intro i
    have := nreads_endReadTx h.table hpos i
    simpa [Connection.ReadsAt,hk,hc,hs] using this
  · rcases hw with ⟨hl,hr⟩ | ⟨hl,hr⟩
    · exact .inl ⟨hl,by simp [Connection.Writes,hk,hr]⟩
    · exact .inr (.inr ⟨hl,by simp [Connection.Writes,hk,hr]⟩)

/-- Whatever a commit comes to, locks and transaction states go together. -/
theorem LockInv.commitTxn (c : Fin n) (resuming : Bool)
    (aux : AuxEnd) (flush : Flush) : LockInv (D.commitTxn c resuming aux flush).2 := by
  unfold Database.commitTxn
  simp only
  split
  · exact h
  · cases aux with
    | io | failed e => exact h
    | done =>
      cases hc : (D.conns c).transactionState with
      | none => exact h
      | read => exact h.endRead (by simp [hc]) rfl rfl (.inl ⟨rfl,hc⟩)
      | write =>
        have hfl := h.congr (SameLocks.cacheflush D c flush)
        have hst : ((D.cacheflush c flush).conns c).transactionState = .write := by
          rw [cacheflush_conns,hc]
        simp only [endTx]
        cases flush.status with
        | io | failed e => exact hfl
        | done =>
          simp only [setConn_setConn]
          refine hfl.endRead (by simp [hst]) rfl rfl (.inr ⟨?_,hst⟩)
          have hhe : (D.cacheflush c flush).shared.writeLock.lock = .writeLock := by
            have := countWhere_pos (P := Connection.Writes) hst
            rcases hfl.writer with ⟨hl,-⟩ | ⟨-,hz⟩
            · exact hl
            · omega
          simp [WalFile.endReadTx,WalFile.endWriteTx,unlock,hhe]

omit h in
theorem nreads_acquire : (acquire locks i mark j).nreads = (locks j).nreads + (if i = j then 1 else 0) := by
  by_cases hij : j = i
  · subst hij
    simp [acquire_same]
  · simp [acquire_of_ne hij,Ne.symm hij]

def readLocked (D : Database n) (c : Fin n) (i : Slot) (mark : Nat) : Database n :=
  { D with shared := { D.shared with readLocks := acquire D.shared.readLocks i mark } }.setConn c
    { D.conns c with
      wal := { (D.conns c).wal with
        minFrame := D.shared.nbackfills + 1, maxFrameReadLockIndex := i, maxFrame := mark } }

omit h in
theorem beginRead_cases (ht : TableShared D.shared.readLocks) :
    (NoMark D.shared.readLocks D.shared.maxFrame ∧ D.beginRead c = (.busy,D)) ∨
    ∃ i mark, ¬ NoMark D.shared.readLocks D.shared.maxFrame ∧ D.beginRead c = (.ok,D.readLocked c i mark) := by
  rcases beginReadTx_cases (D.conns c).wal ht with ⟨hn,hb⟩ | ⟨i,mark,hm,hb⟩
  · refine .inl ⟨hn,?_⟩
    simp only [beginRead,hb]
    exact Prod.ext rfl (setConn_self D c)
  · exact .inr ⟨i,mark,hm.not_noMark,by simp only [beginRead,hb,readLocked]⟩

def writeLocked (D : Database n) (c : Fin n) : Database n :=
  { D with shared := { D.shared with
      writeLock := { D.shared.writeLock with lock := .writeLock } } }.setConn c
    { D.conns c with
      wal := { (D.conns c).wal with
        txnStartMaxFrame := D.shared.maxFrame
        txnStartLastChecksum := D.shared.lastChecksum } }

omit h in
theorem beginWrite_free (hf : D.shared.writeLock.lock = .noLock) : D.beginWrite c = (.ok,D.writeLocked c) := by
  simp [beginWrite,WalFile.beginWriteTx,write,hf,writeLocked]

omit h in
theorem beginWrite_held (hf : D.shared.writeLock.lock ≠ .noLock) : D.beginWrite c = (.busy,D) := by
  have hw : ¬ D.shared.writeLock.write.1 = true := fun h => hf (write_ok.mp h)
  simp only [beginWrite,WalFile.beginWriteTx,hw]
  exact Prod.ext rfl (setConn_self D c)

def entered (D : Database n) (c : Fin n) (write : Bool) : Database n :=
  D.setConn c { D.conns c with transactionState := if write then .write else .read }

theorem LockInv.readLocked (hc : (D.conns c).transactionState = .none) (i : Slot) (mark : Nat) :
    LockInv ((D.readLocked c i mark).entered c false) := by
  simp only [Database.readLocked,entered,setConn_setConn]
  refine h.change (table_acquire h.table) ?_ (.inl ⟨rfl,by simp [Connection.Writes,hc]⟩)
  simp [nreads_acquire,Connection.ReadsAt,hc]

/-- The read lock without the transaction is a lock nobody owns. -/
theorem LockInv.stranded (hc : (D.conns c).transactionState = .none) :
    ¬ (D.readLocked c i mark).LockOwnership := by
  apply h.unowned i
  simp [nreads_acquire,Connection.ReadsAt,hc]

omit h in
/-- A reader that takes the free write lock becomes the writer. -/
theorem LockInv.writeLocked (h : LockInv (D.entered c false))
    (hf : D.shared.writeLock.lock = .noLock) : LockInv ((D.writeLocked c).entered c true) := by
  have hke := h.change (s := { D.shared with
      writeLock := { D.shared.writeLock with lock := .writeLock } }) (c := c)
    (k := ((D.writeLocked c).entered c true).conns c) h.table ?_ (.inr (.inl ⟨rfl,hf,?_⟩))
  · simpa [Database.writeLocked,entered,Database.setConn] using hke
  · simp [entered,Database.writeLocked,Connection.ReadsAt]
  · simp [entered,Connection.Writes]

/-- Taking the locks a connection does not have yet: all of them, none of them, or only the
read lock, which then nobody owns. -/
theorem LockInv.acquireLocks (hc : (D.conns c).transactionState ≠ .write) (write : Bool) :
    (∃ D', D.acquireLocks c ((D.conns c).transactionState = .none) write = (.ok,D') ∧
      ¬ (write = true ∧ D.StrandsReadLock c) ∧ LockInv (D'.entered c write)) ∨
    (D.acquireLocks c ((D.conns c).transactionState = .none) write = (.busy,D) ∧
      ¬ (write = true ∧ D.StrandsReadLock c)) ∨
    (write = true ∧ D.StrandsReadLock c ∧ ∃ D',
      D.acquireLocks c ((D.conns c).transactionState = .none) write = (.busy,D') ∧
      ¬ D'.LockOwnership) := by
  have hdo : (D.conns c).transactionState ≠ .none → LockInv (D.entered c false) := by
    intro hn
    have hr : (D.conns c).transactionState = .read := by
      cases hs : (D.conns c).transactionState with
      | write => exact absurd hs hc
      | read => rfl
      | none => exact absurd hs hn
    have he : D.entered c false = D := by
      exact (congrArg (D.setConn c) (by cases hk : D.conns c; simp_all)).trans (setConn_self D c)
    rwa [he]
  by_cases hn : (D.conns c).transactionState = .none
  · simp only [Database.acquireLocks,hn,decide_true,↓reduceIte]
    rcases beginRead_cases h.table with ⟨hno,hb⟩ | ⟨i,mark,hyes,hb⟩
    · exact .inr (.inl ⟨by rw [hb],fun hs => hs.2.2.1 hno⟩)
    · simp only [hb]
      cases write with
      | false => exact .inl ⟨_,rfl,by simp,h.readLocked hn i mark⟩
      | true =>
        simp only [true_and]
        by_cases hf : (D.readLocked c i mark).shared.writeLock.lock = .noLock
        · exact .inl ⟨_,beginWrite_free hf,fun hs => hs.2.2 hf,(h.readLocked hn i mark).writeLocked hf⟩
        · exact .inr (.inr ⟨⟨hn,hyes,hf⟩,_,beginWrite_held hf,h.stranded hn⟩)
  · have hnot : ¬ D.StrandsReadLock c := fun hs => hn hs.1
    simp only [hn]
    cases write with
    | false => exact .inl ⟨D,rfl,fun hs => hnot hs.2,hdo hn⟩
    | true =>
      simp only [true_and]
      by_cases hf : D.shared.writeLock.lock = .noLock
      · exact .inl ⟨_,beginWrite_free hf,hnot,(hdo hn).writeLocked hf⟩
      · exact .inr (.inl ⟨beginWrite_held hf,hnot⟩)

/-- A step keeps the locks accounted for exactly when `safe`. -/
structure Settles (safe : Prop) (D : Database n) : Prop where
  kept : safe → LockInv D
  broken : ¬ safe → ¬ D.LockOwnership

theorem LockInv.settles (hs : safe) : Settles safe D :=
  ⟨fun _ => h,fun hn => absurd hs hn⟩

omit h in
theorem Settles.of_not_owned {safe : Prop} (hs : ¬ safe) (h : ¬ D.LockOwnership) : Settles safe D :=
  ⟨fun hs' => absurd hs' hs,fun _ => h⟩

theorem opTransaction_settles (write : Bool) :
    Settles (D.LockSafe (.transaction c write cookie)) (D.opTransaction c write cookie).2 := by
  unfold opTransaction
  simp only [LockSafe]
  split
  · rename_i hco
    exact h.settles fun he => absurd he hco
  split
  · rename_i hro
    exact h.settles fun _ _ hr => by simp [hr] at hro
  rename_i hco hro
  split
  · rename_i hid
    refine h.settles fun _ hw _ hs => ?_
    simp [nextState,hs.1,hw] at hid
  · rename_i hid
    have hsta : (D.conns c).transactionState ≠ .write := by
      intro hs
      simp [nextState,hs] at hid
    have hnew : (nextState (D.conns c).transactionState write).1 = if write then .write else .read := by
      cases hs : (D.conns c).transactionState <;> cases write <;> simp_all [nextState]
    have hwr : decide ((nextState (D.conns c).transactionState write).1 = .write) = write := by
      rw [hnew]
      cases write <;> rfl
    rw [hwr]
    rcases h.acquireLocks hsta write with ⟨D',he,hs,hi⟩ | ⟨he,hs⟩ | ⟨hw,hs,D',he,ho⟩
    · simp only [he,hnew]
      exact LockInv.settles hi fun _ hw _ hst => hs ⟨hw,hst⟩
    · simp only [he]
      exact h.settles fun _ hw _ hst => hs ⟨hw,hst⟩
    · simp only [he]
      refine .of_not_owned (fun hsa => hsa ?_ hw ?_ hs) ho
      · simpa using hco
      · simpa [hw] using hro

omit h in
theorem SameLocks.openSavepoint (D : Database n) (c : Fin n) (name : String) (owner : Bool)
    (flush : Flush) : SameLocks D (D.openSavepoint c name owner flush) := by
  refine (SameLocks.shared ?_ ?_).setConn rfl ?_
  · exact appendAll_readLocks ..
  · exact appendAll_writeLock ..
  · split <;> rfl

theorem opAutoCommit_settles (autoCommit rollback resuming : Bool) :
    Settles (D.LockSafe (.autoCommit c autoCommit rollback resuming aux flush))
      (D.opAutoCommit c autoCommit rollback resuming aux flush).2 := by
  unfold opAutoCommit
  split
  · rename_i hr
    exact (h.commitTxn ..).settles fun hn => by simp [hn] at hr
  split
  · rename_i hr hac
    split
    · rename_i hrb
      -- `ROLLBACK`: the connection forgets its transaction, the locks stay as they were.
      simp only [Database.rollback,setConn_setConn,conns_setConn]
      by_cases hn : (D.conns c).transactionState = .none
      · refine (h.congr ?_).settles fun _ _ _ => hn
        apply SameLocks.setConn
        · exact SameLocks.shared rfl rfl
        · exact hn.symm
        · rfl
      · refine .of_not_owned (fun hs => hn (hs (by simpa using hr) hac hrb)) ?_
        apply h.unowned (D.conns c).wal.maxFrameReadLockIndex
        simp [Connection.ReadsAt,hn,WalFile.rollback,WalFileShared.rollbackToFrame,WalFileShared.retain]
    · rename_i hrb
      have hsa := h.congr ((SameLocks.refl D).setConn (c := c)
        (k := { D.conns c with autoCommit := autoCommit }) rfl rfl)
      exact (hsa.commitTxn ..).settles fun _ _ h => absurd h hrb
  · rename_i hac
    split
    · exact h.settles fun _ hne => absurd hne hac
    · split <;> exact h.settles fun _ hne => absurd hne hac

theorem opSavepoint_settles : Settles (D.LockSafe (.savepoint c op name resuming aux flush))
      (D.opSavepoint c op name resuming aux flush).2 := by
  unfold opSavepoint
  split
  · rename_i hr
    refine (h.commitTxn ..).settles ?_
    cases op with
    | begin => exact fun hn => by simp [hn] at hr
    | release | rollbackTo => trivial
  rename_i hr
  cases op with
  | begin =>
    simp only [LockSafe]
    split
    · rename_i hac
      by_cases hw : (D.conns c).transactionState = .write
      · -- Already writing: both locks are there.
        have hsa := (SameLocks.refl D).setConn (c := c)
          (k := { D.conns c with transactionState := .write, autoCommit := false }) hw.symm rfl
        have hke := (h.congr hsa).congr (SameLocks.openSavepoint _ c name true flush)
        simp only [hw]
        exact hke.settles fun _ _ hs => by simp [hs.1] at hw
      · simp only [ne_eq,hw,not_false_eq_true,decide_true]
        rcases h.acquireLocks hw true with ⟨D',he,hs,hi⟩ | ⟨he,hs⟩ | ⟨-,hs,D',he,ho⟩
        · simp only [he]
          have hsa := (SameLocks.refl (D'.entered c true)).setConn (c := c)
            (k := { D'.conns c with transactionState := .write, autoCommit := false })
            (by simp [entered]) (by simp [entered])
          have hke := (hi.congr hsa).congr (SameLocks.openSavepoint _ c name true flush)
          simp only [entered,setConn_setConn] at hke
          exact hke.settles fun _ _ hst => hs ⟨rfl,hst⟩
        · simp only [he]
          exact h.settles fun _ _ hst => hs ⟨rfl,hst⟩
        · simp only [he]
          exact .of_not_owned (fun hsaf => hsaf (by simpa using hr) hac hs) ho
    · rename_i hac
      exact (h.congr (SameLocks.openSavepoint ..)).settles fun _ h => absurd h hac
  | release =>
    simp only
    split
    · exact h.settles trivial
    · rename_i isOwner savepoints he
      have hsa := (SameLocks.refl D).setConn (c := c)
        (k := { D.conns c with savepoints := savepoints }) rfl rfl
      split
      · exact ((h.congr (hsa.setConn (c := c) (by simp) (by simp))).commitTxn ..).settles trivial
      · exact (h.congr hsa).settles trivial
  | rollbackTo =>
    simp only
    split
    · exact h.settles trivial
    · refine (h.congr ?_).settles trivial
      apply SameLocks.setConn
      · exact SameLocks.shared rfl rfl
      · rfl
      · rfl

theorem opCheckpoint_lockInv : LockInv (D.opCheckpoint c mode random).2 := by
  apply h.congr
  refine ⟨fun i => ?_,fun i => ?_,?_,fun _ => rfl,fun _ => rfl⟩
  · simp [opCheckpoint,checkpoint_readLocks,startCheckpoint_lock]
  · simp [opCheckpoint,checkpoint_readLocks,startCheckpoint_lock]
  · simp [opCheckpoint,checkpoint_writeLock]

theorem exec_settles (i : Insn n) : Settles (D.LockSafe i) (D.exec i).2 := by
  cases i with
  | transaction c write cookie => exact opTransaction_settles h write
  | autoCommit c ac rb resuming aux flush => exact opAutoCommit_settles h ac rb resuming
  | savepoint c op name resuming aux flush => exact opSavepoint_settles h
  | halt c errCode description resuming aux flush =>
    simp only [exec,opHalt]
    split
    · exact h.settles trivial
    · exact (h.commitTxn ..).settles trivial
  | checkpoint c mode random => exact (opCheckpoint_lockInv h).settles trivial

end

structure Opened (pageSize : Nat) (D : Database n) : Prop where
  readLocks : ∀ i, D.shared.readLocks i = .new
  writeLock : D.shared.writeLock = .new
  conns : ∀ c, D.conns c = .new pageSize

theorem Opened.lockInv (h : D.Opened pageSize) : LockInv D where
  table := fun i => by
    rw [h.readLocks]
    exact .new
  readers := by
    simp [h.readLocks,new,countWhere,h.conns,Connection.ReadsAt,Connection.new]
  writer := by
    refine .inr ⟨by simp [h.writeLock,new],?_⟩
    simp [countWhere,h.conns,Connection.Writes,Connection.new]

def twoClients : Database 2 :=
  ⟨.openFresh .empty 512 1 2, fun _ => [], 0, false, fun _ => .new 512⟩

theorem opened_twoClients : twoClients.Opened 512 :=
  ⟨fun _ => rfl,rfl,fun _ => rfl⟩

def flushNothing : Flush :=
  ⟨[], 1, false, 0, .done⟩

/-- Over any run of any connections, every lock is owned in every state reached exactly when no
`ROLLBACK` ends a transaction and no instruction gets the read lock but not the write lock. -/
theorem locks_owned_iff {pageSize : Nat} {D : Database n} (h : D.Opened pageSize) (is : List (Insn n)) :
    (∀ k D', run step D (is.take k) = some D' → D'.LockOwnership) ↔ Meets step LockSafe D is := by
  refine reached_iff_meets (I := LockInv) (fun _ => LockInv.owned) ?_ ?_ h.lockInv
  · intro D i hD
    have hs := exec_settles hD i
    constructor
    · intro hsa D' hD'
      cases hD'
      exact (hs.kept hsa).owned
    · intro ho
      by_contra hsa
      exact hs.broken hsa (ho _ rfl)
  · intro D i D' hD hsa hD'
    cases hD'
    exact (exec_settles hD i).kept hsa

/-- `BEGIN`, a write and `COMMIT` on one connection beside a reading statement on the other. -/
def commitBesideReader : List (Insn 2) :=
  [.autoCommit 0 false false false .done flushNothing, .transaction 0 true 0,
    .transaction 1 false 0, .autoCommit 0 true false false .done flushNothing,
    .halt 1 0 "" false .done flushNothing]

theorem commit_beside_reader_owned : twoClients.Opened 512 ∧
      ∀ k D', run step twoClients (commitBesideReader.take k) = some D' → D'.LockOwnership :=
  ⟨opened_twoClients,(locks_owned_iff opened_twoClients commitBesideReader).mpr (by decide +kernel)⟩

/-- `BEGIN`, a write and `ROLLBACK`. -/
def writeRolledBack : List (Insn 2) :=
  [.autoCommit 0 false false false .done flushNothing, .transaction 0 true 0,
    .autoCommit 0 true true false .done flushNothing]

/-- A write while the other connection writes. -/
def writeRefused : List (Insn 2) :=
  [.transaction 0 true 0, .transaction 1 true 0]

/-- A `ROLLBACK` leaves the write lock with nobody in a transaction, and a write that was
refused leaves a read lock behind. -/
theorem rollback_and_busy_keep_locks : (∃ D', run step twoClients writeRolledBack = some D' ∧
      (D'.shared.writeLock.lock = .writeLock ∧ (∀ c, (D'.conns c).transactionState = .none) ∧
        ¬ D'.LockOwnership)) ∧
    ∃ D', run step twoClients writeRefused = some D' ∧
      ((D'.conns 1).transactionState = .none ∧ ¬ D'.LockOwnership) := by
  refine ⟨?_,?_⟩
  · have hch : (run step twoClients writeRolledBack).any (fun D' =>
        decide (D'.shared.writeLock.lock = .writeLock ∧
          (∀ c, (D'.conns c).transactionState = .none) ∧ ¬ D'.LockOwnership)) = true := by
      decide +kernel
    obtain ⟨D',hrun,hD'⟩ := exists_of_run_any hch
    exact ⟨D',hrun,of_decide_eq_true hD'⟩
  · have hch : (run step twoClients writeRefused).any (fun D' =>
        decide ((D'.conns 1).transactionState = .none ∧ ¬ D'.LockOwnership)) = true := by
      decide +kernel
    obtain ⟨D',hrun,hD'⟩ := exists_of_run_any hch
    exact ⟨D',hrun,of_decide_eq_true hD'⟩

end Database

end OxiSql.Vdbe
