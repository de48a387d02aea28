import OxiSql.Lib.Runs
import OxiSql.Wal.Views

namespace OxiSql.Wal
open Bool Option

/-- A connection, with the transaction it believes it is in. `savepoints` are the frame
and checksum each open savepoint goes back to, oldest first. -/
structure Conn where
  wal : WalFile
  reading : Bool
  writing : Bool
  savepoints : List (Nat × Checksum)

def Conn.new (pageSize : Nat) : Conn :=
  ⟨WalFile.new pageSize, false, false, []⟩

structure System (n : Nat) where
  shared : WalFileShared
  db : DbFile
  conns : Fin n → Conn

inductive Op (n : Nat) where
  | beginReadTx (c : Fin n)
  | endReadTx (c : Fin n)
  | beginWriteTx (c : Fin n)
  | appendFrame (c : Fin n) (page : Nat) (content : PageBytes) (dbSize : UInt32)
  | endWriteTx (c : Fin n)
  | checkpoint (c : Fin n) (mode : CheckpointMode) (random : UInt32)
  | rollback (c : Fin n)
  | giveUp (c : Fin n)
  | openSavepoint (c : Fin n) (dirty : List (Nat × PageBytes)) (dbSize : UInt32)
  | rollbackToSavepoint (c : Fin n) (index : Nat)
  | releaseSavepoint (c : Fin n) (index : Nat)

namespace System

def setConn (S : System n) (c : Fin n) (k : Conn) : System n :=
  { S with conns := Function.update S.conns c k }

def setShared (S : System n) (s : WalFileShared) : System n :=
  { S with shared := s }

/-- One call of a connection into the WAL, with the guards its callers keep: no read
transaction inside another, writes only inside a write transaction, whole pages only. -/
def step (S : System n) : Op n → Option (System n)
  | .beginReadTx c =>
    let k := S.conns c
    if k.reading then none
    else match k.wal.beginReadTx S.shared with
      | (.ok, w, s) => some ((S.setShared s).setConn c { k with wal := w, reading := true })
      | (.busy, w, s) => some ((S.setShared s).setConn c { k with wal := w })
  | .endReadTx c =>
    let k := S.conns c
    if k.reading && !k.writing then
      some ((S.setShared (k.wal.endReadTx S.shared)).setConn c { k with reading := false })
    else none
  | .beginWriteTx c =>
    let k := S.conns c
    if k.reading && !k.writing then
      match k.wal.beginWriteTx S.shared with
      | (.ok, w, s) => some ((S.setShared s).setConn c { k with wal := w, writing := true })
      | (.busy, w, s) => some ((S.setShared s).setConn c { k with wal := w })
    else none
  | .appendFrame c page content dbSize =>
    let k := S.conns c
    if k.writing && content.length == k.wal.pageSize then
      some (S.setShared (k.wal.appendFrame S.shared page content dbSize))
    else none
  | .endWriteTx c =>
    let k := S.conns c
    if k.writing then
      some ((S.setShared (k.wal.endWriteTx S.shared)).setConn c
        { k with writing := false, savepoints := [] })
    else none
  | .checkpoint c mode random =>
    let (_, s, db) := (S.conns c).wal.checkpoint S.shared S.db mode random
    some { S with shared := s, db := db }
  | .rollback c =>
    -- `ROLLBACK` rewinds the log and forgets the transaction, but releases no lock.
    let k := S.conns c
    some ((S.setShared (k.wal.rollback S.shared)).setConn c
      { k with reading := false, writing := false, savepoints := [] })
  | .giveUp c =>
    -- `begin_write_tx` was busy right after `begin_read_tx`: the read lock stays behind.
    let k := S.conns c
    if k.reading && !k.writing then some (S.setConn c { k with reading := false }) else none
  | .openSavepoint c dirty dbSize =>
    let k := S.conns c
    if (k.writing || dirty.isEmpty) && dirty.all (fun page => page.2.length == k.wal.pageSize) then
      let s := k.wal.appendAll dbSize S.shared dirty
      let w := if dirty.isEmpty then k.wal else k.wal.setReaderMaxFrame s.maxFrame
      some ((S.setShared s).setConn c
        { k with wal := w, savepoints := k.savepoints ++ [s.currentFrameState] })
    else none
  | .rollbackToSavepoint c index =>
    let k := S.conns c
    match k.savepoints[index]? with
    | none => none
    | some sp =>
      some ((S.setShared (S.shared.rollbackToFrame sp.1 sp.2)).setConn c
        { k with
          wal := k.wal.setReaderMaxFrame sp.1
          savepoints := k.savepoints.take (index + 1) })
  | .releaseSavepoint c index =>
    let k := S.conns c
    if index < k.savepoints.length then
      some (S.setConn c { k with savepoints := k.savepoints.take index })
    else none

/-- The system right after the WAL was opened: whatever frames it holds, no lock is held,
nothing is backfilled and every connection is new. -/
structure Opened (pageSize : Nat) (S : System n) : Prop where
  log : S.shared.LogWf
  frames : S.shared.maxFrame < readmarkNotUsed
  nbackfills : S.shared.nbackfills = 0
  readLocks : ∀ i, S.shared.readLocks i = .new
  writeLock : S.shared.writeLock = .new
  conns : ∀ c, S.conns c = .new pageSize

def fresh (n pageSize : Nat) (salt1 salt2 : UInt32) (db : DbFile) : System n :=
  ⟨.openFresh .empty pageSize salt1 salt2, db, fun _ => .new pageSize⟩

theorem opened_fresh (salt1 salt2 : UInt32) (db : DbFile) :
    (fresh n pageSize salt1 salt2 db).Opened pageSize where
  log := ⟨fun _ => List.Pairwise.nil,nofun,nofun,fun _ => ⟨nofun,nofun⟩⟩
  frames := show 0 < readmarkNotUsed by decide
  nbackfills := rfl
  readLocks := fun _ => rfl
  writeLock := rfl
  conns := fun _ => rfl

section Inversion
variable {S S' : System n}

@[simp] theorem setConn_conns_same : (S.setConn c k).conns c = k :=
  Function.update_self ..

theorem setConn_conns_of_ne (h : d ≠ c) : (S.setConn c k).conns d = S.conns d :=
  Function.update_of_ne h ..

@[simp] theorem setConn_shared : (S.setConn c k).shared = S.shared := rfl

@[simp] theorem setShared_shared : (S.setShared s).shared = s := rfl

@[simp] theorem setShared_conns : (S.setShared s).conns = S.conns := rfl

theorem forall_setConn {P : Fin n → Conn → Prop} (hc : P c k) (hd : ∀ d, d ≠ c → P d (S.conns d)) :
    ∀ d, P d ((S.setConn c k).conns d) := by
  intro d
  by_cases h : d = c
  · subst h
    rwa [setConn_conns_same]
  · rw [setConn_conns_of_ne h]
    exact hd d h

@[simp] theorem setConn_self (S : System n) (c : Fin n) : S.setConn c (S.conns c) = S := by
  simp [setConn]

/-- The connection of `begin_read_tx` after it got `mark` on slot `i`. -/
def reader (S : System n) (c : Fin n) (i : Slot) (mark : Nat) : Conn :=
  { S.conns c with
    wal := { (S.conns c).wal with
      minFrame := S.shared.nbackfills + 1, maxFrameReadLockIndex := i, maxFrame := mark }
    reading := true }

theorem step_beginReadTx (hl : TableShared S.shared.readLocks) (h : S.step (.beginReadTx c) = some S') :
    (S.conns c).reading = false ∧ (S' = S ∨ ∃ i mark, MarkChoice S.shared.readLocks S.shared.maxFrame i mark ∧
        S' = (S.setShared { S.shared with readLocks := acquire S.shared.readLocks i mark }).setConn c
          (S.reader c i mark)) := by
  simp only [step] at h
  split at h
  · cases h
  · rename_i hr
    refine ⟨by simpa using hr,?_⟩
    rcases beginReadTx_cases (S.conns c).wal hl with ⟨-,hb⟩ | ⟨i,mark,hm,hb⟩
    · simp only [hb,some.injEq] at h
      exact .inl (h.symm.trans (setConn_self S c))
    · simp only [hb,some.injEq] at h
      exact .inr ⟨i,mark,hm,h.symm⟩

theorem step_guarded [Decidable g] (h : (if g then some T else none) = some S') : g ∧ T = S' := by
  simpa using h

theorem step_endReadTx (h : S.step (.endReadTx c) = some S') :
    (S.conns c).reading = true ∧ (S.conns c).writing = false ∧
      S' = (S.setShared ((S.conns c).wal.endReadTx S.shared)).setConn c
        { S.conns c with reading := false } := by
  obtain ⟨hg,rfl⟩ := step_guarded h
  simp only [and_eq_true,not_eq_eq_eq_not] at hg
  exact ⟨hg.1,hg.2,rfl⟩

theorem step_beginWriteTx (h : S.step (.beginWriteTx c) = some S') :
    (S.conns c).reading = true ∧ (S.conns c).writing = false ∧ (S' = S ∨ S.shared.writeLock.lock = .noLock ∧
        S' = (S.setShared { S.shared with
            writeLock := { S.shared.writeLock with lock := .writeLock } }).setConn c
          { S.conns c with
            wal := { (S.conns c).wal with
              txnStartMaxFrame := S.shared.maxFrame
              txnStartLastChecksum := S.shared.lastChecksum }
            writing := true }) := by
  simp only [step] at h
  split at h
  · rename_i hg
    simp only [and_eq_true,not_eq_eq_eq_not] at hg
    refine ⟨hg.1,hg.2,?_⟩
    by_cases hf : S.shared.writeLock.lock = .noLock
    · simp only [WalFile.beginWriteTx,LimboRwLock.write,hf,↓reduceIte,some.injEq] at h
      exact .inr ⟨hf,h.symm⟩
    · have hw : ¬ S.shared.writeLock.write.1 = true := fun hw => hf (LimboRwLock.write_ok.mp hw)
      simp only [WalFile.beginWriteTx,hw,false_eq_true,↓reduceIte,some.injEq] at h
      exact .inl (h.symm.trans (setConn_self S c))
  · cases h

theorem step_appendFrame (h : S.step (.appendFrame c page content dbSize) = some S') :
    (S.conns c).writing = true ∧ content.length = (S.conns c).wal.pageSize ∧
      S' = S.setShared ((S.conns c).wal.appendFrame S.shared page content dbSize) := by
  obtain ⟨hg,rfl⟩ := step_guarded h
  simp only [and_eq_true,beq_iff_eq] at hg
  exact ⟨hg.1,hg.2,rfl⟩

theorem step_endWriteTx (h : S.step (.endWriteTx c) = some S') : (S.conns c).writing = true ∧
      S' = (S.setShared { S.shared with writeLock := S.shared.writeLock.unlock }).setConn c
        { S.conns c with writing := false, savepoints := [] } := by
  obtain ⟨hg,rfl⟩ := step_guarded h
  exact ⟨hg,rfl⟩

theorem step_checkpoint (h : S.step (.checkpoint c mode random) = some S') : S'.conns = S.conns ∧
      S'.shared = ((S.conns c).wal.checkpoint S.shared S.db mode random).2.1 ∧
      S'.db = ((S.conns c).wal.checkpoint S.shared S.db mode random).2.2 := by
  cases h
  exact ⟨rfl,rfl,rfl⟩

theorem step_giveUp (h : S.step (.giveUp c) = some S') :
    (S.conns c).reading = true ∧ (S.conns c).writing = false ∧
      S' = S.setConn c { S.conns c with reading := false } := by
  obtain ⟨hg,rfl⟩ := step_guarded h
  simp only [and_eq_true,not_eq_eq_eq_not] at hg
  exact ⟨hg.1,hg.2,rfl⟩

/-- The handle of `open_savepoint`: the flush moves the read boundary only if it wrote. -/
def flushed (S : System n) (c : Fin n) (dirty : List (Nat × PageBytes)) (dbSize : UInt32) : WalFile :=
  if dirty.isEmpty then (S.conns c).wal
  else (S.conns c).wal.setReaderMaxFrame
    ((S.conns c).wal.appendAll dbSize S.shared dirty).maxFrame

theorem step_openSavepoint (h : S.step (.openSavepoint c dirty dbSize) = some S') :
    ((S.conns c).writing = true ∨ dirty = []) ∧ (∀ page ∈ dirty, page.2.length = (S.conns c).wal.pageSize) ∧
      S' = (S.setShared ((S.conns c).wal.appendAll dbSize S.shared dirty)).setConn c
        { S.conns c with
          wal := S.flushed c dirty dbSize
          savepoints := (S.conns c).savepoints ++
            [((S.conns c).wal.appendAll dbSize S.shared dirty).currentFrameState] } := by
  obtain ⟨hg,rfl⟩ := step_guarded h
  simp only [and_eq_true,or_eq_true,List.isEmpty_iff,List.all_eq_true,beq_iff_eq] at hg
  exact ⟨hg.1,hg.2,rfl⟩

theorem step_rollbackToSavepoint (h : S.step (.rollbackToSavepoint c index) = some S') :
    ∃ sp, (S.conns c).savepoints[index]? = some sp ∧
      S' = (S.setShared (S.shared.rollbackToFrame sp.1 sp.2)).setConn c
        { S.conns c with
          wal := (S.conns c).wal.setReaderMaxFrame sp.1
          savepoints := (S.conns c).savepoints.take (index + 1) } := by
  simp only [step] at h
  split at h
  · cases h
  · rename_i sp hsp
    exact ⟨sp,hsp,(some.inj h).symm⟩

theorem step_releaseSavepoint (h : S.step (.releaseSavepoint c index) = some S') :
    index < (S.conns c).savepoints.length ∧ S' = S.setConn c
        { S.conns c with savepoints := (S.conns c).savepoints.take index } := by
  obtain ⟨hg,rfl⟩ := step_guarded h
  exact ⟨hg,rfl⟩

end Inversion

end System

def blankPage : PageBytes :=
  List.replicate 512 0

def twoConnections : System 2 :=
  .fresh 2 512 0 0 fun _ => blankPage

def writeOnce {n : Nat} (c : Fin n) (page : Nat) (content : PageBytes) : List (Op n) :=
  [.beginReadTx c, .beginWriteTx c, .appendFrame c page content 2, .endWriteTx c]

end OxiSql.Wal
