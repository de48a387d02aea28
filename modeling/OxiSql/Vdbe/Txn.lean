import OxiSql.Lib.Runs
import OxiSql.Storage.Savepoints

namespace OxiSql.Vdbe
open Wal Storage

inductive TransactionState where
  | write
  | read
  | none
deriving DecidableEq

structure Connection where
  wal : WalFile
  transactionState : TransactionState
  autoCommit : Bool
  savepoints : List SavepointFrame

/-- Connections to one database. `schemaCookie` is the one in the shared database header. -/
structure Database (n : Nat) where
  shared : WalFileShared
  db : DbFile
  schemaCookie : UInt32
  readOnly : Bool
  conns : Fin n → Connection

/-- How a call of `Pager::cacheflush` ends. -/
inductive FlushStatus where
  | done
  | io
  | failed (e : LimboError)

/-- What one call of `Pager::cacheflush` does: the dirty pages it appends, whether it gets to
the checkpoint of a long log, and how it ends. -/
structure Flush where
  dirty : List (Nat × PageBytes)
  dbSize : UInt32
  checkpoint : Bool
  random : UInt32
  status : FlushStatus

/-- How far the commit of the attached databases gets; they have logs and locks of their own. -/
inductive AuxEnd where
  | done
  | io
  | failed (e : LimboError)

inductive SavepointOp where
  | begin
  | release
  | rollbackTo

/-- The instructions of the model. `resuming` says that the statement is in
`CommitState::Committing`. -/
inductive Insn (n : Nat) where
  | transaction (c : Fin n) (write : Bool) (schemaCookie : UInt32)
  | autoCommit (c : Fin n) (autoCommit rollback resuming : Bool) (aux : AuxEnd) (flush : Flush)
  | savepoint (c : Fin n) (op : SavepointOp) (name : String) (resuming : Bool) (aux : AuxEnd)
      (flush : Flush)
  | halt (c : Fin n) (errCode : Nat) (description : String) (resuming : Bool) (aux : AuxEnd)
      (flush : Flush)
  | checkpoint (c : Fin n) (mode : CheckpointMode) (random : UInt32)

inductive StepResult where
  | step
  | done
  | io
  | busy
deriving DecidableEq

/-- A call that may fail; what it changed before failing stays changed. -/
abbrev Outcome (n : Nat) := Except LimboError StepResult × Database n

namespace Database

def setConn (D : Database n) (c : Fin n) (k : Connection) : Database n :=
  { D with conns := Function.update D.conns c k }

def cacheflush (D : Database n) (c : Fin n) (flush : Flush) : Database n :=
  let w := (D.conns c).wal
  let s := w.appendAll flush.dbSize D.shared flush.dirty
  if flush.checkpoint && w.shouldCheckpoint s then
    let (_, s', db) := w.checkpoint s D.db .passive flush.random
    { D with shared := s', db := db }
  else { D with shared := s }

/-- `Pager::end_tx`: locks and savepoints go only when the flush is done. -/
def endTx (D : Database n) (c : Fin n) (flush : Flush) : Outcome n :=
  let D' := D.cacheflush c flush
  match flush.status with
  | .io => (.ok .io, D')
  | .failed e => (.error e, D')
  | .done =>
    let k := D'.conns c
    let s := k.wal.endReadTx (k.wal.endWriteTx D'.shared)
    (.ok .done, { D' with shared := s }.setConn c { k with savepoints := [] })

/-- `Program::commit_txn`, `step_end_write_txn` included. -/
def commitTxn (D : Database n) (c : Fin n) (resuming : Bool) (aux : AuxEnd) (flush : Flush) : Outcome n :=
  let k := D.conns c
  if !k.autoCommit && !resuming then (.ok .done, D)
  else match aux with
    | .io => (.ok .io, D)
    | .failed e => (.error e, D)
    | .done =>
      match k.transactionState with
      | .write =>
        match D.endTx c flush with
        | (.ok .done, D') =>
          (.ok .done, D'.setConn c { D'.conns c with transactionState := .none })
        | other => other
      | .read =>
        (.ok .done, { D with shared := k.wal.endReadTx D.shared }.setConn c
          { k with transactionState := .none })
      | .none => (.ok .done, D)

/-- The table of `op_transaction`: the state to go to, and whether anything changes. -/
def nextState (current : TransactionState) (write : Bool) : TransactionState × Bool :=
  match current, write with
  | .write, _ => (.write, false)
  | .read, true => (.write, true)
  | .read, false => (.read, false)
  | .none, true => (.write, true)
  | .none, false => (.read, true)

/-- Taking the read lock, as `op_transaction` and `op_savepoint` do when in no transaction. -/
def beginRead (D : Database n) (c : Fin n) : LimboResult × Database n :=
  let k := D.conns c
  let (r, w, s) := k.wal.beginReadTx D.shared
  (r, { D with shared := s }.setConn c { k with wal := w })

def beginWrite (D : Database n) (c : Fin n) : LimboResult × Database n :=
  let k := D.conns c
  let (r, w, s) := k.wal.beginWriteTx D.shared
  (r, { D with shared := s }.setConn c { k with wal := w })

/-- Both locks in turn. A busy write lock returns with the read lock still held. -/
def acquireLocks (D : Database n) (c : Fin n) (read write : Bool) : LimboResult × Database n :=
  match (if read then D.beginRead c else (.ok, D)) with
  | (.busy, D₁) => (.busy, D₁)
  | (.ok, D₁) => if write then D₁.beginWrite c else (.ok, D₁)

def opTransaction (D : Database n) (c : Fin n) (write : Bool) (schemaCookie : UInt32) : Outcome n :=
  if schemaCookie ≠ D.schemaCookie then (.error .schemaChanged, D)
  else if write && D.readOnly then (.error .readOnly, D)
  else
    let current := (D.conns c).transactionState
    let (new, updated) := nextState current write
    if !updated then (.ok .step, D)
    else match D.acquireLocks c (current = .none) (new = .write) with
      | (.busy, D') => (.ok .busy, D')
      | (.ok, D') => (.ok .step, D'.setConn c { D'.conns c with transactionState := new })

/-- `Pager::rollback`: the log is rewound and the savepoints are dropped. No lock is released. -/
def rollback (D : Database n) (c : Fin n) : Database n :=
  let k := D.conns c
  { D with shared := k.wal.rollback D.shared }.setConn c { k with savepoints := [] }

def opAutoCommit (D : Database n) (c : Fin n) (autoCommit rollback resuming : Bool)
    (aux : AuxEnd) (flush : Flush) : Outcome n :=
  if resuming then D.commitTxn c true aux flush
  else if autoCommit ≠ (D.conns c).autoCommit then
    if rollback then
      let D' := D.rollback c
      (.ok .done, D'.setConn c
        { D'.conns c with transactionState := .none, autoCommit := true })
    else (D.setConn c { D.conns c with autoCommit := autoCommit }).commitTxn c false aux flush
  else if !autoCommit then
    (.error (.txError "cannot start a transaction within a transaction"), D)
  else if rollback then
    (.error (.txError "cannot rollback - no transaction is active"), D)
  else (.error (.txError "cannot commit - no transaction is active"), D)

/-- `Pager::open_savepoint`. The reader boundary moves only if pages were flushed. -/
def openSavepoint (D : Database n) (c : Fin n) (name : String) (isTxnOwner : Bool)
    (flush : Flush) : Database n :=
  let k := D.conns c
  let s := k.wal.appendAll flush.dbSize D.shared flush.dirty
  let w := if flush.dirty.isEmpty then k.wal else k.wal.setReaderMaxFrame s.maxFrame
  { D with shared := s }.setConn c { k with
    wal := w
    savepoints := k.savepoints ++ [SavepointFrame.mk name s.maxFrame s.lastChecksum isTxnOwner] }

def opSavepoint (D : Database n) (c : Fin n) (op : SavepointOp) (name : String)
    (resuming : Bool) (aux : AuxEnd) (flush : Flush) : Outcome n :=
  if resuming then D.commitTxn c true aux flush
  else match op with
    | .begin =>
      if (D.conns c).autoCommit then
        let current := (D.conns c).transactionState
        match D.acquireLocks c (current = .none) (current ≠ .write) with
        | (.busy, D') => (.ok .busy, D')
        | (.ok, D') =>
          let started := D'.setConn c
            { D'.conns c with transactionState := .write, autoCommit := false }
          (.ok .step, started.openSavepoint c name true flush)
      else (.ok .step, D.openSavepoint c name false flush)
    | .release =>
      match releaseSavepoint (D.conns c).savepoints name with
      | .error e => (.error e, D)
      | .ok (isOwner, savepoints) =>
        let released := D.setConn c { D.conns c with savepoints := savepoints }
        if isOwner then
          (released.setConn c { released.conns c with autoCommit := true }).commitTxn c false aux
            flush
        else (.ok .done, released)
    | .rollbackTo =>
      match savepointTarget (D.conns c).savepoints name with
      | .error e => (.error e, D)
      | .ok (sp, savepoints) =>
        let s := D.shared.rollbackToFrame sp.walMaxFrame sp.walChecksum
        (.ok .step, { D with shared := s }.setConn c { D.conns c with
          wal := (D.conns c).wal.setReaderMaxFrame sp.walMaxFrame
          savepoints := savepoints })

def sqliteConstraint : Nat := 19

def sqliteConstraintPrimarykey : Nat := sqliteConstraint ||| (6 <<< 8)

def sqliteConstraintNotnull : Nat := sqliteConstraint ||| (5 <<< 8)

def sqliteConstraintTrigger : Nat := sqliteConstraint ||| (7 <<< 8)

def haltError (errCode : Nat) (description : String) : LimboError :=
  if errCode = sqliteConstraintPrimarykey then
    .constraint s!"UNIQUE constraint failed: {description} (19)"
  else if errCode = sqliteConstraintNotnull then
    .constraint s!"NOTNULL constraint failed: {description} (19)"
  else if errCode = sqliteConstraintTrigger then .constraint description
  else .constraint s!"undocumented halt error code {description}"

/-- `op_halt`: an error drops the cached pages and nothing else; otherwise the statement
commits. -/
def opHalt (D : Database n) (c : Fin n) (errCode : Nat) (description : String) (resuming : Bool)
    (aux : AuxEnd) (flush : Flush) : Outcome n :=
  if errCode ≠ 0 then (.error (haltError errCode description), D)
  else D.commitTxn c resuming aux flush

def opCheckpoint (D : Database n) (c : Fin n) (mode : CheckpointMode) (random : UInt32) : Outcome n :=
  let (_, s, db) := (D.conns c).wal.checkpoint D.shared D.db mode random
  (.ok .step, { D with shared := s, db := db })

/-- One instruction of one connection. -/
def exec (D : Database n) : Insn n → Outcome n
  | .transaction c write cookie => D.opTransaction c write cookie
  | .autoCommit c ac rb resuming aux flush => D.opAutoCommit c ac rb resuming aux flush
  | .savepoint c op name resuming aux flush => D.opSavepoint c op name resuming aux flush
  | .halt c errCode description resuming aux flush =>
    D.opHalt c errCode description resuming aux flush
  | .checkpoint c mode random => D.opCheckpoint c mode random

/-- Any instruction of any connection may come next; a busy or failed one too leaves a state. -/
def step (D : Database n) (i : Insn n) : Option (Database n) :=
  some (D.exec i).2

end Database

end OxiSql.Vdbe
