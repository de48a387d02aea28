import OxiSql.Storage.Pager
import OxiSql.Translate.Conflict
import OxiSql.Vdbe.Txn

namespace OxiSql.Vdbe
open Wal Storage Translate

/-! INSERT and UPDATE as the transaction sees them: the savepoint they open for themselves, the
pages they touch, and how they end. What they write is in the pages. -/

structure Session where
  pager : Pager
  transactionState : TransactionState
  autoCommit : Bool

namespace Session

def beginRead (s : Session) : LimboResult × Session :=
  let (r, w, shared) := s.pager.wal.beginReadTx s.pager.shared
  (r, { s with pager := { s.pager with wal := w, shared := shared } })

def beginWrite (s : Session) : LimboResult × Session :=
  let (r, w, shared) := s.pager.wal.beginWriteTx s.pager.shared
  (r, { s with pager := { s.pager with wal := w, shared := shared } })

/-- Both locks in turn, as `op_transaction` and `op_savepoint` take them. -/
def acquireLocks (s : Session) (read write : Bool) : LimboResult × Session :=
  match (if read then s.beginRead else (.ok, s)) with
  | (.busy, s) => (.busy, s)
  | (.ok, s) => if write then s.beginWrite else (.ok, s)

/-- `op_transaction` of a statement that writes, past the checks of the schema cookie and of the
open flags. -/
def opTransaction (s : Session) : LimboResult × Session :=
  match s.acquireLocks (s.transactionState = .none) (s.transactionState ≠ .write) with
  | (.busy, s) => (.busy, s)
  | (.ok, s) => (.ok, { s with transactionState := .write })

/-- `SavepointOp::Begin`. -/
def savepointBegin (s : Session) (name : String) (order : List Nat) : LimboResult × Session :=
  if s.autoCommit then
    match s.acquireLocks (s.transactionState = .none) (s.transactionState ≠ .write) with
    | (.busy, s) => (.busy, s)
    | (.ok, s) =>
      (.ok, ⟨s.pager.openSavepoint name true order, .write, false⟩)
  else (.ok, { s with pager := s.pager.openSavepoint name false order })

/-- `Program::commit_txn` with the attached databases left out: the dirty pages go to the log and
the locks and savepoints go. -/
def commitTxn (s : Session) (order : List Nat) : Session :=
  if s.autoCommit then
    match s.transactionState with
    | .write =>
      let P := s.pager.cacheflush order
      ⟨{ P with shared := P.wal.endReadTx (P.wal.endWriteTx P.shared), savepoints := [] }, .none, true⟩
    | .read =>
      { s with
        pager := { s.pager with shared := s.pager.wal.endReadTx s.pager.shared }
        transactionState := .none }
    | .none => s
  else s

/-- COMMIT. -/
def commit (s : Session) (order : List Nat) : Session :=
  { s with autoCommit := true }.commitTxn order

end Session

/-- What the code of one row runs into, in its order. -/
inductive RowEvent where
  /-- a page access of a cursor -/
  | page (op : Pager.Op)
  /-- the rowid or a unique index has the key: the constraint's own action, and what the ON CONFLICT
  clause says of it -/
  | conflict (own : ResolveType) (upsert : Option UpsertDo) (description : String)
  /-- DO UPDATE would move the row to a rowid that is taken -/
  | rowidTaken (description : String)
  /-- a NULL for a NOT NULL column -/
  | null (description : String)

/-- Top-level statements, with the rows whose code is run. -/
inductive Statement where
  | insertValues (onConflict : Option ResolveType) (row : List RowEvent)
  /-- from a SELECT or several VALUES -/
  | insertRows (onConflict : Option ResolveType) (rows : List (List RowEvent))
  /-- `skipsLoop`: the WHERE is constant false or a LIMIT parameter is 0 -/
  | update (orConflict : Option ResolveType) (skipsLoop : Bool) (rows : List (List RowEvent))

namespace Statement

def onConflict : Statement → Option ResolveType
  | insertValues action _ | insertRows action _ | update action .. => action

def rows : Statement → List (List RowEvent)
  | insertValues _ row => [row]
  | insertRows _ rows | update _ _ rows => rows

def skipsLoop : Statement → Bool
  | insertValues .. | insertRows .. => false
  | update _ skipsLoop _ => skipsLoop

def needsStmtSavepoint : Statement → Bool
  | insertValues action _ => insertNeedsSavepoint action false
  | insertRows action _ => insertNeedsSavepoint action true
  | update action .. => updateNeedsSavepoint action

/-- An UPDATE stops at every conflict (`emit_conflict_halt`). -/
def handling (stmt : Statement) (own : ResolveType) (upsert : Option UpsertDo) : Handling :=
  match stmt with
  | insertValues .. | insertRows .. => insertHandling stmt.onConflict own upsert
  | update .. => .stop

/-- Whether `RollbackTo` comes before the `Halt` of a conflict with this effective action. -/
def rollsBack (stmt : Statement) (action : ResolveType) : Bool :=
  match stmt with
  | insertValues .. | insertRows .. => stmt.needsStmtSavepoint
  | update .. => action.reverts

end Statement

inductive StatementEnd where
  | done
  | busy
  /-- by a constraint, with the conflict action in effect there -/
  | stopped (error : LimboError) (action : ResolveType)
  /-- by a savepoint instruction -/
  | failed (error : LimboError)

/-- `halt`, for `HaltIfNull`: its message for NOT NULL is not the one of `op_halt`. -/
def haltIfNullError (description : String) : LimboError :=
  .constraint s!"NOT NULL constraint failed: {description} (19)"

def cursorOp : Pager.Op → Bool
  | .readPage .. | .evict .. | .writePage .. | .allocatePage .. | .freePage .. => true
  | .setCookie .. | .openSavepoint .. | .rollbackToSavepoint .. | .releaseSavepoint .. |
    .rollback => false

namespace Session

/-- A halt with an error: the cached pages are dropped. -/
def halt (s : Session) (error : LimboError) (action : ResolveType) : Option StatementEnd × Session :=
  (some (.stopped error action), { s with pager := s.pager.clearPageCache })

def conflictHalt (s : Session) (rollsBack : Bool) (description : String) (action : ResolveType) :
    Option StatementEnd × Session :=
  let error := Database.haltError Database.sqliteConstraintPrimarykey description
  if rollsBack then
    match s.pager.rollbackToSavepoint stmtSavepoint with
    | (.error e, P) => (some (.failed e), { s with pager := P })
    | (.ok (), P) => { s with pager := P }.halt error action
  else s.halt error action

/-- The code of one row; page accesses the pager refuses make no run. -/
def runRow (stmt : Statement) (s : Session) : List RowEvent → Option (Option StatementEnd × Session)
  | [] => some (none, s)
  | .page op :: events =>
    if cursorOp op then
      (s.pager.step op).bind fun P => { s with pager := P }.runRow stmt events
    else none
  | .conflict own upsert description :: events =>
    match stmt.handling own upsert with
    | .skipRow => some (none, s)
    | .goOn => s.runRow stmt events
    | .stop =>
      let action := effective stmt.onConflict own
      some (s.conflictHalt (stmt.rollsBack action) description action)
  | .rowidTaken description :: _ =>
    let action := effective stmt.onConflict .abort
    some (s.conflictHalt (stmt.rollsBack action) description action)
  | .null description :: _ =>
    some (s.halt (haltIfNullError description) (effective stmt.onConflict .abort))

def runRows (stmt : Statement) (s : Session) : List (List RowEvent) → Option (Option StatementEnd × Session)
  | [] => some (none, s)
  | row :: rows =>
    match s.runRow stmt row with
    | none => none
    | some (some ending, s) => some (some ending, s)
    | some (none, s) => s.runRows stmt rows

def finish (s : Session) (needsStmtSavepoint : Bool) (order : List Nat) : StatementEnd × Session :=
  if needsStmtSavepoint then
    match s.pager.releaseSavepoint stmtSavepoint with
    | (.error e, P) => (.failed e, { s with pager := P })
    | (.ok isOwner, P) =>
      let s := { s with pager := P }
      (.done, if isOwner then s.commit order else s)
  else (.done, s.commitTxn order)

/-- The savepoint of the statement; a flush takes every dirty page once. -/
def openStmt (s : Session) (needsStmtSavepoint : Bool) (order : List Nat) : Option (LimboResult × Session) :=
  if needsStmtSavepoint then
    if order.Perm s.pager.dirtyPages then some (s.savepointBegin stmtSavepoint order) else none
  else some (.ok, s)

/-- A whole statement. `flush` and `commit` are the orders in which dirty pages are written. -/
def exec (s : Session) (stmt : Statement) (flush commit : List Nat) : Option (StatementEnd × Session) :=
  match s.opTransaction with
  | (.busy, s) => some (.busy, s)
  | (.ok, s) =>
    -- the jump to `after_main_loop_label` passes over the savepoint
    if stmt.skipsLoop then some (s.finish stmt.needsStmtSavepoint commit)
    else
      match s.openStmt stmt.needsStmtSavepoint flush with
      | none => none
      | some (.busy, s) => some (.busy, s)
      | some (.ok, s) =>
        match s.runRows stmt stmt.rows with
        | none => none
        | some (some ending, s) => some (ending, s)
        | some (none, s) => some (s.finish stmt.needsStmtSavepoint commit)

end Session

end OxiSql.Vdbe
