import OxiSql.Lib.Thinned

/-! The store that keeps many versions of a row, one call at a time. -/

namespace OxiSql.Mvcc
open Lib

structure RowID where
  tableId : Nat
  rowId : Int
deriving DecidableEq

structure Row where
  id : RowID
  data : List UInt8
deriving DecidableEq

abbrev TxID := Nat

/-- While a transaction runs its versions name it; when it commits they get its timestamp. -/
inductive TxTimestampOrID where
  | timestamp (ts : Nat)
  | txID (tx : TxID)
deriving DecidableEq

structure RowVersion where
  beginMark : TxTimestampOrID
  endMark : Option TxTimestampOrID
  row : Row
deriving DecidableEq

inductive TransactionState where
  | active
  | preparing
  | aborted
  | terminated
  | committed (ts : Nat)
deriving DecidableEq

structure Transaction where
  state : TransactionState
  txId : TxID
  beginTs : Nat
  writeSet : List RowID
  readSet : List RowID
deriving DecidableEq

def Transaction.new (txId : TxID) (beginTs : Nat) : Transaction :=
  ⟨.active, txId, beginTs, [], []⟩

def Transaction.insertToReadSet (tx : Transaction) (id : RowID) : Transaction :=
  { tx with readSet := tx.readSet.insert id }

def Transaction.insertToWriteSet (tx : Transaction) (id : RowID) : Transaction :=
  { tx with writeSet := tx.writeSet.insert id }

inductive DatabaseError where
  | noSuchTransactionID (tx : TxID)
  | writeWriteConflict
  | txTerminated
  | io (message : String)
deriving DecidableEq

/-- How a call fails: with an error, or in an assertion. -/
inductive Fault where
  | error (e : DatabaseError)
  | panic
deriving DecidableEq

/-- The second one is there for tests. -/
inductive Storage where
  | noop
  | flaky (shouldFail : Bool)
deriving DecidableEq

def Storage.logTx : Storage → List RowVersion → Except DatabaseError Unit
  | .noop, _ => .ok ()
  | .flaky shouldFail, _ => if shouldFail then .error (.io "injected log_tx failure") else .ok ()

abbrev Txs := AList fun _ : TxID => Transaction

/-- Transaction 0 is reserved. The clock is given by what it answers. -/
structure MvStore where
  rows : AList fun _ : RowID => List RowVersion := ∅
  txs : Txs := ∅
  txIds : TxID := 1

def isWriteWriteConflict (txs : Txs) (tx : Transaction) (rv : RowVersion) : Bool :=
  match rv.endMark with
  | some (.txID rvEnd) =>
    match txs.lookup rvEnd with
    | none => false
    | some te => if te.txId = tx.txId then false else te.state ≠ .aborted
  | some (.timestamp _) => true
  | none => false

def isBeginVisible (txs : Txs) (tx : Transaction) (rv : RowVersion) : Bool :=
  match rv.beginMark with
  | .timestamp rvBeginTs => tx.beginTs ≥ rvBeginTs
  | .txID rvBegin =>
    match txs.lookup rvBegin with
    | none => false
    | some tb =>
      match tb.state with
      | .active => tx.txId = tb.txId && rv.endMark.isNone
      | .preparing => false
      | .committed committedTs => tx.beginTs ≥ committedTs
      | .aborted => false
      | .terminated => false

def isEndVisible (txs : Txs) (tx : Transaction) (rv : RowVersion) : Bool :=
  match rv.endMark with
  | some (.timestamp rvEndTs) => tx.beginTs < rvEndTs
  | some (.txID rvEnd) =>
    match txs.lookup rvEnd with
    | none => false
    | some te =>
      match te.state with
      | .active => tx.txId ≠ te.txId
      | .preparing => false
      | .committed committedTs => tx.beginTs < committedTs
      | .aborted => false
      | .terminated => false
  | none => true

def RowVersion.isVisibleTo (rv : RowVersion) (tx : Transaction) (txs : Txs) : Bool :=
  isBeginVisible txs tx rv && isEndVisible txs tx rv

/-- `rewritten_for_commit`, with a version that has nothing to do with the transaction left alone. -/
def rewrittenForCommit (rv : RowVersion) (txId : TxID) (endTs : Nat) : Option RowVersion :=
  let beginMatches := rv.beginMark = .txID txId
  let endMatches := rv.endMark = some (.txID txId)
  if ¬beginMatches ∧ ¬endMatches then none
  else some { rv with
    beginMark := if beginMatches then .timestamp endTs else rv.beginMark
    endMark := if endMatches then some (.timestamp endTs) else rv.endMark }

namespace MvStore

/-- A row without an entry has no versions. -/
def versions (s : MvStore) (id : RowID) : List RowVersion :=
  (s.rows.lookup id).getD []

def getBeginTimestamp (s : MvStore) : TxTimestampOrID → Nat
  | .timestamp ts => ts
  | .txID tx =>
    match s.txs.lookup tx with
    | some tx => tx.beginTs
    | none => 0

/-- Behind the last version with a smaller begin timestamp. -/
def insertVersionRaw (s : MvStore) (versions : List RowVersion) (rv : RowVersion) : List RowVersion :=
  insertAfterLast (fun v => s.getBeginTimestamp v.beginMark < s.getBeginTimestamp rv.beginMark) rv
    versions

def insertVersion (s : MvStore) (id : RowID) (rv : RowVersion) : MvStore :=
  { s with rows := s.rows.insert id (s.insertVersionRaw (s.versions id) rv) }

def insert (s : MvStore) (txId : TxID) (row : Row) : MvStore × Except Fault Unit :=
  match s.txs.lookup txId with
  | none => (s, .error (.error (.noSuchTransactionID txId)))
  | some tx =>
    if tx.state ≠ .active then (s, .error .panic)
    else
      let s := { s with txs := s.txs.insert txId (tx.insertToWriteSet row.id) }
      (s.insertVersion row.id ⟨.txID tx.txId, none, row⟩, .ok ())

def retainOthers (txId : TxID) (s : MvStore) (id : RowID) : MvStore :=
  match s.rows.lookup id with
  | none => s
  | some versions =>
    let versions := versions.filter fun rv => rv.beginMark ≠ .txID txId
    { s with rows := if versions = [] then s.rows.erase id else s.rows.insert id versions }

def rollbackTx (s : MvStore) (txId : TxID) : MvStore × Except Fault Unit :=
  match s.txs.lookup txId with
  | none => (s, .error (.error .txTerminated))
  | some tx =>
    if tx.state ≠ .active then (s, .error .panic)
    else
      let s := tx.writeSet.foldl (retainOthers txId) s
      ({ s with txs := s.txs.erase txId }, .ok ())

/-- The versions are tried from the last to the first; the first one that is visible decides. The
transaction is looked up only where there is a version to try. -/
def delete (s : MvStore) (txId : TxID) (id : RowID) : MvStore × Except Fault Bool :=
  match s.versions id with
  | [] => (s, .ok false)
  | versions =>
    match s.txs.lookup txId with
    | none => (s, .error (.error (.noSuchTransactionID txId)))
    | some tx =>
      if tx.state ≠ .active then (s, .error .panic)
      else
        match versions.findRev? (·.isVisibleTo tx s.txs) with
        | none => (s, .ok false)
        | some rv =>
          if isWriteWriteConflict s.txs tx rv then
            ((s.rollbackTx txId).1, .error (.error .writeWriteConflict))
          else
            let versions := modifyLast (·.isVisibleTo tx s.txs)
              (fun rv => { rv with endMark := some (.txID tx.txId) }) versions
            ({ s with
              rows := s.rows.insert id versions
              txs := s.txs.insert txId (tx.insertToWriteSet id) }, .ok true)

def update (s : MvStore) (txId : TxID) (row : Row) : MvStore × Except Fault Bool :=
  match s.delete txId row.id with
  | (s, .error e) => (s, .error e)
  | (s, .ok false) => (s, .ok false)
  | (s, .ok true) =>
    match s.insert txId row with
    | (s, .error e) => (s, .error e)
    | (s, .ok ()) => (s, .ok true)

def upsert (s : MvStore) (txId : TxID) (row : Row) : MvStore × Except Fault Unit :=
  match s.delete txId row.id with
  | (s, .error e) => (s, .error e)
  | (s, .ok _) => s.insert txId row

def read (s : MvStore) (txId : TxID) (id : RowID) : MvStore × Except Fault (Option Row) :=
  match s.txs.lookup txId with
  | none => (s, .error (.error (.noSuchTransactionID txId)))
  | some tx =>
    if tx.state ≠ .active then (s, .error .panic)
    else
      match (s.versions id).findRev? (·.isVisibleTo tx s.txs) with
      | some rv => ({ s with txs := s.txs.insert txId (tx.insertToReadSet id) }, .ok (some rv.row))
      | none => (s, .ok none)

def getTxId (s : MvStore) : MvStore × TxID :=
  ({ s with txIds := s.txIds + 1 }, s.txIds)

def beginTx (s : MvStore) (beginTs : Nat) : MvStore × TxID :=
  let (s, txId) := s.getTxId
  ({ s with txs := s.txs.insert txId (.new txId beginTs) }, txId)

def logRecord (s : MvStore) (writeSet : List RowID) (txId : TxID) (endTs : Nat) : List RowVersion :=
  writeSet.foldl (fun log id => (s.versions id).foldl (fun log rv =>
    match rewrittenForCommit rv txId endTs with
    | some updated => s.insertVersionRaw log updated
    | none => log) log) []

def rewriteRow (txId : TxID) (endTs : Nat) (s : MvStore) (id : RowID) : MvStore :=
  match s.rows.lookup id with
  | none => s
  | some versions =>
    let versions := versions.map fun rv => (rewrittenForCommit rv txId endTs).getD rv
    { s with rows := s.rows.insert id versions }

/-- Nobody sees the states in between, `Preparing` and `Committed`: the call is atomic. -/
def commitTx (s : MvStore) (txId : TxID) (endTs : Nat) (storage : Storage) : MvStore × Except Fault Unit :=
  match s.txs.lookup txId with
  | none => (s, .error (.error .txTerminated))
  | some tx =>
    if tx.state = .terminated then (s, .error (.error .txTerminated))
    else if tx.state ≠ .active then (s, .error .panic)
    else
      let log := s.logRecord tx.writeSet txId endTs
      match if log = [] then .ok () else storage.logTx log with
      | .error e => (s, .error (.error e))
      | .ok () =>
        let s := tx.writeSet.foldl (rewriteRow txId endTs) s
        ({ s with txs := s.txs.erase txId }, .ok ())

def shouldStay (s : MvStore) (rv : RowVersion) : Bool :=
  let beginStillOwned :=
    match rv.beginMark with
    | .txID tx => (s.txs.lookup tx).isSome
    | .timestamp _ => false
  beginStillOwned ||
    match rv.endMark with
    | some (.timestamp versionEndTs) =>
      s.txs.entries.any fun entry =>
        match entry.2.state with
        | .active | .preparing => versionEndTs > entry.2.beginTs
        | _ => false
    | some (.txID tx) => (s.txs.lookup tx).isSome
    | none => true

/-- The versions of one row that stay, and how many have gone so far. -/
def dropFrom (s : MvStore) (acc : MvStore × Nat) (id : RowID) : MvStore × Nat :=
  let kept := (s.versions id).filter s.shouldStay
  ({ acc.1 with rows := if kept = [] then acc.1.rows.erase id else acc.1.rows.insert id kept },
    acc.2 + ((s.versions id).length - kept.length))

def dropUnusedRowVersions (s : MvStore) : MvStore × Nat :=
  s.rows.keys.foldl s.dropFrom (s, 0)

end MvStore

/-- The calls; the first and the commit carry the timestamp that the clock answers. -/
inductive Call where
  | beginTx (ts : Nat)
  | insert (tx : TxID) (row : Row)
  | update (tx : TxID) (row : Row)
  | upsert (tx : TxID) (row : Row)
  | delete (tx : TxID) (id : RowID)
  | read (tx : TxID) (id : RowID)
  | commitTx (tx : TxID) (ts : Nat) (storage : Storage)
  | rollbackTx (tx : TxID)
  | getTxId
deriving DecidableEq

inductive Answer where
  | done
  | tx (txId : TxID)
  | changed (changed : Bool)
  | found (row : Option Row)
deriving DecidableEq

abbrev Reply := Except Fault Answer

def MvStore.step (s : MvStore) : Call → MvStore × Reply
  | .beginTx ts => let (s, tx) := s.beginTx ts; (s, .ok (.tx tx))
  | .insert tx row => let (s, r) := s.insert tx row; (s, r.map fun _ => .done)
  | .update tx row => let (s, r) := s.update tx row; (s, r.map .changed)
  | .upsert tx row => let (s, r) := s.upsert tx row; (s, r.map fun _ => .done)
  | .delete tx id => let (s, r) := s.delete tx id; (s, r.map .changed)
  | .read tx id => let (s, r) := s.read tx id; (s, r.map .found)
  | .commitTx tx ts storage => let (s, r) := s.commitTx tx ts storage; (s, r.map fun _ => .done)
  | .rollbackTx tx => let (s, r) := s.rollbackTx tx; (s, r.map fun _ => .done)
  | .getTxId => let (s, tx) := s.getTxId; (s, .ok (.tx tx))

def MvStore.run (s : MvStore) (calls : List Call) : MvStore :=
  calls.foldl (fun s call => (s.step call).1) s

def MvStore.transcript (s : MvStore) : List Call → List (Call × Reply)
  | [] => []
  | call :: calls => (call, (s.step call).2) :: (s.step call).1.transcript calls

end OxiSql.Mvcc
