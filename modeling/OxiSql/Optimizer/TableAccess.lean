import OxiSql.Lib.Ranking
import OxiSql.Optimizer.Join

namespace OxiSql.Optimizer
open Btree Lib Translate OxiSql.Types

/-- A component of a search key. The source keeps the expression and the order; the constraint it
was made from says which column it is for. -/
structure KeyColumn where
  constraint : Constraint
  expr : Expr
  sortOrder : SortOrder

/-- How much of the key a seek or the end of a scan compares. -/
structure SeekKey where
  len : Nat
  nullPad : Bool
  op : SeekOp
deriving DecidableEq

structure SeekDef where
  key : List KeyColumn
  iterDir : IterationDirection
  seek : Option SeekKey
  termination : Option SeekKey

inductive Search where
  | rowidEq (cmp : KeyColumn)
  | seek (index : Option Index) (seekDef : SeekDef)

inductive Operation where
  | scan (iterDir : IterationDirection) (index : Option Index)
  | search (search : Search)

def keyOfLen (len : Nat) (nullPad : Bool) (op : SeekOp) : Option SeekKey :=
  if 0 < len then some ⟨len, nullPad, op⟩ else none

/-- `order` is that of the last column of the key. -/
def seekKeys (iterDir : IterationDirection) (op : CmpOp) (order : SortOrder) (len : Nat) :
    Option SeekKey × Option SeekKey :=
  match iterDir, op, order with
  | .forwards, .equals, _ => (some ⟨len, false, .ge true⟩, some ⟨len, false, .gt⟩)
  | .forwards, .greater, .asc => (keyOfLen len false .gt, keyOfLen (len - 1) false .gt)
  | .forwards, .greater, .desc =>
    (keyOfLen (len - 1) false (.ge false), keyOfLen len false (.ge false))
  | .forwards, .greaterEquals, .asc => (keyOfLen len false (.ge false), keyOfLen (len - 1) false .gt)
  | .forwards, .greaterEquals, .desc => (keyOfLen (len - 1) false (.ge false), keyOfLen len false .gt)
  | .forwards, .less, .asc => (keyOfLen (len - 1) true .gt, keyOfLen len false (.ge false))
  | .forwards, .less, .desc => (keyOfLen len false .gt, keyOfLen (len - 1) true (.ge false))
  | .forwards, .lessEquals, .asc => (keyOfLen (len - 1) true .gt, keyOfLen len false .gt)
  | .forwards, .lessEquals, .desc =>
    (keyOfLen len false (.ge false), keyOfLen (len - 1) true (.ge false))
  | .backwards, .equals, _ => (some ⟨len, false, .le true⟩, some ⟨len, false, .lt⟩)
  | .backwards, .less, .asc => (keyOfLen len false .lt, keyOfLen (len - 1) true (.le false))
  | .backwards, .less, .desc => (keyOfLen (len - 1) true .lt, keyOfLen len false (.le false))
  | .backwards, .lessEquals, .asc =>
    (keyOfLen len false (.le false), keyOfLen (len - 1) true (.le false))
  | .backwards, .lessEquals, .desc => (keyOfLen (len - 1) true .lt, keyOfLen len false .lt)
  | .backwards, .greater, .asc =>
    (keyOfLen (len - 1) false (.le false), keyOfLen len false (.le false))
  | .backwards, .greater, .desc => (keyOfLen len false .lt, keyOfLen (len - 1) false .lt)
  | .backwards, .greaterEquals, .asc => (keyOfLen (len - 1) false (.le false), keyOfLen len false .lt)
  | .backwards, .greaterEquals, .desc => (keyOfLen len false (.le false), keyOfLen (len - 1) false .lt)

def ConstraintRef.asSeekKeyColumn (cref : ConstraintRef) (constraints : List Constraint)
    (whereClause : List WhereTerm) : Except Btree.Fault KeyColumn :=
  match constraints[cref.constraintVecPos]? with
  | none => .error (.panic "index out of bounds")
  | some c =>
    match c.getConstrainingExpr whereClause with
    | none => .error (.panic "Expected a valid binary expression")
    | some e => .ok ⟨c, e, cref.sortOrder⟩

def buildSeekDefFromConstraints (constraints : List Constraint) (crefs : List ConstraintRef)
    (iterDir : IterationDirection) (whereClause : List WhereTerm) : Except Btree.Fault SeekDef := do
  let key ← crefs.mapM fun cref => cref.asSeekKeyColumn constraints whereClause
  match key.getLast? with
  | none => .error (.panic "cannot build seek def from empty list of constraint refs")
  | some last =>
    let (seek, termination) := seekKeys iterDir last.constraint.operator last.sortOrder key.length
    return ⟨key, iterDir, seek, termination⟩

def columnsOf (constraints : List Constraint) (crefs : List ConstraintRef) : List Nat :=
  crefs.filterMap fun cref => constraints[cref.constraintVecPos]?.map Constraint.tableColPos

def JoinedTable.usedColumns (table : JoinedTable) : List Nat :=
  (List.range table.columnCount).filter table.columnIsUsed

/-- The used columns, those of the references first and in their order; `idxOf` is the length for
the others. -/
def ephemeralIndexBuild (table : JoinedTable) (constraints : List Constraint)
    (crefs : List ConstraintRef) : Index :=
  let columns := columnsOf constraints crefs
  { name := s!"ephemeral_{table.name}_{table.internalId}"
    columns := (table.usedColumns.insertionSort fun a b => columns.idxOf a ≤ columns.idxOf b).map
      fun pos => ⟨pos, .asc⟩
    unique := false
    ephemeral := true }

def allRefs (constraints : List Constraint) : List ConstraintRef :=
  constraints.zipIdx.map fun (c, i) => ⟨i, c.tableColPos, .asc⟩

structure Installed where
  op : Operation
  marked : List Nat

variable {Cost : Type}

/-- A scan after the first table is replaced by a search of an ephemeral index where there is a
constraint for one. -/
def installScan (q : Query) (table : JoinedTable) (constraintsPerTable : List TableConstraints)
    (before : List Nat) (tableIdx : Nat) (m : AccessMethod Cost) : Except Btree.Fault Installed := do
  let scan : Installed := ⟨.scan m.iterDir m.index, []⟩
  if before.isEmpty || m.index.isSome || table.isFromClauseSubquery then return scan
  match constraintsPerTable.find? fun cs => cs.tableId == table.internalId with
  | none => return scan
  | some cs =>
    let usable := usableConstraintsForJoinOrder cs.constraints (allRefs cs.constraints) before
      tableIdx
    if usable.isEmpty then return scan
    let seekDef ← buildSeekDefFromConstraints cs.constraints usable m.iterDir q.whereClause
    let index := ephemeralIndexBuild table cs.constraints usable
    return ⟨.search (.seek (some index) seekDef), []⟩

/-- The terms of the references are marked as consumed, which none may be yet. -/
def consume (consumed : List Nat) (constraints : List Constraint) :
    List ConstraintRef → Except Btree.Fault (List Nat)
  | [] => .ok []
  | cref :: crefs =>
    match constraints[cref.constraintVecPos]? with
    | none => .error (.panic "index out of bounds")
    | some c =>
      if c.whereClausePos.1 ∈ consumed then
        .error (.panic "trying to consume a where clause term twice")
      else do
        let rest ← consume (c.whereClausePos.1 :: consumed) constraints crefs
        return c.whereClausePos.1 :: rest

def installSearch (q : Query) (cs : TableConstraints) (consumed : List Nat)
    (m : AccessMethod Cost) : Except Btree.Fault Installed := do
  let marked ← consume consumed cs.constraints m.constraintRefs
  match m.index, m.constraintRefs with
  | some index, crefs =>
    let seekDef ← buildSeekDefFromConstraints cs.constraints crefs m.iterDir q.whereClause
    return ⟨.search (.seek (some index) seekDef), marked⟩
  | none, [cref] =>
    let key ← cref.asSeekKeyColumn cs.constraints q.whereClause
    if key.constraint.operator = .equals then return ⟨.search (.rowidEq key), marked⟩
    let seekDef ← buildSeekDefFromConstraints cs.constraints [cref] m.iterDir q.whereClause
    return ⟨.search (.seek none seekDef), marked⟩
  | none, _ => .error (.panic "expected exactly one constraint for rowid seek")

/-- One turn of the loop over the join order. -/
def install (q : Query) (constraintsPerTable : List TableConstraints) (before : List Nat)
    (consumed : List Nat) (tableIdx : Nat) (m : AccessMethod Cost) : Except Btree.Fault Installed :=
  match q.refs.joinedTables[tableIdx]?, constraintsPerTable[tableIdx]? with
  | some table, some cs =>
    if m.isScan then installScan q table constraintsPerTable before tableIdx m
    else installSearch q cs consumed m
  | _, _ => .error (.panic "index out of bounds")

def installAll (q : Query) (constraintsPerTable : List TableConstraints) :
    (before consumed : List Nat) → List (Nat × AccessMethod Cost) → Except Btree.Fault (List Installed)
  | _, _, [] => .ok []
  | before, consumed, (tableIdx, m) :: data => do
    let installed ← install q constraintsPerTable before consumed tableIdx m
    let rest ← installAll q constraintsPerTable (before ++ [tableIdx])
      (installed.marked ++ consumed) data
    return installed :: rest

/-- What the optimizer leaves of a query: the plan, and what is installed for each of its tables.
The terms `consumed` were so before. -/
structure Optimized (Cost : Type) where
  plan : JoinN Cost
  installed : List Installed

def optimizeTableAccess (E : Estimates Cost) (sorting : SortConstraints) (q : Query)
    (consumed : List Nat) : Except Btree.Fault (Option (Optimized Cost)) := do
  let constraintsPerTable ←
    (constraintsFromWhereClause sorting q.whereClause q.refs q.availableIndexes).mapError .error
  match ← choosePlan E q constraintsPerTable with
  | none => return none
  | some plan =>
    let installed ← installAll q constraintsPerTable [] consumed plan.data
    return some ⟨plan, installed⟩

end OxiSql.Optimizer
