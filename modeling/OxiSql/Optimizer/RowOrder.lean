import OxiSql.Optimizer.TableAccess

namespace OxiSql.Optimizer
open Btree Lib Translate OxiSql.Types

def lex {κ : Type} (cmp : κ → Ordering) (keys : List κ) : Ordering :=
  keys.foldr (fun key rest => (cmp key).then rest) .eq

def directed : SortOrder → Ordering → Ordering
  | .asc, o => o
  | .desc, o => o.swap

def along {α : Type} : IterationDirection → List α → List α
  | .forwards, l => l
  | .backwards, l => l.reverse

structure Row where
  rowid : Int
  columns : List Value
deriving DecidableEq

/-- The column that stands for the rowid has no value of its own. -/
def JoinedTable.read (table : JoinedTable) (row : Row) (col : Nat) : Value :=
  if table.rowidAlias = some col then .integer row.rowid else row.columns.getD col .null

/-- Every column has one collation, which its indexes take over. -/
abbrev Collations := TableId → Nat → CollationSeq

section
variable (collations : Collations)

def JoinedTable.compareColumn (table : JoinedTable) (r s : Row) (col : Nat) : Ordering :=
  (table.read r col).compareWith (collations table.internalId col) (table.read s col)

/-- The entries of an index end with the rowid. -/
def JoinedTable.compareEntries (table : JoinedTable) (index : Index) (r s : Row) : Ordering :=
  (lex (fun c : IndexColumn => directed c.order (table.compareColumn collations r s c.posInTable))
    index.columns).then (compare r.rowid s.rowid)

/-- The rows of a table in the order of its b-tree, and in that of each of its indexes. -/
structure Contents (table : JoinedTable) where
  rows : List Row
  rising : rows.Pairwise fun r s => r.rowid < s.rowid
  entries : Index → List Row
  perm : ∀ index, (entries index).Perm rows
  ordered : ∀ index,
    (entries index).Pairwise fun r s => table.compareEntries collations index r s = .lt

/-- A table of the plan with its operation. `found` tells which rows the search finds and the
conditions of the level keep, for the rows of the tables before. -/
structure Level where
  table : JoinedTable
  op : Operation
  contents : Contents collations table
  found : List (Option Row) → Row → Bool

variable {collations}

/-- The rows a level goes through for the rows of the tables before. -/
def Level.walk (level : Level collations) (before : List (Option Row)) : List Row :=
  match level.op with
  | .scan iterDir none => (along iterDir level.contents.rows).filter (level.found before)
  | .scan iterDir (some index) =>
    (along iterDir (level.contents.entries index)).filter (level.found before)
  | .search (.rowidEq _) => (level.contents.rows.find? (level.found before)).toList
  | .search (.seek none seekDef) =>
    (along seekDef.iterDir level.contents.rows).filter (level.found before)
  | .search (.seek (some index) seekDef) =>
    (along seekDef.iterDir (level.contents.entries index)).filter (level.found before)

/-- The right side of a LEFT JOIN has a row of NULLs where it finds none. -/
def Level.visit (level : Level collations) (before : List (Option Row)) : List (Option Row) :=
  let rows := level.walk before
  if rows.isEmpty && level.table.outer then [none] else rows.map some

def nestedLoop : List (Level collations) → List (Option Row) → List (List (Option Row))
  | [], _ => [[]]
  | level :: levels, before =>
    (level.visit before).flatMap fun row =>
      (nestedLoop levels (before ++ [row])).map (row :: ·)

def Level.value (level : Level collations) (col : Nat) : Option Row → Value
  | some row => level.table.read row col
  | none => .null

def valueOf : List (Level collations) → List (Option Row) → TableId → Nat → Value
  | level :: levels, row :: rows, id, col =>
    if level.table.internalId = id then level.value col row else valueOf levels rows id col
  | _, _, _, _ => .null

def compareTarget (levels : List (Level collations)) (target : List ColumnOrder)
    (l r : List (Option Row)) : Ordering :=
  lex (fun t => directed t.order ((valueOf levels l t.tableId t.columnNo).compareWith
    (collations t.tableId t.columnNo) (valueOf levels r t.tableId t.columnNo))) target

end

end OxiSql.Optimizer
