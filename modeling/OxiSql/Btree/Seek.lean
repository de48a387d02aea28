import OxiSql.Lib.BinarySearch
import OxiSql.Btree.Tree
import OxiSql.Types.Value

namespace OxiSql.Btree
open Lib OxiSql.Types

inductive IterationDirection where
  | forwards
  | backwards
deriving DecidableEq

inductive SeekOp where
  | ge (eqOnly : Bool)
  | gt
  | le (eqOnly : Bool)
  | lt
deriving DecidableEq

namespace SeekOp

def iterationDirection : SeekOp → IterationDirection
  | .ge _ | .gt => .forwards
  | .le _ | .lt => .backwards

def eqOnly : SeekOp → Bool
  | .ge eqOnly | .le eqOnly => eqOnly
  | _ => false

/-- Whether an entry that compares so with the key is one the operation looks for. -/
def found (op : SeekOp) (cmp : Ordering) : Bool :=
  match op with
  | .gt => cmp.isGT
  | .ge true | .le true => cmp.isEq
  | .ge false => cmp.isGE
  | .le false => cmp.isLE
  | .lt => cmp.isLT

/-- Whether the target is on the left of an entry that compares so with the key. -/
def left (op : SeekOp) (cmp : Ordering) : Bool :=
  match op with
  | .gt | .le _ => cmp.isGT
  | .ge _ | .lt => cmp.isGE

def leafProbe (op : SeekOp) (cmp : Ordering) : Probe :=
  if op.found cmp then .hit (op.iterationDirection = .forwards)
  else
    match cmp with
    | .gt => .miss true
    | .lt => .miss false
    | .eq => .miss (op.iterationDirection = .backwards)

/-- The same in a table, where an exact match ends the search. -/
def tableLeafProbe (op : SeekOp) (cmp : Ordering) : Probe :=
  if op.found cmp ∧ op.eqOnly then .stop else op.leafProbe cmp

end SeekOp

namespace Cursor
variable {κ : Type}

def interiorProbe (onLeft : κ → Bool) (cells : List (Nat × κ)) (i : Nat) : Probe :=
  match cells[i]? with
  | some cell => if onLeft cell.2 then .hit true else .miss false
  | none => .miss false

def withEqSeen (eqSeen : Bool) :
    Turn Cursor (Cursor × Bool) Fault → Turn (Cursor × Bool) (Cursor × Bool) Fault
  | .again c => .again (c, eqSeen)
  | .done r => .done r
  | .fail e => .fail e

/-- One turn of the loop of `tablebtree_move_to` and `indexbtree_move_to`: down to the left child
of the first cell the target is on the left of. `slot` is the cell index left behind for it, and
`isEq` tells the cells that set `eq_seen`. -/
def moveToTurn (pages : Pages κ) (onLeft isEq : κ → Bool) (slot : Nat → Int)
    (s : Cursor × Bool) : Turn (Cursor × Bool) (Cursor × Bool) Fault :=
  match s.1.stack with
  | [] => .fail (.panic "assertion failed: self.current_page.get() >= 0")
  | (page, _) :: parents =>
    match pages page with
    | .error byte => .fail (invalidPageType byte)
    | .ok (.leaf ..) => .done s
    | .ok (.interior _ cells right) =>
      let eqSeen := s.2 || (probed (interiorProbe onLeft cells) cells.length).any fun i =>
        cells[i]?.any fun cell => isEq cell.2
      match (searchAll (interiorProbe onLeft cells) cells.length).bind fun i =>
          cells[i]?.map fun cell => (cell.1, slot i) with
      | some (child, idx) => withEqSeen eqSeen ((s.1.setStack ((page, idx) :: parents)).push child (-1))
      | none =>
        withEqSeen eqSeen ((s.1.setStack ((page, cells.length + 1) :: parents)).push right (-1))

def leafCells (pages : Pages κ) (c : Cursor) : Option (Nat × List (Nat × Int) × List κ) :=
  match c.stack with
  | [] => none
  | (page, _) :: parents =>
    match pages page with
    | .ok (.leaf _ cells) => some (page, parents, cells)
    | _ => none

/-- A rowid and one, as the processor adds it. -/
def i64Succ (rowid : Int) : Int :=
  (rowid + 1 + 2 ^ 63) % 2 ^ 64 - 2 ^ 63

def tableOnLeft (op : SeekOp) (rowid cellRowid : Int) : Bool :=
  match op with
  | .gt => rowid < cellRowid
  | .ge _ | .le _ => rowid ≤ cellRowid
  | .lt => rowid ≤ i64Succ cellRowid

def tablebtreeMoveTo (pages : Pages Int) (rowid : Int) (op : SeekOp) :
    Cursor × Bool → Turn (Cursor × Bool) (Cursor × Bool) Fault :=
  moveToTurn pages (tableOnLeft op rowid) (fun _ => false) (fun i => i)

/-- The search of `tablebtree_seek` in the leaf. -/
def tableSeekLeaf (pages : Pages Int) (rowid : Int) (op : SeekOp) (c : Cursor) :
    Except Fault (Bool × Cursor) :=
  match c.leafCells pages with
  | none => .error (.error (.corrupt "tablebtree_seek() reached a non-leaf page"))
  | some (page, parents, []) => .ok (false, c.setStack ((page, 0) :: parents))
  | some (page, parents, cells) =>
    match searchAll (fun i => op.tableLeafProbe (compare (cells.getD i 0) rowid)) cells.length with
    | some i => .ok (true, c.setStack ((page, i) :: parents))
    | none => .ok (false, c)

def tablebtreeSeek (pages : Pages Int) (c : Cursor) (rowid : Int) (op : SeekOp) (fuel : Nat) :
    Option (Except Fault (Bool × Cursor)) :=
  (loop (tablebtreeMoveTo pages rowid op) fuel (c.moveToRoot, false)).map fun result =>
    result.bind fun s => tableSeekLeaf pages rowid op s.1

/-- The cell index the descent leaves behind for the child of cell `i`. -/
def indexSlot (op : SeekOp) (i : Nat) : Int :=
  match op.iterationDirection with
  | .forwards => i
  | .backwards => i - 1

/-- `cmp` compares an entry with the key. -/
def indexbtreeMoveTo (pages : Pages κ) (cmp : κ → Ordering) (op : SeekOp) :
    Cursor × Bool → Turn (Cursor × Bool) (Cursor × Bool) Fault :=
  moveToTurn pages (fun k => op.left (cmp k)) (fun k => (cmp k).isEq) (indexSlot op)

/-- The loop of `next` or of `prev`. -/
def advance (pages : Pages κ) (op : SeekOp) : Cursor → Turn Cursor (Bool × Cursor) Fault :=
  match op.iterationDirection with
  | .forwards => getNextRecord pages
  | .backwards => getPrevRecord pages

def parentCell (pages : Pages κ) (c : Cursor) : Option κ :=
  match c.stack with
  | [] => none
  | (page, idx) :: _ =>
    match pages page with
    | .error _ => none
    | .ok contents =>
      if idx < 0 then none
      else
        match contents.cellGet idx.toNat with
        | some (.indexInteriorCell _ payload) => some payload
        | _ => none

/-- The end of `indexbtree_seek` once it has moved up to a parent. -/
def seekParent (pages : Pages κ) (cmp : κ → Ordering) (op : SeekOp) :
    Except Fault (Bool × Cursor) → Except Fault (Bool × Cursor)
  | .error e => .error e
  | .ok (false, c) => .ok (false, c)
  | .ok (true, c) =>
    match c.parentCell pages with
    | none => .error (.panic "internal error: entered unreachable code: unexpected cell type")
    | some payload => .ok (op.found (cmp payload), c)

def indexLeafProbe (cmp : κ → Ordering) (op : SeekOp) (cells : List κ) (i : Nat) : Probe :=
  op.leafProbe ((cells.map cmp).getD i .eq)

/-- The rest of `indexbtree_seek`. An empty leaf is left without a comparison. -/
def indexSeekLeaf (pages : Pages κ) (cmp : κ → Ordering) (op : SeekOp) (fuel : Nat)
    (c : Cursor) (eqSeen : Bool) : Option (Except Fault (Bool × Cursor)) :=
  match c.leafCells pages with
  | none => some (.error (.panic "internal error: entered unreachable code: unexpected cell type"))
  | some (page, parents, []) => loop (advance pages op) fuel (c.setStack ((page, 0) :: parents))
  | some (page, parents, cells) =>
    match searchAll (indexLeafProbe cmp op cells) cells.length with
    | some i => some (.ok (true, c.setStack ((page, i) :: parents)))
    | none =>
      if op.eqOnly ∧ ¬ eqSeen then
        let last := (probed (indexLeafProbe cmp op cells) cells.length).getLastD 0
        some (.ok (false, c.setStack ((page, last) :: parents)))
      else
        let idx : Int :=
          match op.iterationDirection with
          | .forwards => cells.length
          | .backwards => -1
        (loop (advance pages op) fuel (c.setStack ((page, idx) :: parents))).map
          (seekParent pages cmp op)

/-- `indexbtree_seek`, for any way to compare. -/
def seekIndex (pages : Pages κ) (c : Cursor) (cmp : κ → Ordering) (op : SeekOp) (fuel : Nat) :
    Option (Except Fault (Bool × Cursor)) :=
  match loop (indexbtreeMoveTo pages cmp op) fuel (c.moveToRoot, false) with
  | none => none
  | some (.error e) => some (.error e)
  | some (.ok (c, eqSeen)) => indexSeekLeaf pages cmp op fuel c eqSeen

/-- The columns of a record the key has, compared with it. Every record has them. -/
def compareWithKey (key : Record) (order : IndexKeySortOrder) (collations : List CollationSeq)
    (record : Record) : Ordering :=
  compareImmutable (record.take key.length) key order collations

def indexbtreeSeek (pages : Pages Record) (c : Cursor) (key : Record) (op : SeekOp)
    (order : IndexKeySortOrder) (collations : List CollationSeq) (fuel : Nat) :
    Option (Except Fault (Bool × Cursor)) :=
  c.seekIndex pages (compareWithKey key order collations) op fuel

end Cursor

end OxiSql.Btree
