import OxiSql.Lib.Loop
import OxiSql.Storage.Savepoints

namespace OxiSql.Btree
open Lib Storage

/-! B-tree pages and the cursor that walks them. Pages are taken as loaded, so no call here is
interrupted for I/O. -/

inductive Kind where
  | table
  | index
deriving DecidableEq

/-- A b-tree page as its accessors show it. Beside its child pointer a cell holds a rowid in a
table and a record in an index. -/
inductive PageContent (κ : Type) where
  | interior (kind : Kind) (cells : List (Nat × κ)) (rightmost : Nat)
  | leaf (kind : Kind) (cells : List κ)

inductive BTreeCell (κ : Type) where
  | tableInteriorCell (leftChildPage : Nat) (rowid : κ)
  | tableLeafCell (rowid : κ)
  | indexInteriorCell (leftChildPage : Nat) (payload : κ)
  | indexLeafCell (payload : κ)

namespace PageContent
variable {κ : Type}

def isIndex : PageContent κ → Bool
  | .interior kind _ _ | .leaf kind _ => kind = .index

def isLeaf : PageContent κ → Bool
  | .interior .. => false
  | .leaf .. => true

def cellCount : PageContent κ → Nat
  | .interior _ cells _ => cells.length
  | .leaf _ cells => cells.length

def rightmostPointer : PageContent κ → Option Nat
  | .interior _ _ rightmost => some rightmost
  | .leaf .. => none

def cellGet (contents : PageContent κ) (idx : Nat) : Option (BTreeCell κ) :=
  match contents with
  | .interior .table cells _ => cells[idx]?.map fun cell => .tableInteriorCell cell.1 cell.2
  | .interior .index cells _ => cells[idx]?.map fun cell => .indexInteriorCell cell.1 cell.2
  | .leaf .table cells => cells[idx]?.map .tableLeafCell
  | .leaf .index cells => cells[idx]?.map .indexLeafCell

end PageContent

/-- The pages of a database; a page that is no b-tree page shows its first byte. -/
abbrev Pages (κ : Type) := Nat → Except UInt8 (PageContent κ)

/-- How a call fails: with an error, or because an assertion of the source does. -/
inductive Fault where
  | error (e : LimboError)
  | panic (message : String)

def invalidPageType (byte : UInt8) : Fault :=
  .error (.corrupt s!"Invalid page type: {byte}")

def invalidPageTypePanic (byte : UInt8) : Fault :=
  .panic s!"called `Result::unwrap()` on an `Err` value: Corrupt(\"Invalid page type: {byte}\")"

def cellOutOfBounds (idx ncells : Nat) : Fault :=
  .error (.corrupt s!"cell_get: idx out of bounds: idx={idx}, ncells={ncells}")

def btcursorMaxDepth : Nat := 20

def i32Max : Int := 2147483647

/-- The page stack is kept with the current page first, each page with its cell index. -/
structure Cursor where
  rootPage : Nat
  stack : List (Nat × Int)
  goingUpwards : Bool
  count : Nat

namespace Cursor
variable {κ ρ : Type}

def new (rootPage : Nat) : Cursor :=
  ⟨rootPage, [], false, 0⟩

def setStack (c : Cursor) (stack : List (Nat × Int)) : Cursor :=
  { c with stack := stack }

/-- `stack.push` and `stack.push_backwards`, after which every loop here goes round again. -/
def push (c : Cursor) (page : Nat) (idx : Int) : Turn Cursor ρ Fault :=
  if c.stack.length < btcursorMaxDepth then .again (c.setStack ((page, idx) :: c.stack))
  else .fail (.panic "corrupted database, stack is bigger than expected")

def moveToRoot (c : Cursor) : Cursor :=
  { c with stack := [(c.rootPage, -1)], goingUpwards := false }

/-- A loop that starts by looking at the page on top of the stack. -/
def onTop (pages : Pages κ) (c : Cursor) (invalid : UInt8 → Fault)
    (turn : PageContent κ → Nat → Int → List (Nat × Int) → Turn Cursor ρ Fault) : Turn Cursor ρ Fault :=
  match c.stack with
  | [] => .fail (.panic "assertion failed: self.current_page.get() >= 0")
  | (page, idx) :: parents =>
    match pages page with
    | .error byte => .fail (invalid byte)
    | .ok contents => turn contents page idx parents

def current (pages : Pages κ) (c : Cursor) : Option κ :=
  match c.stack with
  | [] => none
  | (page, idx) :: _ =>
    match pages page with
    | .error _ => none
    | .ok contents =>
      if idx < 0 then none
      else
        match contents.cellGet idx.toNat with
        | some (.tableLeafCell key) | some (.indexInteriorCell _ key)
        | some (.indexLeafCell key) => some key
        | some (.tableInteriorCell ..) | none => none

/-- The page is done: back to its parent, if it has one. -/
def goUp (c : Cursor) (parents : List (Nat × Int)) : Turn Cursor (Bool × Cursor) Fault :=
  if parents.isEmpty then .done (false, c)
  else .again { c with stack := parents, goingUpwards := true }

def visitNext (c : Cursor) : BTreeCell κ → Turn Cursor (Bool × Cursor) Fault
  | .tableInteriorCell left _ => c.push left (-1)
  | .tableLeafCell _ | .indexLeafCell _ => .done (true, c)
  | .indexInteriorCell left _ =>
    if c.goingUpwards then .done (true, { c with goingUpwards := false }) else c.push left (-1)

/-- One turn of the loop of `get_next_record`. -/
def getNextRecord (pages : Pages κ) (c : Cursor) : Turn Cursor (Bool × Cursor) Fault :=
  c.onTop pages invalidPageType fun contents page idx parents =>
    if contents.isIndex ∧ c.goingUpwards ∧ 0 ≤ idx ∧ idx < contents.cellCount then
      .done (true, { c with goingUpwards := false })
    else
      let c := c.setStack ((page, idx + 1) :: parents)
      if idx + 1 = contents.cellCount then
        match contents.rightmostPointer with
        | some right => (c.setStack ((page, idx + 2) :: parents)).push right (-1)
        | none => c.goUp parents
      else if idx + 1 < 0 ∨ contents.cellCount < idx + 1 then
        -- A negative index is a huge `usize`.
        c.goUp parents
      else
        match contents.cellGet (idx + 1).toNat with
        | none => .fail (.error (.corrupt "cell index out of bounds during traversal"))
        | some cell => c.visitNext cell

/-- Pages whose first cell is done are left, together. -/
def climb (c : Cursor) : List (Nat × Int) → Turn Cursor (Bool × Cursor) Fault
  | [] => .fail (.panic "assertion failed: self.current_page.get() >= 0")
  | (page, idx) :: parents =>
    if 0 ≤ idx then .again (c.setStack ((page, idx) :: parents))
    else if parents.isEmpty then .done (false, c.setStack ((page, idx) :: parents))
    else climb { c with goingUpwards := true } parents

def visitPrev (c : Cursor) (page : Nat) (idx : Int) (parents : List (Nat × Int)) :
    BTreeCell κ → Turn Cursor (Bool × Cursor) Fault
  | .tableInteriorCell left _ => c.push left i32Max
  | .tableLeafCell _ | .indexLeafCell _ => .done (true, c)
  | .indexInteriorCell left _ =>
    if c.goingUpwards then .done (true, { c with goingUpwards := false })
    else (c.setStack ((page, idx - 1) :: parents)).push left i32Max

/-- The end of a turn of `get_prev_record`, with the cell index set. -/
def landOn (c : Cursor) (contents : PageContent κ) (page : Nat) (idx : Int)
    (parents : List (Nat × Int)) : Turn Cursor (Bool × Cursor) Fault :=
  let c := c.setStack ((page, idx) :: parents)
  if idx < 0 then c.climb ((page, idx) :: parents)
  else
    match contents.cellGet idx.toNat with
    | none => .fail (cellOutOfBounds idx.toNat contents.cellCount)
    | some cell => c.visitPrev page idx parents cell

/-- The middle of a turn of `get_prev_record`. An interior page of an index does not retreat
here but when it is left for its child. -/
def stepBack (c : Cursor) (contents : PageContent κ) (page : Nat) (idx : Int)
    (parents : List (Nat × Int)) : Turn Cursor (Bool × Cursor) Fault :=
  if contents.cellCount ≤ idx then c.landOn contents page (contents.cellCount - 1) parents
  else if 0 ≤ idx then
    if contents.isIndex ∧ c.goingUpwards then .done (true, { c with goingUpwards := false })
    else if contents.isIndex ∧ ¬ contents.isLeaf then c.landOn contents page idx parents
    else c.landOn contents page (idx - 1) parents
  else c.landOn contents page idx parents

/-- One turn of the loop of `get_prev_record`. -/
def getPrevRecord (pages : Pages κ) (c : Cursor) : Turn Cursor (Bool × Cursor) Fault :=
  c.onTop pages invalidPageType fun contents page idx parents =>
    if idx = i32Max ∧ ¬ c.goingUpwards then
      match contents.rightmostPointer with
      | some right => c.push right i32Max
      | none => c.stepBack contents page idx parents
    else c.stepBack contents page idx parents

/-- One turn of the loop of `move_to_rightmost`. -/
def moveToRightmost (pages : Pages κ) (c : Cursor) : Turn Cursor (Bool × Cursor) Fault :=
  c.onTop pages invalidPageTypePanic fun contents page _ parents =>
    match contents.rightmostPointer with
    | some right => (c.setStack ((page, contents.cellCount + 1) :: parents)).push right (-1)
    | none =>
      if 0 < contents.cellCount then
        .done (true, c.setStack ((page, contents.cellCount - 1) :: parents))
      else .done (false, c)

def collect (pages : Pages κ) (move : Cursor → Turn Cursor (Bool × Cursor) Fault)
    (s : Cursor × List κ) : Turn (Cursor × List κ) (List κ) Fault :=
  match move s.1 with
  | .again c => .again (c, s.2)
  | .fail e => .fail e
  | .done (false, _) => .done s.2
  | .done (true, c) =>
    match c.current pages with
    | none => .fail (.panic "unexpected page_type")
    | some key => .again (c, s.2 ++ [key])

/-- `rewind`, then `next` as long as there is a record. -/
def scanForwards (pages : Pages κ) (c : Cursor) (fuel : Nat) : Option (Except Fault (List κ)) :=
  loop (collect pages (getNextRecord pages)) fuel (c.moveToRoot, [])

/-- `last`, then `prev` as long as there is a record. -/
def scanBackwards (pages : Pages κ) (c : Cursor) (fuel : Nat) : Option (Except Fault (List κ)) :=
  match loop (moveToRightmost pages) fuel c.moveToRoot with
  | none => none
  | some (.error e) => some (.error e)
  | some (.ok (false, _)) => some (.ok [])
  | some (.ok (true, c)) =>
    match c.current pages with
    | none => some (.error (.panic "unexpected page_type"))
    | some key => loop (collect pages (getPrevRecord pages)) fuel (c, [key])

/-- The end of a turn of `count`: down to the child the cell index is at. -/
def countChild (c : Cursor) (contents : PageContent κ) (page : Nat) (idx : Int)
    (parents : List (Nat × Int)) : Turn Cursor (Nat × Cursor) Fault :=
  let c := c.setStack ((page, idx + 1) :: parents)
  if idx = contents.cellCount then
    match contents.rightmostPointer with
    | some right => c.push right (-1)
    | none => .fail (.panic "called `Option::unwrap()` on a `None` value")
  else
    match contents.cellGet idx.toNat with
    | some (.tableInteriorCell left _) | some (.indexInteriorCell left _) => c.push left (-1)
    | some _ => .fail (.panic "internal error: entered unreachable code")
    | none => .fail (cellOutOfBounds idx.toNat contents.cellCount)

/-- Back up to the first page with a child left. The count is not put back to zero. -/
def countUp (pages : Pages κ) (c : Cursor) : List (Nat × Int) → Turn Cursor (Nat × Cursor) Fault
  | [] => .done (c.count, c.moveToRoot)
  | (page, idx) :: parents =>
    match pages page with
    | .error byte => .fail (invalidPageTypePanic byte)
    | .ok contents =>
      if 0 ≤ idx ∧ idx ≤ contents.cellCount then c.countChild contents page idx parents
      else countUp pages c parents

/-- One turn of the loop of `count`. -/
def countTurn (pages : Pages κ) (c : Cursor) : Turn Cursor (Nat × Cursor) Fault :=
  c.onTop pages invalidPageTypePanic fun contents page idx parents =>
    let counted := if contents.isLeaf ∨ contents.isIndex then contents.cellCount else 0
    let c := { c with count := c.count + counted }
    if contents.isLeaf ∨ idx + 1 < 0 ∨ contents.cellCount < idx + 1 then c.countUp pages parents
    else c.countChild contents page (idx + 1) parents

/-- `count`, which starts over only if nothing has been counted yet. -/
def countRecords (pages : Pages κ) (c : Cursor) (fuel : Nat) : Option (Except Fault (Nat × Cursor)) :=
  loop (countTurn pages) fuel (if c.count = 0 then c.moveToRoot else c)

end Cursor

end OxiSql.Btree
