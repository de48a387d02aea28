import OxiSql.Integrity.Check

namespace OxiSql.Integrity
open Lib Ondisk

structure CellView where
  start : Nat
  length : Nat
  cell : BTreeCell
deriving DecidableEq

/-- What a page says: its cells in the order of their pointers, the start and size of each
freeblock, and the rightmost pointer of an interior page. -/
structure PageView where
  pageType : PageType
  cells : List CellView
  freeblocks : List (Nat × Nat)
  rightmost : Option Nat
deriving DecidableEq

def readCell (p : PageContent) (usable idx : Nat) : Except Fault CellView := do
  let pageType ← p.pageType
  let max ← payloadOverflowThresholdMax pageType usable
  let min ← payloadOverflowThresholdMin usable
  let (start, length) ← p.cellGetRawRegion idx max min usable
  let cell ← p.cellGet idx max min usable
  .ok ⟨start, length, cell⟩

def freeblocksFrom (p : PageContent) : Nat → Nat → Option (List (Nat × Nat))
  | _, 0 => some []
  | 0, _ + 1 => none
  | fuel + 1, pc + 1 => do
    let (next, size) ← (readFreeblock p (pc + 1)).toOption
    let blocks ← freeblocksFrom p fuel next
    some ((pc + 1, size) :: blocks)

def isLeaf : PageType → Bool
  | .indexInterior | .tableInterior => false
  | .indexLeaf | .tableLeaf => true

def rightmostPointer (p : PageContent) : Except Fault (Option Nat) := do
  let pageType ← p.pageType
  if isLeaf pageType then .ok none
  else
    let right ← readU32At p.buffer (p.offset + 8)
    .ok (some right.toNat)

def viewPage (p : PageContent) (usable : Nat) : Option PageView := do
  let pageType ← p.pageType.toOption
  let count ← p.cellCount.toOption
  let cells ← ((List.range count).mapM (readCell p usable)).toOption
  let first ← p.firstFreeblock.toOption
  let freeblocks ← freeblocksFrom p 65536 first
  let rightmost ← (rightmostPointer p).toOption
  some ⟨pageType, cells, freeblocks, rightmost⟩

def Pager.view (pager : Pager) (page : Nat) : Option PageView := do
  let p ← (pager.readPage page).toOption
  viewPage p pager.usable

def CellView.range (c : CellView) : Nat × Nat :=
  (c.start, c.start + c.length)

def blockRange (block : Nat × Nat) : Nat × Nat :=
  (block.1, block.1 + block.2)

def PageView.ranges (v : PageView) : List (Nat × Nat) :=
  v.cells.map CellView.range ++ v.freeblocks.map blockRange

def Apart (r r' : Nat × Nat) : Prop :=
  r.2 ≤ r'.1 ∨ r'.2 ≤ r.1

/-- Cells and freeblocks do not overlap, and end on the page. -/
structure PageView.Fits (v : PageView) (usable : Nat) : Prop where
  apart : v.ranges.Pairwise Apart
  inside : ∀ r ∈ v.ranges, r.2 ≤ usable

def cellRowid : BTreeCell → Option Int64
  | .tableInterior _ rowid | .tableLeaf rowid .. => some rowid
  | .indexInterior .. | .indexLeaf .. => none

def leftChild : BTreeCell → Option Nat
  | .tableInterior child _ | .indexInterior child .. => some child.toNat
  | .tableLeaf .. | .indexLeaf .. => none

def PageView.rowids (v : PageView) : List Int64 :=
  v.cells.filterMap (cellRowid ·.cell)

/-- A page at the end of a path from the root, between the interior keys next to the path. -/
structure Place where
  page : Nat
  level : Nat
  lower : Option Int64
  upper : Int64

/-- The bound a cell is for what is to its right, and for its left child. -/
def boundAfter (lower : Option Int64) (cell : BTreeCell) : Option Int64 :=
  (cellRowid cell).or lower

def leftPlaces (place : Place) : Option Int64 → List CellView → List Place
  | _, [] => []
  | lower, c :: cs =>
    ((leftChild c.cell).map fun child =>
      ⟨child, place.level + 1, lower, (cellRowid c.cell).getD place.upper⟩).toList ++
        leftPlaces place (boundAfter lower c.cell) cs

def lastBound (lower : Option Int64) (cells : List CellView) : Option Int64 :=
  cells.foldl (fun lower c => boundAfter lower c.cell) lower

def rightPlace (place : Place) (v : PageView) (child : Nat) : Place :=
  ⟨child, place.level + 1, lastBound place.lower v.cells, place.upper⟩

def rootPlace (root : Nat) : Place :=
  ⟨root, 0, none, Int64.maxValue⟩

/-- The places below a root. The flag tells those at the end of left pointers only. -/
inductive Reached (pager : Pager) (root : Nat) : Place → Bool → Prop
  | root : Reached pager root (rootPlace root) true
  | left {place child : Place} {v : PageView} {lefts : Bool} : Reached pager root place lefts →
      pager.view place.page = some v → child ∈ leftPlaces place place.lower v.cells →
      Reached pager root child lefts
  | right {place : Place} {v : PageView} {lefts : Bool} {child : Nat} : Reached pager root place lefts →
      pager.view place.page = some v → v.rightmost = some child →
      Reached pager root (rightPlace place v child) false

/-- What the check compares: neighbours that do not fall, under the bound from above. -/
structure Rising (place : Place) (v : PageView) : Prop where
  sorted : v.rowids.Pairwise (· ≤ ·)
  below : ∀ rowid ∈ v.rowids, rowid ≤ place.upper

/-- What else it takes: rowids above the key to the left, and on a leaf no two that are equal. -/
structure Above (place : Place) (v : PageView) : Prop where
  keys : ∀ rowid ∈ v.rowids, ∀ lower ∈ place.lower, lower ≤ rowid
  rows : isLeaf v.pageType → v.rowids.Pairwise (· ≠ ·) ∧
    ∀ rowid ∈ v.rowids, ∀ lower ∈ place.lower, lower ≠ rowid

/-- The rowids of the leaves that are less than `depth` pages down, in key order. -/
def rowidsBelow (pager : Pager) : Nat → Nat → List Int64
  | 0, _ => []
  | depth + 1, page =>
    match pager.view page with
    | none => []
    | some v =>
      if isLeaf v.pageType then v.rowids
      else v.cells.flatMap (fun c => ((leftChild c.cell).map (rowidsBelow pager depth)).getD []) ++
        (v.rightmost.map (rowidsBelow pager depth)).getD []

def LeafAt (pager : Pager) (place : Place) (v : PageView) : Prop :=
  pager.view place.page = some v ∧ isLeaf v.pageType

def TableTree (pager : Pager) (root : Nat) : Prop :=
  ∀ {place lefts v}, Reached pager root place lefts → pager.view place.page = some v →
    v.pageType = .tableInterior ∨ v.pageType = .tableLeaf

def Examined (pager : Pager) (root page : Nat) : Prop :=
  ∃ s entry stack, Turns (integrityCheck pager) (.new root) s ∧ s.pageStack = entry :: stack ∧
    entry.pageIdx = page

structure Sound (pager : Pager) (root : Nat) : Prop where
  examined : ∀ {place lefts}, Reached pager root place lefts → Examined pager root place.page
  depth : ∀ {place place' v v' lefts lefts'}, Reached pager root place lefts →
    Reached pager root place' lefts' → LeafAt pager place v → LeafAt pager place' v' →
    place.level = place'.level
  fits : ∀ {place lefts}, Reached pager root place lefts →
    ∃ v, pager.view place.page = some v ∧ v.Fits pager.usable
  bounded : TableTree pager root → ∀ {place lefts v}, Reached pager root place lefts →
    pager.view place.page = some v → Rising place v ∧ Above place v
  increasing : TableTree pager root → ∀ depth, (rowidsBelow pager depth root).Pairwise (· < ·)

/-- What the check does not look at: pages that only a rightmost pointer leads to, the kind and the
depth of pages without cells, where freeblocks end, and bounds from below. -/
structure Unchecked (pager : Pager) (root : Nat) : Prop where
  reached : ∀ {place lefts}, Reached pager root place lefts →
    ∃ place', Reached pager root place' true ∧ place'.page = place.page
  depth : ∀ {place place' v v' lefts lefts'}, Reached pager root place lefts →
    Reached pager root place' lefts' → LeafAt pager place v → LeafAt pager place' v' →
    lefts = false ∨ v.cells = [] → place.level = place'.level
  readable : ∀ {place lefts}, Reached pager root place lefts → ∃ v, pager.view place.page = some v
  blocks : ∀ {place lefts v}, Reached pager root place lefts → pager.view place.page = some v →
    ∀ block ∈ v.freeblocks, (blockRange block).2 ≤ pager.usable
  rising : TableTree pager root → ∀ {place v}, Reached pager root place false →
    pager.view place.page = some v → Rising place v
  above : TableTree pager root → ∀ {place lefts v}, Reached pager root place lefts →
    pager.view place.page = some v → Above place v

end OxiSql.Integrity
