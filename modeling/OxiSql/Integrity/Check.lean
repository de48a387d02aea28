import OxiSql.Lib.Loop
import OxiSql.Ondisk.Page

namespace OxiSql.Integrity
open Lib Ondisk

inductive IntegrityCheckError where
  | cellOutOfRange (cellIdx pageId cellStart cellEnd contentArea usableSpace : Nat)
  | cellOverflowsPage (cellIdx pageId cellStart cellEnd contentArea usableSpace : Nat)
  | cellRowidOutOfRange (pageId cellIdx : Nat) (rowid maxIntkey nextRowid : Int64)
  | leafDepthMismatch (pageId thisPageDepth otherPageDepth : Nat)
  | freeBlockOutOfRange (pageId start blockEnd : Nat)
  | cellOverlap (pageId start prevEnd contentArea : Nat) (isFreeBlock : Bool)
  | unexpectedFragmentation (pageId got expected : Nat)
deriving DecidableEq

structure IntegrityCheckPageEntry where
  pageIdx : Nat
  level : Nat
  maxIntkey : Int64
deriving DecidableEq

structure IntegrityCheckCellRange where
  start : Nat
  stop : Nat
  isFreeBlock : Bool
deriving DecidableEq

/-- How the min-heap of ranges gives them back. Ranges with the same start may come in any order. -/
structure HeapOrder where
  pop : List IntegrityCheckCellRange → List IntegrityCheckCellRange
  perm : ∀ ranges, (pop ranges).Perm ranges
  sorted : ∀ ranges, (pop ranges).Pairwise (·.start ≤ ·.start)

/-- Pages as they are read. `overflowChecks` is set in builds where a subtraction below zero
panics; in others it wraps round. -/
structure Pager where
  readPage : Nat → Except Fault PageContent
  usableSpace : Nat
  overflowChecks : Bool
  heap : HeapOrder

/-- `pager.usable_space() as u16`. -/
def Pager.usable (pager : Pager) : Nat :=
  pager.usableSpace % 65536

/-- The stack has its top in front. -/
structure IntegrityCheckState where
  pageStack : List IntegrityCheckPageEntry
  firstLeafLevel : Option Nat
  errors : List IntegrityCheckError
deriving DecidableEq

def IntegrityCheckState.new (pageIdx : Nat) : IntegrityCheckState :=
  ⟨[⟨pageIdx, 0, Int64.maxValue⟩], none, []⟩

structure PageCheck extends IntegrityCheckState where
  nextRowid : Int64
  ranges : List IntegrityCheckCellRange

namespace PageCheck

def report (s : PageCheck) (wrong : Bool) (error : IntegrityCheckError) : PageCheck :=
  if wrong then { s with errors := s.errors ++ [error] } else s

def addRange (s : PageCheck) (start stop : Nat) (isFreeBlock : Bool) : PageCheck :=
  { s with ranges := ⟨start, stop, isFreeBlock⟩ :: s.ranges }

def push (s : PageCheck) (entry : IntegrityCheckPageEntry) : PageCheck :=
  { s with pageStack := entry :: s.pageStack }

def checkRowid (s : PageCheck) (entry : IntegrityCheckPageEntry) (cellIdx : Nat) (rowid : Int64) :
    PageCheck :=
  let s := s.report (entry.maxIntkey < rowid ∨ s.nextRowid < rowid)
    (.cellRowidOutOfRange entry.pageIdx cellIdx rowid entry.maxIntkey s.nextRowid)
  { s with nextRowid := rowid }

/-- The level of a leaf, seen at each of its cells. -/
def checkLevel (s : PageCheck) (entry : IntegrityCheckPageEntry) : PageCheck :=
  match s.firstLeafLevel with
  | some expected =>
    s.report (expected ≠ entry.level) (.leafDepthMismatch entry.pageIdx entry.level expected)
  | none => { s with firstLeafLevel := some entry.level }

def checkPlace (s : PageCheck) (entry : IntegrityCheckPageEntry) (cellIdx start length area usable : Nat) :
    PageCheck :=
  let s := s.report (start < area ∨ usable - 4 < start)
    (.cellOutOfRange cellIdx entry.pageIdx start (start + length) area usable)
  let s := s.report (usable < start + length)
    (.cellOverflowsPage cellIdx entry.pageIdx start (start + length) area usable)
  s.addRange start (start + length) false

def checkContents (s : PageCheck) (entry : IntegrityCheckPageEntry) (cellIdx : Nat) : BTreeCell → PageCheck
  | .tableInterior leftChildPage rowid =>
    (s.push ⟨leftChildPage.toNat, entry.level + 1, rowid⟩).checkRowid entry cellIdx rowid
  | .tableLeaf rowid .. => (s.checkLevel entry).checkRowid entry cellIdx rowid
  | .indexInterior leftChildPage .. =>
    s.push ⟨leftChildPage.toNat, entry.level + 1, entry.maxIntkey⟩
  | .indexLeaf .. => s.checkLevel entry

end PageCheck

/-- The body of the loop over the cells of a page. -/
def checkCell (p : PageContent) (usable : Nat) (entry : IntegrityCheckPageEntry) (s : PageCheck)
    (cellIdx : Nat) : Except Fault PageCheck := do
  let pageType ← p.pageType
  let max ← payloadOverflowThresholdMax pageType usable
  let min ← payloadOverflowThresholdMin usable
  let (start, length) ← p.cellGetRawRegion cellIdx max min usable
  let area ← p.cellContentArea
  let _ ← sub usable 4
  let s := s.checkPlace entry cellIdx start length area usable
  let cell ← p.cellGet cellIdx max min usable
  .ok (s.checkContents entry cellIdx cell)

def checkCells (p : PageContent) (usable : Nat) (entry : IntegrityCheckPageEntry) (s : PageCheck) :
    Except Fault PageCheck := do
  let count ← p.cellCount
  (List.range count).reverse.foldlM (checkCell p usable entry) s

def readFreeblock (p : PageContent) (pc : Nat) : Except Fault (Nat × Nat) := do
  let next ← p.readU16NoOffset pc
  let size ← p.readU16NoOffset (pc + 2)
  .ok (next, size)

/-- The loop over the freeblocks. A list that is not at its end after `fuel` blocks is `none`; there
are 65536 places for a block, so one of more blocks than that goes round for ever. -/
def checkFreeblocks (p : PageContent) (usable pageIdx : Nat) :
    Nat → Nat → PageCheck → Option (Except Fault PageCheck)
  | _, 0, s => some (.ok s)
  | 0, _ + 1, _ => none
  | fuel + 1, pc + 1, s =>
    match readFreeblock p (pc + 1) with
    | .error e => some (.error e)
    | .ok (next, size) =>
      match sub usable 4 with
      | .error e => some (.error e)
      | .ok limit =>
        if limit < pc + 1 then
          some (.ok (s.report true (.freeBlockOutOfRange pageIdx (pc + 1) (pc + 1 + size))))
        else checkFreeblocks p usable pageIdx fuel next (s.addRange (pc + 1) (pc + 1 + size) true)

/-- The loop of `analyze` over the ranges as they come from the heap: the end of the last one, the
bytes in between, and the overlap that it stops at. -/
def analyzeRanges (pageIdx area : Nat) : Nat → Nat → List IntegrityCheckCellRange →
    Nat × Nat × List IntegrityCheckError
  | prevEnd, fragmentation, [] => (prevEnd, fragmentation, [])
  | prevEnd, fragmentation, r :: ranges =>
    if r.start < prevEnd then
      (prevEnd, fragmentation, [.cellOverlap pageIdx r.start prevEnd area r.isFreeBlock])
    else analyzeRanges pageIdx area r.stop (fragmentation + (r.start - prevEnd)) ranges

def usizeSub (overflowChecks : Bool) (a b : Nat) : Except Fault Nat :=
  if a < b ∧ overflowChecks = false then .ok (2 ^ 64 + a - b) else sub a b

def analyze (pager : Pager) (pageIdx area expected : Nat) (ranges : List IntegrityCheckCellRange) :
    Except Fault (List IntegrityCheckError) := do
  let (prevEnd, fragmentation, errors) := analyzeRanges pageIdx area area 0 (pager.heap.pop ranges)
  let rest ← usizeSub pager.overflowChecks pager.usable prevEnd
  let got := (fragmentation + rest) % 2 ^ 64
  .ok (if got ≠ expected then errors ++ [.unexpectedFragmentation pageIdx got expected] else errors)

/-- The end of the check of a page, when its cells and freeblocks are known. -/
def checkCoverage (pager : Pager) (p : PageContent) (pageIdx : Nat) (s : PageCheck) :
    Except Fault IntegrityCheckState := do
  let area ← p.cellContentArea
  let expected ← p.numFragFreeBytes
  let errors ← analyze pager pageIdx area expected s.ranges
  .ok { s.toIntegrityCheckState with errors := s.errors ++ errors }

def checkPage (pager : Pager) (entry : IntegrityCheckPageEntry) (s : IntegrityCheckState) :
    Option (Except Fault IntegrityCheckState) :=
  match (do
    let p ← pager.readPage entry.pageIdx
    let s ← checkCells p pager.usable entry ⟨s, entry.maxIntkey, []⟩
    let first ← p.firstFreeblock
    .ok (p, s, first) : Except Fault (PageContent × PageCheck × Nat)) with
  | .error e => some (.error e)
  | .ok (p, s, first) =>
    (checkFreeblocks p pager.usable entry.pageIdx 65536 first s).map fun r => do
      let s ← r
      checkCoverage pager p entry.pageIdx s

/-- One call. While a page is still being read a call changes nothing, and is made again; so is
one here that does not come back. -/
def integrityCheck (pager : Pager) (s : IntegrityCheckState) :
    Turn IntegrityCheckState IntegrityCheckState Fault :=
  match s.pageStack with
  | [] => .done s
  | entry :: stack =>
    match checkPage pager entry { s with pageStack := stack } with
    | none => .again s
    | some (.error e) => .fail e
    | some (.ok s) => .again s

def Driven (pager : Pager) (root : Nat) (s : IntegrityCheckState) : Prop :=
  Ends (integrityCheck pager) (.new root) (.ok s)

end OxiSql.Integrity
