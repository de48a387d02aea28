import OxiSql.Ondisk.Varint

namespace OxiSql.Ondisk

inductive PageType where
  | indexInterior
  | tableInterior
  | indexLeaf
  | tableLeaf
deriving DecidableEq

/-- `TryFrom<u8>`. -/
def PageType.tryFrom (value : UInt8) : Except Fault PageType :=
  let n := value.toNat
  if n = 2 then .ok .indexInterior
  else if n = 5 then .ok .tableInterior
  else if n = 10 then .ok .indexLeaf
  else if n = 13 then .ok .tableLeaf
  else .error (.corrupt s!"Invalid page type: {n}")

def PageType.headerSize : PageType → Nat
  | .indexInterior | .tableInterior => 12
  | .indexLeaf | .tableLeaf => 8

/-- A page in its buffer. The header of the first page starts at byte 100. -/
structure PageContent where
  offset : Nat
  buffer : List UInt8

inductive BTreeCell where
  | tableInterior (leftChildPage : UInt32) (rowid : Int64)
  | tableLeaf (rowid : Int64) (payload : List UInt8) (payloadSize : Nat)
      (firstOverflowPage : Option UInt32)
  | indexInterior (leftChildPage : UInt32) (payload : List UInt8) (payloadSize : Nat)
      (firstOverflowPage : Option UInt32)
  | indexLeaf (payload : List UInt8) (payloadSize : Nat) (firstOverflowPage : Option UInt32)
deriving DecidableEq

/-- `usable_space as usize - 12`, scaled: both thresholds of an index are made so. -/
def scaledThreshold (usableSpace factor : Nat) : Except Fault Nat := do
  let n ← sub usableSpace 12
  sub (n * factor / 255) 23

/-- The most bytes of a payload that stay on the page; `usable_space` has 16 bits. -/
def payloadOverflowThresholdMax (pageType : PageType) (usableSpace : Nat) : Except Fault Nat :=
  match pageType with
  | .indexInterior | .indexLeaf => scaledThreshold usableSpace 64
  | .tableInterior | .tableLeaf => sub usableSpace 35

/-- The fewest bytes that stay on the page if some do not. -/
def payloadOverflowThresholdMin (usableSpace : Nat) : Except Fault Nat :=
  scaledThreshold usableSpace 32

def rem (a b : Nat) : Except Fault Nat :=
  if b = 0 then .error (.panic "attempt to calculate the remainder with a divisor of zero")
  else .ok (a % b)

/-- The bytes of a spilling payload that stay on the page. -/
def spaceOnPage (payloadSize max min usableSize : Nat) : Except Fault Nat := do
  let above ← sub payloadSize min
  let capacity ← sub usableSize 4
  let surplus ← rem above capacity
  .ok (if max < min + surplus then min else min + surplus)

/-- Whether a payload spills, and how many bytes of it and of the pointer are then on the page. -/
def payloadOverflows (payloadSize max min usableSize : Nat) : Except Fault (Bool × Nat) :=
  if payloadSize ≤ max then .ok (false, 0)
  else do
    let spaceLeft ← spaceOnPage payloadSize max min usableSize
    .ok (true, spaceLeft + 4)

/-- The payload on the page, and the first overflow page if that is not all of it. -/
def readPayload (unread : List UInt8) (payloadSize : Nat) : Except Fault (List UInt8 × Option UInt32) :=
  if payloadSize ≤ unread.length then .ok (unread.take payloadSize, none)
  else if unread.length < 4 then
    .error (.corrupt "Cell payload too small for overflow page pointer")
  else do
    let firstOverflowPage ← readU32At unread (unread.length - 4)
    .ok (unread.take (unread.length - 4), some firstOverflowPage)

def cellPointerOutOfRange : Fault :=
  .corrupt "Cell pointer out of range"

/-- The part of `read_btree_cell` that its three kinds of cells with a payload share. -/
def readCellPayload (page : List UInt8) (pos payloadSize maxLocal minLocal usableSize : Nat) :
    Except Fault (List UInt8 × Option UInt32) := do
  let (overflows, onPage) ← payloadOverflows payloadSize maxLocal minLocal usableSize
  let toRead ← if overflows then .ok onPage else sub page.length pos
  if page.length < pos + toRead then .error (.corrupt "cell payload extends beyond page")
  else
    let unread ← slice page pos toRead
    readPayload unread payloadSize

def readBtreeCell (page : List UInt8) (pageType : PageType)
    (pos maxLocal minLocal usableSize : Nat) : Except Fault BTreeCell :=
  match pageType with
  | .indexInterior =>
    if page.length < pos + 4 then .error cellPointerOutOfRange
    else do
      let leftChildPage ← readU32At page pos
      let buf ← sliceFrom page (pos + 4)
      let (payloadSize, nr) ← readVarint buf
      let (payload, firstOverflowPage) ←
        readCellPayload page (pos + 4 + nr) payloadSize maxLocal minLocal usableSize
      .ok (.indexInterior leftChildPage payload payloadSize firstOverflowPage)
  | .tableInterior =>
    if page.length < pos + 4 then .error cellPointerOutOfRange
    else do
      let leftChildPage ← readU32At page pos
      let buf ← sliceFrom page (pos + 4)
      let (rowid, _) ← readVarint buf
      .ok (.tableInterior leftChildPage (Int64.ofNat rowid))
  | .indexLeaf =>
    if page.length < pos then .error cellPointerOutOfRange
    else do
      let buf ← sliceFrom page pos
      let (payloadSize, nr) ← readVarint buf
      let (payload, firstOverflowPage) ←
        readCellPayload page (pos + nr) payloadSize maxLocal minLocal usableSize
      .ok (.indexLeaf payload payloadSize firstOverflowPage)
  | .tableLeaf =>
    if page.length < pos then .error cellPointerOutOfRange
    else do
      let buf ← sliceFrom page pos
      let (payloadSize, nr) ← readVarint buf
      let buf ← sliceFrom page (pos + nr)
      let (rowid, nr') ← readVarint buf
      let (payload, firstOverflowPage) ←
        readCellPayload page (pos + nr + nr') payloadSize maxLocal minLocal usableSize
      .ok (.tableLeaf (Int64.ofNat rowid) payload payloadSize firstOverflowPage)

/-- No cell is taken to be shorter, so that its place can hold a freeblock. -/
def minimumCellSize : Nat := 4

namespace PageContent

def readU8 (p : PageContent) (pos : Nat) : Except Fault UInt8 :=
  index p.buffer (p.offset + pos)

def readU16 (p : PageContent) (pos : Nat) : Except Fault Nat :=
  readU16At p.buffer (p.offset + pos)

def readU16NoOffset (p : PageContent) (pos : Nat) : Except Fault Nat :=
  readU16At p.buffer pos

def validateBtreePageType (p : PageContent) : Except Fault PageType := do
  let b ← p.readU8 0
  PageType.tryFrom b

/-- `page_type`, which unwraps. -/
def pageType (p : PageContent) : Except Fault PageType := do
  let b ← p.readU8 0
  match PageType.tryFrom b with
  | .ok pageType => .ok pageType
  | .error _ => .error (.panic "called `Result::unwrap()` on an `Err` value")

def firstFreeblock (p : PageContent) : Except Fault Nat :=
  p.readU16 1

def cellCount (p : PageContent) : Except Fault Nat :=
  p.readU16 3

def cellContentArea (p : PageContent) : Except Fault Nat :=
  p.readU16 5

def numFragFreeBytes (p : PageContent) : Except Fault Nat := do
  let b ← p.readU8 7
  .ok b.toNat

def headerSize (p : PageContent) : Except Fault Nat := do
  let pageType ← p.pageType
  .ok pageType.headerSize

def idxOutOfBounds (idx ncells : Nat) : Fault :=
  .corrupt s!"cell_get: idx out of bounds: idx={idx}, ncells={ncells}"

def slotOutOfRange : Fault :=
  .corrupt "Cell pointer array slot out of range"

def cellGet (p : PageContent) (idx max min usableSize : Nat) : Except Fault BTreeCell := do
  let pageType ← p.validateBtreePageType
  let ncells ← p.cellCount
  let cellPointerArrayStart ← p.headerSize
  if ncells ≤ idx then .error (idxOutOfBounds idx ncells)
  else if p.buffer.length < p.offset + (cellPointerArrayStart + idx * 2) + 2 then
    .error slotOutOfRange
  else
    let cellPointer ← p.readU16 (cellPointerArrayStart + idx * 2)
    readBtreeCell p.buffer pageType cellPointer max min usableSize

/-- `debug_assert!(self.page_type() == …)`, in builds that keep it. -/
def debugAssertType (p : PageContent) (debug : Bool) (expected : PageType) : Except Fault Unit :=
  if debug then do
    let pageType ← p.pageType
    require (pageType = expected) "assertion failed: self.page_type() == PageType"
  else .ok ()

def cellTableInteriorReadRowid (p : PageContent) (debug : Bool) (idx : Nat) : Except Fault Int64 := do
  p.debugAssertType debug .tableInterior
  let cellPointer ← p.readU16 (12 + idx * 2)
  if p.buffer.length < cellPointer + 4 then .error cellPointerOutOfRange
  else
    let buf ← sliceFrom p.buffer (cellPointer + 4)
    let (rowid, _) ← readVarint buf
    .ok (Int64.ofNat rowid)

def cellTableInteriorReadLeftChildPage (p : PageContent) (debug : Bool) (idx : Nat) :
    Except Fault UInt32 := do
  p.debugAssertType debug .tableInterior
  let cellPointer ← p.readU16 (12 + idx * 2)
  if p.buffer.length < cellPointer + 4 then .error cellPointerOutOfRange
  else readU32At p.buffer cellPointer

def cellTableLeafReadRowid (p : PageContent) (debug : Bool) (idx : Nat) : Except Fault Int64 := do
  p.debugAssertType debug .tableLeaf
  let cellPointer ← p.readU16 (8 + idx * 2)
  if p.buffer.length < cellPointer then .error cellPointerOutOfRange
  else
    let buf ← sliceFrom p.buffer cellPointer
    let (_, nr) ← readVarint buf
    let buf ← sliceFrom p.buffer (cellPointer + nr)
    let (rowid, _) ← readVarint buf
    .ok (Int64.ofNat rowid)

/-- The length of a cell, its bytes before the payload being counted already. -/
def rawLength (counted lenPayload max min usableSize : Nat) : Except Fault Nat := do
  let (overflows, toRead) ← payloadOverflows lenPayload max min usableSize
  .ok (if overflows then toRead + counted else lenPayload + counted)

def cellGetRawRegion (p : PageContent) (idx max min usableSize : Nat) : Except Fault (Nat × Nat) := do
  let pageType ← p.validateBtreePageType
  let ncells ← p.cellCount
  let headerSize ← p.headerSize
  if ncells ≤ idx then .error (idxOutOfBounds idx ncells)
  else if p.buffer.length < p.offset + headerSize + idx * 2 + 2 then .error slotOutOfRange
  else
    let cellPointer ← p.readU16NoOffset (p.offset + headerSize + idx * 2)
    if p.buffer.length < cellPointer + 4 then .error cellPointerOutOfRange
    else
      let len ← match pageType with
        | .indexInterior => do
          let buf ← sliceFrom p.buffer (cellPointer + 4)
          let (lenPayload, nPayload) ← readVarint buf
          rawLength (4 + nPayload) lenPayload max min usableSize
        | .tableInterior => do
          let buf ← sliceFrom p.buffer (cellPointer + 4)
          let (_, nRowid) ← readVarint buf
          .ok (4 + nRowid)
        | .indexLeaf => do
          let buf ← sliceFrom p.buffer cellPointer
          let (lenPayload, nPayload) ← readVarint buf
          rawLength nPayload lenPayload max min usableSize
        | .tableLeaf => do
          let buf ← sliceFrom p.buffer cellPointer
          let (lenPayload, nPayload) ← readVarint buf
          let buf ← sliceFrom p.buffer (cellPointer + nPayload)
          let (_, nRowid) ← readVarint buf
          rawLength (nPayload + nRowid) lenPayload max min usableSize
      .ok (cellPointer, Nat.max len minimumCellSize)

/-- The walk of `compute_free_space` over the freeblocks: the last one, the pointer in it, its size,
and all the bytes that are free. A pointer goes up with each turn, so a page of no more bytes than
there is fuel is left before the fuel is: the access then is out of bounds. -/
def walkFreeblocks (p : PageContent) : Nat → Nat → Nat → Except Fault (Nat × Nat × Nat × Nat)
  | 0, _, _ => .error (.panic "index out of bounds")
  | fuel + 1, cur, freeSpace => do
    let next ← p.readU16NoOffset cur
    let size ← p.readU16NoOffset (cur + 2)
    if next ≤ cur + size + 3 then .ok (cur, next, size, freeSpace + size)
    else p.walkFreeblocks fuel next (freeSpace + size)

def freeblockSpace (p : PageContent) (usableSpace contentStart freeSpace : Nat) : Except Fault Nat := do
  let first ← p.firstFreeblock
  if first = 0 then .ok freeSpace
  else if first < contentStart then
    .error (.corrupt "Freeblock pointer precedes cell content area")
  else
    let (cur, next, size, freeSpace) ← p.walkFreeblocks p.buffer.length first freeSpace
    if next ≠ 0 then .error (.corrupt "Freeblocks list not in ascending order")
    else
      require (cur + size ≤ usableSpace) "corrupted page: last freeblock extends last page end"
      .ok freeSpace

def computeFreeSpace (p : PageContent) (usableSpace : Nat) : Except Fault Nat := do
  let area ← p.cellContentArea
  let contentStart := if area = 0 then 65535 else area
  let pageType ← p.pageType
  let ncells ← p.cellCount
  let fragments ← p.numFragFreeBytes
  let freeSpace ← p.freeblockSpace usableSpace contentStart (contentStart + fragments)
  require (freeSpace ≤ usableSpace) "corrupted page: free space is greater than usable space"
  sub (freeSpace % 65536) ((p.offset + pageType.headerSize + 2 * ncells) % 65536)

end PageContent

end OxiSql.Ondisk
