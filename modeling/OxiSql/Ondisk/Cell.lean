import OxiSql.Lib.Loop
import OxiSql.Ondisk.Page

namespace OxiSql.Ondisk
open Lib

/-- The loop of `fill_cell_payload` over the overflow pages, whose numbers the pager hands out in the
order of `ids`: the number that goes into the four bytes before the payload, and the pages. The
bytes that are not written stay zero, and so does the pointer of the last page. -/
def spill (usableSpace pageSize : Nat) : List UInt32 → List UInt8 →
    Except Fault (UInt32 × List (UInt32 × List UInt8))
  | _, [] => .ok (0, [])
  | [], _ :: _ => .error .cacheFull
  | id :: ids, b :: rest => do
    let copied := (b :: rest).take (usableSpace - 4)
    let (next, pages) ← spill usableSpace pageSize ids ((b :: rest).drop (usableSpace - 4))
    let page := u32Be next ++ (copied ++ List.replicate (pageSize - 4 - copied.length) 0)
    .ok (id, (id, page) :: pages)

def cellStart (pageType : PageType) (intKey : Option Int64) (len : Nat) : Except Fault (List UInt8) :=
  match pageType, intKey with
  | .tableLeaf, some key => .ok (writeVarint len ++ writeVarint key.toUInt64.toNat)
  | .tableLeaf, none => .error (.panic "called `Option::unwrap()` on a `None` value")
  | _, _ => .ok (writeVarint len)

def fillCellPayload (pageType : PageType) (intKey : Option Int64) (record : List UInt8)
    (usableSpace pageSize : Nat) (ids : List UInt32) :
    Except Fault (List UInt8 × List (UInt32 × List UInt8)) := do
  require (pageType = .tableLeaf ∨ pageType = .indexLeaf) "assertion failed: matches!(page_type)"
  let start ← cellStart pageType intKey record.length
  let max ← payloadOverflowThresholdMax pageType usableSpace
  if record.length ≤ max then
    let cell := start ++ record
    .ok (cell ++ List.replicate (minimumCellSize - cell.length) 0, [])
  else
    let min ← payloadOverflowThresholdMin usableSpace
    let spaceLeft ← spaceOnPage record.length max min usableSpace
    let (first, pages) ← spill usableSpace pageSize ids (record.drop spaceLeft)
    .ok (start ++ (record.take spaceLeft ++ u32Be first), pages)

/-- How many bytes of a payload are on the page. -/
def parseCellInfo (payloadLen : Nat) (pageType : PageType) (usableSize : Nat) : Except Fault (Nat × Nat) := do
  let maxLocal ← payloadOverflowThresholdMax pageType (usableSize % 65536)
  let minLocal ← payloadOverflowThresholdMin (usableSize % 65536)
  if payloadLen ≤ maxLocal then .ok (payloadLen, payloadLen)
  else
    let nLocal ← spaceOnPage payloadLen maxLocal minLocal usableSize
    .ok (nLocal, payloadLen)

/-- `ReadPayloadOverflow`. -/
structure OverflowRead where
  payload : List UInt8
  remainingToRead : Nat
  page : List UInt8

section
variable (readPage : UInt32 → Except Fault (List UInt8)) (usableSpace : Nat)

/-- The first call of `process_overflow_read`. -/
def startOverflowRead (payload : List UInt8) (startNextPage : UInt32) (payloadSize : Nat) :
    Except Fault OverflowRead := do
  let page ← readPage startNextPage
  let remaining ← sub payloadSize payload.length
  .ok ⟨payload, remaining, page⟩

/-- What another call adds, once the page is there: the payload goes on, or it is whole. -/
def overflowStep (s : OverflowRead) : Except Fault (OverflowRead ⊕ List UInt8) := do
  let next ← readU32At s.page 0
  let capacity ← sub usableSpace 4
  let toRead := min s.remainingToRead capacity
  let bytes ← slice s.page 4 toRead
  let remaining := s.remainingToRead - toRead
  if remaining ≠ 0 ∧ next ≠ 0 then
    let page ← readPage next
    .ok (.inl ⟨s.payload ++ bytes, remaining, page⟩)
  else
    require (remaining = 0 ∧ next = 0)
      "we can't have more pages to read while also have read everything"
    .ok (.inr (s.payload ++ bytes))

def overflowTurn (s : OverflowRead) : Turn OverflowRead (List UInt8) Fault :=
  match overflowStep readPage usableSpace s with
  | .ok (.inl s') => .again s'
  | .ok (.inr payload) => .done payload
  | .error e => .fail e

end

end OxiSql.Ondisk
