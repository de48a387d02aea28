import OxiSql.Storage.Header
import OxiSql.Storage.Savepoints
import OxiSql.Wal.Views

namespace OxiSql.Storage
open Lib Wal

/-! The pager of one connection: the page cache over the WAL, the database header in memory,
and what changes them inside a write transaction. -/

inductive AutoVacuumMode where
  | none
  | full
  | incremental
deriving DecidableEq

/-- `dirtyPages` is a set; the order of the list carries no meaning. -/
structure Pager where
  wal : WalFile
  shared : WalFileShared
  db : DbFile
  header : DatabaseHeader
  cache : Nat → Option PageBytes
  dirtyPages : List Nat
  savepoints : List SavepointFrame
  autoVacuumMode : AutoVacuumMode

/-- What the page cache does when it is asked to take a page in: refuse, or take it after
dropping some clean pages. -/
abbrev Room := Nat → Option (List Nat)

namespace Pager

def content (P : Pager) (page : Nat) : PageBytes :=
  match P.cache page with
  | some content => content
  | none => P.wal.readPage P.shared P.db page

/-- Only clean pages leave the cache. -/
def evict (P : Pager) (pages : List Nat) : Pager :=
  { P with cache := fun page =>
      if page ∈ pages ∧ page ∉ P.dirtyPages then none else P.cache page }

/-- A page in the cache is written to: `set_dirty`, `add_dirty` and the new bytes. -/
def modify (P : Pager) (page : Nat) (content : PageBytes) : Pager :=
  { P with
    cache := Function.update P.cache page (some content)
    dirtyPages := P.dirtyPages.insert page }

/-- A page is read into the cache from the log or else from the database file. -/
def load (P : Pager) (page : Nat) : Pager :=
  { P with cache := Function.update P.cache page (some (P.wal.readPage P.shared P.db page)) }

def readPage (P : Pager) (page : Nat) (room : Room) : Except LimboError PageBytes × Pager :=
  match P.cache page with
  | some content => (.ok content, P)
  | none =>
    match room page with
    | none => (.error .cacheFull, P)
    | some victims =>
      let P := (P.evict victims).load page
      (.ok (P.content page), P)

def databaseHeaderPageId : Nat := 1

/-- `write_database_header`, which always writes the header in memory. -/
def writeDatabaseHeader (P : Pager) (room : Room) : Except LimboError Unit × Pager :=
  match P.readPage databaseHeaderPageId room with
  | (.error e, P) => (.error e, P)
  | (.ok content, P) =>
    (.ok (), P.modify databaseHeaderPageId (writeHeaderToBuf content P.header))

def ptrmapEntrySize : Nat := 5

def firstPtrmapPageNo : UInt32 := 2

def ptrmapPageCycleLength (pageSize : Nat) : Nat :=
  pageSize / ptrmapEntrySize + 1

def getPtrmapPageNoForDbPage (page : UInt32) (pageSize : Nat) : UInt32 :=
  let groupSize := UInt32.ofNat (ptrmapPageCycleLength pageSize)
  (page - firstPtrmapPageNo) / groupSize * groupSize + firstPtrmapPageNo

def isPtrmapPage (page : UInt32) (pageSize : Nat) : Bool :=
  if page = 1 then false
  else if page = firstPtrmapPageNo then true
  else getPtrmapPageNoForDbPage page pageSize = page

def insertNew (P : Pager) (page : Nat) (content : PageBytes) (room : Room) : Except LimboError Pager :=
  match P.cache page with
  | some _ => .error (.internalError "Unknown error inserting page to cache")
  | none =>
    match room page with
    | none => .error .cacheFull
    | some victims => .ok ((P.evict victims).modify page content)

def removeNew (P : Pager) (page : Nat) : Pager :=
  { P with
    cache := Function.update P.cache page none
    dirtyPages := P.dirtyPages.erase page }

/-- The end of `allocate_page`: the new size is in force before page 1 is written. -/
def growTo (P : Pager) (size : UInt32) (room : Room) : Except LimboError Nat × Pager :=
  match writeDatabaseHeader { P with header := { P.header with databaseSize := size } } room with
  | (.error e, P) => (.error e, P)
  | (.ok (), P) => (.ok size.toNat, P)

/-- `allocate_page`. The buffers of new pages come from a pool and hold anything. -/
def allocatePage (P : Pager) (ptrmap buffer : PageBytes) (room : Room) : Except LimboError Nat × Pager :=
  let candidate := P.header.databaseSize + 1
  if P.autoVacuumMode = .full ∧ isPtrmapPage candidate P.header.getPageSize then
    match P.insertNew candidate.toNat ptrmap room with
    | .error e => (.error e, P)
    | .ok P =>
      match P.insertNew (candidate + 1).toNat buffer room with
      | .error e => (.error e, P.removeNew candidate.toNat)
      | .ok P => P.growTo (candidate + 1) room
  else
    match P.insertNew candidate.toNat buffer room with
    | .error e => (.error e, P)
    | .ok P => P.growTo candidate room

/-- Where the content of a page starts: page 1 has the database header in front. -/
def pageOffset (page : Nat) : Nat :=
  if page = databaseHeaderPageId then databaseHeaderSize else 0

def usableSize (P : Pager) : Nat :=
  P.header.getPageSize - P.header.reservedSpace.toNat

/-- The end of `free_page`: the freed page becomes the first trunk of the freelist. -/
def makeTrunk (P : Pager) (page : Nat) (content : PageBytes) (next : UInt32) : Pager :=
  let content := writeU32 (writeU32 content (pageOffset page) next) (pageOffset page + 4) 0
  { P.modify page content with
    header := { P.header with freelistTrunkPage := UInt32.ofNat page } }

/-- The freed page goes into the first trunk if there is one with room, or becomes it. -/
def linkFreePage (P : Pager) (page : Nat) (content : PageBytes) (room : Room) :
    Except LimboError Unit × Pager :=
  let trunk : UInt32 := P.header.freelistTrunkPage
  if trunk = 0 then (.ok (), P.makeTrunk page content trunk)
  else
    match P.readPage trunk.toNat room with
    | (.error e, P) => (.error e, P)
    | (.ok entries, P) =>
      let off := pageOffset trunk.toNat
      let leaves := readU32 entries (off + 4)
      if leaves.toNat < P.usableSize / 4 - 2 then
        let entries := writeU32 entries (off + 4) (leaves + 1)
        (.ok (), P.modify trunk.toNat
          (writeU32 entries (off + 8 + leaves.toNat * 4) (UInt32.ofNat page)))
      else (.ok (), P.makeTrunk page content trunk)

/-- `free_page` on a page the caller did not pass along, or passed as it is cached, and that does
not leave when the trunk is read. The counter in memory is raised before that. -/
def freePage (P : Pager) (page : Nat) (room : Room) : Except LimboError Unit × Pager :=
  if page < 2 ∨ P.header.databaseSize.toNat < page then
    (.error (.corrupt s!"Invalid page number {page} for free operation"), P)
  else
    match P.readPage page room with
    | (.error e, P) => (.error e, P)
    | (.ok content, P) =>
      linkFreePage
        { P with header := { P.header with freelistPages := P.header.freelistPages + 1 } }
        page content room

end Pager

inductive Cookie where
  | schemaVersion
  | databaseFormat
  | defaultPageCacheSize
  | largestRootPageNumber
  | databaseTextEncoding
  | userVersion
  | incrementalVacuum
  | applicationId
deriving DecidableEq

def Cookie.name : Cookie → String
  | .schemaVersion => "SchemaVersion"
  | .databaseFormat => "DatabaseFormat"
  | .defaultPageCacheSize => "DefaultPageCacheSize"
  | .largestRootPageNumber => "LargestRootPageNumber"
  | .databaseTextEncoding => "DatabaseTextEncoding"
  | .userVersion => "UserVersion"
  | .incrementalVacuum => "IncrementalVacuum"
  | .applicationId => "ApplicationId"

/-- The header field a cookie sets; the other cookies are not implemented. -/
def DatabaseHeader.setCookie (h : DatabaseHeader) (value : Int32) : Cookie → Except LimboError DatabaseHeader
  | .userVersion => .ok { h with userVersion := value }
  | .largestRootPageNumber => .ok { h with vacuumModeLargestRootPage := value.toUInt32 }
  | .incrementalVacuum => .ok { h with incrementalVacuumEnabled := value.toUInt32 }
  | .applicationId => .ok { h with applicationId := value.toUInt32 }
  | .schemaVersion => .ok { h with schemaCookie := value.toUInt32 }
  | cookie =>
    let name := cookie.name
    .error (.internalError s!"{name} is not yet implemented for SetCookie")

namespace Pager

/-- The header write of `op_set_cookie`. -/
def setCookie (P : Pager) (cookie : Cookie) (value : Int32) (room : Room) : Except LimboError Unit × Pager :=
  match P.header.setCookie value cookie with
  | .error e => (.error e, P)
  | .ok header => writeDatabaseHeader { P with header := header } room

/-- `clear_page_cache`. -/
def clearPageCache (P : Pager) : Pager :=
  { P with cache := fun _ => none, dirtyPages := [] }

/-- `flush_dirty_pages_to_wal` taking the dirty set in some order. The cache stays, the reader
boundary moves to the end of the log, but only if there was something to flush. -/
def flushDirtyPagesToWal (P : Pager) (order : List Nat) : Pager :=
  if P.dirtyPages.isEmpty then P
  else
    let pages := order.filterMap fun page => (P.cache page).map fun content => (page, content)
    let s := P.wal.appendAll P.header.databaseSize P.shared pages
    { P with
      shared := s
      dirtyPages := []
      wal := P.wal.setReaderMaxFrame s.maxFrame }

/-- `cacheflush` up to the checkpoint of a long log. -/
def cacheflush (P : Pager) (order : List Nat) : Pager :=
  let pages := order.filterMap fun page => (P.cache page).map fun content => (page, content)
  { P.clearPageCache with shared := P.wal.appendAll P.header.databaseSize P.shared pages }

def openSavepoint (P : Pager) (name : String) (isTxnOwner : Bool) (order : List Nat) : Pager :=
  let P := P.flushDirtyPagesToWal order
  let (maxFrame, checksum) := P.shared.currentFrameState
  { P with savepoints := P.savepoints ++ [SavepointFrame.mk name maxFrame checksum isTxnOwner] }

def rollbackToSavepoint (P : Pager) (name : String) : Except LimboError Unit × Pager :=
  match savepointTarget P.savepoints name with
  | .error e => (.error e, P)
  | .ok (sp, savepoints) =>
    (.ok (), { P.clearPageCache with
      savepoints := savepoints
      shared := P.shared.rollbackToFrame sp.walMaxFrame sp.walChecksum
      wal := P.wal.setReaderMaxFrame sp.walMaxFrame })

def releaseSavepoint (P : Pager) (name : String) : Except LimboError Bool × Pager :=
  match Storage.releaseSavepoint P.savepoints name with
  | .error e => (.error e, P)
  | .ok (isOwner, savepoints) => (.ok isOwner, { P with savepoints := savepoints })

/-- `Pager::rollback`. Neither the header in memory nor the reader boundary goes back. -/
def rollback (P : Pager) : Pager :=
  { P.clearPageCache with
    shared := P.wal.rollback P.shared
    savepoints := [] }

/-- What a connection does with its pager inside a write transaction. -/
inductive Op where
  | readPage (page : Nat) (room : Room)
  | evict (pages : List Nat)
  | writePage (page : Nat) (content : PageBytes)
  | allocatePage (ptrmap buffer : PageBytes) (room : Room)
  | freePage (page : Nat) (room : Room)
  | setCookie (cookie : Cookie) (value : Int32) (room : Room)
  | openSavepoint (name : String) (isTxnOwner : Bool) (order : List Nat)
  | rollbackToSavepoint (name : String)
  | releaseSavepoint (name : String)
  | rollback

/-- A page write goes to a cached page, keeps its size, and leaves the header bytes of page 1 to
the header writes. Buffers are whole pages, and a flush takes every dirty page once. -/
def step (P : Pager) : Op → Option Pager
  | .readPage page room => some (P.readPage page room).2
  | .evict pages => some (P.evict pages)
  | .writePage page content =>
    match P.cache page with
    | none => none
    | some old =>
      if content.length = P.wal.pageSize ∧ (page = databaseHeaderPageId →
          content.take databaseHeaderSize = old.take databaseHeaderSize) then
        some (P.modify page content)
      else none
  | .allocatePage ptrmap buffer room =>
    if ptrmap.length = P.wal.pageSize ∧ buffer.length = P.wal.pageSize then
      some (P.allocatePage ptrmap buffer room).2
    else none
  | .freePage page room => some (P.freePage page room).2
  | .setCookie cookie value room => some (P.setCookie cookie value room).2
  | .openSavepoint name isTxnOwner order =>
    if order.Perm P.dirtyPages then some (P.openSavepoint name isTxnOwner order) else none
  | .rollbackToSavepoint name => some (P.rollbackToSavepoint name).2
  | .releaseSavepoint name => some (P.releaseSavepoint name).2
  | .rollback => some P.rollback

end Pager

end OxiSql.Storage
