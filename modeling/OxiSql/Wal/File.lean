import OxiSql.Wal.Ondisk
import OxiSql.Wal.Lock

namespace OxiSql.Wal
open Lib Function

inductive CheckpointMode where
  | passive
  | full
  | restart
  | truncate
deriving DecidableEq

inductive LimboResult where
  | ok
  | busy
deriving DecidableEq

/-- The WAL state all connections share. `frame_cache` maps a page to the frames
that hold it, oldest first. -/
structure WalFileShared where
  walHeader : WalHeader
  maxFrame : Nat
  nbackfills : Nat
  frameCache : Nat → Option (List Nat)
  pagesInFrames : List Nat
  lastChecksum : Checksum
  file : ByteFile
  readLocks : ReadLocks
  writeLock : LimboRwLock

/-- One connection's handle on the WAL. The checkpoint state machine is not
here: a pass is modelled from start to end. -/
structure WalFile where
  maxFrameReadLockIndex : Slot
  maxFrame : Nat
  minFrame : Nat
  txnStartMaxFrame : Nat
  txnStartLastChecksum : Checksum
  pageSize : Nat

/-- The main database file, page by page. -/
abbrev DbFile := Nat → PageBytes

def WalFile.new (pageSize : Nat) : WalFile :=
  ⟨0, 0, 0, 0, (0, 0), pageSize⟩

/-- `open_shared` on a new or orphaned log: a fresh header with two random salts. -/
def WalFileShared.openFresh (file : ByteFile) (pageSize : Nat) (salt1 salt2 : UInt32) : WalFileShared :=
  let header := WalHeader.seal
    ⟨walMagicLe, walFileFormat, UInt32.ofNat pageSize, 0, salt1, salt2, 0, 0⟩
  { walHeader := header
    maxFrame := 0
    nbackfills := 0
    frameCache := fun _ => none
    pagesInFrames := []
    lastChecksum := (header.checksum1, header.checksum2)
    file := beginWriteWalHeader file header
    readLocks := fun _ => .new
    writeLock := .new }

def frameOffset (pageSize frameId : Nat) : Nat :=
  walHeaderSize + (frameId - 1) * (pageSize + walFrameHeaderSize)

def WalFileShared.frames (s : WalFileShared) (page : Nat) : List Nat :=
  (s.frameCache page).getD []

/-- One round of the first loop of `begin_read_tx`. -/
def markStep (locks : ReadLocks) (maxFrame : Nat) (best : Nat × Option Slot) (i : Slot) : Nat × Option Slot :=
  let thisMark := (locks i).value
  if best.1 < thisMark ∧ thisMark ≤ asU32 maxFrame then (thisMark, some i) else best

/-- The largest mark that is set and in range, with its slot. -/
def largestMark (locks : ReadLocks) (maxFrame : Nat) : Nat × Option Slot :=
  (List.finRange 5).foldl (markStep locks maxFrame) (0, none)

/-- The first slot the second loop of `begin_read_tx` can lock exclusively. -/
def freeSlot (locks : ReadLocks) : Option Slot :=
  (List.finRange 5).find? fun i => (locks i).write.1

/-- The mark to read at: the largest one there is, or a free slot moved up to the
end of the log when that mark is behind. -/
def chooseMark (locks : ReadLocks) (maxFrame : Nat) : Nat × Option Slot × ReadLocks :=
  let (mark, slot) := largestMark locks maxFrame
  if mark < maxFrame ∨ slot = none then
    match freeSlot locks with
    | some i =>
      (asU32 maxFrame, some i, update locks i ((locks i).setValue (asU32 maxFrame)))
    | none => (mark, slot, locks)
  else (mark, slot, locks)

def WalFile.beginReadTx (w : WalFile) (s : WalFileShared) : LimboResult × WalFile × WalFileShared :=
  match chooseMark s.readLocks s.maxFrame with
  | (_, none, locks) => (.busy, w, { s with readLocks := locks })
  | (mark, some i, locks) =>
    if (locks i).read.1 then
      (.ok, { w with minFrame := s.nbackfills + 1, maxFrameReadLockIndex := i, maxFrame := mark },
        { s with readLocks := update locks i (locks i).read.2 })
    else (.busy, w, { s with readLocks := locks })

def WalFile.endReadTx (w : WalFile) (s : WalFileShared) : WalFileShared :=
  let i := w.maxFrameReadLockIndex
  { s with readLocks := update s.readLocks i (s.readLocks i).unlock }

def WalFile.beginWriteTx (w : WalFile) (s : WalFileShared) : LimboResult × WalFile × WalFileShared :=
  if s.writeLock.write.1 then
    (.ok, { w with txnStartMaxFrame := s.maxFrame, txnStartLastChecksum := s.lastChecksum },
      { s with writeLock := s.writeLock.write.2 })
  else (.busy, w, s)

def WalFile.endWriteTx (_w : WalFile) (s : WalFileShared) : WalFileShared :=
  { s with writeLock := s.writeLock.unlock }

/-- The newest of a page's frames within a range, scanning from the end. -/
def newestWithin (lo hi : Nat) (frames : List Nat) : Option Nat :=
  frames.reverse.find? fun f => lo ≤ f ∧ f ≤ hi

def WalFile.findFrame (w : WalFile) (s : WalFileShared) (page : Nat) : Option Nat :=
  newestWithin 0 w.maxFrame (s.frames page)

def WalFile.readFrame (w : WalFile) (s : WalFileShared) (frameId : Nat) : PageBytes :=
  s.file.pread (frameOffset w.pageSize frameId + walFrameHeaderSize) w.pageSize

/-- Adding a frame to a page's list; a page seen for the first time is also listed. -/
def WalFileShared.pushFrame (s : WalFileShared) (page frameId : Nat) : WalFileShared :=
  match s.frameCache page with
  | some frames =>
    { s with frameCache := update s.frameCache page (some (frames ++ [frameId])) }
  | none =>
    { s with
      frameCache := update s.frameCache page (some [frameId])
      pagesInFrames := s.pagesInFrames ++ [page] }

def WalFile.appendFrame (w : WalFile) (s : WalFileShared) (page : Nat) (content : PageBytes)
    (dbSize : UInt32) : WalFileShared :=
  let frameId := if s.maxFrame = 0 then 1 else s.maxFrame + 1
  let (file, checksums) := beginWriteWalFrame s.file (frameOffset w.pageSize frameId) page content
    (w.pageSize % 2 ^ 16) dbSize s.walHeader s.lastChecksum
  { s with file := file, lastChecksum := checksums, maxFrame := frameId }.pushFrame page frameId

/-- One frame for each dirty page, as the loops of `cacheflush` and
`flush_dirty_pages_to_wal` append them. -/
def WalFile.appendAll (w : WalFile) (dbSize : UInt32) (s : WalFileShared)
    (dirty : List (Nat × PageBytes)) : WalFileShared :=
  dirty.foldl (fun s page => w.appendFrame s page.1 page.2 dbSize) s

/-- `HashMap::retain` as both frame-cache prunings use it: each page keeps the frames
that pass, and a page left without frames is forgotten. -/
def retainFrames (keep : Nat → Bool) (cache : Nat → Option (List Nat)) (page : Nat) : Option (List Nat) :=
  match cache page with
  | none => none
  | some frames =>
    if (frames.filter keep).isEmpty then none else some (frames.filter keep)

def WalFileShared.retain (s : WalFileShared) (keep : Nat → Bool) : WalFileShared :=
  let cache := retainFrames keep s.frameCache
  { s with
    frameCache := cache
    pagesInFrames := s.pagesInFrames.filter fun page => (cache page).isSome }

def WalFileShared.rollbackToFrame (s : WalFileShared) (targetFrame : Nat)
    (targetChecksum : Checksum) : WalFileShared :=
  { s.retain (fun f => f ≤ targetFrame) with
    maxFrame := targetFrame
    lastChecksum := targetChecksum }

def WalFile.rollback (w : WalFile) (s : WalFileShared) : WalFileShared :=
  s.rollbackToFrame w.txnStartMaxFrame w.txnStartLastChecksum

def WalFileShared.currentFrameState (s : WalFileShared) : Nat × Checksum :=
  (s.maxFrame, s.lastChecksum)

def WalFile.setReaderMaxFrame (w : WalFile) (frame : Nat) : WalFile :=
  { w with maxFrame := frame }

def checkpointThreshold : Nat := 1000

def WalFile.shouldCheckpoint (_w : WalFile) (s : WalFileShared) : Bool :=
  checkpointThreshold ≤ s.maxFrame

/-- One slot of `CheckpointState::Start`: a free slot with an older mark is moved out of
the way, a held one lowers the safe frame. -/
def clampStep (acc : ReadLocks × Nat) (i : Slot) : ReadLocks × Nat :=
  let (locks, maxSafe) := acc
  let thisMark := (locks i).value
  if thisMark < asU32 maxSafe then
    if (locks i).write.1 then
      let newMark := if i = 0 then asU32 maxSafe else readmarkNotUsed
      (update locks i ((locks i).setValue newMark), maxSafe)
    else (locks, thisMark)
  else (locks, maxSafe)

/-- The lock table after `CheckpointState::Start`, and the last frame it is safe to copy. -/
def startCheckpoint (s : WalFileShared) : ReadLocks × Nat :=
  (List.finRange 5).foldl clampStep (s.readLocks, s.maxFrame)

/-- One page of the copying loop: its newest frame in range goes to the database file. The
source expects every listed page to have an entry in `frame_cache`. -/
def WalFile.backfillPage (w : WalFile) (s : WalFileShared) (maxSafe : Nat)
    (acc : DbFile × List Nat) (page : Nat) : DbFile × List Nat :=
  match newestWithin w.minFrame maxSafe (s.frames page) with
  | some frame => (update acc.1 page (w.readFrame s frame), acc.2 ++ [page])
  | none => acc

def WalFile.backfill (w : WalFile) (s : WalFileShared) (maxSafe : Nat) (db : DbFile) : DbFile × List Nat :=
  s.pagesInFrames.foldl (w.backfillPage s maxSafe) (db, [])

def WalFileShared.trimBackfilledFrames (s : WalFileShared) (backfilledUpTo : Nat) : WalFileShared :=
  if backfilledUpTo = 0 then s else s.retain fun f => backfilledUpTo < f

/-- `reset_wal_file`: a new generation of the log, with the random number it draws. -/
def WalFileShared.resetWalFile (s : WalFileShared) (truncate : Bool) (random : UInt32) : WalFileShared :=
  let header := WalHeader.seal { s.walHeader with
    checkpointSeq := s.walHeader.checkpointSeq + 1
    salt1 := s.walHeader.salt1 + 1
    salt2 := random }
  { s with
    walHeader := header
    lastChecksum := (header.checksum1, header.checksum2)
    file := beginWriteWalHeader (if truncate then ByteFile.empty else s.file) header }

structure CheckpointResult where
  numWalFrames : Nat
  numCheckpointedFrames : Nat
  checkpointedPageIds : List Nat

/-- A whole pass of `WalFile::checkpoint`, from `Start` to `Done`. -/
def WalFile.checkpoint (w : WalFile) (s : WalFileShared) (db : DbFile) (mode : CheckpointMode)
    (random : UInt32) : CheckpointResult × WalFileShared × DbFile :=
  let (locks, maxSafe) := startCheckpoint s
  let (db', touched) := w.backfill s maxSafe db
  let result := ⟨s.maxFrame, maxSafe, touched⟩
  let started := { s with readLocks := locks }
  if s.maxFrame = maxSafe then
    let cleared := { started with
      frameCache := fun _ => none, pagesInFrames := [], maxFrame := 0, nbackfills := 0 }
    (result, cleared.resetWalFile (mode = .truncate) random, db')
  else
    (result, { started with nbackfills := maxSafe }.trimBackfilledFrames maxSafe, db')

end OxiSql.Wal
