import OxiSql.Lib.ByteFile
import OxiSql.Lib.Words

namespace OxiSql.Wal
open Lib

abbrev PageBytes := List UInt8

abbrev Checksum := UInt32 × UInt32

def walHeaderSize : Nat := 32

def walFrameHeaderSize : Nat := 24

def walMagicLe : UInt32 := 0x377f0682

def walFileFormat : UInt32 := 3007000

def minPageSize : UInt32 := 512

def maxPageSize : UInt32 := 65536

@[ext]
structure WalHeader where
  magic : UInt32
  fileFormat : UInt32
  pageSize : UInt32
  checkpointSeq : UInt32
  salt1 : UInt32
  salt2 : UInt32
  checksum1 : UInt32
  checksum2 : UInt32
deriving DecidableEq

/-- `WalHeader::as_bytes`: the struct's memory on a little-endian host. -/
def WalHeader.asBytes (h : WalHeader) : List UInt8 :=
  u32Le h.magic ++ u32Le h.fileFormat ++ u32Le h.pageSize ++ u32Le h.checkpointSeq ++
    u32Le h.salt1 ++ u32Le h.salt2 ++ u32Le h.checksum1 ++ u32Le h.checksum2

/-- A word of the checksummed buffer. `native` is little-endian: the host is. -/
def checksumWord (native : Bool) (b₀ b₁ b₂ b₃ : UInt8) : UInt32 :=
  if native then leU32 b₀ b₁ b₂ b₃ else beU32 b₀ b₁ b₂ b₃

/-- `checksum_wal`, eight bytes at a time. The source asserts that the length is
a multiple of eight, so no remainder is ever dropped. -/
def checksumWal (native : Bool) : List UInt8 → Checksum → Checksum
  | b₀ :: b₁ :: b₂ :: b₃ :: b₄ :: b₅ :: b₆ :: b₇ :: rest, (s₀, s₁) =>
    let s₀' := s₀ + (checksumWord native b₀ b₁ b₂ b₃ + s₁)
    let s₁' := s₁ + (checksumWord native b₄ b₅ b₆ b₇ + s₀')
    checksumWal native rest (s₀', s₁')
  | _, s => s

/-- The byte order in which a log's frames are summed, decided by its magic number. -/
def WalHeader.useNativeEndian (h : WalHeader) : Bool :=
  h.magic &&& 1 == 0

/-- The checksum of the first 24 bytes of a header, as a writer computes it from the struct. -/
def WalHeader.headerChecksum (h : WalHeader) : Checksum :=
  checksumWal false (h.asBytes.take (walHeaderSize - 2 * 4)) (0, 0)

/-- A header carrying its own checksum. -/
def WalHeader.seal (h : WalHeader) : WalHeader :=
  { h with checksum1 := h.headerChecksum.1, checksum2 := h.headerChecksum.2 }

/-- The first 24 bytes of the header on disk: everything its checksum covers. -/
def WalHeader.bodyBytes (h : WalHeader) : List UInt8 :=
  u32Be h.magic ++ (u32Be h.fileFormat ++ (u32Be h.pageSize ++ (u32Be h.checkpointSeq ++
    (u32Be h.salt1 ++ u32Be h.salt2))))

/-- The buffer `begin_write_wal_header` writes: 32 header bytes in a zeroed buffer of 512. -/
def WalHeader.buffer (h : WalHeader) : List UInt8 :=
  h.bodyBytes ++ (u32Be h.checksum1 ++ (u32Be h.checksum2 ++ List.replicate 480 0))

def beginWriteWalHeader (file : ByteFile) (h : WalHeader) : ByteFile :=
  file.pwrite 0 h.buffer

/-- The checksum a writer stores in a frame: eight bytes of frame header, then
`page_size` bytes of content, where `page_size` has been cast to 16 bits. -/
def frameChecksum (h : WalHeader) (pageSize : Nat) (pageNumber dbSize : UInt32)
    (content : PageBytes) (checksums : Checksum) : Checksum :=
  checksumWal h.useNativeEndian (content.take pageSize)
    (checksumWal h.useNativeEndian (u32Be pageNumber ++ u32Be dbSize) checksums)

/-- The buffer `begin_write_wal_frame` writes: the frame header and the whole page. -/
def frameBuffer (h : WalHeader) (pageNumber dbSize : UInt32) (content : PageBytes)
    (sum : Checksum) : List UInt8 :=
  u32Be pageNumber ++ (u32Be dbSize ++ (u32Be h.salt1 ++ (u32Be h.salt2 ++
    (u32Be sum.1 ++ (u32Be sum.2 ++ content)))))

/-- `begin_write_wal_frame`. The page size arrives as a `u16`, so 65536 arrives as 0. -/
def beginWriteWalFrame (file : ByteFile) (offset : Nat) (pageId : Nat) (content : PageBytes)
    (pageSize : Nat) (dbSize : UInt32) (h : WalHeader) (checksums : Checksum) : ByteFile × Checksum :=
  let sum := frameChecksum h pageSize (UInt32.ofNat pageId) dbSize content checksums
  (file.pwrite offset (frameBuffer h (UInt32.ofNat pageId) dbSize content sum), sum)

@[simp] theorem length_frameBuffer :
    (frameBuffer h n d content sum).length = walFrameHeaderSize + content.length := by
  simp [frameBuffer,walFrameHeaderSize]
  omega

theorem drop_frameBuffer : (frameBuffer h n d content sum).drop walFrameHeaderSize = content := rfl

end OxiSql.Wal
