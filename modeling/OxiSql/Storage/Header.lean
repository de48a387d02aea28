import OxiSql.Lib.Words

namespace OxiSql.Storage
open Lib

structure DatabaseHeader where
  magic : Vector UInt8 16
  pageSize : UInt16
  writeVersion : UInt8
  readVersion : UInt8
  reservedSpace : UInt8
  maxEmbedFrac : UInt8
  minEmbedFrac : UInt8
  minLeafFrac : UInt8
  changeCounter : UInt32
  databaseSize : UInt32
  freelistTrunkPage : UInt32
  freelistPages : UInt32
  schemaCookie : UInt32
  schemaFormat : UInt32
  defaultPageCacheSize : Int32
  vacuumModeLargestRootPage : UInt32
  textEncoding : UInt32
  userVersion : Int32
  incrementalVacuumEnabled : UInt32
  applicationId : UInt32
  reservedForExpansion : Vector UInt8 20
  versionValidFor : UInt32
  versionNumber : UInt32
deriving DecidableEq

def defaultCacheSize : Int32 := -2000

def databaseHeaderSize : Nat := 100

def defaultPageSize : UInt16 := 4096

/-- `DatabaseHeader::default`; the magic is `SQLite format 3` and a zero byte. -/
def DatabaseHeader.default : DatabaseHeader where
  magic := #v[83, 81, 76, 105, 116, 101, 32, 102, 111, 114, 109, 97, 116, 32, 51, 0]
  pageSize := defaultPageSize
  writeVersion := 2
  readVersion := 2
  reservedSpace := 0
  maxEmbedFrac := 64
  minEmbedFrac := 32
  minLeafFrac := 32
  changeCounter := 1
  databaseSize := 1
  freelistTrunkPage := 0
  freelistPages := 0
  schemaCookie := 0
  schemaFormat := 4
  defaultPageCacheSize := defaultCacheSize
  vacuumModeLargestRootPage := 0
  textEncoding := 1
  userVersion := 0
  incrementalVacuumEnabled := 0
  applicationId := 0
  reservedForExpansion := .replicate 20 0
  versionValidFor := 3047000
  versionNumber := 3047000

def maxPageSize : Nat := 65536

def DatabaseHeader.getPageSize (h : DatabaseHeader) : Nat :=
  if h.pageSize = 1 then maxPageSize else h.pageSize.toNat

theorem DatabaseHeader.getPageSize_le (h : DatabaseHeader) : h.getPageSize ≤ maxPageSize := by
  unfold getPageSize
  split
  · exact Nat.le_refl _
  · exact Nat.le_of_lt h.pageSize.toNat_lt

/-- The bytes `write_header_to_buf` puts at the start of a buffer. -/
def DatabaseHeader.bytes (h : DatabaseHeader) : List UInt8 :=
  h.magic.toList ++ (u16Be h.pageSize ++ ([h.writeVersion, h.readVersion, h.reservedSpace,
    h.maxEmbedFrac, h.minEmbedFrac, h.minLeafFrac] ++ (u32Be h.changeCounter ++
    (u32Be h.databaseSize ++ (u32Be h.freelistTrunkPage ++ (u32Be h.freelistPages ++
    (u32Be h.schemaCookie ++ (u32Be h.schemaFormat ++ (u32Be h.defaultPageCacheSize.toUInt32 ++
    (u32Be h.vacuumModeLargestRootPage ++ (u32Be h.textEncoding ++
    (u32Be h.userVersion.toUInt32 ++ (u32Be h.incrementalVacuumEnabled ++
    (u32Be h.applicationId ++ (h.reservedForExpansion.toList ++ (u32Be h.versionValidFor ++
    u32Be h.versionNumber))))))))))))))))

def writeHeaderToBuf (buf : List UInt8) (h : DatabaseHeader) : List UInt8 :=
  h.bytes ++ buf.drop databaseHeaderSize

/-- A cache size of zero stands for the default. -/
def cacheSizeOf (size : Int32) : Int32 :=
  if size = 0 then defaultCacheSize else size

/-- `parse_database_header_into`, which overwrites every field. -/
def parseDatabaseHeader (buf : List UInt8) : DatabaseHeader where
  magic := .ofFn fun i => buf.getD i 0
  pageSize := beU16 (buf.getD 16 0) (buf.getD 17 0)
  writeVersion := buf.getD 18 0
  readVersion := buf.getD 19 0
  reservedSpace := buf.getD 20 0
  maxEmbedFrac := buf.getD 21 0
  minEmbedFrac := buf.getD 22 0
  minLeafFrac := buf.getD 23 0
  changeCounter := readU32 buf 24
  databaseSize := readU32 buf 28
  freelistTrunkPage := readU32 buf 32
  freelistPages := readU32 buf 36
  schemaCookie := readU32 buf 40
  schemaFormat := readU32 buf 44
  defaultPageCacheSize := cacheSizeOf (readU32 buf 48).toInt32
  vacuumModeLargestRootPage := readU32 buf 52
  textEncoding := readU32 buf 56
  userVersion := (readU32 buf 60).toInt32
  incrementalVacuumEnabled := readU32 buf 64
  applicationId := readU32 buf 68
  reservedForExpansion := .ofFn fun i => buf.getD (72 + i) 0
  versionValidFor := readU32 buf 92
  versionNumber := readU32 buf 96

def headerOf (page1 : List UInt8) : DatabaseHeader :=
  parseDatabaseHeader (page1.take databaseHeaderSize)

@[simp] theorem DatabaseHeader.length_bytes (h : DatabaseHeader) : h.bytes.length = databaseHeaderSize := by
  simp [bytes,databaseHeaderSize]

theorem beU16_word : beU16 ((u16Be x ++ rest).getD 0 0) ((u16Be x ++ rest).getD 1 0) = x :=
  beU16_bytes

theorem parseDatabaseHeader_bytes (hc : h.defaultPageCacheSize ≠ 0) : parseDatabaseHeader h.bytes = h := by
  have hlast : readU32 (u32Be h.versionNumber) 0 = h.versionNumber := by
    simpa using readU32_word h.versionNumber []
  have hsi : cacheSizeOf (h.defaultPageCacheSize.toUInt32.toInt32) = h.defaultPageCacheSize := by
    simp [cacheSizeOf,hc]
  have hma : (Vector.ofFn fun i : Fin 16 => h.bytes.getD i 0) = h.magic := by
    simp [DatabaseHeader.bytes,List.getElem?_append_left]
  have hre : (Vector.ofFn fun i : Fin 20 => h.bytes.getD (72 + i) 0) = h.reservedForExpansion := by
    ext i hi
    have hdr : h.bytes.drop 72 = h.reservedForExpansion.toList ++
        (u32Be h.versionValidFor ++ u32Be h.versionNumber) := by
      simp [DatabaseHeader.bytes,List.drop_append,List.drop_eq_nil_of_le]
    rw [Vector.getElem_ofFn,List.getD_eq_getElem?_getD,← List.getElem?_drop,hdr,
      List.getElem?_append_left (by simpa using hi)]
    simp [hi]
  unfold parseDatabaseHeader
  rw [hma,hre]
  simp only [DatabaseHeader.bytes,readU32_append_right,List.getD_append_right,
    Vector.length_toList,length_u16Be,length_u32Be,List.length_cons,List.length_nil,
    Nat.reduceAdd,Nat.reduceLeDiff,Nat.reduceSub,readU32_word,hlast,beU16_word,hsi]
  rfl

theorem headerOf_write (hc : h.defaultPageCacheSize ≠ 0) : headerOf (writeHeaderToBuf buf h) = h := by
  rw [headerOf,writeHeaderToBuf,List.take_left' h.length_bytes]
  exact parseDatabaseHeader_bytes hc

theorem headerOf_cacheSize : (headerOf buf).defaultPageCacheSize ≠ 0 := by
  simp only [headerOf,parseDatabaseHeader,cacheSizeOf]
  split
  · decide
  · assumption

end OxiSql.Storage
