import OxiSql.Wal.Frames
import OxiSql.Storage.Savepoints
import OxiSql.Lib.Results

namespace OxiSql.Wal
open Lib Storage List ByteFile UInt32

/-- `buf[pos..pos + len]`. -/
def slice (buf : List UInt8) (pos len : Nat) : List UInt8 :=
  (buf.drop pos).take len

/-- `count_ones`. -/
def countOnes (x : UInt32) : Nat :=
  (List.range 32).countP fun i => x.toNat.testBit i

def WalHeader.parse (buf : List UInt8) : WalHeader where
  magic := readU32 buf 0
  fileFormat := readU32 buf 4
  pageSize := readU32 buf 8
  checkpointSeq := readU32 buf 12
  salt1 := readU32 buf 16
  salt2 := readU32 buf 20
  checksum1 := readU32 buf 24
  checksum2 := readU32 buf 28

def checksumMismatch (what : String) (expected got : Checksum) : LimboError :=
  .corrupt s!"WAL {what} checksum mismatch. Expected ({expected.1}, {expected.2}), Got ({got.1}, {got.2})"

/-- What the loop over the frames carries along. -/
structure Scan where
  offset : Nat
  frameIdx : Nat
  cumulativeChecksum : Checksum
  frameCache : Nat → Option (List Nat)
  pagesInFrames : List Nat

/-- A frame is taken over: every frame lists its page, whether it was seen before or not. -/
def Scan.push (sc : Scan) (pageSize page : Nat) (sum : Checksum) : Scan where
  offset := sc.offset + (walFrameHeaderSize + pageSize)
  frameIdx := sc.frameIdx + 1
  cumulativeChecksum := sum
  frameCache := Function.update sc.frameCache page
    (some ((sc.frameCache page).getD [] ++ [sc.frameIdx]))
  pagesInFrames := sc.pagesInFrames ++ [page]

/-- The loop, which goes on while a whole frame fits. The `db_size` of a frame is not looked at. -/
def scanFrames (buf : List UInt8) (h : WalHeader) (pageSize : Nat) : Nat → Scan → Except LimboError Scan
  | 0, sc => .ok sc
  | fuel + 1, sc =>
    if sc.offset + walFrameHeaderSize + pageSize ≤ buf.length then
      let header := slice buf sc.offset walFrameHeaderSize
      let data := slice buf (sc.offset + walFrameHeaderSize) pageSize
      if readU32 header 8 ≠ h.salt1 ∨ readU32 header 12 ≠ h.salt2 then .ok sc
      else
        let stored := (readU32 header 16, readU32 header 20)
        let calculated := checksumWal h.useNativeEndian data
          (checksumWal h.useNativeEndian (header.take 8) sc.cumulativeChecksum)
        if calculated = stored then
          scanFrames buf h pageSize fuel (sc.push pageSize (readU32 header 0).toNat calculated)
        else .error (checksumMismatch "frame" stored calculated)
    else .ok sc

def Scan.start (h : WalHeader) : Scan :=
  ⟨walHeaderSize, 1, (h.checksum1, h.checksum2), fun _ => none, []⟩

def recovered (file : ByteFile) (h : WalHeader) (sc : Scan) : WalFileShared where
  walHeader := h
  maxFrame := sc.frameIdx - 1
  nbackfills := 0
  frameCache := sc.frameCache
  pagesInFrames := sc.pagesInFrames
  lastChecksum := sc.cumulativeChecksum
  file := file
  readLocks := fun _ => .new
  writeLock := .new

/-- `read_entire_wal_dumb`, run until the read is through. Each round of the loop takes more than
one byte, so the length is fuel enough. -/
def readEntireWalDumb (file : ByteFile) : Except LimboError WalFileShared :=
  let buf := file.pread 0 file.size
  if buf.length < walHeaderSize then .error (.corrupt "WAL file too small for header")
  else
    let h := WalHeader.parse buf
    let calculated := checksumWal h.useNativeEndian (slice buf 0 24) (0, 0)
    if calculated ≠ (h.checksum1, h.checksum2) then
      .error (checksumMismatch "header" (h.checksum1, h.checksum2) calculated)
    else if h.pageSize < minPageSize ∨ maxPageSize < h.pageSize ∨ countOnes h.pageSize ≠ 1 then
      .error (.corrupt s!"Invalid page size in WAL header: {h.pageSize}")
    else do
      let sc ← scanFrames buf h h.pageSize.toNat buf.length (.start h)
      pure (recovered file h sc)

/-- A page as it is appended, of the log's page size. -/
structure LogFrame (pageSize : Nat) where
  page : Nat
  content : PageBytes
  dbSize : UInt32
  size : content.length = pageSize

def LogFrame.sum {pageSize : Nat} (f : LogFrame pageSize) (h : WalHeader) (len : Nat)
    (sum : Checksum) : Checksum :=
  frameChecksum h len (UInt32.ofNat f.page) f.dbSize f.content sum

/-- What the writer sums: the page size as 16 bits. -/
def LogFrame.written {pageSize : Nat} (f : LogFrame pageSize) (h : WalHeader) (sum : Checksum) : Checksum :=
  f.sum h (pageSize % 2 ^ 16) sum

def LogFrame.buffer {pageSize : Nat} (f : LogFrame pageSize) (h : WalHeader) (sum : Checksum) : List UInt8 :=
  frameBuffer h (UInt32.ofNat f.page) f.dbSize f.content (f.written h sum)

def sumAfter (h : WalHeader) (sum : Checksum) (frames : List (LogFrame pageSize)) : Checksum :=
  frames.foldl (fun sum f => f.written h sum) sum

def Laid (file : ByteFile) (h : WalHeader) : Nat → Checksum → List (LogFrame pageSize) → Prop
  | _, _, [] => True
  | offset, sum, f :: frames =>
    file.pread offset (walFrameHeaderSize + pageSize) = f.buffer h sum ∧
      offset + (walFrameHeaderSize + pageSize) ≤ file.size ∧
      Laid file h (offset + (walFrameHeaderSize + pageSize)) (f.written h sum) frames

def Covered (h : WalHeader) : Checksum → List (LogFrame pageSize) → Prop
  | _, [] => True
  | sum, f :: frames => f.sum h pageSize sum = f.written h sum ∧ Covered h (f.written h sum) frames

/-- At `offset` a whole frame of this log follows, to judge by its salts. -/
def FrameAt (file : ByteFile) (h : WalHeader) (pageSize offset : Nat) : Prop :=
  offset + (walFrameHeaderSize + pageSize) ≤ file.size ∧
    readU32 (file.pread offset walFrameHeaderSize) 8 = h.salt1 ∧
    readU32 (file.pread offset walFrameHeaderSize) 12 = h.salt2

/-- The file starts with this header, sealed, of a legal page size. -/
structure HeaderIn (file : ByteFile) (h : WalHeader) (pageSize : Nat) : Prop where
  fits : walHeaderSize ≤ file.size
  bytes : file.pread 0 walHeaderSize = h.bodyBytes ++ (u32Be h.checksum1 ++ (u32Be h.checksum2 ++ []))
  sum : h.headerChecksum = (h.checksum1, h.checksum2)
  native : h.useNativeEndian = true
  pageSizeIn : h.pageSize = UInt32.ofNat pageSize
  legal : ∃ k, 9 ≤ k ∧ k ≤ 16 ∧ pageSize = 2 ^ k

def Scan.pushAll (sc : Scan) (h : WalHeader) (frames : List (LogFrame pageSize)) : Scan :=
  frames.foldl (fun sc f =>
    sc.push pageSize (UInt32.ofNat f.page).toNat (f.written h sc.cumulativeChecksum)) sc

theorem slice_pread {file : ByteFile} (h : pos + len ≤ file.size) :
    slice (file.pread 0 file.size) pos len = file.pread pos len := by
  rw [slice,take_drop_pread h,Nat.zero_add]

theorem take_frameBuffer (sum : Checksum) :
    (frameBuffer h n d content sum).take walFrameHeaderSize = u32Be n ++ (u32Be d ++
      (u32Be h.salt1 ++ (u32Be h.salt2 ++ (u32Be sum.1 ++ (u32Be sum.2 ++ []))))) := rfl

theorem readU32_frameHeader (a b c d e f : UInt32) :
    let header := u32Be a ++ (u32Be b ++ (u32Be c ++ (u32Be d ++ (u32Be e ++ (u32Be f ++ [])))))
    header.take 8 = u32Be a ++ u32Be b ∧ readU32 header 0 = a ∧ readU32 header 8 = c ∧
      readU32 header 12 = d ∧ readU32 header 16 = e ∧ readU32 header 20 = f := by
  have hw := readU32_words [a,b,c,d,e,f] []
  exact ⟨rfl,hw 0 (by simp),hw 2 (by simp),hw 3 (by simp),hw 4 (by simp),hw 5 (by simp)⟩

section
variable {pageSize : Nat} {file : ByteFile}

variable {sum : Checksum}

theorem scanFrames_frame (hfit : sc.offset + (walFrameHeaderSize + pageSize) ≤ file.size)
    (hfr : file.pread sc.offset (walFrameHeaderSize + pageSize) = frameBuffer h n d content sum)
    (hlen : content.length = pageSize) :
    scanFrames (file.pread 0 file.size) h pageSize (fuel + 1) sc =
      if frameChecksum h pageSize n d content sc.cumulativeChecksum = sum then
        scanFrames (file.pread 0 file.size) h pageSize fuel (sc.push pageSize n.toNat sum)
      else .error (checksumMismatch "frame" sum
        (frameChecksum h pageSize n d content sc.cumulativeChecksum)) := by
  have hheader : slice (file.pread 0 file.size) sc.offset walFrameHeaderSize =
      u32Be n ++ (u32Be d ++ (u32Be h.salt1 ++ (u32Be h.salt2 ++ (u32Be sum.1 ++ (u32Be sum.2 ++ []))))) := by
    have hta : ((file.pread sc.offset (walFrameHeaderSize + pageSize)).drop 0).take
        walFrameHeaderSize = file.pread (sc.offset + 0) walFrameHeaderSize :=
      take_drop_pread (by omega)
    rw [slice_pread (by omega),← take_frameBuffer sum,← hfr]
    exact hta.symm
  have hda : slice (file.pread 0 file.size) (sc.offset + walFrameHeaderSize) pageSize = content := by
    rw [slice_pread (by omega),← take_drop_pread (Nat.le_refl _),hfr, drop_frameBuffer,← hlen,take_length]
  obtain ⟨hme,hpage,hsa1,hsa2,hsum1,hsum2⟩ :=
    readU32_frameHeader n d h.salt1 h.salt2 sum.1 sum.2
  rw [scanFrames,if_pos (by rw [length_pread]; omega)]
  simp only [hheader,hda,hme,hpage,hsa1,hsa2,hsum1,hsum2]
  rw [if_neg (by simp)]
  have hca : frameChecksum h pageSize n d content sc.cumulativeChecksum = checksumWal h.useNativeEndian content
        (checksumWal h.useNativeEndian (u32Be n ++ u32Be d) sc.cumulativeChecksum) := by
    rw [frameChecksum,← hlen,take_length]
  rw [hca]
  split
  · rename_i heq
    rw [heq]
  · rfl

/-- The scan is through all frames that lie in the file if their checksums are those of whole
pages. -/
theorem scanFrames_laid {frames : List (LogFrame pageSize)}
    (hlaid : Laid file h sc.offset sc.cumulativeChecksum frames)
    (hco : Covered h sc.cumulativeChecksum frames) :
    scanFrames (file.pread 0 file.size) h pageSize (fuel + frames.length) sc =
      scanFrames (file.pread 0 file.size) h pageSize fuel (sc.pushAll h frames) := by
  induction frames generalizing sc with
  | nil => rfl
  | cons f frames ih =>
    obtain ⟨hfr,hfit,hre⟩ := hlaid
    obtain ⟨hsum,hco⟩ := hco
    rw [length_cons,← Nat.add_assoc,scanFrames_frame hfit hfr f.size]
    exact (if_pos hsum).trans (ih hre hco)

theorem scanFrames_error {frames : List (LogFrame pageSize)} {sc : Scan}
    (hlaid : Laid file h sc.offset sc.cumulativeChecksum frames)
    (hco : ¬ Covered h sc.cumulativeChecksum frames) (fuel : Nat) :
    ∃ e, scanFrames (file.pread 0 file.size) h pageSize (fuel + frames.length) sc = .error e := by
  induction frames generalizing sc with
  | nil => exact absurd trivial hco
  | cons f frames ih =>
    obtain ⟨hfr,hfit,hre⟩ := hlaid
    rw [length_cons,← Nat.add_assoc,scanFrames_frame hfit hfr f.size]
    by_cases hsum : f.sum h pageSize sc.cumulativeChecksum = f.written h sc.cumulativeChecksum
    · have hre' : ¬ Covered h (f.written h sc.cumulativeChecksum) frames := fun hc =>
        hco ⟨hsum,hc⟩
      obtain ⟨e,he⟩ := @ih (sc.push pageSize (ofNat f.page).toNat _) hre hre'
      exact ⟨e,(if_pos hsum).trans he⟩
    · exact ⟨_,if_neg hsum⟩

theorem scanFrames_stop (hst : ¬ FrameAt file h pageSize sc.offset) :
    scanFrames (file.pread 0 file.size) h pageSize fuel sc = .ok sc := by
  cases fuel with
  | zero => rfl
  | succ fuel =>
    rw [scanFrames]
    split
    · rename_i hfit
      rw [length_pread] at hfit
      have hheader : slice (file.pread 0 file.size) sc.offset walFrameHeaderSize =
        file.pread sc.offset walFrameHeaderSize := slice_pread (by omega)
      rw [hheader]
      refine if_pos (Classical.byContradiction fun hsa => hst ⟨by omega,?_⟩)
      push Not at hsa
      exact hsa
    · rfl

theorem le_scanFrames (hr : scanFrames buf h pageSize fuel sc = .ok r) : sc.frameIdx ≤ r.frameIdx := by
  induction fuel generalizing sc with
  | zero =>
    cases hr
    exact Nat.le_refl _
  | succ fuel ih =>
    simp only [scanFrames] at hr
    split at hr
    · split at hr
      · cases hr
        exact Nat.le_refl _
      · split at hr
        · exact Nat.le_of_succ_le (ih hr)
        · cases hr
    · cases hr
      exact Nat.le_refl _

theorem lt_scanFrames (hfr : FrameAt file h pageSize sc.offset)
    (hr : scanFrames (file.pread 0 file.size) h pageSize (fuel + 1) sc = .ok r) :
    sc.frameIdx < r.frameIdx := by
  obtain ⟨hfit,hsa⟩ := hfr
  have hheader : slice (file.pread 0 file.size) sc.offset walFrameHeaderSize =
    file.pread sc.offset walFrameHeaderSize := slice_pread (by omega)
  rw [scanFrames,if_pos (by rw [length_pread]; omega),hheader] at hr
  simp only [ne_eq,hsa,not_true_eq_false,or_self,if_false] at hr
  split at hr
  · exact le_scanFrames hr
  · cases hr

theorem checksumWal_swap (h : ∀ s, checksumWal false rest s = checksumWal true rest' s) (s : Checksum) :
    checksumWal false (u32Le a ++ (u32Le b ++ rest)) s =
      checksumWal true (u32Be a ++ (u32Be b ++ rest')) s := by
  have hwo : ∀ b0 b1 b2 b3, checksumWord true b3 b2 b1 b0 = checksumWord false b0 b1 b2 b3 := by
    simp [checksumWord,leU32]
  obtain ⟨s0,s1⟩ := s
  simp only [u32Le,u32Be,cons_append,nil_append,checksumWal,hwo]
  rw [h]

/-- The sum over the struct in memory and that over the bytes on disk. -/
theorem headerChecksum_eq (h : WalHeader) : h.headerChecksum = checksumWal true h.bodyBytes (0,0) := by
  exact checksumWal_swap (checksumWal_swap (checksumWal_swap fun _ => rfl)) _

theorem legal_pageSize (hle : ∃ k, 9 ≤ k ∧ k ≤ 16 ∧ pageSize = 2 ^ k) :
    (ofNat pageSize).toNat = pageSize ∧ ¬ (ofNat pageSize < minPageSize ∨
      maxPageSize < ofNat pageSize ∨ countOnes (ofNat pageSize) ≠ 1) := by
  obtain ⟨k,hlo,hhi,rfl⟩ := hle
  interval_cases k <;> decide

variable (hin : HeaderIn file h pageSize)
include hin

theorem HeaderIn.pread : ∃ rest, file.pread 0 file.size =
      h.bodyBytes ++ (u32Be h.checksum1 ++ (u32Be h.checksum2 ++ rest)) := by
  refine ⟨file.pread (0 + walHeaderSize) (file.size - walHeaderSize),?_⟩
  have hsi : file.size = walHeaderSize + (file.size - walHeaderSize) := by
    have := hin.fits
    omega
  conv_lhs => rw [hsi]
  rw [pread_append,hin.bytes]
  simp

theorem HeaderIn.parse : WalHeader.parse (file.pread 0 file.size) = h := by
  obtain ⟨rest,hpr⟩ := hin.pread
  have hw := readU32_words [h.magic,h.fileFormat,h.pageSize,h.checkpointSeq,h.salt1,h.salt2,h.checksum1,
    h.checksum2] rest
  rw [hpr]
  exact WalHeader.ext (hw 0 (by simp)) (hw 1 (by simp)) (hw 2 (by simp)) (hw 3 (by simp)) (hw 4 (by simp))
    (hw 5 (by simp)) (hw 6 (by simp)) (hw 7 (by simp))

theorem readEntireWalDumb_eq : readEntireWalDumb file =
      (recovered file h) <$> scanFrames (file.pread 0 file.size) h pageSize file.size (.start h) := by
  obtain ⟨hsi,hle⟩ := legal_pageSize hin.legal
  have hbo : slice (file.pread 0 file.size) 0 24 = h.bodyBytes := by
    obtain ⟨rest,hpr⟩ := hin.pread
    rw [hpr]
    exact take_left' rfl
  have hsum : checksumWal h.useNativeEndian h.bodyBytes (0, 0) = (h.checksum1, h.checksum2) := by
    rw [hin.native,← headerChecksum_eq,hin.sum]
  have hfits := hin.fits
  simp only [readEntireWalDumb,length_pread]
  rw [if_neg (by omega),hin.parse,hbo,if_neg (fun hne => hne hsum),hin.pageSizeIn,if_neg hle,hsi]
  cases scanFrames (file.pread 0 file.size) h pageSize file.size (.start h) <;> rfl

variable {frames : List (LogFrame pageSize)}

omit hin in
theorem pushAll_position (sc : Scan) :
    (sc.pushAll h frames).offset = sc.offset + frames.length * (walFrameHeaderSize + pageSize) ∧
      (sc.pushAll h frames).frameIdx = sc.frameIdx + frames.length ∧
      (sc.pushAll h frames).cumulativeChecksum = sumAfter h sc.cumulativeChecksum frames := by
  induction frames generalizing sc with
  | nil => exact ⟨by simp [Scan.pushAll],rfl,rfl⟩
  | cons f frames ih =>
    obtain ⟨hof,hidx,hsum⟩ :=
      ih (sc.push pageSize (ofNat f.page).toNat (f.written h sc.cumulativeChecksum))
    refine ⟨hof.trans ?_,hidx.trans ?_,hsum⟩
    · simp only [Scan.push,length_cons,Nat.succ_mul]
      omega
    · simp only [Scan.push,length_cons]
      omega

omit hin in
theorem Laid.fits {offset : Nat} (hlaid : Laid file h offset sum frames) (hof : offset ≤ file.size) :
    offset + frames.length * (walFrameHeaderSize + pageSize) ≤ file.size := by
  induction frames generalizing offset sum with
  | nil => simpa using hof
  | cons f frames ih =>
    obtain ⟨_,hfit,hre⟩ := hlaid
    have := ih hre hfit
    rw [length_cons,Nat.succ_mul]
    omega

def recoveredFrom (file : ByteFile) (h : WalHeader) (frames : List (LogFrame pageSize)) : WalFileShared :=
  recovered file h ((Scan.start h).pushAll h frames)

def logEnd (frames : List (LogFrame pageSize)) : Nat :=
  walHeaderSize + frames.length * (walFrameHeaderSize + pageSize)

variable (hlaid : Laid file h walHeaderSize (h.checksum1, h.checksum2) frames)
include hlaid

/-- The length of the file is fuel for all its frames and one round more. -/
theorem scan_fuel : ∃ fuel, file.size = fuel + 1 + frames.length := by
  have hfits := hlaid.fits hin.fits
  have hle : frames.length ≤ frames.length * (walFrameHeaderSize + pageSize) :=
    Nat.le_mul_of_pos_right _ (by simp [walFrameHeaderSize])
  refine ⟨file.size - frames.length - 1,?_⟩
  simp only [walHeaderSize] at hfits
  omega

/-- Opening a log finds exactly the frames laid down in it if their checksums cover the pages and
no further frame seems to follow. -/
theorem readEntireWalDumb_laid
    (hco : Covered h (h.checksum1,h.checksum2) frames) (hend : ¬ FrameAt file h pageSize (logEnd frames)) :
    readEntireWalDumb file = .ok (recoveredFrom file h frames) := by
  obtain ⟨hof,-,-⟩ := pushAll_position (.start h)
  obtain ⟨fuel,hfu⟩ := scan_fuel hin hlaid
  have hsc : scanFrames (file.pread 0 file.size) h pageSize (fuel + 1 + frames.length) (.start h) =
      .ok ((Scan.start h).pushAll h frames) := by
    rw [scanFrames_laid hlaid hco]
    exact scanFrames_stop (by rw [hof]; exact hend)
  rw [← hfu] at hsc
  rw [readEntireWalDumb_eq hin,hsc]
  rfl

theorem covered_of_readEntireWalDumb {r : WalFileShared}
    (hr : readEntireWalDumb file = .ok r) (hmax : r.maxFrame = frames.length) :
    Covered h (h.checksum1,h.checksum2) frames ∧ ¬ FrameAt file h pageSize (logEnd frames) := by
  obtain ⟨hof,hidx,-⟩ := pushAll_position (.start h)
  obtain ⟨fuel,hfu⟩ := scan_fuel hin hlaid
  rw [readEntireWalDumb_eq hin] at hr
  obtain ⟨sc,hsc,rfl⟩ := map_ok hr
  rw [congrArg (scanFrames (file.pread 0 file.size) h pageSize) hfu] at hsc
  have hco : Covered h (h.checksum1, h.checksum2) frames := by
    refine Classical.byContradiction fun hnot => ?_
    obtain ⟨e,he⟩ := @scanFrames_error pageSize file h frames (.start h) hlaid hnot (fuel + 1)
    rw [hsc] at he
    cases he
  refine ⟨hco,fun hfr => ?_⟩
  rw [scanFrames_laid hlaid hco] at hsc
  have hlt := lt_scanFrames (by rw [hof]; exact hfr) hsc
  have hone : (Scan.start h).frameIdx = 1 := rfl
  have hmax' : sc.frameIdx - 1 = frames.length := hmax
  omega

end

end OxiSql.Wal
