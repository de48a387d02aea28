import OxiSql.Wal.Recovery

namespace OxiSql.Wal
open Lib List LogFrame ByteFile WalFileShared

/-- The powers of two from 512 to 65536. -/
def PageSize : Type :=
  { n : Nat // ∃ k, 9 ≤ k ∧ k ≤ 16 ∧ n = 2 ^ k }

def addFrame (cache : Nat → Option (List Nat)) (page frameId : Nat) : Nat → Option (List Nat) :=
  Function.update cache page (some ((cache page).getD [] ++ [frameId]))

def cacheFrom (cache : Nat → Option (List Nat)) : Nat → List Nat → Nat → Option (List Nat)
  | _, [] => cache
  | frameId, page :: pages => cacheFrom (addFrame cache page frameId) (frameId + 1) pages

variable (cache : Nat → Option (List Nat))

theorem cacheFrom_isSome : (cacheFrom cache frameId pages p).isSome ↔ (cache p).isSome ∨ p ∈ pages := by
  induction pages generalizing cache frameId with
  | nil => simp [cacheFrom]
  | cons page pages ih =>
    rw [cacheFrom,ih,addFrame]
    by_cases hp : p = page <;> simp [hp]

theorem cacheFrom_append (page : Nat) : cacheFrom cache frameId (pages ++ [page]) =
      addFrame (cacheFrom cache frameId pages) page (frameId + pages.length) := by
  induction pages generalizing cache frameId with
  | nil => rfl
  | cons q pages ih =>
    rw [cons_append,cacheFrom,ih,cacheFrom,length_cons,
      show frameId + (pages.length + 1) = frameId + 1 + pages.length by omega]

theorem pushFrame_frameCache (s : WalFileShared) (page frameId : Nat) :
    (s.pushFrame page frameId).frameCache = addFrame s.frameCache page frameId := by
  cases h : s.frameCache page <;> simp [pushFrame,addFrame,h]

section
variable {pageSize : Nat}

/-- The page number as a frame header has room for it. -/
def LogFrame.storedPage (f : LogFrame pageSize) : Nat :=
  (UInt32.ofNat f.page).toNat

theorem pushAll_pages (sc : Scan) (frames : List (LogFrame pageSize)) :
    (sc.pushAll h frames).frameCache = cacheFrom sc.frameCache sc.frameIdx (frames.map storedPage) ∧
      (sc.pushAll h frames).pagesInFrames = sc.pagesInFrames ++ frames.map storedPage := by
  induction frames generalizing sc with
  | nil => exact ⟨rfl,by simp [Scan.pushAll]⟩
  | cons f frames ih =>
    obtain ⟨hca,hpa⟩ :=
      ih (sc.push pageSize f.storedPage (f.written h sc.cumulativeChecksum))
    refine ⟨hca,hpa.trans ?_⟩
    simp [Scan.push]

theorem sumAfter_append (sum : Checksum) (frames : List (LogFrame pageSize)) :
    sumAfter h sum (frames ++ [f]) = f.written h (sumAfter h sum frames) := by
  simp [sumAfter]

variable {file : ByteFile} {h : WalHeader} {frames : List (LogFrame pageSize)}

variable {sum : Checksum}

section

variable (hlaid : Laid file h offset sum frames)
include hlaid

theorem Laid.pwrite (hpos : offset + frames.length * (walFrameHeaderSize + pageSize) ≤ pos) :
    Laid (file.pwrite pos buf) h offset sum frames := by
  induction frames generalizing offset sum with
  | nil => trivial
  | cons f frames ih =>
    obtain ⟨hfr,hfit,hre⟩ := hlaid
    rw [length_cons,Nat.succ_mul] at hpos
    refine ⟨?_,?_,ih hre (by omega)⟩
    · rw [pread_pwrite_disjoint (.inl (by omega)),hfr]
    · exact Nat.le_trans hfit (by rw [size_pwrite]; exact Nat.le_max_left _ _)

theorem Laid.append (hfr : file.pread (offset + frames.length * (walFrameHeaderSize + pageSize))
      (walFrameHeaderSize + pageSize) = f.buffer h (sumAfter h sum frames))
    (hfit : offset + frames.length * (walFrameHeaderSize + pageSize) +
      (walFrameHeaderSize + pageSize) ≤ file.size) : Laid file h offset sum (frames ++ [f]) := by
  induction frames generalizing offset sum with
  | nil => exact ⟨by simpa [sumAfter] using hfr,by simpa using hfit,trivial⟩
  | cons g frames ih =>
    obtain ⟨hg,hgf,hre⟩ := hlaid
    have hoff : offset + (g :: frames).length * (walFrameHeaderSize + pageSize) =
        offset + (walFrameHeaderSize + pageSize) + frames.length * (walFrameHeaderSize + pageSize) := by
      rw [length_cons,Nat.succ_mul]
      omega
    rw [hoff] at hfr hfit
    exact ⟨hg,hgf,ih hre hfr hfit⟩

omit hlaid in
theorem logEnd_append : logEnd (frames ++ [f]) = logEnd frames + (walFrameHeaderSize + pageSize) := by
  rw [logEnd,logEnd,length_append,length_singleton,Nat.succ_mul]
  omega

omit hlaid in
theorem length_buffer (f : LogFrame pageSize) (h : WalHeader) (sum : Checksum) :
    (f.buffer h sum).length = walFrameHeaderSize + pageSize := by
  rw [buffer,length_frameBuffer,f.size]

theorem Laid.writeFrame : Laid (file.pwrite (offset + frames.length * (walFrameHeaderSize + pageSize))
      (f.buffer h (sumAfter h sum frames))) h offset sum (frames ++ [f]) := by
  refine (hlaid.pwrite (Nat.le_refl _)).append ?_ ?_
  · exact pread_pwrite_self (length_buffer f h _)
  · rw [size_pwrite,length_buffer]
    exact Nat.le_max_right _ _

end

theorem HeaderIn.pwrite (hin : HeaderIn file h pageSize) (hpos : walHeaderSize ≤ pos) :
    HeaderIn (file.pwrite pos buf) h pageSize :=
  { hin with
    fits := Nat.le_trans hin.fits (by rw [size_pwrite]; exact Nat.le_max_left _ _)
    bytes := by rw [pread_pwrite_disjoint (.inl (by omega)),hin.bytes] }

theorem length_headerBuffer : h.buffer.length = 512 := by
  simp only [WalHeader.buffer,WalHeader.bodyBytes,length_append,length_u32Be,length_replicate]

theorem take_headerBuffer : h.buffer.take walHeaderSize =
    h.bodyBytes ++ (u32Be h.checksum1 ++ (u32Be h.checksum2 ++ [])) := by
  have hsp : h.buffer = (h.bodyBytes ++ (u32Be h.checksum1 ++ (u32Be h.checksum2 ++ []))) ++
      List.replicate 480 0 := by
    simp only [WalHeader.buffer,append_assoc,nil_append]
  rw [hsp]
  refine take_left' ?_
  simp [WalHeader.bodyBytes,walHeaderSize]

/-! Sealing a header changes nothing but its checksum, whatever that is. -/

def WalHeader.withSum (h : WalHeader) (sum : Checksum) : WalHeader :=
  { h with checksum1 := sum.1, checksum2 := sum.2 }

theorem seal_eq : h.seal = h.withSum h.headerChecksum := rfl

theorem headerChecksum_withSum : (h.withSum sum).headerChecksum = h.headerChecksum := by
  have hbo : (h.withSum sum).bodyBytes = h.bodyBytes := rfl
  rw [headerChecksum_eq,hbo,← headerChecksum_eq]

theorem useNativeEndian_withSum : (h.withSum sum).useNativeEndian = h.useNativeEndian := rfl

theorem pageSize_withSum : (h.withSum sum).pageSize = h.pageSize := rfl

theorem headerChecksum_seal : h.seal.headerChecksum = (h.seal.checksum1,h.seal.checksum2) := by
  rw [seal_eq]
  generalize hsum : h.headerChecksum = sum
  exact (headerChecksum_withSum).trans hsum

theorem HeaderIn.write (file : ByteFile) (hna : h.useNativeEndian = true)
    (hsi : h.pageSize = UInt32.ofNat pageSize) (hle : ∃ k, 9 ≤ k ∧ k ≤ 16 ∧ pageSize = 2 ^ k) :
    HeaderIn (beginWriteWalHeader file h.seal) h.seal pageSize where
  fits := by
    rw [beginWriteWalHeader,size_pwrite,length_headerBuffer]
    exact Nat.le_trans (by decide) (Nat.le_max_right _ _)
  bytes := by
    have hre : (file.pwrite 0 h.seal.buffer).pread (0 + 0) walHeaderSize =
      (h.seal.buffer.drop 0).take walHeaderSize :=
        pread_pwrite_within (by rw [length_headerBuffer]; decide)
    rw [drop_zero] at hre
    rw [beginWriteWalHeader,hre,take_headerBuffer]
  sum := headerChecksum_seal
  native := by rw [seal_eq,useNativeEndian_withSum,hna]
  pageSizeIn := by rw [seal_eq,pageSize_withSum,hsi]
  legal := hle

/-- The log in memory is that of the frames in the file. -/
structure Holds (s : WalFileShared) (frames : List (LogFrame pageSize)) : Prop where
  header : HeaderIn s.file s.walHeader pageSize
  laid : Laid s.file s.walHeader walHeaderSize (s.walHeader.checksum1, s.walHeader.checksum2) frames
  maxFrame : s.maxFrame = frames.length
  sum : s.lastChecksum = sumAfter s.walHeader (s.walHeader.checksum1, s.walHeader.checksum2) frames
  cache : s.frameCache = cacheFrom (fun _ => none) 1 (frames.map page)

theorem Holds.openFresh (file : ByteFile) (pageSize : PageSize) (salt1 salt2 : UInt32) :
    Holds (.openFresh file pageSize.1 salt1 salt2) ([] : List (LogFrame pageSize.1)) where
  header := .write file (show (walMagicLe &&& 1 == 0) = true by decide) rfl pageSize.2
  laid := trivial
  maxFrame := rfl
  sum := rfl
  cache := rfl

theorem Holds.file_appendFrame {w : WalFile} (hs : Holds s frames) (hw : w.pageSize = pageSize)
    (f : LogFrame pageSize) :
    (w.appendFrame s f.page f.content f.dbSize).file = s.file.pwrite (logEnd frames)
      (f.buffer s.walHeader (sumAfter s.walHeader
        (s.walHeader.checksum1,s.walHeader.checksum2) frames)) := by
  have hof : frameOffset pageSize (s.maxFrame + 1) = logEnd frames := by
    rw [frameOffset,logEnd,Nat.add_sub_cancel,hs.maxFrame,Nat.add_comm pageSize]
  rw [appendFrame_eq,pushFrame_file,hw,hof,hs.sum]
  rfl

theorem Holds.appendFrame {w : WalFile} (hs : Holds s frames) (hw : w.pageSize = pageSize)
    (f : LogFrame pageSize) :
    Holds (w.appendFrame s f.page f.content f.dbSize) (frames ++ [f]) := by
  have hfi := hs.file_appendFrame hw f
  have hheader : (w.appendFrame s f.page f.content f.dbSize).walHeader = s.walHeader := by
    rw [appendFrame_eq,pushFrame_walHeader]
  refine ⟨?_,?_,?_,?_,?_⟩
  · rw [hfi,hheader]
    exact hs.header.pwrite (Nat.le_add_right _ _)
  · rw [hfi,hheader]
    exact hs.laid.writeFrame
  · rw [appendFrame_maxFrame,hs.maxFrame,length_append,length_singleton]
  · rw [hheader,sumAfter_append,← hs.sum,appendFrame_eq,pushFrame_lastChecksum,hw]
    rfl
  · rw [appendFrame_eq,pushFrame_frameCache,hs.cache,hs.maxFrame,map_append,
      map_singleton,cacheFrom_append,length_map,Nat.add_comm 1]

def WalFile.appendFrames (w : WalFile) (s : WalFileShared) (frames : List (LogFrame pageSize)) :
    WalFileShared :=
  frames.foldl (fun s f => w.appendFrame s f.page f.content f.dbSize) s

variable {w : WalFile}

theorem Holds.appendFrames (hs : Holds s frames) (hw : w.pageSize = pageSize)
    (fs : List (LogFrame pageSize)) : Holds (w.appendFrames s fs) (frames ++ fs) := by
  induction fs generalizing s frames with
  | nil => simpa [WalFile.appendFrames] using hs
  | cons f fs ih =>
    have hre := ih (hs.appendFrame hw f)
    rwa [append_assoc] at hre

theorem WalFileShared.LogWf.appendFrames (hs : s.LogWf) (fs : List (LogFrame pageSize)) :
    (w.appendFrames s fs).LogWf := by
  induction fs generalizing s with
  | nil => exact hs
  | cons f fs ih => exact ih (hs.appendFrame w f.page f.content f.dbSize)

/-- Behind the frames the file is as it was. -/
structure SameBeyond (file file' : ByteFile) (pos : Nat) : Prop where
  size : file'.size = max file.size pos
  byte : ∀ i, pos ≤ i → file'.byte i = file.byte i

theorem SameBeyond.appendFrame (hs : Holds s frames) (hw : w.pageSize = pageSize)
    (f : LogFrame pageSize) : SameBeyond s.file (w.appendFrame s f.page f.content f.dbSize).file
      (logEnd (frames ++ [f])) := by
  rw [hs.file_appendFrame hw f,logEnd_append]
  refine ⟨by rw [size_pwrite,length_buffer],fun i hi => ?_⟩
  exact byte_pwrite_outside (.inr (by rw [length_buffer]; exact hi))

theorem SameBeyond.appendFrames (hs : Holds s frames) (hw : w.pageSize = pageSize)
    (fs : List (LogFrame pageSize)) :
    SameBeyond s.file (w.appendFrames s fs).file (logEnd (frames ++ fs)) := by
  induction fs generalizing s frames with
  | nil =>
    have hfits := hs.laid.fits hs.header.fits
    rw [append_nil]
    exact ⟨(Nat.max_eq_left hfits).symm,fun _ _ => rfl⟩
  | cons f fs ih =>
    have hfirst := SameBeyond.appendFrame hs hw f
    have hre := ih (hs.appendFrame hw f)
    have hle : logEnd (frames ++ [f]) ≤ logEnd (frames ++ [f] ++ fs) := by
      simp only [logEnd,length_append]
      exact Nat.add_le_add_left (Nat.mul_le_mul_right _ (by omega)) _
    rw [← append_cons] at hle hre
    refine ⟨hre.size.trans ?_,fun i hi => (hre.byte i hi).trans (hfirst.byte i (by omega))⟩
    rw [hfirst.size]
    omega

theorem SameBeyond.frameAt (hsa : SameBeyond file file' pos) :
    FrameAt file' h pageSize pos ↔ FrameAt file h pageSize pos := by
  have hre : file'.pread pos walFrameHeaderSize = file.pread pos walFrameHeaderSize :=
    pread_congr fun i hi _ => hsa.byte i hi
  have hsi : pos + (walFrameHeaderSize + pageSize) ≤ file'.size ↔
      pos + (walFrameHeaderSize + pageSize) ≤ file.size := by
    rw [hsa.size]
    simp only [walFrameHeaderSize]
    omega
  rw [FrameAt,FrameAt,hre,hsi]

end

/-- The log in memory that opening the file again gives is the one appending left, and lists each
page that has frames once. -/
structure Reconstructs (r s : WalFileShared) : Prop where
  maxFrame : r.maxFrame = s.maxFrame
  lastChecksum : r.lastChecksum = s.lastChecksum
  frameCache : r.frameCache = s.frameCache
  ascending : ∀ page, (r.frames page).Pairwise (· < ·)
  listed : ∀ page, page ∈ r.pagesInFrames ↔ (r.frameCache page).isSome
  once : r.pagesInFrames.Nodup

/-- The condition: no page is appended twice, page numbers fit into a frame header, each checksum
is that of the whole page, and no frame of an older log with the same salts follows. -/
structure Recoverable {pageSize : Nat} (start : WalFileShared) (frames : List (LogFrame pageSize)) :
    Prop where
  once : (frames.map page).Nodup
  narrow : ∀ f ∈ frames, f.page < 2 ^ 32
  covered : Covered start.walHeader (start.walHeader.checksum1, start.walHeader.checksum2) frames
  ends : ¬ FrameAt start.file start.walHeader pageSize (logEnd frames)

section
variable {frames : List (LogFrame pageSize)}

theorem map_storedPage (hna : ∀ f ∈ frames, f.page < 2 ^ 32) : frames.map storedPage = frames.map page := by
  refine map_congr_left fun f hf => ?_
  simpa [storedPage] using Nat.mod_eq_of_lt (hna f hf)

theorem covered_of_lt (hlt : pageSize < 2 ^ 16) (sum : Checksum) : Covered h sum frames := by
  induction frames generalizing sum with
  | nil => trivial
  | cons f frames ih => exact ⟨by rw [written,Nat.mod_eq_of_lt hlt],ih _⟩

variable (file : ByteFile)

theorem openFresh_logWf : (openFresh file pageSize salt1 salt2).LogWf := by
  refine ⟨fun p => ?_,fun p f hf => ?_,fun p => ?_,fun p => ?_⟩
  all_goals simp_all [openFresh,WalFileShared.frames]

variable {w : WalFile}

theorem appendFrames_walHeader : (w.appendFrames s frames).walHeader = s.walHeader := by
  induction frames generalizing s with
  | nil => rfl
  | cons f frames ih =>
    refine (ih (s := w.appendFrame s f.page f.content f.dbSize)).trans ?_
    rw [appendFrame_eq,pushFrame_walHeader]

theorem recoveredFrom_pages :
    (recoveredFrom file h frames).frameCache = cacheFrom (fun _ => none) 1 (frames.map storedPage) ∧
      (recoveredFrom file h frames).pagesInFrames = frames.map storedPage := by
  obtain ⟨hca,hpa⟩ := pushAll_pages (.start h) frames
  exact ⟨hca,hpa⟩

theorem recoveredFrom_position :
    (recoveredFrom file h frames).maxFrame = frames.length ∧ (recoveredFrom file h frames).lastChecksum =
        sumAfter h (h.checksum1,h.checksum2) frames := by
  obtain ⟨-,hidx,hsum⟩ := pushAll_position (.start h)
  refine ⟨?_,hsum⟩
  show ((Scan.start h).pushAll h frames).frameIdx - 1 = frames.length
  rw [hidx]
  exact Nat.add_sub_cancel_left ..

theorem reconstructs_iff (hs : Holds s frames) (hwf : s.LogWf)
    (hheader : s.walHeader = start.walHeader) (hbe : SameBeyond start.file s.file (logEnd frames)) :
    (∃ r, readEntireWalDumb s.file = .ok r ∧ Reconstructs r s) ↔ Recoverable start frames := by
  obtain ⟨hca,hpa⟩ := recoveredFrom_pages s.file
  obtain ⟨hmax,hsum⟩ := recoveredFrom_position s.file
  constructor
  · rintro ⟨r,hr,hrec⟩
    obtain ⟨hco,hend⟩ := covered_of_readEntireWalDumb hs.header hs.laid hr (hrec.maxFrame.trans hs.maxFrame)
    obtain rfl : recoveredFrom s.file s.walHeader frames = r := by
      rw [readEntireWalDumb_laid hs.header hs.laid hco hend] at hr
      exact Except.ok.inj hr
    have hna : ∀ f ∈ frames, f.page < 2 ^ 32 := by
      intro f hf
      have hso : (s.frameCache f.page).isSome := by
        rw [hs.cache,cacheFrom_isSome]
        exact .inr (mem_map_of_mem hf)
      rw [← hrec.frameCache,hca,cacheFrom_isSome] at hso
      obtain ⟨g,-,hg⟩ := mem_map.mp (hso.resolve_left (by simp))
      rw [← hg]
      exact UInt32.toNat_lt _
    refine ⟨?_,hna,hheader ▸ hco,fun hfr => hend (hheader ▸ hbe.frameAt.mpr hfr)⟩
    rw [← map_storedPage hna,← hpa]
    exact hrec.once
  · intro hrec
    have hend : ¬ FrameAt s.file s.walHeader pageSize (logEnd frames) := by
      rw [hbe.frameAt,hheader]
      exact hrec.ends
    have hsa : (recoveredFrom s.file s.walHeader frames).frameCache = s.frameCache := by
      rw [hca,map_storedPage hrec.narrow,hs.cache]
    refine ⟨_,readEntireWalDumb_laid hs.header hs.laid (hheader ▸ hrec.covered) hend,
      hmax.trans hs.maxFrame.symm,hsum.trans hs.sum.symm,hsa,?_,?_,?_⟩
    · intro page
      rw [WalFileShared.frames,hsa]
      exact hwf.ascending page
    · intro page
      rw [hpa,hca,cacheFrom_isSome]
      simp
    · rw [hpa,map_storedPage hrec.narrow]
      exact hrec.once

end

/-- Opening a log again gives back what appending to it left, under the condition and only then. -/
theorem recovery_reconstructs_iff (file : ByteFile) (pageSize : PageSize) (salt1 salt2 : UInt32)
    (frames : List (LogFrame pageSize.1)) : (∃ r, readEntireWalDumb ((WalFile.new pageSize.1).appendFrames
        (.openFresh file pageSize.1 salt1 salt2) frames).file = .ok r ∧
      Reconstructs r ((WalFile.new pageSize.1).appendFrames
        (.openFresh file pageSize.1 salt1 salt2) frames)) ↔
    Recoverable (.openFresh file pageSize.1 salt1 salt2) frames := by
  have hst := Holds.openFresh file pageSize salt1 salt2
  have hpage : (WalFile.new pageSize.1).pageSize = pageSize.1 := rfl
  exact reconstructs_iff (hst.appendFrames hpage frames)
    (.appendFrames (openFresh_logWf ..) frames) appendFrames_walHeader
    (.appendFrames hst hpage frames)

/-- Page 1 is appended a second time, and found twice. -/
theorem pageTwice_not_reconstructed : let frame : LogFrame 512 := ⟨1,.replicate 512 0,2,length_replicate⟩
    let s := (WalFile.new 512).appendFrames (.openFresh .empty 512 7 9) [frame,frame]
    ¬ ∃ r, readEntireWalDumb s.file = .ok r ∧ Reconstructs r s := by
  intro frame s hr
  have hst := Holds.openFresh .empty ⟨512,9,by decide⟩ 7 9
  have hrec := (reconstructs_iff (hst.appendFrames rfl [frame,frame])
    ((openFresh_logWf ..).appendFrames _) appendFrames_walHeader
    (.appendFrames hst rfl [frame,frame])).mp hr
  exact absurd hrec.once (by decide)

end OxiSql.Wal
