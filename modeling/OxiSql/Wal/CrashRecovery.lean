import OxiSql.Wal.RoundTrip

namespace OxiSql.Wal
open Lib List ByteFile

/-- The file after the first `k` bytes of these writes. -/
def crashed (file : ByteFile) : List (Nat × List UInt8) → Nat → ByteFile
  | [], _ => file
  | (pos, buf) :: writes, k =>
    if buf.length ≤ k then crashed (file.pwrite pos buf) writes (k - buf.length)
    else if k = 0 then file
    else file.pwrite pos (buf.take k)

def written (file : ByteFile) (writes : List (Nat × List UInt8)) : ByteFile :=
  writes.foldl (fun file wr => file.pwrite wr.1 wr.2) file

/-- A log in use. `committed` and `current` are the frames of the transactions that have committed
and of the one that is open; `marks` is where that one began and where its savepoints are. -/
structure Logging (pageSize : Nat) where
  shared : WalFileShared
  synced : ByteFile
  pending : List (Nat × List UInt8)
  committed : List (LogFrame pageSize)
  current : List (LogFrame pageSize)
  marks : List (Nat × Checksum)

namespace Logging

/-- A new file: its header has been written, but not synced. -/
def fresh (pageSize : PageSize) (salt1 salt2 : UInt32) : Logging pageSize.1 :=
  let shared := WalFileShared.openFresh .empty pageSize.1 salt1 salt2
  ⟨shared, .empty, [(0, shared.walHeader.buffer)], [], [], []⟩

def reopened (shared : WalFileShared) (frames : List (LogFrame pageSize)) : Logging pageSize :=
  ⟨shared, shared.file, [], frames, [], []⟩

/-- The loops of `cacheflush` and `flush_dirty_pages_to_wal`, one frame at a time. -/
def append (c : Logging pageSize) (f : LogFrame pageSize) : Logging pageSize :=
  { c with
    shared := (WalFile.new pageSize).appendFrame c.shared f.page f.content f.dbSize
    pending := c.pending ++ [(frameOffset pageSize (c.shared.maxFrame + 1),
      f.buffer c.shared.walHeader c.shared.lastChecksum)]
    current := c.current ++ [f] }

/-- A transaction begins, or a savepoint is opened. -/
def mark (c : Logging pageSize) : Logging pageSize :=
  { c with marks := c.shared.currentFrameState :: c.marks }

/-- Going back to a mark and dropping those made after it. The file is left alone. -/
def rollback (c : Logging pageSize) (target : Nat × Checksum) (older : List (Nat × Checksum)) :
    Logging pageSize :=
  { c with
    shared := c.shared.rollbackToFrame target.1 target.2
    current := c.current.take (target.1 - c.committed.length)
    marks := target :: older }

/-- The end of `cacheflush`: the log is synced. -/
def commit (c : Logging pageSize) : Logging pageSize :=
  { c with
    synced := c.shared.file
    pending := []
    committed := c.committed ++ c.current
    current := []
    marks := [] }

end Logging

inductive Run : (pageSize : Nat) → Logging pageSize → Prop where
  | fresh (pageSize : PageSize) (salt1 salt2 : UInt32) :
      Run pageSize.1 (Logging.fresh pageSize salt1 salt2)
  | reopened {pageSize : Nat} {shared : WalFileShared} {frames : List (LogFrame pageSize)}
      (h : Holds shared frames) : Run pageSize (.reopened shared frames)
  | append {pageSize : Nat} {c : Logging pageSize} (f : LogFrame pageSize) (h : Run pageSize c) :
      Run pageSize (c.append f)
  | mark {pageSize : Nat} {c : Logging pageSize} (h : Run pageSize c) : Run pageSize c.mark
  | rollback {pageSize : Nat} {c : Logging pageSize} {newer older : List (Nat × Checksum)}
      {target : Nat × Checksum} (h : Run pageSize c) (hmark : c.marks = newer ++ target :: older) :
      Run pageSize (c.rollback target older)
  | commit {pageSize : Nat} {c : Logging pageSize} (h : Run pageSize c) : Run pageSize c.commit

theorem retainFrames_addFrame (hke : keep frameId = false) :
    retainFrames keep (addFrame cache page frameId) = retainFrames keep cache := by
  funext p
  by_cases hp : p = page
  · subst hp
    cases hc : cache p with
    | none | some frames => simp [retainFrames,addFrame,hc,hke]
  · simp [retainFrames,addFrame,hp]

def Below (cache : Nat → Option (List Nat)) (bound : Nat) : Prop :=
  ∀ page frames, cache page = some frames → frames ≠ [] ∧ ∀ f ∈ frames, f < bound

theorem Below.addFrame (h : Below cache bound) (page : Nat) : Below (addFrame cache page bound) (bound + 1) := by
  intro p frames hp
  by_cases hpp : p = page
  · subst hpp
    obtain rfl : (cache p).getD [] ++ [bound] = frames := by simpa [Wal.addFrame] using hp
    refine ⟨by simp,fun f hf => ?_⟩
    rcases mem_append.mp hf with hf | hf
    · cases hc : cache p with
      | none => simp [hc] at hf
      | some old =>
        have := (h p old hc).2 f (by simpa [hc] using hf)
        omega
    · rw [mem_singleton.mp hf]
      omega
  · obtain ⟨hne,hlt⟩ := h p frames (by simpa [Wal.addFrame,hpp] using hp)
    exact ⟨hne,fun f hf => Nat.lt_succ_of_lt (hlt f hf)⟩

theorem Below.cacheFrom (h : Below cache bound)
    (pages : List Nat) : Below (cacheFrom cache bound pages) (bound + pages.length) := by
  induction pages generalizing cache bound with
  | nil => exact h
  | cons page pages ih =>
    have hre := ih (h.addFrame page)
    rwa [length_cons,Nat.add_comm pages.length,← Nat.add_assoc]

theorem retainFrames_of_below (h : Below cache (bound + 1)) : retainFrames (fun f => f ≤ bound) cache = cache := by
  funext p
  cases hc : cache p with
  | none => simp [retainFrames,hc]
  | some frames =>
    obtain ⟨hne,hlt⟩ := h p frames hc
    have hall : frames.filter (fun f => f ≤ bound) = frames :=
      filter_eq_self.mpr fun f hf => by simpa using Nat.le_of_lt_succ (hlt f hf)
    simp [retainFrames,hc,hall,hne]

theorem retainFrames_cacheFrom (pages extra : List Nat) :
    retainFrames (fun f => f ≤ pages.length) (cacheFrom (fun _ => none) 1 (pages ++ extra)) =
      cacheFrom (fun _ => none) 1 pages := by
  have hbe : Below (cacheFrom (fun _ => none) 1 pages) (pages.length + 1) := by
    have hall : Below (cacheFrom (fun _ => none) 1 pages) (1 + pages.length) :=
      Below.cacheFrom (fun _ _ h => by cases h) pages
    rwa [Nat.add_comm] at hall
  induction extra using List.reverseRecOn with
  | nil =>
    rw [append_nil]
    exact retainFrames_of_below hbe
  | append_singleton extra page ih =>
    rw [← append_assoc,cacheFrom_append,retainFrames_addFrame (by simp; omega),ih]

theorem Laid.left {file : ByteFile} {h : WalHeader} {offset : Nat} {sum : Checksum}
    (hlaid : Laid file h offset sum (frames ++ extra)) : Laid file h offset sum frames := by
  induction frames generalizing offset sum with
  | nil => trivial
  | cons f frames ih => exact ⟨hlaid.1,hlaid.2.1,ih hlaid.2.2⟩

theorem Holds.rollback (hs : Holds s (frames ++ extra)) : Holds (s.rollbackToFrame frames.length
      (sumAfter s.walHeader (s.walHeader.checksum1,s.walHeader.checksum2) frames)) frames where
  header := hs.header
  laid := hs.laid.left
  maxFrame := rfl
  sum := rfl
  cache := by
    have hca := hs.cache
    rw [map_append] at hca
    have hre := retainFrames_cacheFrom (frames.map LogFrame.page) (extra.map LogFrame.page)
    rw [← hca,length_map] at hre
    exact hre

section
variable {frames : List (LogFrame pageSize)}

/-- Writes behind the frames, of which any part is done. -/
theorem crashed_kept (hin : HeaderIn file h pageSize)
    (hlaid : Laid file h walHeaderSize (h.checksum1,h.checksum2) frames)
    (hpos : ∀ wr ∈ writes, logEnd frames ≤ wr.1) (k : Nat) : HeaderIn (crashed file writes k) h pageSize ∧
      Laid (crashed file writes k) h walHeaderSize (h.checksum1,h.checksum2) frames := by
  induction writes generalizing file k with
  | nil => exact ⟨hin,hlaid⟩
  | cons wr writes ih =>
    obtain ⟨pos,buf⟩ := wr
    have hfirst : logEnd frames ≤ pos := hpos _ (.head _)
    have hheader : walHeaderSize ≤ pos := Nat.le_trans (Nat.le_add_right _ _) hfirst
    rw [crashed]
    split
    · exact ih (hin.pwrite hheader) (hlaid.pwrite hfirst) (fun wr hwr => hpos wr (.tail _ hwr)) _
    · split
      · exact ⟨hin,hlaid⟩
      · exact ⟨hin.pwrite hheader,hlaid.pwrite hfirst⟩

/-- What is on disk for certain. -/
inductive Durable (c : Logging pageSize) : Prop where
  | kept (hin : HeaderIn c.synced c.shared.walHeader pageSize)
      (hlaid : Laid c.synced c.shared.walHeader walHeaderSize
        (c.shared.walHeader.checksum1, c.shared.walHeader.checksum2) c.committed)
      (hpos : ∀ wr ∈ c.pending, logEnd c.committed ≤ wr.1)
  | unsynced (rest : List (Nat × List UInt8)) (hnone : c.committed = []) (hempty : c.synced.size = 0)
      (hheader : c.pending = (0, c.shared.walHeader.buffer) :: rest)
      (hpos : ∀ wr ∈ rest, walHeaderSize ≤ wr.1)

structure Tracked (c : Logging pageSize) : Prop where
  holds : Holds c.shared (c.committed ++ c.current)
  marks : ∀ m ∈ c.marks, ∃ k ≤ c.current.length, m = (c.committed.length + k,
    sumAfter c.shared.walHeader (c.shared.walHeader.checksum1, c.shared.walHeader.checksum2)
      (c.committed ++ c.current.take k))
  nested : c.marks.Pairwise fun a b => b.1 ≤ a.1
  written : c.shared.file = written c.synced c.pending
  durable : Durable c

variable {c : Logging pageSize}

section

variable (hc : Tracked c)
include hc

theorem Tracked.append (f : LogFrame pageSize) : Tracked (c.append f) := by
  have hheader : (c.append f).shared.walHeader = c.shared.walHeader := by
    rw [Logging.append,appendFrame_eq,pushFrame_walHeader]
  have hof : frameOffset pageSize (c.shared.maxFrame + 1) = logEnd (c.committed ++ c.current) := by
    rw [frameOffset,logEnd,Nat.add_sub_cancel,hc.holds.maxFrame,Nat.add_comm pageSize]
  refine ⟨?_,?_,hc.nested,?_,?_⟩
  · have hho := hc.holds.appendFrame (w := .new pageSize) rfl f
    rwa [append_assoc] at hho
  · intro m hm
    obtain ⟨k,hk,hmk⟩ := hc.marks m hm
    refine ⟨k,Nat.le_trans hk (by simp [Logging.append]),?_⟩
    rw [hmk,hheader]
    simp [Logging.append,take_append_of_le_length hk]
  · have hfi := hc.holds.file_appendFrame (w := .new pageSize) rfl f
    rw [← hc.holds.sum,← hof,hc.written] at hfi
    simp only [Logging.append,Wal.written,foldl_append] at hfi ⊢
    exact hfi
  · have hbe : logEnd c.committed ≤ logEnd (c.committed ++ c.current) := by
      simp only [logEnd,length_append]
      exact Nat.add_le_add_left (Nat.mul_le_mul_right _ (Nat.le_add_right _ _)) _
    cases hc.durable with
    | kept hin hlaid hpos =>
      refine .kept (by rw [hheader]; exact hin) (by rw [hheader]; exact hlaid) fun wr hwr => ?_
      rcases mem_append.mp hwr with hwr | hwr
      · exact hpos wr hwr
      · rw [mem_singleton.mp hwr,hof]
        exact hbe
    | unsynced rest hnone hempty hpe hpos =>
      refine .unsynced (rest ++ [_]) hnone hempty
        (by rw [hheader,Logging.append,hpe,cons_append]) fun wr hwr => ?_
      rcases mem_append.mp hwr with hwr | hwr
      · exact hpos wr hwr
      · rw [mem_singleton.mp hwr]
        exact Nat.le_add_right _ _

theorem Tracked.mark : Tracked c.mark := by
  have hnow : c.shared.currentFrameState = (c.committed.length + c.current.length,
      sumAfter c.shared.walHeader (c.shared.walHeader.checksum1, c.shared.walHeader.checksum2)
        (c.committed ++ c.current.take c.current.length)) := by
    rw [take_length,← hc.holds.sum,← length_append,← hc.holds.maxFrame]
    rfl
  refine ⟨hc.holds,?_,?_,hc.written,?_⟩
  · intro m hm
    rcases mem_cons.mp hm with rfl | hm
    · exact ⟨c.current.length,Nat.le_refl _,hnow⟩
    · exact hc.marks m hm
  · refine pairwise_cons.mpr ⟨fun m hm => ?_,hc.nested⟩
    obtain ⟨k,hk,rfl⟩ := hc.marks m hm
    rw [hnow]
    exact Nat.add_le_add_left hk _
  · cases hc.durable with
    | kept hin hlaid hpos => exact .kept hin hlaid hpos
    | unsynced rest hnone hempty hpe hpos => exact .unsynced rest hnone hempty hpe hpos

theorem Tracked.rollback (hmark : c.marks = newer ++ target :: older) : Tracked (c.rollback target older) := by
  have hsub : ∀ m ∈ target :: older, m ∈ c.marks := fun m hm =>
    hmark ▸ mem_append_right _ hm
  have hne : (target :: older).Pairwise fun a b => b.1 ≤ a.1 := by
    have := hc.nested
    rw [hmark] at this
    exact (pairwise_append.mp this).2.1
  obtain ⟨k,hk,hta⟩ := hc.marks target (hsub _ (.head _))
  have hcu : (c.rollback target older).current = c.current.take k := by
    simp [Logging.rollback,hta]
  have hho : Holds (c.rollback target older).shared (c.committed ++ c.current.take k) := by
    have hsp : c.committed ++ c.current = (c.committed ++ c.current.take k) ++ c.current.drop k := by
      rw [append_assoc,take_append_drop]
    have hs := hc.holds
    rw [hsp] at hs
    have hback := hs.rollback
    rw [length_append,length_take,Nat.min_eq_left hk] at hback
    rw [hta]
    exact hback
  refine ⟨by rw [hcu]; exact hho,?_,hne,hc.written,?_⟩
  · intro m hm
    obtain ⟨j,hj,hmj⟩ := hc.marks m (hsub m hm)
    have hjk : j ≤ k := by
      have hle : m.1 ≤ target.1 := by
        rcases mem_cons.mp hm with rfl | hm
        · exact Nat.le_refl _
        · exact (pairwise_cons.mp hne).1 m hm
      rw [hmj,hta] at hle
      exact Nat.le_of_add_le_add_left hle
    refine ⟨j,by rw [hcu,length_take,Nat.min_eq_left hk]; exact hjk,?_⟩
    rw [hcu,take_take,Nat.min_eq_left hjk]
    exact hmj
  · cases hc.durable with
    | kept hin hlaid hpos => exact .kept hin hlaid hpos
    | unsynced rest hnone hempty hpe hpos => exact .unsynced rest hnone hempty hpe hpos

theorem Tracked.commit : Tracked c.commit where
  holds := by simpa [Logging.commit] using hc.holds
  marks := by simp [Logging.commit]
  nested := by simp [Logging.commit]
  written := rfl
  durable := .kept hc.holds.header hc.holds.laid (by simp [Logging.commit])

end

theorem Run.tracked (hrun : Run pageSize c) : Tracked c := by
  induction hrun with
  | fresh pageSize salt1 salt2 =>
    refine ⟨.openFresh .empty pageSize salt1 salt2,by simp [Logging.fresh],by simp [Logging.fresh], rfl,?_⟩
    exact .unsynced [] rfl rfl rfl (by simp)
  | reopened hs =>
    refine ⟨by simpa [Logging.reopened] using hs,by simp [Logging.reopened],
      by simp [Logging.reopened],rfl,.kept hs.header hs.laid (by simp [Logging.reopened])⟩
  | append f hrun ih => exact ih.append f
  | mark hrun ih => exact ih.mark
  | rollback hrun hmark ih => exact ih.rollback hmark
  | commit hrun ih => exact ih.commit

/-- The file after a crash that lets `k` of the bytes since the last sync through. -/
def Logging.crash (c : Logging pageSize) (k : Nat) : ByteFile :=
  crashed c.synced c.pending k

theorem crashed_header (hin : HeaderIn file h pageSize) {empty : ByteFile} (hempty : empty.size = 0)
    (hpos : ∀ wr ∈ writes, walHeaderSize ≤ wr.1)
    (hsi : walHeaderSize ≤ (crashed empty ((0,h.buffer) :: writes) k).size) :
    HeaderIn (crashed empty ((0,h.buffer) :: writes) k) h pageSize := by
  have hwr : ∀ j, walHeaderSize ≤ j → HeaderIn (empty.pwrite 0 (h.buffer.take j)) h pageSize := by
    intro j hj
    have hlen : walHeaderSize ≤ (h.buffer.take j).length := by
      rw [length_take,length_headerBuffer]
      simp only [walHeaderSize] at hj ⊢
      omega
    have hre : (empty.pwrite 0 (h.buffer.take j)).pread (0 + 0) walHeaderSize =
        ((h.buffer.take j).drop 0).take walHeaderSize :=
      pread_pwrite_within (by omega)
    rw [drop_zero,take_take,Nat.min_eq_left hj] at hre
    refine { hin with fits := ?_, bytes := hre }
    rw [size_pwrite]
    omega
  rw [crashed] at hsi ⊢
  split at hsi
  · rename_i hk
    have hwh := hwr h.buffer.length (by rw [length_headerBuffer]; decide)
    rw [take_length] at hwh
    have hnone : Laid (empty.pwrite 0 h.buffer) h walHeaderSize (h.checksum1, h.checksum2)
      ([] : List (LogFrame pageSize)) := trivial
    rw [if_pos hk]
    exact (crashed_kept hwh hnone (by simpa [logEnd] using hpos) _).1
  · rename_i hk
    rw [if_neg hk]
    split at hsi
    · rw [hempty] at hsi
      simp [walHeaderSize] at hsi
    · rename_i hk0
      rw [if_neg hk0]
      refine hwr k ?_
      rw [size_pwrite,length_take] at hsi
      omega

/-- After a crash the committed frames are in the file, if the header is. -/
theorem Tracked.crash (hc : Tracked c) (k : Nat) (hsi : walHeaderSize ≤ (c.crash k).size) :
    HeaderIn (c.crash k) c.shared.walHeader pageSize ∧ Laid (c.crash k) c.shared.walHeader walHeaderSize
        (c.shared.walHeader.checksum1,c.shared.walHeader.checksum2) c.committed := by
  cases hc.durable with
  | kept hin hlaid hpos => exact crashed_kept hin hlaid hpos k
  | unsynced rest hnone hempty hpe hpos =>
    rw [Logging.crash,hpe] at hsi ⊢
    rw [hnone]
    exact ⟨crashed_header hc.holds.header hempty hpos hsi,trivial⟩

theorem readEntireWalDumb_short (hsi : file.size < walHeaderSize) :
    readEntireWalDumb file = .error (.corrupt "WAL file too small for header") := by
  exact if_pos (by rw [length_pread]; exact hsi)

def Recovers (file : ByteFile) (h : WalHeader) (frames : List (LogFrame pageSize)) : Prop :=
  ∃ r, readEntireWalDumb file = .ok r ∧ r.maxFrame = frames.length ∧
    r.lastChecksum = sumAfter h (h.checksum1, h.checksum2) frames ∧
    r.frameCache = cacheFrom (fun _ => none) 1 (frames.map LogFrame.storedPage)

/-- After a crash anywhere in a run of transactions, opening the log finds the frames of the
committed transactions and nothing else if the header is whole, checksums cover whole pages, and no
whole frame with the salts of the log follows the committed ones; and only then. -/
theorem crash_recovers_iff {c : Logging pageSize} (hrun : Run pageSize c) (k : Nat) :
    Recovers (c.crash k) c.shared.walHeader c.committed ↔ walHeaderSize ≤ (c.crash k).size ∧
        Covered c.shared.walHeader (c.shared.walHeader.checksum1, c.shared.walHeader.checksum2) c.committed ∧
        ¬ FrameAt (c.crash k) c.shared.walHeader pageSize (logEnd c.committed) := by
  constructor
  · rintro ⟨r,hr,hmax,-,-⟩
    by_cases hsi : walHeaderSize ≤ (c.crash k).size
    · obtain ⟨hin,hlaid⟩ := hrun.tracked.crash k hsi
      exact ⟨hsi,covered_of_readEntireWalDumb hin hlaid hr hmax⟩
    · rw [readEntireWalDumb_short (Nat.lt_of_not_le hsi)] at hr
      cases hr
  · rintro ⟨hsi,hco,hend⟩
    obtain ⟨hin,hlaid⟩ := hrun.tracked.crash k hsi
    obtain ⟨hmax,hsum⟩ := recoveredFrom_position (c.crash k)
    exact ⟨_,readEntireWalDumb_laid hin hlaid hco hend,hmax,hsum,(recoveredFrom_pages _).1⟩

end

theorem crashed_between (file : ByteFile) (writes more : List (Nat × List UInt8)) (pos : Nat)
    (hbuf : buf ≠ []) :
    ∃ k, crashed file (writes ++ (pos,buf) :: more) k = written file writes := by
  induction writes generalizing file with
  | nil =>
    have hpos : ¬ buf.length ≤ 0 := fun h => hbuf (eq_nil_of_length_eq_zero (Nat.le_zero.mp h))
    refine ⟨0,?_⟩
    rw [nil_append,crashed,if_neg hpos]
    rfl
  | cons wr writes ih =>
    obtain ⟨k,hk⟩ := ih (file.pwrite wr.1 wr.2)
    refine ⟨wr.2.length + k,?_⟩
    rw [cons_append,crashed,if_pos (Nat.le_add_right _ _),Nat.add_sub_cancel_left,hk]
    rfl

/-- A crash while a transaction appends: what it has appended so far is found as if it had
committed. -/
theorem open_transaction_recovered (hrun : Run pageSize c) (hsm : pageSize < 2 ^ 16)
    (hend : ¬ FrameAt c.shared.file c.shared.walHeader pageSize (logEnd (c.committed ++ c.current))) :
    ∃ k, Recovers ((c.append f).crash k) c.shared.walHeader (c.committed ++ c.current) := by
  have hc := hrun.tracked
  have hbuf : f.buffer c.shared.walHeader c.shared.lastChecksum ≠ [] := by
    intro hnil
    have hlen := length_buffer f c.shared.walHeader c.shared.lastChecksum
    rw [hnil,length_nil,walFrameHeaderSize] at hlen
    omega
  obtain ⟨k,hk⟩ := crashed_between c.synced c.pending [] (frameOffset pageSize (c.shared.maxFrame + 1)) hbuf
  have hfi : (c.append f).crash k = c.shared.file := hk.trans hc.written.symm
  obtain ⟨hmax,hsum⟩ :=
    recoveredFrom_position c.shared.file
  refine ⟨k,?_⟩
  rw [hfi]
  exact ⟨_,readEntireWalDumb_laid hc.holds.header hc.holds.laid (covered_of_lt hsm _) hend,
    hmax,hsum,(recoveredFrom_pages _).1⟩

def smallLog : Logging 512 :=
  .fresh ⟨512, 9, by decide⟩ 7 9

def smallFrame (page : Nat) : LogFrame 512 :=
  ⟨page, .replicate 512 0, 2, length_replicate⟩

theorem smallLog_run : Run 512 smallLog :=
  .fresh ⟨512,9,by decide⟩ 7 9

theorem smallLog_ends :
    ¬ FrameAt (smallLog.append (smallFrame page)).shared.file h 512 (logEnd [smallFrame page]) := by
  have hsi : (smallLog.append (smallFrame page)).shared.file.size =
      max smallLog.shared.file.size (logEnd [smallFrame page]) :=
    (SameBeyond.appendFrame (w := .new 512) smallLog_run.tracked.holds rfl (smallFrame page)).size
  have hheader : smallLog.shared.file.size = 512 := by
    show (empty.pwrite 0 _).size = 512
    rw [size_pwrite,length_headerBuffer]
    exact Nat.max_eq_right (Nat.zero_le _)
  have hend : logEnd [smallFrame page] = 568 := by
    simp [logEnd,walHeaderSize,walFrameHeaderSize]
  intro hfr
  have hfits := hfr.1
  rw [hsi,hheader,hend] at hfits
  exact absurd hfits (by decide)

/-- A frame that was committed before the crash is found. -/
theorem committedFrame_recovers : ∃ k, Recovers ((smallLog.append (smallFrame 1)).commit.crash k)
    (smallLog.append (smallFrame 1)).commit.shared.walHeader [smallFrame 1] :=
  ⟨0,(crash_recovers_iff (.commit (.append _ smallLog_run)) 0).mpr
    ⟨(smallLog_run.append (smallFrame 1)).tracked.holds.header.fits,covered_of_lt (by decide) _, smallLog_ends⟩⟩

/-- A transaction of two frames is cut off after the first, which is found. -/
theorem halfTransaction_recovered :
    ∃ c : Logging 512, Run 512 c ∧ c.committed = [] ∧ c.current = [smallFrame 1, smallFrame 2] ∧
      ∃ k, Recovers (c.crash k) c.shared.walHeader [smallFrame 1] := by
  have hrun : Run 512 (smallLog.append (smallFrame 1)) := .append _ smallLog_run
  refine ⟨(smallLog.append (smallFrame 1)).append (smallFrame 2),.append _ hrun,rfl,rfl,?_⟩
  exact open_transaction_recovered hrun (by decide) (smallLog_ends)

end OxiSql.Wal
