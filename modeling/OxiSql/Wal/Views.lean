import OxiSql.Wal.Frames
import OxiSql.Wal.ReadMarks

namespace OxiSql.Wal
open Lib List WalFile WalFileShared

def imageAt (pageSize : Nat) (s : WalFileShared) (frame : Nat) : PageBytes :=
  s.file.pread (frameOffset pageSize frame + walFrameHeaderSize) pageSize

/-- A page as of frame `m`: its newest frame up to `m`, or else the database file. -/
def viewAt (pageSize : Nat) (s : WalFileShared) (db : DbFile) (m page : Nat) : PageBytes :=
  match newestWithin 0 m (s.frames page) with
  | some f => imageAt pageSize s f
  | none => db page

/-- The read of `Pager::read_page` on a page that is not cached. -/
def WalFile.readPage (w : WalFile) (s : WalFileShared) (db : DbFile) (page : Nat) : PageBytes :=
  match w.findFrame s page with
  | some frame => w.readFrame s frame
  | none => db page

theorem readPage_eq (w : WalFile) (s : WalFileShared) (db : DbFile) (page : Nat) :
    w.readPage s db page = viewAt w.pageSize s db w.maxFrame page := rfl

variable {s : WalFileShared}

/-- Views only look at the frame lists and at the frames in them. -/
theorem viewAt_congr (hf : s'.frames page = s.frames page)
    (hi : ∀ f ∈ s.frames page, imageAt ps s' f = imageAt ps s f) (hd : db' page = db page) :
    viewAt ps s' db' m page = viewAt ps s db m page := by
  unfold viewAt
  rw [hf]
  cases hn : newestWithin 0 m (s.frames page) with
  | none => exact hd
  | some f => exact hi f (newestWithin_mem hn).1

theorem viewAt_beyond (h : s.LogWf)
    (hm : s.maxFrame ≤ m) : viewAt ps s db m page = viewAt ps s db s.maxFrame page := by
  have hn : newestWithin 0 m (s.frames page) = newestWithin 0 s.maxFrame (s.frames page) := by
    cases hs : newestWithin 0 s.maxFrame (s.frames page) with
    | none =>
      rw [newestWithin_eq_none] at hs ⊢
      intro f hf h0
      have := hs f hf h0
      have := (h.bounded page f hf).2
      omega
    | some f =>
      rw [newestWithin_eq_some (h.ascending page)] at hs ⊢
      obtain ⟨hf,h0,hle,hmax⟩ := hs
      exact ⟨hf,h0,hle.trans hm,fun g hg hg0 _ => hmax g hg hg0 (h.bounded page g hg).2⟩
  rw [viewAt,viewAt,hn]

theorem frameOffset_lt (ps : Nat) (hf : 1 ≤ f) (h : f < g) :
    frameOffset ps f + (ps + walFrameHeaderSize) ≤ frameOffset ps g := by
  have hmul : (f - 1 + 1) * (ps + walFrameHeaderSize) ≤ (g - 1) * (ps + walFrameHeaderSize) :=
    Nat.mul_le_mul_right _ (by omega)
  rw [Nat.add_mul] at hmul
  unfold frameOffset
  omega

section Append
variable {w : WalFile}

theorem imageAt_appendFrame_new (hw : w.pageSize = ps) (hc : content.length = ps) :
    imageAt ps (w.appendFrame s page content dbSize) (s.maxFrame + 1) = content := by
  subst hw
  simp only [imageAt,appendFrame_eq,pushFrame_file]
  rw [ByteFile.pread_pwrite_within (by rw [length_frameBuffer,hc]),drop_frameBuffer, take_of_length_le hc.le]

theorem imageAt_appendFrame_old (hw : w.pageSize = ps) (h1 : 1 ≤ f) (hf : f ≤ s.maxFrame) :
    imageAt ps (w.appendFrame s page content dbSize) f = imageAt ps s f := by
  subst hw
  have hoff := frameOffset_lt w.pageSize h1 (show f < s.maxFrame + 1 by omega)
  simp only [imageAt,appendFrame_eq,pushFrame_file]
  exact ByteFile.pread_pwrite_disjoint (.inl (by omega))

theorem viewAt_appendFrame_old (hs : s.LogWf) (hw : w.pageSize = ps) (hm : m ≤ s.maxFrame) :
    viewAt ps (w.appendFrame s page content dbSize) db m p = viewAt ps s db m p := by
  have hn : newestWithin 0 m ((w.appendFrame s page content dbSize).frames p) =
      newestWithin 0 m (s.frames p) := by
    by_cases hp : p = page
    · subst hp
      rw [frames_appendFrame_same,newestWithin_concat,if_neg (by omega)]
    · rw [frames_appendFrame_of_ne _ _ _ _ _ hp]
  unfold viewAt
  rw [hn]
  cases hf : newestWithin 0 m (s.frames p) with
  | none => rfl
  | some f =>
    have hb := hs.bounded p f (newestWithin_mem hf).1
    exact imageAt_appendFrame_old hw hb.1 hb.2

/-- At the new end of the log the appended page has its new content, every other page the
content it had at the old end. -/
theorem viewAt_appendFrame_new (hs : s.LogWf) (hw : w.pageSize = ps) (hc : content.length = ps) :
    viewAt ps (w.appendFrame s page content dbSize) db (s.maxFrame + 1) p =
      if p = page then content else viewAt ps s db s.maxFrame p := by
  split
  · rename_i hp
    subst hp
    unfold viewAt
    rw [frames_appendFrame_same,newestWithin_concat,if_pos (by omega)]
    exact imageAt_appendFrame_new hw hc
  · rename_i hp
    rw [← viewAt_beyond hs (Nat.le_succ s.maxFrame)]
    refine viewAt_congr (frames_appendFrame_of_ne w s page content dbSize hp) ?_ rfl
    intro f hf
    have hb := hs.bounded p f hf
    exact imageAt_appendFrame_old hw hb.1 hb.2

end Append

section AppendAll
variable {w : WalFile} {dirty : List (Nat × PageBytes)}

variable (hs : s.LogWf)
include hs

theorem WalFileShared.LogWf.appendAll : (w.appendAll dbSize s dirty).LogWf := by
  induction dirty generalizing s with
  | nil => exact hs
  | cons page rest ih => exact ih (hs.appendFrame w page.1 page.2 dbSize)

variable (hw : w.pageSize = ps)
include hw

theorem viewAt_appendAll_old (hm : m ≤ s.maxFrame) :
    viewAt ps (w.appendAll dbSize s dirty) db m p = viewAt ps s db m p := by
  induction dirty generalizing s with
  | nil => rfl
  | cons page rest ih =>
    refine Eq.trans (ih (hs.appendFrame w page.1 page.2 dbSize) ?_) (viewAt_appendFrame_old hs hw hm)
    simp only [appendFrame_maxFrame]
    omega

variable (hd : ∀ page ∈ dirty, page.2.length = ps)
include hd

theorem viewAt_appendAll_other (hp : ∀ page ∈ dirty, page.1 ≠ p) :
    viewAt ps (w.appendAll dbSize s dirty) db (w.appendAll dbSize s dirty).maxFrame p =
      viewAt ps s db s.maxFrame p := by
  induction dirty generalizing s with
  | nil => rfl
  | cons page rest ih =>
    obtain ⟨hl,hd⟩ := forall_mem_cons.mp hd
    obtain ⟨hne,hp⟩ := forall_mem_cons.mp hp
    refine Eq.trans (ih (hs.appendFrame w page.1 page.2 dbSize) hd hp) ?_
    rw [appendFrame_maxFrame,viewAt_appendFrame_new hs hw hl,if_neg (Ne.symm hne)]

theorem viewAt_appendAll_mem (hn : (dirty.map Prod.fst).Nodup) (hp : (p,content) ∈ dirty) :
    viewAt ps (w.appendAll dbSize s dirty) db (w.appendAll dbSize s dirty).maxFrame p = content := by
  induction dirty generalizing s with
  | nil => cases hp
  | cons page rest ih =>
    obtain ⟨hl,hre⟩ := forall_mem_cons.mp hd
    obtain ⟨hnot,hn⟩ := nodup_cons.mp hn
    have hs' := hs.appendFrame w page.1 page.2 dbSize
    rcases mem_cons.mp hp with he | hp
    · have hot : ∀ page ∈ rest, page.1 ≠ p :=
        fun other hmem ho => hnot (mem_map.mpr ⟨other,hmem,ho.trans (congrArg Prod.fst he)⟩)
      have hco : w.appendAll dbSize s (page :: rest) =
          w.appendAll dbSize (w.appendFrame s page.1 page.2 dbSize) rest := rfl
      rw [hco,viewAt_appendAll_other hs' hw hre hot,appendFrame_maxFrame,
        viewAt_appendFrame_new hs hw hl,← he,if_pos rfl]
    · exact ih hs' hre hn hp

end AppendAll

theorem viewAt_rollbackToFrame {sum : Checksum} (hm : m ≤ target) :
    viewAt ps (s.rollbackToFrame target sum) db m page = viewAt ps s db m page := by
  have hn : newestWithin 0 m ((s.rollbackToFrame target sum).frames page) =
      newestWithin 0 m (s.frames page) := by
    have hr : (s.rollbackToFrame target sum).frames page =
        (s.frames page).filter fun f => f ≤ target := frames_retain
    rw [hr]
    refine newestWithin_filter ?_
    intro f _ _ hle
    simpa using hle.trans hm
  unfold viewAt
  rw [hn]
  rfl

def safeFrame (s : WalFileShared) : Nat :=
  (startCheckpoint s).2

def WalFile.copiedFrame (w : WalFile) (s : WalFileShared) (page : Nat) : Option Nat :=
  if page ∈ s.pagesInFrames then newestWithin w.minFrame (safeFrame s) (s.frames page) else none

theorem foldl_backfillPage (w : WalFile) (pages : List Nat) : (pages.foldl (w.backfillPage s hi) acc).1 p =
      match newestWithin w.minFrame hi (s.frames p) with
      | some f => if p ∈ pages then w.readFrame s f else acc.1 p
      | none => acc.1 p := by
  induction pages generalizing acc with
  | nil => cases newestWithin w.minFrame hi (s.frames p) <;> simp
  | cons q qs ih =>
    rw [foldl_cons,ih]
    cases hp : newestWithin w.minFrame hi (s.frames p) with
    | none =>
      cases hq : newestWithin w.minFrame hi (s.frames q) with
      | none => simp [backfillPage,hq]
      | some g =>
        have hne : p ≠ q := by
          rintro rfl
          simp [hp] at hq
        simp [backfillPage,hq,Function.update_of_ne hne]
    | some f =>
      by_cases hmem : p ∈ qs
      · simp [hmem]
      · by_cases hpq : p = q
        · subst hpq
          simp [backfillPage,hp]
        · cases hq : newestWithin w.minFrame hi (s.frames q) with
          | none | some g => simp [hpq,backfillPage,hq]

section Checkpoint
variable {w : WalFile}

theorem checkpoint_db (hs : s.LogWf) : (w.checkpoint s db mode random).2.2 p =
      match newestWithin w.minFrame (safeFrame s) (s.frames p) with
      | some f => w.readFrame s f
      | none => db p := by
  have hdb : (w.checkpoint s db mode random).2.2 = (w.backfill s (safeFrame s) db).1 := by
    unfold checkpoint safeFrame
    simp only
    split <;> rfl
  rw [hdb,backfill,foldl_backfillPage]
  cases hn : newestWithin w.minFrame (safeFrame s) (s.frames p) with
  | none => rfl
  | some f =>
    have hne : s.frames p ≠ [] := ne_nil_of_mem (newestWithin_mem hn).1
    simp [hs.mem_pages,hne]

theorem checkpoint_readLocks : (w.checkpoint s db mode random).2.1.readLocks = (startCheckpoint s).1 := by
  unfold checkpoint
  simp only
  split
  · rfl
  · unfold trimBackfilledFrames
    split <;> rfl

theorem checkpoint_writeLock : (w.checkpoint s db mode random).2.1.writeLock = s.writeLock := by
  unfold checkpoint
  simp only
  split
  · rfl
  · unfold trimBackfilledFrames
    split <;> rfl

theorem checkpoint_ends : (w.checkpoint s db mode random).2.1.maxFrame =
      (if s.maxFrame = safeFrame s then 0 else s.maxFrame) ∧
    (w.checkpoint s db mode random).2.1.nbackfills = if s.maxFrame = safeFrame s then 0 else safeFrame s := by
  unfold checkpoint safeFrame
  simp only
  split
  · exact ⟨rfl,rfl⟩
  · unfold trimBackfilledFrames
    split <;> exact ⟨rfl,rfl⟩

variable (hs : s.LogWf)
include hs

theorem checkpoint_frames : (w.checkpoint s db mode random).2.1.frames p =
      if s.maxFrame = safeFrame s then [] else (s.frames p).filter fun f => safeFrame s < f := by
  unfold checkpoint safeFrame
  simp only
  split
  · rfl
  · unfold trimBackfilledFrames
    split
    · rename_i h0
      refine (filter_eq_self.mpr ?_).symm
      intro f hf
      have := (hs.bounded p f hf).1
      simp only [decide_eq_true_eq]
      omega
    · exact frames_retain

omit hs in
theorem checkpoint_file (h : s.maxFrame ≠ safeFrame s) : (w.checkpoint s db mode random).2.1.file = s.file := by
  unfold checkpoint
  unfold safeFrame at h
  simp only [h,↓reduceIte]
  unfold trimBackfilledFrames
  split <;> rfl

theorem WalFileShared.LogWf.checkpoint : (w.checkpoint s db mode random).2.1.LogWf := by
  by_cases h : s.maxFrame = safeFrame s
  · have hempty : ∀ p, (w.checkpoint s db mode random).2.1.frames p = [] := by
      intro p
      rw [checkpoint_frames hs,if_pos h]
    unfold safeFrame at h
    refine ⟨fun p => by simp [hempty],fun p f hf => by simp [hempty] at hf,?_,?_⟩ <;>
      simp [WalFile.checkpoint,h,resetWalFile]
  · unfold safeFrame at h
    simp only [WalFile.checkpoint,h,↓reduceIte,trimBackfilledFrames]
    split
    · exact ⟨hs.ascending,hs.bounded,hs.no_empty,hs.listed⟩
    · exact WalFileShared.LogWf.retain (s := { s with
        readLocks := (startCheckpoint s).1, nbackfills := (startCheckpoint s).2 })
        ⟨hs.ascending,hs.bounded,hs.no_empty,hs.listed⟩ _

/-- A pass that leaves frames behind changes no view from its safe frame on: what it dropped
is what it copied. -/
theorem viewAt_checkpoint (hw : w.pageSize = ps)
    (hmin : ∀ f ∈ s.frames p, f ≤ safeFrame s → w.minFrame ≤ f) (hpa : s.maxFrame ≠ safeFrame s)
    (hm : safeFrame s ≤ m) :
    viewAt ps (w.checkpoint s db mode random).2.1 (w.checkpoint s db mode random).2.2 m p =
      viewAt ps s db m p := by
  have hasc := hs.ascending p
  have him : ∀ f, imageAt ps (w.checkpoint s db mode random).2.1 f = imageAt ps s f := by
    intro f
    rw [imageAt,imageAt,checkpoint_file hpa]
  have hco : newestWithin w.minFrame (safeFrame s) (s.frames p) = newestWithin 0 (safeFrame s) (s.frames p) :=
    newestWithin_lower fun f hf hle => ⟨fun _ => Nat.zero_le f,fun _ => hmin f hf hle⟩
  unfold viewAt
  rw [checkpoint_frames hs,if_neg hpa,checkpoint_db hs,hco]
  cases hn : newestWithin 0 m (s.frames p) with
  | none =>
    -- Nothing in view before: nothing was copied and nothing is left in view.
    have hnone := newestWithin_eq_none.mp hn
    have h1 : newestWithin 0 m ((s.frames p).filter fun f => safeFrame s < f) = none :=
      newestWithin_eq_none.mpr fun f hf => hnone f (mem_filter.mp hf).1
    have h2 : newestWithin 0 (safeFrame s) (s.frames p) = none :=
      newestWithin_eq_none.mpr fun f hf h0 => Nat.lt_of_le_of_lt hm (hnone f hf h0)
    simp [h1,h2]
  | some f =>
    obtain ⟨hf,h0,hle,hmax⟩ := (newestWithin_eq_some hasc).mp hn
    by_cases hsa : safeFrame s < f
    · -- The frame in view is beyond the safe frame and stays.
      have h1 : newestWithin 0 m ((s.frames p).filter fun f => safeFrame s < f) = some f := by
        refine (newestWithin_eq_some (hasc.filter _)).mpr ⟨?_,h0,hle,?_⟩
        · exact mem_filter.mpr ⟨hf,by simpa using hsa⟩
        · exact fun g hg => hmax g (mem_filter.mp hg).1
      simp [h1,him]
    · -- The frame in view was copied: it is the newest one up to the safe frame.
      have h1 : newestWithin 0 m ((s.frames p).filter fun f => safeFrame s < f) = none := by
        refine newestWithin_eq_none.mpr ?_
        intro g hg h0g
        obtain ⟨hg,hlt⟩ := mem_filter.mp hg
        have hlt : safeFrame s < g := by simpa using hlt
        by_contra hle
        have := hmax g hg h0g (Nat.not_lt.mp hle)
        omega
      have h2 : newestWithin 0 (safeFrame s) (s.frames p) = some f :=
        (newestWithin_eq_some hasc).mpr ⟨hf,h0,by omega,fun g hg h0g hgle => hmax g hg h0g (hgle.trans hm)⟩
      simp [h1,h2,readFrame,imageAt,hw]

/-- A pass that copied everything leaves the database file as the view at the end of the log. -/
theorem viewAt_checkpoint_restart (hw : w.pageSize = ps) (hmin : ∀ f ∈ s.frames p, w.minFrame ≤ f)
    (hfu : s.maxFrame = safeFrame s) :
    viewAt ps (w.checkpoint s db mode random).2.1 (w.checkpoint s db mode random).2.2 m p =
      viewAt ps s db s.maxFrame p := by
  have hco : newestWithin w.minFrame (safeFrame s) (s.frames p) = newestWithin 0 s.maxFrame (s.frames p) := by
    rw [← hfu]
    exact newestWithin_lower fun f hf _ => ⟨fun _ => Nat.zero_le f,fun _ => hmin f hf⟩
  unfold viewAt
  rw [checkpoint_frames hs,if_pos hfu,newestWithin_nil,checkpoint_db hs,hco]
  cases newestWithin 0 s.maxFrame (s.frames p) with
  | none => rfl
  | some f => simp [readFrame,imageAt,hw]

end Checkpoint

end OxiSql.Wal
