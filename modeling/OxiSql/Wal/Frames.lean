import OxiSql.Wal.File

namespace OxiSql.Wal
open List Function WalFileShared

@[simp] theorem newestWithin_nil : newestWithin lo hi [] = none := rfl

theorem newestWithin_concat : newestWithin lo hi (fs ++ [f]) =
      if lo ≤ f ∧ f ≤ hi then some f else newestWithin lo hi fs := by
  simp only [newestWithin]
  by_cases h : lo ≤ f ∧ f ≤ hi <;> simp [h]

theorem newestWithin_eq_none : newestWithin lo hi fs = none ↔ ∀ f ∈ fs, lo ≤ f → hi < f := by
  simp [newestWithin]

theorem newestWithin_mem (h : newestWithin lo hi fs = some f) : f ∈ fs ∧ lo ≤ f ∧ f ≤ hi := by
  have hm := mem_of_find?_eq_some h
  have hp := find?_some h
  exact ⟨by simpa using hm,by simpa using hp⟩

theorem newestWithin_eq_some (hs : fs.Pairwise (· < ·)) : newestWithin lo hi fs = some f ↔
      f ∈ fs ∧ lo ≤ f ∧ f ≤ hi ∧ ∀ g ∈ fs, lo ≤ g → g ≤ hi → g ≤ f := by
  induction fs using List.reverseRecOn with
  | nil => simp
  | append_singleton fs x ih =>
    obtain ⟨hfs,-,hx⟩ := pairwise_append.mp hs
    have hlt : ∀ g ∈ fs, g < x := fun g hg => hx g hg x (by simp)
    rw [newestWithin_concat]
    by_cases hr : lo ≤ x ∧ x ≤ hi
    · simp only [hr,and_self,↓reduceIte,Option.some.injEq]
      constructor
      · rintro rfl
        refine ⟨by simp,hr.1,hr.2,fun g hg _ _ => ?_⟩
        rcases mem_append.mp hg with hg | hg
        · exact Nat.le_of_lt (hlt g hg)
        · simp_all
      · rintro ⟨hf,hlo,hhi,hmax⟩
        have hxf : x ≤ f := hmax x (by simp) hr.1 hr.2
        rcases mem_append.mp hf with hf | hf
        · have := hlt f hf
          omega
        · simp_all
    · simp only [hr,↓reduceIte,ih hfs]
      constructor
      · rintro ⟨hf,hlo,hhi,hmax⟩
        refine ⟨by simp [hf],hlo,hhi,fun g hg hl hh => ?_⟩
        rcases mem_append.mp hg with hg | hg
        · exact hmax g hg hl hh
        · obtain rfl := mem_singleton.mp hg
          exact absurd ⟨hl,hh⟩ hr
      · rintro ⟨hf,hlo,hhi,hmax⟩
        refine ⟨?_,hlo,hhi,fun g hg hl hh => hmax g (by simp [hg]) hl hh⟩
        rcases mem_append.mp hf with hf | hf
        · exact hf
        · obtain rfl := mem_singleton.mp hf
          exact absurd ⟨hlo,hhi⟩ hr

theorem newestWithin_filter (h : ∀ f ∈ fs, lo ≤ f → f ≤ m → keep f = true) :
    newestWithin lo m (fs.filter keep) = newestWithin lo m fs := by
  induction fs using List.reverseRecOn with
  | nil => rfl
  | append_singleton fs x ih =>
    have hih := ih fun f hf => h f (by simp [hf])
    by_cases hk : keep x = true
    · simp [hk,newestWithin_concat,hih]
    · have hx : ¬ (lo ≤ x ∧ x ≤ m) := fun hr => hk (h x (by simp) hr.1 hr.2)
      simp [hk,newestWithin_concat,hx,hih]

theorem newestWithin_lower (h : ∀ f ∈ fs, f ≤ m → (lo ≤ f ↔ lo' ≤ f)) :
    newestWithin lo m fs = newestWithin lo' m fs := by
  induction fs using List.reverseRecOn with
  | nil => rfl
  | append_singleton fs x ih =>
    have hih := ih fun f hf => h f (by simp [hf])
    have hx := h x (by simp)
    rw [newestWithin_concat,newestWithin_concat,hih]
    by_cases hm : x ≤ m
    · simp [hx hm]
    · simp [hm]

@[simp] theorem frames_pushFrame_same (s : WalFileShared) :
    (s.pushFrame page f).frames page = s.frames page ++ [f] := by
  cases h : s.frameCache page <;> simp [pushFrame,frames,h]

variable {s : WalFileShared}

theorem frames_pushFrame_of_ne (h : p ≠ page) : (s.pushFrame page f).frames p = s.frames p := by
  cases hc : s.frameCache page <;>
    simp [pushFrame,frames,hc,update_of_ne h]

theorem mem_pagesInFrames_pushFrame : p ∈ (s.pushFrame page f).pagesInFrames ↔
      p ∈ s.pagesInFrames ∨ (p = page ∧ s.frameCache page = none) := by
  cases hc : s.frameCache page <;> simp [pushFrame,hc]

theorem frames_retain : (s.retain keep).frames p = (s.frames p).filter keep := by
  cases h : s.frameCache p with
  | none => simp [retain,frames,retainFrames,h]
  | some fs =>
    by_cases he : (fs.filter keep).isEmpty = true
    · have hnil : fs.filter keep = [] := List.isEmpty_iff.mp he
      simp [retain,frames,retainFrames,h,hnil]
    · simp [retain,frames,retainFrames,h,he]

/-- What every frame cache the WAL builds looks like. -/
structure WalFileShared.LogWf (s : WalFileShared) : Prop where
  ascending : ∀ p, (s.frames p).Pairwise (· < ·)
  bounded : ∀ p, ∀ f ∈ s.frames p, 1 ≤ f ∧ f ≤ s.maxFrame
  no_empty : ∀ p, s.frameCache p ≠ some []
  listed : ∀ p, p ∈ s.pagesInFrames ↔ (s.frameCache p).isSome

theorem WalFileShared.LogWf.mem_pages (h : s.LogWf) : p ∈ s.pagesInFrames ↔ s.frames p ≠ [] := by
  rw [h.listed p]
  cases hc : s.frameCache p with
  | none => simp [frames,hc]
  | some fs =>
    have hne : fs ≠ [] := fun he => h.no_empty p (by rw [hc,he])
    simp [frames,hc,hne]

section Fields
variable (s : WalFileShared) (page f : Nat)

@[simp] theorem pushFrame_maxFrame : (s.pushFrame page f).maxFrame = s.maxFrame := by
  unfold pushFrame
  split <;> rfl

@[simp] theorem pushFrame_nbackfills : (s.pushFrame page f).nbackfills = s.nbackfills := by
  unfold pushFrame
  split <;> rfl

@[simp] theorem pushFrame_file : (s.pushFrame page f).file = s.file := by
  unfold pushFrame
  split <;> rfl

@[simp] theorem pushFrame_readLocks : (s.pushFrame page f).readLocks = s.readLocks := by
  unfold pushFrame
  split <;> rfl

@[simp] theorem pushFrame_writeLock : (s.pushFrame page f).writeLock = s.writeLock := by
  unfold pushFrame
  split <;> rfl

@[simp] theorem pushFrame_walHeader : (s.pushFrame page f).walHeader = s.walHeader := by
  unfold pushFrame
  split <;> rfl

@[simp] theorem pushFrame_lastChecksum : (s.pushFrame page f).lastChecksum = s.lastChecksum := by
  unfold pushFrame
  split <;> rfl

end Fields

section Append
variable (w : WalFile) (s : WalFileShared) (page : Nat) (content : PageBytes) (dbSize : UInt32)

theorem appendFrame_eq : w.appendFrame s page content dbSize = { s with
      file := s.file.pwrite (frameOffset w.pageSize (s.maxFrame + 1))
        (frameBuffer s.walHeader (UInt32.ofNat page) dbSize content
          (frameChecksum s.walHeader (w.pageSize % 2 ^ 16) (UInt32.ofNat page) dbSize content s.lastChecksum))
      lastChecksum := frameChecksum s.walHeader (w.pageSize % 2 ^ 16) (UInt32.ofNat page) dbSize
        content s.lastChecksum
      maxFrame := s.maxFrame + 1 }.pushFrame page (s.maxFrame + 1) := by
  have hid : (if s.maxFrame = 0 then 1 else s.maxFrame + 1) = s.maxFrame + 1 := by
    split <;> omega
  simp [WalFile.appendFrame,beginWriteWalFrame,hid]

@[simp] theorem appendFrame_maxFrame : (w.appendFrame s page content dbSize).maxFrame = s.maxFrame + 1 := by
  simp [appendFrame_eq]

@[simp] theorem appendFrame_nbackfills : (w.appendFrame s page content dbSize).nbackfills = s.nbackfills := by
  simp [appendFrame_eq]

@[simp] theorem appendFrame_readLocks : (w.appendFrame s page content dbSize).readLocks = s.readLocks := by
  simp [appendFrame_eq]

@[simp] theorem appendFrame_writeLock : (w.appendFrame s page content dbSize).writeLock = s.writeLock := by
  simp [appendFrame_eq]

theorem frames_appendFrame_same :
    (w.appendFrame s page content dbSize).frames page = s.frames page ++ [s.maxFrame + 1] := by
  rw [appendFrame_eq,frames_pushFrame_same]
  rfl

theorem frames_appendFrame_of_ne (h : p ≠ page) :
    (w.appendFrame s page content dbSize).frames p = s.frames p := by
  rw [appendFrame_eq,frames_pushFrame_of_ne h]
  rfl

end Append

section AppendAll
variable (w : WalFile) (dbSize : UInt32) (s : WalFileShared) (dirty : List (Nat × PageBytes))

@[simp] theorem appendAll_maxFrame : (w.appendAll dbSize s dirty).maxFrame = s.maxFrame + dirty.length := by
  induction dirty generalizing s with
  | nil => rfl
  | cons page rest ih =>
    have := ih (w.appendFrame s page.1 page.2 dbSize)
    simp only [WalFile.appendAll,foldl_cons,appendFrame_maxFrame,length_cons] at this ⊢
    omega

@[simp] theorem appendAll_readLocks : (w.appendAll dbSize s dirty).readLocks = s.readLocks := by
  induction dirty generalizing s with
  | nil => rfl
  | cons page rest ih => exact (ih _).trans (appendFrame_readLocks ..)

@[simp] theorem appendAll_writeLock : (w.appendAll dbSize s dirty).writeLock = s.writeLock := by
  induction dirty generalizing s with
  | nil => rfl
  | cons page rest ih => exact (ih _).trans (appendFrame_writeLock ..)

end AppendAll

/-- Appending keeps the frame cache well formed: the new frame is the largest. -/
theorem WalFileShared.LogWf.appendFrame (h : s.LogWf) (w : WalFile)
    (page : Nat) (content : PageBytes) (dbSize : UInt32) : (w.appendFrame s page content dbSize).LogWf := by
  have hfr : ∀ p, (w.appendFrame s page content dbSize).frames p =
      if p = page then s.frames p ++ [s.maxFrame + 1] else s.frames p := by
    intro p
    split
    · rename_i hp
      subst hp
      exact frames_appendFrame_same w s p content dbSize
    · rename_i hp
      exact frames_appendFrame_of_ne w s page content dbSize hp
  refine ⟨?_,?_,?_,?_⟩
  · intro p
    rw [hfr]
    split
    · refine pairwise_append.mpr ⟨h.ascending p,pairwise_singleton _ _,?_⟩
      intro f hf g hg
      have := (h.bounded p f hf).2
      rw [mem_singleton.mp hg]
      omega
    · exact h.ascending p
  · intro p f hf
    rw [hfr] at hf
    rw [appendFrame_maxFrame]
    split at hf
    · rcases mem_append.mp hf with hf | hf
      · have := h.bounded p f hf
        omega
      · have := mem_singleton.mp hf
        omega
    · have := h.bounded p f hf
      omega
  · intro p
    rw [appendFrame_eq]
    cases hc : s.frameCache page with
    | none | some fs =>
      simp only [pushFrame,hc,update_apply]
      split
      · simp
      · exact h.no_empty p
  · intro p
    rw [appendFrame_eq,mem_pagesInFrames_pushFrame]
    simp only [h.listed p]
    cases hc : s.frameCache page with
    | none | some fs =>
      simp only [pushFrame,hc,update_apply]
      split <;> simp_all

/-- Dropping frames keeps the frame cache well formed, for any bound the rest respects. -/
theorem WalFileShared.LogWf.retain (h : s.LogWf) (keep : Nat → Bool) : (s.retain keep).LogWf := by
  refine ⟨?_,?_,?_,?_⟩
  · intro p
    rw [frames_retain]
    exact (h.ascending p).filter _
  · intro p f hf
    rw [frames_retain] at hf
    exact h.bounded p f (mem_filter.mp hf).1
  · intro p
    simp only [WalFileShared.retain,retainFrames]
    split
    · simp
    · split
      · simp
      · simp_all
  · intro p
    simp only [WalFileShared.retain,mem_filter,h.listed p]
    simp only [retainFrames]
    split
    · simp
    · simp_all

theorem WalFileShared.LogWf.rollbackToFrame (h : s.LogWf) (target : Nat)
    (sum : Checksum) : (s.rollbackToFrame target sum).LogWf := by
  have hr := h.retain fun f => f ≤ target
  refine ⟨hr.ascending,?_,hr.no_empty,hr.listed⟩
  intro p f hf
  have hmem : f ∈ (s.frames p).filter fun f => f ≤ target := by
    rw [← frames_retain]
    exact hf
  obtain ⟨hf,ht⟩ := mem_filter.mp hmem
  have hle : f ≤ target := by simpa using ht
  exact ⟨(h.bounded p f hf).1,hle⟩

end OxiSql.Wal
