import OxiSql.Integrity.Tree
import OxiSql.Lib.Results

namespace OxiSql.Integrity
open Lib Ondisk List PageCheck

def kindOf : BTreeCell → PageType
  | .tableInterior .. => .tableInterior
  | .tableLeaf .. => .tableLeaf
  | .indexInterior .. => .indexInterior
  | .indexLeaf .. => .indexLeaf

section
variable {p : PageContent} {max min : Nat}

theorem readBtreeCell_kind (h : readBtreeCell page pageType pos max min usable = .ok cell) :
    kindOf cell = pageType := by
  cases pageType <;>
  · simp only [readBtreeCell] at h
    split at h
    · cases h
    · repeat obtain ⟨_,-,h⟩ := bind_ok h
      cases h
      rfl

theorem pageType_of_validate (h : p.validateBtreePageType = .ok t) (h' : p.pageType = .ok t') : t = t' := by
  obtain ⟨b,hb,ht⟩ := bind_ok h
  obtain ⟨b',hb',ht'⟩ := bind_ok h'
  rw [hb] at hb'
  cases hb'
  rw [ht] at ht'
  exact Except.ok.inj ht'

theorem cellGet_kind (hcell : p.cellGet idx max min usable = .ok cell)
    (ht : p.pageType = .ok t) : kindOf cell = t := by
  obtain ⟨t',hva,h⟩ := bind_ok hcell
  obtain ⟨count,-,h⟩ := bind_ok h
  obtain ⟨start,-,h⟩ := bind_ok h
  split at h
  · cases h
  · split at h
    · cases h
    · obtain ⟨pointer,-,h⟩ := bind_ok h
      rw [readBtreeCell_kind h]
      exact pageType_of_validate hva ht

theorem readCell_kind (h : readCell p usable idx = .ok c) (ht : p.pageType = .ok t) : kindOf c.cell = t := by
  obtain ⟨t',ht',h⟩ := bind_ok h
  obtain ⟨max,-,h⟩ := bind_ok h
  obtain ⟨min,-,h⟩ := bind_ok h
  obtain ⟨region,-,h⟩ := bind_ok h
  obtain ⟨cell,hcell,h⟩ := bind_ok h
  cases h
  exact cellGet_kind hcell ht

end

@[simp] theorem PageCheck.report_errors {s : PageCheck} :
    (s.report wrong error).errors = [] ↔ s.errors = [] ∧ wrong = false := by
  cases wrong <;> simp [report]

variable (s : PageCheck) (wrong : Bool) (error : IntegrityCheckError)

@[simp] theorem PageCheck.report_pageStack : (s.report wrong error).pageStack = s.pageStack := by
  cases wrong <;> rfl

@[simp] theorem PageCheck.report_firstLeafLevel : (s.report wrong error).firstLeafLevel = s.firstLeafLevel := by
  cases wrong <;> rfl

@[simp] theorem PageCheck.report_ranges : (s.report wrong error).ranges = s.ranges := by
  cases wrong <;> rfl

@[simp] theorem PageCheck.report_nextRowid : (s.report wrong error).nextRowid = s.nextRowid := by
  cases wrong <;> rfl

def childEntry (entry : IntegrityCheckPageEntry) (cell : BTreeCell) : Option IntegrityCheckPageEntry :=
  (leftChild cell).map fun child => ⟨child, entry.level + 1, (cellRowid cell).getD entry.maxIntkey⟩

def cellRange (c : CellView) : IntegrityCheckCellRange :=
  ⟨c.start, c.start + c.length, false⟩

def KeepsLevel (s s' : IntegrityCheckState) : Prop :=
  ∀ level, s.firstLeafLevel = some level → s'.firstLeafLevel = some level

/-- Cells, the last of a page first, that were checked and found in order. -/
structure CellsOk (entry : IntegrityCheckPageEntry) (usable : Nat) (s s' : PageCheck) (cs : List CellView) :
    Prop where
  before : s.errors = []
  inside : ∀ c ∈ cs, c.start + c.length ≤ usable
  stack : s'.pageStack = (cs.filterMap (childEntry entry ·.cell)).reverse ++ s.pageStack
  ranges : s'.ranges = (cs.map cellRange).reverse ++ s.ranges
  falling : (s.nextRowid :: cs.filterMap (cellRowid ·.cell)).Pairwise (· ≥ ·)
  below : ∀ rowid ∈ cs.filterMap (cellRowid ·.cell), rowid ≤ entry.maxIntkey
  next : s'.nextRowid = (cs.filterMap (cellRowid ·.cell)).getLast?.getD s.nextRowid
  keeps : KeepsLevel s.toIntegrityCheckState s'.toIntegrityCheckState
  level : ∀ c ∈ cs, isLeaf (kindOf c.cell) → s'.firstLeafLevel = some entry.level

section
variable {entry : IntegrityCheckPageEntry} {usable : Nat} {s : PageCheck}

theorem CellsOk.nil (h : s.errors = []) : CellsOk entry usable s s [] where
  before := h
  inside := by simp
  stack := rfl
  ranges := rfl
  falling := by simp
  below := by simp
  next := rfl
  keeps _ hl := hl
  level := by simp

theorem checkRowid_errors (h : (s.checkRowid entry idx rowid).errors = []) :
    s.errors = [] ∧ rowid ≤ entry.maxIntkey ∧ rowid ≤ s.nextRowid := by
  have h' := report_errors.mp h
  simpa using h'

theorem checkLevel_spec (h : (s.checkLevel entry).errors = []) :
    s.errors = [] ∧ (s.checkLevel entry).firstLeafLevel = some entry.level ∧
      KeepsLevel s.toIntegrityCheckState (s.checkLevel entry).toIntegrityCheckState := by
  unfold checkLevel at h ⊢
  split at h
  next expected hle =>
    obtain ⟨hs,heq⟩ := report_errors.mp h
    obtain rfl : expected = entry.level := by simpa using heq
    simp [hle,hs,KeepsLevel]
  next hle => exact ⟨h,rfl,fun level hl => by rw [hle] at hl; cases hl⟩

@[simp] theorem checkLevel_pageStack : (s.checkLevel entry).pageStack = s.pageStack := by
  unfold checkLevel
  split <;> simp

@[simp] theorem checkLevel_ranges : (s.checkLevel entry).ranges = s.ranges := by
  unfold checkLevel
  split <;> simp

@[simp] theorem checkLevel_nextRowid : (s.checkLevel entry).nextRowid = s.nextRowid := by
  unfold checkLevel
  split <;> simp

variable {c : CellView}

theorem checkPlace_spec (h : (s.checkPlace entry idx c.start c.length area usable).errors = []) :
    s.errors = [] ∧ c.start + c.length ≤ usable := by
  have h1 := report_errors.mp h
  have h2 := report_errors.mp h1.1
  exact ⟨h2.1,by simpa using h1.2⟩

theorem checkContents_spec
    (h : ((s.checkPlace entry idx c.start c.length area usable).checkContents entry idx c.cell).errors = []) :
    CellsOk entry usable s
      ((s.checkPlace entry idx c.start c.length area usable).checkContents entry idx c.cell) [c] := by
  generalize ht : s.checkPlace entry idx c.start c.length area usable = t at h ⊢
  have hst : t.pageStack = s.pageStack := by simp [← ht,checkPlace,addRange]
  have hlev : t.firstLeafLevel = s.firstLeafLevel := by
    simp [← ht,checkPlace,addRange]
  have hnext : t.nextRowid = s.nextRowid := by simp [← ht,checkPlace,addRange]
  have hra : t.ranges = cellRange c :: s.ranges := by
    simp [← ht,checkPlace,addRange,cellRange]
  have hpl : t.errors = [] → s.errors = [] ∧ c.start + c.length ≤ usable := by
    intro he
    rw [← ht] at he
    exact checkPlace_spec he
  cases hcell : c.cell with
  | tableInterior child rowid =>
    constructor <;> simp_all [checkContents,checkRowid,push,childEntry,
      leftChild,cellRowid,kindOf,isLeaf,KeepsLevel]
  | tableLeaf rowid payload size first =>
    rw [hcell] at h
    obtain ⟨he,hmax,hle⟩ := checkRowid_errors h
    obtain ⟨he',hlast,hke'⟩ := checkLevel_spec he
    constructor <;> simp_all [checkContents,checkRowid,childEntry,leftChild,cellRowid,KeepsLevel]
  | indexInterior child payload size first =>
    constructor <;> simp_all [checkContents,push,childEntry,leftChild,cellRowid,kindOf,isLeaf,KeepsLevel]
  | indexLeaf payload size first =>
    rw [hcell] at h
    obtain ⟨he',hlast,hke'⟩ := checkLevel_spec h
    constructor <;> simp_all [checkContents,childEntry,leftChild,cellRowid,KeepsLevel]

theorem CellsOk.cons {c : CellView} {cs : List CellView} (h : CellsOk entry usable s s' [c])
    (h' : CellsOk entry usable s' s'' cs) : CellsOk entry usable s s'' (c :: cs) where
  before := h.before
  inside := by
    intro d hd
    rcases mem_cons.mp hd with rfl | hd
    · exact h.inside d (by simp)
    · exact h'.inside d hd
  stack := by
    rw [h'.stack,h.stack]
    cases hc : childEntry entry c.cell <;> simp [hc]
  ranges := by simp [h'.ranges,h.ranges]
  falling := by
    have hfirst := h.falling
    have hre := h'.falling
    rw [h.next] at hre
    cases hc : cellRowid c.cell with
    | none => simpa [hc] using hre
    | some rowid =>
      simp only [filterMap_cons,hc] at hfirst hre ⊢
      have hle : rowid ≤ s.nextRowid := by simpa using hfirst
      refine pairwise_cons.mpr ⟨fun r hr => ?_,hre⟩
      rcases mem_cons.mp hr with rfl | hr
      · exact hle
      · exact Int64.le_trans ((pairwise_cons.mp hre).1 r hr) hle
  below := by
    intro rowid hr
    rw [filterMap_cons] at hr
    cases hc : cellRowid c.cell with
    | none =>
      rw [hc] at hr
      exact h'.below rowid hr
    | some r =>
      rw [hc] at hr
      rcases mem_cons.mp hr with rfl | hr
      · exact h.below rowid (by simp [hc])
      · exact h'.below rowid hr
  next := by
    rw [h'.next,h.next]
    cases hc : cellRowid c.cell with
    | none => simp
    | some r => simp
  keeps := fun l hl => h'.keeps l (h.keeps l hl)
  level := by
    intro d hd hlea
    rcases mem_cons.mp hd with rfl | hd
    · exact h'.keeps _ (h.level d (by simp) hlea)
    · exact h'.level d hd hlea

theorem checkCell_ok (h : checkCell p usable entry s idx = .ok s') : ∃ c area, readCell p usable idx = .ok c ∧
      s' = (s.checkPlace entry idx c.start c.length area usable).checkContents entry idx c.cell := by
  obtain ⟨pageType,ht,h⟩ := bind_ok h
  obtain ⟨max,hmax,h⟩ := bind_ok h
  obtain ⟨min,hmin,h⟩ := bind_ok h
  obtain ⟨⟨start,length⟩,hre,h⟩ := bind_ok h
  obtain ⟨area,-,h⟩ := bind_ok h
  obtain ⟨limit,-,h⟩ := bind_ok h
  obtain ⟨cell,hcell,h⟩ := bind_ok h
  refine ⟨⟨start,length,cell⟩,area,?_,(Except.ok.inj h).symm⟩
  simp [readCell,ht,hmax,hmin,hre,hcell,bind,Except.bind]

theorem foldlM_checkCell (h : idxs.foldlM (checkCell p usable entry) s = .ok s') (he : s'.errors = []) :
    ∃ cs, List.Forall₂ (fun i c => readCell p usable i = .ok c) idxs cs ∧ CellsOk entry usable s s' cs := by
  induction idxs generalizing s with
  | nil =>
    cases h
    exact ⟨[],.nil,.nil he⟩
  | cons i idxs ih =>
    obtain ⟨t,ht,h⟩ := bind_ok h
    obtain ⟨cs,hcs,hok⟩ := ih h
    obtain ⟨c,area,hc,rfl⟩ := checkCell_ok ht
    exact ⟨c :: cs,.cons hc hcs,(checkContents_spec hok.before).cons hok⟩

def freeRange (block : Nat × Nat) : IntegrityCheckCellRange :=
  ⟨block.1, block.1 + block.2, true⟩

theorem checkFreeblocks_ok (h : checkFreeblocks p usable pageIdx fuel pc s = some (.ok s'))
    (he : s'.errors = []) :
    ∃ blocks, freeblocksFrom p fuel pc = some blocks ∧ s'.toIntegrityCheckState = s.toIntegrityCheckState ∧
      s'.ranges = (blocks.map freeRange).reverse ++ s.ranges := by
  induction fuel generalizing pc s with
  | zero =>
    cases pc with
    | zero =>
      cases h
      exact ⟨[],rfl,rfl,rfl⟩
    | succ pc => cases h
  | succ fuel ih =>
    cases pc with
    | zero =>
      cases h
      exact ⟨[],rfl,rfl,rfl⟩
    | succ pc =>
      rw [checkFreeblocks] at h
      cases hbl : readFreeblock p (pc + 1) with
      | error e => simp [hbl] at h
      | ok block =>
        cases hli : sub usable 4 with
        | error e => simp [hbl,hli] at h
        | ok limit =>
          simp only [hbl,hli] at h
          split at h
          · cases h
            simp at he
          · obtain ⟨blocks,hblo,hst,hra⟩ := ih h
            refine ⟨(pc + 1, block.2) :: blocks,?_,hst,?_⟩
            · simp [freeblocksFrom,hbl,hblo,Except.toOption]
            · simp [hra,addRange,freeRange]

end

def IntegrityCheckCellRange.pair (r : IntegrityCheckCellRange) : Nat × Nat :=
  (r.start, r.stop)

variable {ranges : List IntegrityCheckCellRange}

theorem analyzeRanges_spec (hen : ∀ r ∈ ranges, r.start ≤ r.stop)
    (h : (analyzeRanges pageIdx area prevEnd fragmentation ranges).2.2 = []) :
    (∀ r ∈ ranges, prevEnd ≤ r.start ∧ r.stop ≤ (analyzeRanges pageIdx area prevEnd fragmentation ranges).1) ∧
      ranges.Pairwise (fun r r' => r.stop ≤ r'.start) ∧
      prevEnd ≤ (analyzeRanges pageIdx area prevEnd fragmentation ranges).1 := by
  induction ranges generalizing prevEnd fragmentation with
  | nil => simp [analyzeRanges]
  | cons r ranges ih =>
    rw [analyzeRanges] at h ⊢
    split at h
    · cases h
    · next hle =>
      rw [if_neg hle]
      have hr := hen r (by simp)
      obtain ⟨hall,hpa,hlast⟩ := ih (fun r' hr' => hen r' (by simp [hr'])) h
      refine ⟨fun r' hr' => ?_,pairwise_cons.mpr ⟨fun r' hr' => (hall r' hr').1,hpa⟩,by omega⟩
      rcases mem_cons.mp hr' with rfl | hr'
      · exact ⟨by omega,hlast⟩
      · have := hall r' hr'
        omega

theorem analyze_spec (hen : ∀ r ∈ ranges, r.start ≤ r.stop)
    (h : analyze pager pageIdx area expected ranges = .ok []) :
    (ranges.map (·.pair)).Pairwise Apart := by
  obtain ⟨rest,-,h⟩ := bind_ok h
  have her : (analyzeRanges pageIdx area area 0 (pager.heap.pop ranges)).2.2 = [] := by
    have hlist := Except.ok.inj h
    split at hlist
    · simp at hlist
    · exact hlist
  have hpe := pager.heap.perm ranges
  obtain ⟨-,hpa,-⟩ :=
    analyzeRanges_spec (fun r hr => hen r (hpe.mem_iff.mp hr)) her
  have hap : ((pager.heap.pop ranges).map (·.pair)).Pairwise Apart :=
    pairwise_map.mpr (hpa.imp fun h => .inl h)
  exact ((hpe.map _).pairwise_iff fun h => h.symm).mp hap

/-- A page that was checked and found in order, apart from what the check does not look at. -/
structure PageOk (entry : IntegrityCheckPageEntry) (usable : Nat) (s s' : IntegrityCheckState)
    (v : PageView) : Prop where
  stack : s'.pageStack = v.cells.filterMap (childEntry entry ·.cell) ++ s.pageStack
  sorted : v.rowids.Pairwise (· ≤ ·)
  below : ∀ rowid ∈ v.rowids, rowid ≤ entry.maxIntkey
  apart : v.ranges.Pairwise Apart
  inside : ∀ c ∈ v.cells, c.range.2 ≤ usable
  level : isLeaf v.pageType → v.cells ≠ [] → s'.firstLeafLevel = some entry.level

theorem viewPage_some (h : viewPage p usable = some v) :
    ∃ count first, p.pageType = .ok v.pageType ∧ p.cellCount = .ok count ∧
      List.Forall₂ (fun i c => readCell p usable i = .ok c) (List.range count) v.cells ∧
      p.firstFreeblock = .ok first ∧ freeblocksFrom p 65536 first = some v.freeblocks := by
  have toOption {α : Type} {x : Except Fault α} {a : α} (h : x.toOption = some a) : x = .ok a := by
    cases x with
    | error e => cases h
    | ok b =>
      cases h
      rfl
  simp only [viewPage,Option.bind_eq_bind,Option.bind_eq_some_iff] at h
  obtain ⟨t,ht,count,hco,cells,hcells,first,hfirst,blocks,hbl,right,-,h⟩ := h
  cases h
  exact ⟨count,first,toOption ht,toOption hco,mapM_ok (toOption hcells),toOption hfirst,hbl⟩

theorem forall₂_unique {α β : Type} {R : α → β → Prop} (hR : ∀ {a b b'}, R a b → R a b' → b = b')
    {l : List α} {l' l'' : List β} (h : List.Forall₂ R l l') (h' : List.Forall₂ R l l'') : l' = l'' := by
  induction h generalizing l'' with
  | nil =>
    cases h'
    rfl
  | cons hab _ ih =>
    cases h' with
    | cons hab' h' => rw [hR hab hab',ih h']

section
variable {s : IntegrityCheckState}

variable (h : checkPage pager entry s = some (.ok s'))
include h

theorem checkPage_ok : ∃ p count first t t', pager.readPage entry.pageIdx = .ok p ∧ p.cellCount = .ok count ∧
      (List.range count).reverse.foldlM (checkCell p pager.usable entry) ⟨s,entry.maxIntkey,[]⟩ = .ok t ∧
      p.firstFreeblock = .ok first ∧
      checkFreeblocks p pager.usable entry.pageIdx 65536 first t = some (.ok t') ∧
      checkCoverage pager p entry.pageIdx t' = .ok s' := by
  unfold checkPage at h
  split at h
  · cases h
  · next p t first hst =>
    obtain ⟨p',hp,hst⟩ := bind_ok hst
    obtain ⟨t',ht,hst⟩ := bind_ok hst
    obtain ⟨first',hfirst,hst⟩ := bind_ok hst
    cases hst
    obtain ⟨count,hco,ht⟩ := bind_ok ht
    obtain ⟨r,hr,hcov⟩ := Option.map_eq_some_iff.mp h
    obtain ⟨t',rfl,hcov⟩ := bind_ok hcov
    exact ⟨p,count,first,t,t',hp,hco,ht,hfirst,hr,hcov⟩

/-- What a check that reports nothing says about the page as it is viewed. -/
theorem checkPage_spec (he : s'.errors = []) : s.errors = [] ∧ KeepsLevel s s' ∧ s.pageStack ⊆ s'.pageStack ∧
      ∀ v, pager.view entry.pageIdx = some v → PageOk entry pager.usable s s' v := by
  obtain ⟨p,count,first,t,t',hp,hco,hcells,hfirst,hfr,hcov⟩ := checkPage_ok h
  obtain ⟨area,-,hcov⟩ := bind_ok hcov
  obtain ⟨expected,-,hcov⟩ := bind_ok hcov
  obtain ⟨errors,han,hcov⟩ := bind_ok hcov
  cases hcov
  obtain ⟨ht',rfl⟩ := append_eq_nil_iff.mp he
  obtain ⟨blocks,hbl,hst,hfre⟩ := checkFreeblocks_ok hfr ht'
  have ht : t.errors = [] := by rw [← hst]; exact ht'
  obtain ⟨cs,hcs,hok⟩ := foldlM_checkCell hcells ht
  have hle : t'.firstLeafLevel = t.firstLeafLevel := by rw [hst]
  have hsta : t'.pageStack = t.pageStack := by rw [hst]
  refine ⟨hok.before,fun l hl => hle.trans (hok.keeps l hl),?_,fun v hv => ?_⟩
  · rw [hsta,hok.stack]
    exact subset_append_right _ _
  obtain ⟨count',first',htype,hco',hvi,hfirst',hbl'⟩ :=
    viewPage_some (by simpa [Pager.view,hp,Except.toOption] using hv)
  rw [hco] at hco'
  rw [hfirst] at hfirst'
  cases hco'
  cases hfirst'
  rw [hbl] at hbl'
  cases hbl'
  -- the loop goes over the cells from the last to the first
  obtain rfl : cs = v.cells.reverse := forall₂_unique
    (fun h h' => Except.ok.inj (h.symm.trans h')) hcs (List.forall₂_reverse_iff.mpr hvi)
  have hro : v.cells.reverse.filterMap (cellRowid ·.cell) = v.rowids.reverse := by
    rw [filterMap_reverse,PageView.rowids]
  have hra : t'.ranges = (v.freeblocks.map freeRange).reverse ++ v.cells.map cellRange := by
    rw [hfre,hok.ranges,map_reverse,reverse_reverse,append_nil]
  have hpa : (t'.ranges.map (·.pair)).Perm v.ranges := by
    rw [hra,map_append,map_reverse,map_map,map_map]
    exact ((reverse_perm _).append_right _).trans perm_append_comm
  refine ⟨?_,?_,?_,?_,?_,?_⟩
  · exact hsta.trans (by rw [hok.stack,filterMap_reverse,reverse_reverse])
  · have hfa := (pairwise_cons.mp hok.falling).2
    rw [hro,pairwise_reverse] at hfa
    exact hfa
  · intro rowid hr
    exact hok.below rowid (by rw [hro]; exact mem_reverse.mpr hr)
  · refine (hpa.pairwise_iff fun h => h.symm).mp (analyze_spec ?_ han)
    intro r hr
    rw [hra] at hr
    rcases mem_append.mp hr with hr | hr
    · obtain ⟨block,-,rfl⟩ := mem_map.mp (mem_reverse.mp hr)
      exact Nat.le_add_right _ _
    · obtain ⟨c,-,rfl⟩ := mem_map.mp hr
      exact Nat.le_add_right _ _
  · exact fun c hc => hok.inside c (mem_reverse.mpr hc)
  · intro hlea hne
    obtain ⟨c,hc⟩ := exists_mem_of_ne_nil _ hne
    obtain ⟨i,-,hre⟩ := forall₂_right hvi hc
    refine hle.trans (hok.level c (mem_reverse.mpr hc) ?_)
    rw [readCell_kind hre htype]
    exact hlea

end

end OxiSql.Integrity
