import OxiSql.Integrity.PageFacts

namespace OxiSql.Integrity
open Lib Ondisk List Option

def Place.entry (place : Place) : IntegrityCheckPageEntry :=
  ⟨place.page, place.level, place.upper⟩

theorem leftPlaces_entries :
    (leftPlaces place lower cs).map Place.entry = cs.filterMap (childEntry place.entry ·.cell) := by
  induction cs generalizing lower with
  | nil => rfl
  | cons c cs ih =>
    rw [leftPlaces,map_append,ih]
    cases hc : leftChild c.cell <;> simp [childEntry,hc,Place.entry]

section
variable {pager : Pager} {root : Nat}

/-- One step down, by the left pointer of a cell. -/
def LeftStep (pager : Pager) (place child : Place) : Prop :=
  ∃ v, pager.view place.page = some v ∧ child ∈ leftPlaces place place.lower v.cells

theorem Reached.leftSteps (h : Reached pager root place lefts) (hl : lefts = true) :
    Relation.ReflTransGen (LeftStep pager) (rootPlace root) place := by
  induction h with
  | root => exact .refl
  | left _ hv hch ih => exact (ih hl).tail ⟨_,hv,hch⟩
  | right => cases hl

theorem integrityCheck_again (h : integrityCheck pager s = .again s') :
    s' = s ∨ ∃ entry stack, s.pageStack = entry :: stack ∧
      checkPage pager entry { s with pageStack := stack } = some (.ok s') := by
  unfold integrityCheck at h
  split at h
  · cases h
  · next entry stack hst =>
    split at h
    · cases h
      exact .inl rfl
    · cases h
    · next hpage =>
      cases h
      exact .inr ⟨entry,stack,hst,hpage⟩

theorem loop_errors (h : loop (integrityCheck pager) fuel s = some (.ok f)) (hf : f.errors = []) :
    s.errors = [] ∧ KeepsLevel s f := by
  induction fuel generalizing s with
  | zero => cases h
  | succ fuel ih =>
    rw [loop] at h
    split at h
    next s' htu =>
      obtain ⟨he,hke⟩ := ih h
      rcases integrityCheck_again htu with rfl | ⟨entry,stack,-,hpage⟩
      · exact ⟨he,hke⟩
      · obtain ⟨he',hke',-,-⟩ := checkPage_spec hpage he
        exact ⟨he',fun l hl => hke l (hke' l hl)⟩
    next r htu =>
      unfold integrityCheck at htu
      split at htu
      · cases htu
        cases h
        exact ⟨hf,fun _ hl => hl⟩
      · split at htu <;> cases htu
    next => cases h

/-- A place that was looked at on the way from a state to the end. -/
structure Checked (pager : Pager) (s f : IntegrityCheckState) (place : Place) : Prop where
  examined : ∃ t stack, Turns (integrityCheck pager) s t ∧ t.pageStack = place.entry :: stack
  rising : ∀ {v}, pager.view place.page = some v → Rising place v
  apart : ∀ {v}, pager.view place.page = some v → v.ranges.Pairwise Apart
  inside : ∀ {v}, pager.view place.page = some v → ∀ c ∈ v.cells, c.range.2 ≤ pager.usable
  level : ∀ {v}, LeafAt pager place v → v.cells ≠ [] → f.firstLeafLevel = some place.level

theorem Checked.again (h : Checked pager s' f place)
    (htu : integrityCheck pager s = .again s') : Checked pager s f place := by
  obtain ⟨t,stack,htur,ht⟩ := h.examined
  exact ⟨⟨t,stack,.head htu htur,ht⟩,h.rising,h.apart,h.inside,h.level⟩

/-- Whatever is on the stack is looked at before the end, and all that left pointers lead to from
there. -/
theorem checked_of_loop (h : loop (integrityCheck pager) fuel s = some (.ok f)) (hf : f.errors = [])
    (hpl : place.entry ∈ s.pageStack) (hst : Relation.ReflTransGen (LeftStep pager) place place') :
    Checked pager s f place' := by
  induction fuel generalizing s place with
  | zero => cases h
  | succ fuel ih =>
    rw [loop] at h
    split at h
    next s' htu =>
      have hs' := loop_errors h hf
      rcases integrityCheck_again htu with rfl | ⟨entry,stack,hsta,hpage⟩
      · exact (ih h hpl hst).again htu
      · obtain ⟨-,-,hke,hvi⟩ := checkPage_spec hpage hs'.1
        rw [hsta] at hpl
        rcases mem_cons.mp hpl with rfl | hre
        · cases hst using Relation.ReflTransGen.head_induction_on with
          | refl =>
            refine ⟨⟨s,stack,.refl,hsta⟩,fun hv => ?_,fun hv => (hvi _ hv).apart,
              fun hv => (hvi _ hv).inside,fun hv hne => ?_⟩
            · exact ⟨(hvi _ hv).sorted,(hvi _ hv).below⟩
            · exact hs'.2 _ ((hvi _ hv.1).level hv.2 hne)
          | head hste hst =>
            obtain ⟨v,hv,hch⟩ := hste
            refine (ih h ?_ hst).again htu
            rw [(hvi v hv).stack]
            refine mem_append_left _ ?_
            rw [← leftPlaces_entries]
            exact mem_map_of_mem hch
        · exact (ih h (hke hre) hst).again htu
    next r htu =>
      unfold integrityCheck at htu
      split at htu
      · next hnil =>
        rw [hnil] at hpl
        cases hpl
      · split at htu <;> cases htu
    next => cases h

theorem reached_of_turns (hdr : Driven pager root f) (hf : f.errors = [])
    (hre : ∀ {place}, Reached pager root place true → ∃ v, pager.view place.page = some v)
    (htu : Turns (integrityCheck pager) (.new root) s) :
    ∀ entry ∈ s.pageStack, ∃ place, Reached pager root place true ∧ place.entry = entry := by
  induction htu with
  | refl =>
    intro entry hen
    obtain rfl := mem_singleton.mp hen
    exact ⟨rootPlace root,.root,rfl⟩
  | tail htu htur ih =>
    obtain ⟨fuel,hend⟩ := hdr.after_turns (htu.tail htur)
    rcases integrityCheck_again htur with rfl | ⟨top,stack,hst,hpage⟩
    · exact ih
    · obtain ⟨-,-,-,hvi⟩ := checkPage_spec hpage (loop_errors hend hf).1
      obtain ⟨place,hpl,rfl⟩ := ih top (by rw [hst]; simp)
      obtain ⟨v,hv⟩ := hre hpl
      intro entry hen
      rw [(hvi v hv).stack,← leftPlaces_entries] at hen
      rcases mem_append.mp hen with hen | hen
      · obtain ⟨child,hch,rfl⟩ := mem_map.mp hen
        exact ⟨child,hpl.left hv hch,rfl⟩
      · exact ih entry (by rw [hst]; exact mem_cons_of_mem _ hen)

theorem Driven.checked (hdr : Driven pager root f) (hf : f.errors = [])
    (h : Reached pager root place true) : Checked pager (.new root) f place := by
  obtain ⟨fuel,hend⟩ := hdr
  exact checked_of_loop hend hf (mem_singleton.mpr rfl) (h.leftSteps rfl)

/-- Rowids in rising order, above one bound and up to another. -/
structure Between (lower : Option Int64) (upper : Int64) (rowids : List Int64) : Prop where
  sorted : rowids.Pairwise (· < ·)
  above : ∀ rowid ∈ rowids, ∀ l ∈ lower, l < rowid
  below : ∀ rowid ∈ rowids, rowid ≤ upper

theorem Between.nil (lower : Option Int64) (upper : Int64) : Between lower upper [] :=
  ⟨.nil,by simp,by simp⟩

theorem Between.append (ha : Between lower k as) (hb : Between (some k) upper bs)
    (hk : ∀ l ∈ lower, l ≤ k) (hu : k ≤ upper) : Between lower upper (as ++ bs) where
  sorted := by
    refine pairwise_append.mpr ⟨ha.sorted,hb.sorted,fun a hma b hmb => ?_⟩
    exact Int64.lt_of_le_of_lt (ha.below a hma) (hb.above b hmb k rfl)
  above r hr l hl := by
    rcases mem_append.mp hr with hr | hr
    · exact ha.above r hr l hl
    · exact Int64.lt_of_le_of_lt (hk l hl) (hb.above r hr k rfl)
  below r hr := by
    rcases mem_append.mp hr with hr | hr
    · exact Int64.le_trans (ha.below r hr) hu
    · exact hb.below r hr

theorem Between.of_leaf (hr : Rising place v) (ha : Above place v)
    (hle : isLeaf v.pageType) : Between place.lower place.upper v.rowids := by
  obtain ⟨hne,hlo⟩ := ha.rows hle
  refine ⟨(hr.sorted.and hne).imp fun h => Int64.lt_of_le_of_ne h.1 h.2,fun r hr l hl => ?_,hr.below⟩
  exact Int64.lt_of_le_of_ne (ha.keys r hr l hl) (hlo r hr l hl)

theorem view_kind (hv : pager.view page = some v) (hc : c ∈ v.cells) : kindOf c.cell = v.pageType := by
  obtain ⟨p,-,hp⟩ := bind_eq_some_iff.mp hv
  obtain ⟨count,first,htype,-,hcells,-,-⟩ := viewPage_some hp
  obtain ⟨i,-,hre⟩ := forall₂_right hcells hc
  exact readCell_kind hre htype

theorem between_cells (hki : ∀ c ∈ cs, kindOf c.cell = .tableInterior)
    (hso : (cs.filterMap (cellRowid ·.cell)).Pairwise (· ≤ ·))
    (hab : ∀ k ∈ cs.filterMap (cellRowid ·.cell), ∀ l ∈ lower, l ≤ k)
    (hbe : ∀ k ∈ cs.filterMap (cellRowid ·.cell), k ≤ place.upper) (hch : ∀ child ∈ leftPlaces place lower cs,
      Between child.lower child.upper (rowidsBelow pager depth child.page))
    (hri : Between (lastBound lower cs) place.upper rights) :
    Between lower place.upper
      (cs.flatMap (fun c => ((leftChild c.cell).map (rowidsBelow pager depth)).getD []) ++ rights) := by
  induction cs generalizing lower with
  | nil => exact hri
  | cons c cs ih =>
    have hc := hki c (by simp)
    cases hcell : c.cell with
    | tableLeaf | indexInterior | indexLeaf => simp [hcell,kindOf] at hc
    | tableInterior child k =>
      have hk : cellRowid c.cell = some k := by rw [hcell]; rfl
      have hl : leftChild c.cell = some child.toNat := by rw [hcell]; rfl
      rw [filterMap_cons,hk] at hso hab hbe
      obtain ⟨hfirst,hso⟩ := pairwise_cons.mp hso
      have hbo : boundAfter lower c.cell = some k := by simp [boundAfter,hk]
      have hre : Between (some k) place.upper (cs.flatMap
          (fun c => ((leftChild c.cell).map (rowidsBelow pager depth)).getD []) ++ rights) := by
        refine ih (fun d hd => hki d (by simp [hd])) hso ?_ (fun d hd => hbe d (by simp [hd])) ?_ ?_
        · intro d hd l hl'
          cases hl'
          exact hfirst d hd
        · intro p hp
          refine hch p ?_
          rw [leftPlaces,hbo]
          exact mem_append_right _ hp
        · rw [lastBound,foldl_cons,hbo] at hri
          exact hri
      have hle : Between lower k (rowidsBelow pager depth child.toNat) :=
        hch ⟨child.toNat,place.level + 1,lower,k⟩ (by simp [leftPlaces,hl,hk])
      rw [flatMap_cons,hl,append_assoc]
      exact hle.append hre (hab k (by simp)) (hbe k (by simp))

theorem rightmost_isSome (hv : pager.view page = some v) (hle : ¬ isLeaf v.pageType) :
    ∃ child, v.rightmost = some child := by
  obtain ⟨p,-,hp⟩ := bind_eq_some_iff.mp hv
  simp only [viewPage,bind_eq_bind,bind_eq_some_iff] at hp
  obtain ⟨t,ht,count,-,cells,-,first,-,blocks,-,right,hri,hp⟩ := hp
  cases hp
  cases hpt : p.pageType with
  | error e => simp [hpt,Except.toOption] at ht
  | ok t' =>
    obtain rfl : t' = t := by simpa [hpt,Except.toOption] using ht
    cases hr : readU32At p.buffer (p.offset + 8) with
    | error e => simp [rightmostPointer,hpt,hr,hle,bind,Except.bind,Except.toOption] at hri
    | ok child =>
      refine ⟨child.toNat,?_⟩
      simpa [rightmostPointer,hpt,hr,hle,bind,Except.bind,Except.toOption] using hri.symm

theorem rowidsBelow_between (hta : TableTree pager root)
    (hall : ∀ {place lefts v}, Reached pager root place lefts → pager.view place.page = some v →
      Rising place v ∧ Above place v) (h : Reached pager root place lefts) :
    Between place.lower place.upper (rowidsBelow pager depth place.page) := by
  induction depth generalizing place lefts with
  | zero => exact .nil _ _
  | succ depth ih =>
    cases hv : pager.view place.page with
    | none =>
      simp only [rowidsBelow,hv]
      exact .nil _ _
    | some v =>
      obtain ⟨hri,hab⟩ := hall h hv
      simp only [rowidsBelow,hv]
      split
      next hle => exact .of_leaf hri hab hle
      next hle =>
        obtain ⟨child,hch⟩ := rightmost_isSome hv hle
        rw [hch]
        have htype : v.pageType = .tableInterior := by
          rcases hta h hv with ht | ht
          · exact ht
          · rw [ht] at hle
            exact absurd rfl hle
        refine between_cells (fun c hc => (view_kind hv hc).trans htype) hri.sorted hab.keys
          hri.below (fun p hp => ih (h.left hv hp)) ?_
        exact ih (h.right hv hch)

/-- Of a tree that the check reports nothing about, the claim that it is sound says what the check
has not looked at. -/
theorem sound_iff_unchecked (hdriven : Driven pager root f) (hf : f.errors = []) :
    Sound pager root ↔ Unchecked pager root := by
  constructor
  · intro hs
    have hre : ∀ {place lefts}, Reached pager root place lefts →
        ∃ v, pager.view place.page = some v := fun h => by
      obtain ⟨v,hv,-⟩ := hs.fits h
      exact ⟨v,hv⟩
    refine ⟨fun h => ?_,fun h h' hl hl' _ => hs.depth h h' hl hl',hre,fun h hv block hbl => ?_,
      fun ht _ _ h hv => (hs.bounded ht h hv).1,fun ht _ _ _ h hv => (hs.bounded ht h hv).2⟩
    · obtain ⟨s,entry,stack,htu,hst,hpage⟩ := hs.examined h
      obtain ⟨place',hpl',hen⟩ :=
        reached_of_turns hdriven hf hre htu entry (by rw [hst]; simp)
      exact ⟨place',hpl',by rw [← hpage,← hen]; rfl⟩
    · obtain ⟨v',hv',hfits⟩ := hs.fits h
      rw [hv] at hv'
      cases hv'
      exact hfits.inside _ (mem_append_right _ (mem_map_of_mem hbl))
  · intro hu
    have hbo : TableTree pager root → ∀ {place lefts v}, Reached pager root place lefts →
        pager.view place.page = some v → Rising place v ∧ Above place v := by
      intro ht place lefts v h hv
      refine ⟨?_,hu.above ht h hv⟩
      cases lefts with
      | true => exact (hdriven.checked hf h).rising hv
      | false => exact hu.rising ht h hv
    refine ⟨fun h => ?_,fun h h' hl hl' => ?_,fun h => ?_,hbo,fun ht depth => ?_⟩
    · obtain ⟨place',hpl',hpage⟩ := hu.reached h
      obtain ⟨t,stack,htu,hst⟩ := (hdriven.checked hf hpl').examined
      exact ⟨t,place'.entry,stack,htu,hst,hpage⟩
    · rename_i place place' v v' lefts lefts'
      by_cases hun : lefts = false ∨ v.cells = []
      · exact hu.depth h h' hl hl' hun
      · by_cases hun' : lefts' = false ∨ v'.cells = []
        · exact (hu.depth h' h hl' hl hun').symm
        · -- both were looked at, and found at the level of the first leaf
          obtain ⟨hle,hne⟩ := not_or.mp hun
          obtain ⟨hle',hne'⟩ := not_or.mp hun'
          obtain rfl : lefts = true := by simpa using hle
          obtain rfl : lefts' = true := by simpa using hle'
          have hlev := (hdriven.checked hf h).level hl hne
          rw [(hdriven.checked hf h').level hl' hne'] at hlev
          exact (some.inj hlev).symm
    · obtain ⟨v,hv⟩ := hu.readable h
      obtain ⟨place',hpl',hpage⟩ := hu.reached h
      have hch := hdriven.checked hf hpl'
      have hv' : pager.view place'.page = some v := by rw [hpage]; exact hv
      refine ⟨v,hv,hch.apart hv',fun r hr => ?_⟩
      rcases mem_append.mp hr with hr | hr
      · obtain ⟨c,hc,rfl⟩ := mem_map.mp hr
        exact hch.inside hv' c hc
      · obtain ⟨block,hbl,rfl⟩ := mem_map.mp hr
        exact hu.blocks h hv block hbl
    · exact (rowidsBelow_between ht (hbo ht) .root).sorted

end

/-- A heap that keeps ranges with the same start in the order in which they came. -/
def stableHeap : HeapOrder where
  pop ranges := ranges.insertionSort fun r r' => r.start ≤ r'.start
  perm ranges := perm_insertionSort _ ranges
  sorted ranges := by
    have : Std.Total fun r r' : IntegrityCheckCellRange => r.start ≤ r'.start :=
      ⟨fun _ _ => Nat.le_total _ _⟩
    have : IsTrans IntegrityCheckCellRange fun r r' => r.start ≤ r'.start :=
      ⟨fun _ _ _ => Nat.le_trans⟩
    exact List.pairwise_insertionSort _ ranges

/-- A page of 512 bytes: its header and pointers, and the cells at its end. -/
def pageOf (front cells : List UInt8) : PageContent :=
  ⟨0, front ++ (List.replicate (512 - front.length - cells.length) 0 ++ cells)⟩

/-- Page 3 is a leaf with the rows 4 and 5. -/
def twoRows : Pager :=
  ⟨fun _ => .ok (pageOf [13, 0, 0, 0, 2, 1, 248, 0, 1, 248, 1, 252] [2, 4, 0, 0, 2, 5, 0, 0]), 512,
    true, stableHeap⟩

def twoRowsView : PageView :=
  ⟨.tableLeaf, [⟨504, 4, .tableLeaf 4 [0, 0] 2 none⟩, ⟨508, 4, .tableLeaf 5 [0, 0] 2 none⟩], [], none⟩

/-- The root is page 2, with the key 5 between page 3 and page 4. On page 3 are two rows with the
rowid 5, and page 4 is no page of a b-tree. -/
def gapPages : Nat → Except Fault PageContent
  | 2 => .ok (pageOf [5, 0, 0, 0, 1, 1, 251, 0, 0, 0, 0, 4, 1, 251] [0, 0, 0, 3, 5])
  | 3 => .ok (pageOf [13, 0, 0, 0, 2, 1, 248, 0, 1, 248, 1, 252] [2, 5, 0, 0, 2, 5, 0, 0])
  | _ => .ok (pageOf [] [])

def gapPager : Pager :=
  ⟨gapPages, 512, true, stableHeap⟩

theorem twoRows_sound : Driven twoRows 3 ⟨[],some 0,[]⟩ ∧ Sound twoRows 3 ∧
    (Sound gapPager 2 ↔ Unchecked gapPager 2) := by
  have hdr : Driven twoRows 3 ⟨[],some 0,[]⟩ := ⟨2,by decide +kernel⟩
  have hro : twoRows.view 3 = some twoRowsView := by decide +kernel
  have hvi : ∀ page, twoRows.view page = some twoRowsView := fun _ => hro
  have hre : ∀ {place lefts}, Reached twoRows 3 place lefts → place = rootPlace 3 ∧ lefts = true := by
    intro place lefts h
    induction h with
    | root => exact ⟨rfl,rfl⟩
    | left _ hv hch _ =>
      rw [hvi] at hv
      cases hv
      simp [twoRowsView,leftPlaces,leftChild] at hch
    | right _ hv hch _ =>
      rw [hvi] at hv
      cases hv
      cases hch
  have hgap : Driven gapPager 2 ⟨[],some 1,[]⟩ := ⟨3,by decide +kernel⟩
  refine ⟨hdr,(sound_iff_unchecked hdr rfl).mpr ⟨fun h => ?_,fun h h' _ _ _ => ?_,fun _ => ⟨_,hvi _⟩,
    fun _ hv => ?_,fun _ _ _ h _ => ?_,fun _ _ _ _ h hv => ?_⟩,sound_iff_unchecked hgap rfl⟩
  · exact ⟨_,.root,by rw [(hre h).1]⟩
  · rw [(hre h).1,(hre h').1]
  · rw [hvi] at hv
    cases hv
    simp [twoRowsView]
  · exact absurd (hre h).2 (by decide)
  · rw [hvi] at hv
    cases hv
    rw [(hre h).1]
    exact ⟨by simp [rootPlace],fun _ => ⟨by decide,by simp [rootPlace]⟩⟩

/-- Nothing is reported of a rightmost child that is no page, nor of two rows with one rowid. -/
theorem gaps_not_reported : Driven gapPager 2 ⟨[], some 1, []⟩ ∧ rowidsBelow gapPager 2 2 = [5, 5] ∧
    ¬ Sound gapPager 2 := by
  refine ⟨⟨3,by decide +kernel⟩,by decide +kernel,fun hs => ?_⟩
  have hri : (gapPager.view 2).map (·.rightmost) = some (some 4) := by decide +kernel
  obtain ⟨v,hv,hch⟩ := map_eq_some_iff.mp hri
  obtain ⟨w,hw,-⟩ := hs.fits (Reached.right .root hv hch)
  cases hw

end OxiSql.Integrity
