import OxiSql.Btree.Traversal

namespace OxiSql.Btree
open Lib List PageContent

namespace Cursor
variable {κ : Type} {pages : Pages κ} {c : Cursor}

/-- The pages a climb stops at. -/
def above (parents : List (Nat × Int)) : List (Nat × Int) :=
  parents.dropWhile fun frame => frame.2 < 0

theorem above_cons (hi : 0 ≤ idx) : above ((page,idx) :: parents) = (page,idx) :: parents := by
  simp [above,Int.not_lt.mpr hi]

theorem above_cons_neg (hi : idx < 0) : above ((page,idx) :: parents) = above parents := by
  simp [above,hi]

def LeavesBack (pages : Pages κ) (c : Cursor) (parents : List (Nat × Int)) (acc : List κ)
    (s : Cursor × List κ) : Prop :=
  (above parents = [] → Ends (collect pages (getPrevRecord pages)) s (.ok acc)) ∧
    (above parents ≠ [] →
      Turns (collect pages (getPrevRecord pages)) s (c.moved (above parents) true, acc))

theorem LeavesBack.of_turns (ht : Turns (collect pages (getPrevRecord pages)) s s')
    (hl : LeavesBack pages c parents acc s') : LeavesBack pages c parents acc s :=
  ⟨fun h => (hl.1 h).of_turns ht,fun h => ht.trans (hl.2 h)⟩

variable {stack : List (Nat × Int)}

/-- A climb from a page that is done goes past the pages it was the first child of. -/
theorem climb_neg (hi : idx < 0) : (above parents = [] →
      ∃ c', (c.moved stack g).climb ((page,idx) :: parents) = .done (false,c')) ∧
    (above parents ≠ [] →
      (c.moved stack g).climb ((page,idx) :: parents) = .again (c.moved (above parents) true)) := by
  induction parents generalizing page idx g with
  | nil =>
    refine ⟨fun _ => ?_,fun hne => absurd rfl hne⟩
    rw [climb,if_neg (by omega)]
    exact ⟨_,rfl⟩
  | cons frame parents ih =>
    obtain ⟨page',idx'⟩ := frame
    have hcl : (c.moved stack g).climb ((page, idx) :: (page', idx') :: parents) =
        (c.moved stack true).climb ((page', idx') :: parents) := by
      rw [climb,if_neg (by omega)]
      rfl
    rw [hcl]
    by_cases hi' : 0 ≤ idx'
    · rw [above_cons hi']
      simp [climb,hi',moved,setStack]
    · rw [above_cons_neg (by omega)]
      exact ih (by omega)

theorem LeavesBack.of_climb (hi : idx < 0)
    (hm : getPrevRecord pages s = (c.moved stack g).climb ((page,idx) :: parents)) :
    LeavesBack pages c parents acc (s,acc) := by
  refine ⟨fun h => ?_,fun h => ?_⟩
  · obtain ⟨c',hc'⟩ := (climb_neg hi).1 h
    exact .done (collect_end (hm.trans hc'))
  · exact .one (collect_again (hm.trans ((climb_neg hi).2 h)))

/-- The cell index stands for position `i`: it is `i`, or it is past the cells and so is `i`. -/
def Position (contents : PageContent κ) (idx : Int) (i : Nat) : Prop :=
  idx = i ∧ i < contents.cellCount ∨ contents.cellCount ≤ idx ∧ i = contents.cellCount

theorem getPrevRecord_back (hp : pages page = .ok contents) (hi : Position contents idx i)
    (hmax : contents.isLeaf ∨ idx ≠ i32Max ∨ g = true) (hback : i = contents.cellCount ∨
      ¬ (contents.isIndex ∧ g) ∧ ¬ (contents.isIndex ∧ ¬ contents.isLeaf)) :
    getPrevRecord pages (c.moved ((page,idx) :: parents) g) =
      (c.moved ((page,idx) :: parents) g).landOn contents page (i - 1) parents := by
  have hst : (c.moved ((page, idx) :: parents) g).stepBack contents page idx parents =
      (c.moved ((page, idx) :: parents) g).landOn contents page (i - 1) parents := by
    unfold stepBack
    rcases hi with ⟨rfl,hlt⟩ | ⟨hge,rfl⟩
    · obtain ⟨hup,hin⟩ := hback.resolve_left (by omega)
      rw [if_neg (by omega),if_pos (by omega),goingUpwards_moved,if_neg hup,if_neg hin]
    · rw [if_pos hge]
  rw [getPrevRecord,onTop_moved hp]
  split
  · rename_i hm
    rcases hmax with hle | hne | rfl
    · cases contents with
      | leaf kind cells => exact hst
      | interior => cases hle
    · exact absurd hm.1 hne
    · exact absurd rfl hm.2
  · exact hst

theorem landOn_neg : (c.moved stack g).landOn contents page ((0 : Nat) - 1) parents =
      (c.moved ((page,-1) :: parents) g).climb ((page,-1) :: parents) := rfl

theorem landOn_cell (hcell : contents.cellGet i = some cell) :
    (c.moved stack g).landOn contents page ((i + 1 : Nat) - 1) parents =
      (c.moved ((page,i) :: parents) g).visitPrev page i parents cell := by
  have hidx : ((i + 1 : Nat) : Int) - 1 = i := by omega
  rw [hidx,landOn]
  simp only [Int.toNat_natCast,hcell]
  rfl

theorem getPrevRecord_leaf (hp : pages page = .ok (.leaf kind cells))
    (hi : Position (.leaf kind cells) idx i) (hg : Downwards kind g) :
    getPrevRecord pages (c.moved ((page,idx) :: parents) g) =
      (c.moved ((page,idx) :: parents) g).landOn (.leaf kind cells) page (i - 1) parents := by
  refine getPrevRecord_back hp hi (.inl rfl) (.inr ?_)
  cases kind with
  | table => simp [isIndex]
  | index => simp [hg rfl,isLeaf]

theorem leavesBack_leaf (acc : List κ) (hp : pages page = .ok (.leaf kind (pre ++ post)))
    (hi : Position (.leaf kind (pre ++ post)) idx pre.length) (hg : Downwards kind g) :
    LeavesBack pages c parents (acc ++ pre.reverse) (c.moved ((page,idx) :: parents) g,acc) := by
  induction pre using List.reverseRecOn generalizing post idx acc with
  | nil =>
    simp only [reverse_nil,append_nil]
    exact .of_climb (by decide) ((getPrevRecord_leaf hp hi hg).trans landOn_neg)
  | append_singleton pre key ih =>
    have hp' : pages page = .ok (.leaf kind (pre ++ key :: post)) := by simpa using hp
    have hcell : ∃ cell, (leaf kind (pre ++ [key] ++ post)).cellGet pre.length = some cell ∧
        (c.moved ((page, pre.length) :: parents) g).visitPrev page pre.length parents cell =
          .done (true, c.moved ((page, pre.length) :: parents) g) := by
      cases kind with
      | table => exact ⟨.tableLeafCell key,by simp [cellGet],rfl⟩
      | index => exact ⟨.indexLeafCell key,by simp [cellGet],rfl⟩
    obtain ⟨cell,hget,hvi⟩ := hcell
    have htu : getPrevRecord pages (c.moved ((page, idx) :: parents) g) =
        .done (true, c.moved ((page, pre.length) :: parents) g) := by
      rw [getPrevRecord_leaf hp hi hg,length_append,length_singleton,landOn_cell hget,hvi]
    have hre := ih (acc ++ [key]) hp' (.inl ⟨rfl,by simp [cellCount]⟩)
    refine .of_turns (.one (collect_record htu (current_leaf hp'))) ?_
    simpa using hre

def indexOnly (kind : Kind) (keys : List κ) : List κ :=
  match kind with
  | .table => []
  | .index => keys

/-- What a scan that comes down to a page on its way back sees below it, in order. In a table it
does not look under the rightmost pointer, because it still takes itself to be going upwards. -/
def seenBelow (pages : Pages κ) : Nat → Nat → List κ
  | 0, page => entries pages 0 page
  | h + 1, page =>
    match pages page with
    | .ok (.interior kind cells right) =>
      cells.flatMap (fun cell => seenBelow pages h cell.1 ++ divider kind cell.2) ++
        indexOnly kind (seenBelow pages h right)
    | _ => []

variable {cells : List (Nat × κ)}

theorem seenBelow_interior (hp : pages page = .ok (.interior kind cells right)) : seenBelow pages (h + 1) page =
      cells.flatMap (fun cell => seenBelow pages h cell.1 ++ divider kind cell.2) ++
        indexOnly kind (seenBelow pages h right) := by
  simp [seenBelow,hp]

/-- What a child does to a scan that goes backwards. -/
abbrev ChildScanBack (pages : Pages κ) (kind : Kind) (h : Nat) (c : Cursor) : Prop :=
  ∀ (page : Nat) (parents : List (Nat × Int)) (acc : List κ),
    Shape pages kind h page → parents.length + h < btcursorMaxDepth →
    LeavesBack pages c parents (acc ++ (seenBelow pages h page).reverse)
      (c.moved ((page, i32Max) :: parents) (kind = .table), acc)

theorem leavesBack_table (acc : List κ) (hp : pages page = .ok (.interior .table (pre ++ post) right))
    (hi : Position (.interior .table (pre ++ post) right) idx pre.length)
    (hch : ChildScanBack pages .table h c) (hs : ∀ cell ∈ pre, Shape pages .table h cell.1)
    (hl : parents.length + 1 + h < btcursorMaxDepth) : LeavesBack pages c parents
      (acc ++ (pre.flatMap fun cell => seenBelow pages h cell.1 ++ divider .table cell.2).reverse)
      (c.moved ((page,idx) :: parents) true,acc) := by
  have htu : getPrevRecord pages (c.moved ((page, idx) :: parents) true) =
      (c.moved ((page, idx) :: parents) true).landOn (.interior .table (pre ++ post) right) page
        (pre.length - 1) parents :=
    getPrevRecord_back hp hi (.inr (.inr rfl)) (.inr (by simp [isIndex]))
  induction pre using List.reverseRecOn generalizing post idx acc with
  | nil =>
    simp only [flatMap_nil,reverse_nil,append_nil]
    exact .of_climb (by decide) (htu.trans landOn_neg)
  | append_singleton pre cell ih =>
    have hget : (interior .table (pre ++ [cell] ++ post) right).cellGet pre.length =
        some (.tableInteriorCell cell.1 cell.2) := by
      simp [cellGet]
    have hdown : getPrevRecord pages (c.moved ((page, idx) :: parents) true) =
        .again (c.moved ((cell.1, i32Max) :: (page, pre.length) :: parents) true) := by
      rw [htu,length_append,length_singleton,landOn_cell hget]
      exact push_moved (by simp only [length_cons]; omega)
    have hback := (hch cell.1 ((page, pre.length) :: parents) acc (hs cell (by simp))
      (by simp only [length_cons]; omega)).2 (by simp [above_cons])
    rw [above_cons (by omega)] at hback
    have hp' : pages page = .ok (.interior .table (pre ++ cell :: post) right) := by simpa using hp
    have hi' : Position (.interior .table (pre ++ cell :: post) right) pre.length pre.length :=
      .inl ⟨rfl,by simp [cellCount]⟩
    have hre := ih (acc ++ (seenBelow pages h cell.1).reverse) hp' hi' (fun c hc => hs c (by simp [hc]))
      (getPrevRecord_back hp' hi' (.inr (.inr rfl)) (.inr (by simp [isIndex])))
    refine .of_turns (.head (collect_again hdown) hback) ?_
    simpa [divider] using hre

theorem getPrevRecord_index (hp : pages page = .ok (.interior .index (pre ++ cell :: post) right))
    (hco : (pre ++ cell :: post).length ≤ maxCellCount) :
    getPrevRecord pages (c.moved ((page,pre.length) :: parents) false) =
      (c.moved ((page,(pre.length : Int) - 1) :: parents) false).push cell.1 i32Max := by
  have hmax : ¬ ((pre.length : Int) = i32Max ∧ ¬ false = true) := by
    simp only [length_append,maxCellCount] at hco
    simp only [i32Max]
    omega
  have hlt : ¬ (((pre ++ cell :: post).length : Nat) : Int) ≤ pre.length := by
    simp only [length_append,length_cons]
    omega
  have hget : (interior .index (pre ++ cell :: post) right).cellGet pre.length =
      some (.indexInteriorCell cell.1 cell.2) := by
    simp [cellGet]
  rw [getPrevRecord,onTop_moved hp,goingUpwards_moved,if_neg hmax,stepBack,cellCount,if_neg hlt,if_pos (by omega),
    if_neg (by simp),if_pos (by simp [isIndex,isLeaf]),landOn,Int.toNat_natCast,hget]
  simp [visitPrev]

theorem getPrevRecord_divider (hp : pages page = .ok (.interior .index cells right)) (hi : i < cells.length) :
    getPrevRecord pages (c.moved ((page,i) :: parents) true) =
      .done (true,c.moved ((page,i) :: parents) false) := by
  rw [getPrevRecord,onTop_moved hp,if_neg (by simp),stepBack,cellCount,if_neg (by omega)]
  rfl

theorem leavesBack_index (acc : List κ) (hp : pages page = .ok (.interior .index (pre ++ cell :: post) right))
    (hco : (pre ++ cell :: post).length ≤ maxCellCount) (hch : ChildScanBack pages .index h c)
    (hs : ∀ cell' ∈ pre ++ [cell], Shape pages .index h cell'.1)
    (hl : parents.length + 1 + h < btcursorMaxDepth) : LeavesBack pages c parents
      (acc ++ ((pre.flatMap fun cell => seenBelow pages h cell.1 ++ divider .index cell.2) ++
        seenBelow pages h cell.1).reverse)
      (c.moved ((page,pre.length) :: parents) false,acc) := by
  induction pre using List.reverseRecOn generalizing cell post acc with
  | nil =>
    have hback := hch cell.1 ((page, -1) :: parents) acc (hs cell (by simp))
      (by simp only [length_cons]; omega)
    have hdown : getPrevRecord pages (c.moved ((page, 0) :: parents) false) =
        .again (c.moved ((cell.1, i32Max) :: (page, -1) :: parents) false) :=
      (getPrevRecord_index hp hco).trans (push_moved (by simp only [length_cons]; omega))
    rw [LeavesBack,above_cons_neg (by decide)] at hback
    exact .of_turns (.one (collect_again hdown)) (by simpa [LeavesBack] using hback)
  | append_singleton pre cell' ih =>
    have hp' : pages page = .ok (.interior .index (pre ++ cell' :: cell :: post) right) := by
      simpa using hp
    have hback := (hch cell.1 ((page, pre.length) :: parents) acc (hs cell (by simp))
      (by simp only [length_cons]; omega)).2 (by simp [above_cons])
    have hdown : getPrevRecord pages (c.moved ((page, (pre ++ [cell']).length) :: parents) false) =
        .again (c.moved ((cell.1, i32Max) :: (page, pre.length) :: parents) false) := by
      rw [getPrevRecord_index hp hco,push_moved (by simp only [length_cons]; omega)]
      simp
    have hst : collect pages (getPrevRecord pages)
        (c.moved ((page, pre.length) :: parents) true, acc ++ (seenBelow pages h cell.1).reverse) =
        .again (c.moved ((page, pre.length) :: parents) false,
          acc ++ (seenBelow pages h cell.1).reverse ++ [cell'.2]) :=
      collect_record (getPrevRecord_divider hp' (by simp)) (current_divider hp')
    have hre := ih (acc ++ (seenBelow pages h cell.1).reverse ++ [cell'.2]) hp'
      (by simpa using hco) (fun c hc => hs c (mem_append_left _ hc))
    refine .of_turns (.head (collect_again hdown) (hback.trans (.single hst))) ?_
    simpa [divider] using hre

theorem leavesBack_cells
    (hp : pages page = .ok (.interior kind cells right)) (hco : cells.length ≤ maxCellCount)
    (hi : (cells.length : Int) ≤ idx) (hch : ChildScanBack pages kind h c)
    (hs : ∀ cell ∈ cells, Shape pages kind h cell.1) (hl : parents.length + 1 + h < btcursorMaxDepth) :
    LeavesBack pages c parents
      (acc ++ (cells.flatMap fun cell => seenBelow pages h cell.1 ++ divider kind cell.2).reverse)
      (c.moved ((page,idx) :: parents) true,acc) := by
  have hpos : Position (.interior kind cells right) idx cells.length := .inr ⟨hi,rfl⟩
  cases kind with
  | table =>
    have hp' : pages page = .ok (.interior .table (cells ++ []) right) := by simpa using hp
    exact leavesBack_table acc hp' (by simpa using hpos) hch hs hl
  | index =>
    have htu : getPrevRecord pages (c.moved ((page, idx) :: parents) true) =
        (c.moved ((page, idx) :: parents) true).landOn (.interior .index cells right) page
          (cells.length - 1) parents :=
      getPrevRecord_back hp hpos (.inr (.inr rfl)) (.inl rfl)
    rcases eq_nil_or_concat' cells with rfl | ⟨pre,cell,rfl⟩
    · simp only [flatMap_nil,reverse_nil,append_nil]
      exact .of_climb (by decide) (htu.trans landOn_neg)
    · have hget : (interior .index (pre ++ [cell]) right).cellGet pre.length =
          some (.indexInteriorCell cell.1 cell.2) := by
        simp [cellGet]
      have hst : getPrevRecord pages (c.moved ((page, idx) :: parents) true) =
          .done (true, c.moved ((page, pre.length) :: parents) false) := by
        rw [htu,length_append,length_singleton,landOn_cell hget]
        rfl
      have hre := leavesBack_index (acc ++ [cell.2]) hp hco hch hs hl
      refine .of_turns (.one (collect_record hst (current_divider hp))) ?_
      simpa [divider] using hre

theorem leavesBack_subtree : ChildScanBack pages kind h c := by
  induction h with
  | zero =>
    intro page parents acc hs hl
    obtain ⟨cells,hp,hco⟩ := hs
    rw [seenBelow,entries_leaf hp]
    have hp' : pages page = .ok (.leaf kind (cells ++ [])) := by simpa using hp
    refine leavesBack_leaf acc hp' (.inr ⟨?_,by simp [cellCount]⟩) ?_
    · simp only [append_nil,cellCount,i32Max]
      simp only [maxCellCount] at hco
      omega
    · rintro rfl
      rfl
  | succ h ih =>
    intro page parents acc hs hl
    obtain ⟨cells,right,hp,hco,hcells,hri⟩ := hs
    have hmax : (cells.length : Int) ≤ i32Max := by
      simp only [maxCellCount] at hco
      simp only [i32Max]
      omega
    rw [seenBelow_interior hp]
    cases kind with
    | table =>
      simp only [indexOnly,append_nil]
      exact leavesBack_cells hp hco hmax ih hcells (by omega)
    | index =>
      have hdown : getPrevRecord pages (c.moved ((page, i32Max) :: parents) false) =
          .again (c.moved ((right, i32Max) :: (page, i32Max) :: parents) false) := by
        rw [getPrevRecord,onTop_moved hp]
        exact push_moved (by simp only [length_cons]; omega)
      have hback := (ih right ((page, i32Max) :: parents) acc hri
        (by simp only [length_cons]; omega)).2 (by simp [above_cons,i32Max])
      rw [above_cons (by decide)] at hback
      have hre : LeavesBack pages c parents _ (c.moved ((page, i32Max) :: parents) true,
          acc ++ (seenBelow pages h right).reverse) :=
        leavesBack_cells hp hco hmax ih hcells (by omega)
      refine .of_turns (.head (collect_again hdown) hback) ?_
      simpa [indexOnly] using hre

/-- What a scan backwards sees below a page it started under, in order. -/
def seenFromLast (pages : Pages κ) : Nat → Nat → List κ
  | 0, page => entries pages 0 page
  | h + 1, page =>
    match pages page with
    | .ok (.interior kind cells right) =>
      cells.flatMap (fun cell => seenBelow pages h cell.1 ++ divider kind cell.2) ++
        seenFromLast pages h right
    | _ => []

def lastLeaf (pages : Pages κ) : Nat → Nat → List κ
  | 0, page => entries pages 0 page
  | h + 1, page =>
    match pages page with
    | .ok (.interior _ _ right) => lastLeaf pages h right
    | _ => []

section

variable (hp : pages page = .ok (.interior kind cells right))
include hp

theorem seenFromLast_interior : seenFromLast pages (h + 1) page =
      cells.flatMap (fun cell => seenBelow pages h cell.1 ++ divider kind cell.2) ++
        seenFromLast pages h right := by
  simp [seenFromLast,hp]

theorem lastLeaf_interior : lastLeaf pages (h + 1) page = lastLeaf pages h right := by
  simp [lastLeaf,hp]

end

/-- `move_to_rightmost` finds no record if the last leaf is empty, and otherwise stands on its
last entry with all that is left to be seen behind it. -/
theorem moveToRightmost_subtree (hs : Shape pages kind h page) (hl : parents.length + h < btcursorMaxDepth) :
    (lastLeaf pages h page = [] ∧ ∃ c',
      Ends (moveToRightmost pages) (c.moved ((page,-1) :: parents) false) (.ok (false,c'))) ∨
    ∃ c' key, Ends (moveToRightmost pages) (c.moved ((page,-1) :: parents) false) (.ok (true,c')) ∧
      lastLeaf pages h page ≠ [] ∧ c'.current pages = some key ∧ (entries pages h page).getLast? = some key ∧
      LeavesBack pages c parents (seenFromLast pages h page).reverse (c',[key]) := by
  induction h generalizing page parents with
  | zero =>
    obtain ⟨cells,hp,-⟩ := hs
    rw [lastLeaf,seenFromLast,entries_leaf hp]
    rcases eq_nil_or_concat' cells with rfl | ⟨pre,key,rfl⟩
    · refine .inl ⟨rfl,c.moved ((page, -1) :: parents) false,.done ?_⟩
      rw [moveToRightmost,onTop_moved hp]
      simp [rightmostPointer,cellCount]
    · refine .inr ⟨c.moved ((page, pre.length) :: parents) false,key,.done ?_,by simp,current_leaf hp,by simp,?_⟩
      · rw [moveToRightmost,onTop_moved hp]
        simp [rightmostPointer,cellCount]
      · simpa using leavesBack_leaf [key] hp (.inl ⟨rfl,by simp [cellCount]⟩)
          fun _ => rfl
  | succ h ih =>
    obtain ⟨cells,right,hp,hco,hcells,hri⟩ := hs
    have hdown : moveToRightmost pages (c.moved ((page, -1) :: parents) false) =
        .again (c.moved ((right, -1) :: (page, cells.length + 1) :: parents) false) := by
      rw [moveToRightmost,onTop_moved hp]
      exact push_moved (by simp only [length_cons]; omega)
    have hlen : ((page, (cells.length : Int) + 1) :: parents).length + h < btcursorMaxDepth := by
      simp only [length_cons]
      omega
    rw [lastLeaf_interior hp,seenFromLast_interior hp,entries_interior hp]
    rcases ih hri hlen with
      ⟨hempty,c',hen⟩ | ⟨c',key,hen,hne,hkey,hlast,hback⟩
    · exact .inl ⟨hempty,c',hen.again hdown⟩
    · refine .inr ⟨c',key,hen.again hdown,hne,hkey,by simp [hlast],?_⟩
      have htu := hback.2 (by simp [above_cons,Int.add_nonneg])
      have hre : LeavesBack pages c parents _ (c.moved ((page, cells.length + 1) :: parents) true,
          (seenFromLast pages h right).reverse) :=
        leavesBack_cells hp hco (by omega) (leavesBack_subtree) hcells (by omega)
      rw [reverse_append]
      exact .of_turns htu hre

theorem scanBackwards_eq (hs : Shape pages kind h c.rootPage) (hh : h < btcursorMaxDepth) :
    ∃ fuel, scanBackwards pages c fuel = some (.ok
      (if lastLeaf pages h c.rootPage = [] then [] else (seenFromLast pages h c.rootPage).reverse)) := by
  have hro : c.moveToRoot = c.moved [(c.rootPage, -1)] false := rfl
  have hlen : ([] : List (Nat × Int)).length + h < btcursorMaxDepth := by simpa using hh
  rcases moveToRightmost_subtree (c := c) hs hlen with
    ⟨hempty,c',fuel,hlast⟩ | ⟨c',key,⟨n,hlast⟩,hne,hkey,-,hback⟩
  · exact ⟨fuel,by simp only [scanBackwards,hro,hlast,hempty,if_true]⟩
  · obtain ⟨m,hsc⟩ := hback.1 rfl
    refine ⟨max n m,?_⟩
    simp [scanBackwards,hro,loop_mono hlast (le_max_left n m),hkey,loop_mono hsc (le_max_right n m),hne]

end Cursor

end OxiSql.Btree
