import OxiSql.Btree.Tree

namespace OxiSql.Btree
open Lib List PageContent

namespace Cursor
variable {κ : Type} {pages : Pages κ} {c : Cursor} {g : Bool}

def moved (c : Cursor) (stack : List (Nat × Int)) (goingUpwards : Bool) : Cursor :=
  { c with stack := stack, goingUpwards := goingUpwards }

@[simp] theorem stack_moved (stack : List (Nat × Int)) : (c.moved stack g).stack = stack := rfl

@[simp] theorem goingUpwards_moved (stack : List (Nat × Int)) : (c.moved stack g).goingUpwards = g := rfl

@[simp] theorem setStack_moved (stack stack' : List (Nat × Int)) :
    (c.moved stack g).setStack stack' = c.moved stack' g := rfl

variable {ρ : Type}

theorem onTop_moved (hp : pages page = .ok contents) :
    (c.moved ((page,idx) :: parents) g).onTop pages invalid turn = turn contents page idx parents := by
  simp [onTop,hp]

theorem push_moved {stack : List (Nat × Int)} (hl : stack.length < btcursorMaxDepth) :
    ((c.moved stack g).push page idx : Turn Cursor ρ Fault) = .again (c.moved ((page,idx) :: stack) g) :=
  if_pos hl

/-- The flag matters in an index only. -/
def Downwards (kind : Kind) (goingUpwards : Bool) : Prop :=
  kind = .index → goingUpwards = false

theorem collect_again (hm : move c = .again c') : collect pages move (c,acc) = .again (c',acc) := by
  simp [collect,hm]

theorem collect_record (hm : move c = .done (true,c')) (hk : c'.current pages = some key) :
    collect pages move (c,acc) = .again (c',acc ++ [key]) := by
  simp [collect,hm,hk]

theorem collect_end (hm : move c = .done (false,c')) : collect pages move (c,acc) = .done acc := by
  simp [collect,hm]

theorem current_leaf (hp : pages page = .ok (.leaf kind (pre ++ key :: post))) :
    (c.moved ((page,pre.length) :: parents) g).current pages = some key := by
  cases kind <;> simp [current,hp,cellGet]

theorem current_divider (hp : pages page = .ok (.interior .index (pre ++ cell :: post) right)) :
    (c.moved ((page,pre.length) :: parents) g).current pages = some cell.2 := by
  simp [current,hp,cellGet]

theorem getNextRecord_to (hp : pages page = .ok contents)
    (hg : ¬ (contents.isIndex ∧ g ∧ 0 < i ∧ i ≤ contents.cellCount)) :
    getNextRecord pages (c.moved ((page,i - 1) :: parents) g) = if i = contents.cellCount then
        match contents.rightmostPointer with
        | some right => (c.moved ((page,i + 1) :: parents) g).push right (-1)
        | none => (c.moved ((page,i) :: parents) g).goUp parents
      else if contents.cellCount < i then (c.moved ((page,i) :: parents) g).goUp parents
      else
        match contents.cellGet i with
        | none => .fail (.error (.corrupt "cell index out of bounds during traversal"))
        | some cell => (c.moved ((page,i) :: parents) g).visitNext cell := by
  have hsk : ¬ (contents.isIndex ∧ g ∧ (0 : Int) ≤ i - 1 ∧ (i - 1 : Int) < contents.cellCount) := by
    rintro ⟨hi,hup,hlo,hhi⟩
    exact hg ⟨hi,hup,by omega,by omega⟩
  have hlow : ¬ ((i : Int) < 0) := by omega
  have htwo : (i - 1 + 2 : Int) = i + 1 := by omega
  simp only [getNextRecord,onTop_moved hp,goingUpwards_moved,hsk,Int.sub_add_cancel,htwo,
    Int.natCast_inj,Int.ofNat_lt,hlow,false_or]
  rfl

variable {cells : List (Nat × κ)}

theorem getNextRecord_divider (hp : pages page = .ok (.interior .index cells right)) (hi : i < cells.length) :
    getNextRecord pages (c.moved ((page,i) :: parents) true) =
      .done (true,c.moved ((page,i) :: parents) false) := by
  rw [getNextRecord,onTop_moved hp,if_pos]
  · rfl
  · simp [isIndex,cellCount,hi]

theorem Downwards.not_skips {contents : PageContent κ} (hg : Downwards kind g)
    (hk : contents.isIndex = decide (kind = .index)) : ¬ (contents.isIndex ∧ g ∧ P) := by
  rintro ⟨hi,hup,-⟩
  rw [hk,decide_eq_true_eq] at hi
  simp [hg hi] at hup

theorem getNextRecord_leaf (hp : pages page = .ok (.leaf kind (pre ++ key :: post))) (hg : Downwards kind g) :
    getNextRecord pages (c.moved ((page,pre.length - 1) :: parents) g) =
      .done (true,c.moved ((page,pre.length) :: parents) g) := by
  rw [getNextRecord_to hp (hg.not_skips rfl)]
  cases kind <;> simp [cellCount,cellGet,visitNext]

theorem getNextRecord_leaf_end {cells : List κ} (hp : pages page = .ok (.leaf kind cells))
    (hg : Downwards kind g) : getNextRecord pages (c.moved ((page,cells.length - 1) :: parents) g) =
      (c.moved ((page,cells.length) :: parents) g).goUp parents := by
  rw [getNextRecord_to hp (hg.not_skips rfl)]
  simp [cellCount,rightmostPointer]

theorem getNextRecord_child (hp : pages page = .ok (.interior kind (pre ++ cell :: post) right))
    (hg : Downwards kind g) :
    getNextRecord pages (c.moved ((page,pre.length - 1) :: parents) g) =
      (c.moved ((page,pre.length) :: parents) g).push cell.1 (-1) := by
  rw [getNextRecord_to hp (hg.not_skips rfl)]
  cases kind with
  | table => simp [cellCount,cellGet,visitNext]
  | index =>
    cases hg rfl
    simp [cellCount,cellGet,visitNext]

section

variable (hp : pages page = .ok (.interior kind cells right))
include hp

theorem getNextRecord_right (hg : Downwards kind g) :
    getNextRecord pages (c.moved ((page,cells.length - 1) :: parents) g) =
      (c.moved ((page,cells.length + 1) :: parents) g).push right (-1) := by
  rw [getNextRecord_to hp (hg.not_skips rfl)]
  simp [cellCount,rightmostPointer]

theorem getNextRecord_interior_end : getNextRecord pages (c.moved ((page,cells.length + 1) :: parents) g) =
      (c.moved ((page,cells.length + 2) :: parents) g).goUp parents := by
  have hidx : (cells.length + 1 : Int) = ((cells.length + 2 : Nat) : Int) - 1 := by omega
  rw [hidx,getNextRecord_to hp (by simp [cellCount])]
  simp [cellCount]

end

/-- The scan is through with everything above `parents`: it goes on there, or ends. -/
def Leaves (pages : Pages κ) (c : Cursor) (parents : List (Nat × Int)) (acc : List κ)
    (s : Cursor × List κ) : Prop :=
  (parents = [] → Ends (collect pages (getNextRecord pages)) s (.ok acc)) ∧
    (parents ≠ [] →
      Turns (collect pages (getNextRecord pages)) s (c.moved parents true, acc))

theorem Leaves.of_turns (ht : Turns (collect pages (getNextRecord pages)) s s')
    (hl : Leaves pages c parents acc s') : Leaves pages c parents acc s :=
  ⟨fun h => (hl.1 h).of_turns ht,fun h => ht.trans (hl.2 h)⟩

theorem Leaves.of_goUp {stack : List (Nat × Int)}
    (hm : getNextRecord pages s = (c.moved stack g).goUp parents) :
    Leaves pages c parents acc (s,acc) := by
  unfold goUp at hm
  refine ⟨fun h => ?_,fun h => ?_⟩
  · rw [if_pos (by simp [h])] at hm
    exact .done (collect_end hm)
  · rw [if_neg (by simp [h])] at hm
    exact .one (collect_again hm)

theorem turns_leaf (pre : List κ) (hp : pages page = .ok (.leaf kind (pre ++ post)))
    (hg : Downwards kind g) : Turns (collect pages (getNextRecord pages))
      (c.moved ((page,pre.length - 1) :: parents) g,acc)
      (c.moved ((page,(pre ++ post).length - 1) :: parents) g,acc ++ post) := by
  induction post generalizing pre acc with
  | nil =>
    simp only [append_nil]
    exact .refl
  | cons key post ih =>
    have htu : collect pages (getNextRecord pages) (c.moved ((page, pre.length - 1) :: parents) g, acc) =
        .again (c.moved ((page, pre.length) :: parents) g, acc ++ [key]) :=
      collect_record (getNextRecord_leaf hp hg) (current_leaf hp)
    have hre : Turns (collect pages (getNextRecord pages))
        (c.moved ((page, (pre ++ [key]).length - 1) :: parents) g, acc ++ [key])
        (c.moved ((page, (pre ++ [key] ++ post).length - 1) :: parents) g, acc ++ [key] ++ post) :=
      ih (pre ++ [key]) (by simpa using hp)
    exact .head htu (by simpa using hre)

/-- What a child does to the scan, as the induction over the height gives it. -/
abbrev ChildScan (pages : Pages κ) (kind : Kind) (h : Nat) (c : Cursor) : Prop :=
  ∀ (page : Nat) (parents : List (Nat × Int)) (acc : List κ) (g : Bool),
    Shape pages kind h page → parents.length + h < btcursorMaxDepth → Downwards kind g →
    Leaves pages c parents (acc ++ entries pages h page) (c.moved ((page, -1) :: parents) g, acc)

theorem turns_cells (pre : List (Nat × κ)) (parents : List (Nat × Int)) (acc : List κ)
    (hp : pages page = .ok (.interior kind (pre ++ post) right)) (hch : ChildScan pages kind h c)
    (hs : ∀ cell ∈ post, Shape pages kind h cell.1) (hl : parents.length + 1 + h < btcursorMaxDepth)
    (hg : Downwards kind g) :
    ∃ g', Downwards kind g' ∧ Turns (collect pages (getNextRecord pages))
      (c.moved ((page,pre.length - 1) :: parents) g,acc)
      (c.moved ((page,(pre ++ post).length - 1) :: parents) g',
        acc ++ post.flatMap fun cell => entries pages h cell.1 ++ divider kind cell.2) := by
  induction post generalizing pre acc g with
  | nil =>
    refine ⟨g,hg,?_⟩
    simp only [append_nil,flatMap_nil]
    exact .refl
  | cons cell post ih =>
    have hdown : collect pages (getNextRecord pages) (c.moved ((page, pre.length - 1) :: parents) g, acc) =
        .again (c.moved ((cell.1, -1) :: (page, pre.length) :: parents) g, acc) :=
      collect_again ((getNextRecord_child hp hg).trans (push_moved (by simp only [length_cons]; omega)))
    have hback := (hch cell.1 ((page, pre.length) :: parents) acc g
      (hs cell mem_cons_self) (by simp only [length_cons]; omega) hg).2 (by simp)
    -- A table goes on to the next child, an index stops at the cell first.
    obtain ⟨g1,hg1,hst⟩ : ∃ g1, Downwards kind g1 ∧ Turns (collect pages (getNextRecord pages))
        (c.moved ((page, pre.length) :: parents) true, acc ++ entries pages h cell.1)
        (c.moved ((page, pre.length) :: parents) g1,
          acc ++ (entries pages h cell.1 ++ divider kind cell.2)) := by
      cases kind with
      | table =>
        refine ⟨true,nofun,?_⟩
        simp only [divider,append_nil]
        exact .refl
      | index =>
        refine ⟨false,fun _ => rfl,.one ?_⟩
        rw [← append_assoc]
        exact collect_record (getNextRecord_divider hp (by simp)) (current_divider hp)
    obtain ⟨g',hg',hre⟩ := ih (pre ++ [cell])
      (acc ++ (entries pages h cell.1 ++ divider kind cell.2)) (by simpa using hp)
      (fun c hc => hs c (mem_cons_of_mem _ hc)) hg1
    refine ⟨g',hg',.head hdown (hback.trans (hst.trans ?_))⟩
    simpa using hre

/-- A scan that comes to a page goes through everything below it. -/
theorem leaves_subtree : ChildScan pages kind h c := by
  induction h with
  | zero =>
    intro page parents acc g hs hl hg
    obtain ⟨cells,hp,-⟩ := hs
    rw [entries_leaf hp]
    have hcells : Turns (collect pages (getNextRecord pages)) (c.moved ((page, -1) :: parents) g, acc)
        (c.moved ((page, cells.length - 1) :: parents) g, acc ++ cells) :=
      turns_leaf [] (by simpa using hp) hg
    exact .of_turns hcells (.of_goUp (getNextRecord_leaf_end hp hg))
  | succ h ih =>
    intro page parents acc g hs hl hg
    obtain ⟨cells,right,hp,-,hcells,hri⟩ := hs
    rw [entries_interior hp,← append_assoc]
    obtain ⟨g',hg',htu⟩ := turns_cells [] parents acc (by simpa using hp) ih hcells (by omega) hg
    have hdown : getNextRecord pages (c.moved ((page, cells.length - 1) :: parents) g') =
        .again (c.moved ((right, -1) :: (page, cells.length + 1) :: parents) g') :=
      (getNextRecord_right hp hg').trans (push_moved (by simp only [length_cons]; omega))
    refine .of_turns htu (.of_turns (.one (collect_again hdown)) ?_)
    have hback := ih right ((page, cells.length + 1) :: parents)
      (acc ++ cells.flatMap fun cell => entries pages h cell.1 ++ divider kind cell.2) g' hri
      (by simp only [length_cons]; omega) hg'
    exact .of_turns (hback.2 (by simp)) (.of_goUp (getNextRecord_interior_end hp))

theorem scanForwards_eq (hs : Shape pages kind h c.rootPage) (hh : h < btcursorMaxDepth) :
    ∃ fuel, scanForwards pages c fuel = some (.ok (entries pages h c.rootPage)) :=
  (leaves_subtree c.rootPage [] [] false hs (by simpa using hh) fun _ => rfl).1 rfl

theorem collect_fail (hm : move c = .fail e) : collect pages move (c,acc) = .fail e := by
  simp [collect,hm]

def tooDeep : Fault :=
  .panic "corrupted database, stack is bigger than expected"

/-- A push either takes the page or fails its assertion. -/
theorem push_cases (stack : List (Nat × Int)) (g : Bool)
    : (stack.length < btcursorMaxDepth ∧ ((c.moved stack g).push page idx : Turn Cursor ρ Fault) =
      .again (c.moved ((page,idx) :: stack) g)) ∨
    (btcursorMaxDepth ≤ stack.length ∧
      ((c.moved stack g).push page idx : Turn Cursor ρ Fault) = .fail tooDeep) := by
  by_cases hl : stack.length < btcursorMaxDepth
  · exact .inl ⟨hl,push_moved hl⟩
  · exact .inr ⟨by omega,if_neg hl⟩

theorem scan_tooDeep (hs : Shape pages kind h page) (hl : parents.length < btcursorMaxDepth)
    (hh : btcursorMaxDepth ≤ parents.length + h) (hg : Downwards kind g) :
    Ends (collect pages (getNextRecord pages)) (c.moved ((page,-1) :: parents) g,acc) (.error tooDeep) := by
  induction h generalizing page parents with
  | zero => omega
  | succ h ih =>
    obtain ⟨cells,right,hp,-,hcells,hri⟩ := hs
    -- The first turn goes to the first child, which is the rightmost one if there is no cell.
    obtain ⟨child,idx,hch,hdown⟩ : ∃ child idx, Shape pages kind h child ∧
        getNextRecord pages (c.moved ((page, -1) :: parents) g) =
          (c.moved ((page, idx) :: parents) g).push child (-1) := by
      cases cells with
      | nil => exact ⟨right,_,hri,getNextRecord_right hp hg⟩
      | cons cell cells =>
        have hp' : pages page = .ok (.interior kind ([] ++ cell :: cells) right) := hp
        exact ⟨cell.1,_,hcells cell mem_cons_self,getNextRecord_child hp' hg⟩
    rcases push_cases ((page, idx) :: parents) g with ⟨hlt,hpu⟩ | ⟨-,hpu⟩
    · refine (ih hch hlt ?_).again (collect_again (hdown.trans hpu))
      simp only [length_cons]
      omega
    · exact .fail (collect_fail (hdown.trans hpu))

end Cursor

end OxiSql.Btree
