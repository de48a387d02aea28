import OxiSql.Btree.Backwards

namespace OxiSql.Btree
open Lib List PageContent

/-- A scan of `all` saw `seen` and left out `skipped`. -/
structure Part {κ : Type} (seen skipped all : List κ) : Prop where
  sublist : seen.Sublist all
  length : seen.length + skipped.length = all.length

namespace Part
variable {κ β : Type} {all : List κ}

theorem refl (all : List κ) : Part all [] all :=
  ⟨.refl all,by simp⟩

theorem append (h : Part seen skipped all) (h' : Part seen' skipped' all') :
    Part (seen ++ seen') (skipped ++ skipped') (all ++ all') := by
  refine ⟨h.sublist.append h'.sublist,?_⟩
  have := h.length
  have := h'.length
  simp only [length_append]
  omega

theorem flatMap {f g k : β → List κ} {xs : List β} (h : ∀ x ∈ xs, Part (f x) (g x) (k x)) :
    Part (xs.flatMap f) (xs.flatMap g) (xs.flatMap k) := by
  induction xs with
  | nil => exact refl []
  | cons x xs ih =>
    exact (h x mem_cons_self).append (ih fun y hy => h y (mem_cons_of_mem _ hy))

/-- All was seen if and only if nothing was skipped. -/
theorem eq_iff (h : Part seen skipped all) : seen = all ↔ skipped = [] := by
  constructor
  · intro he
    have := h.length
    rw [he] at this
    exact length_eq_zero_iff.mp (by omega)
  · intro hs
    have := h.length
    rw [hs] at this
    exact h.sublist.eq_of_length this

end Part

namespace Cursor
variable {κ : Type} {pages : Pages κ} {kind : Kind} {c : Cursor} {root : Nat}

/-- The entries below a page that a scan does not see when it comes down to it on its way back:
in a table all under the rightmost pointers. -/
def skippedBelow (pages : Pages κ) : Nat → Nat → List κ
  | 0, _ => []
  | h + 1, page =>
    match pages page with
    | .ok (.interior .table cells right) =>
      cells.flatMap (fun cell => skippedBelow pages h cell.1) ++ entries pages h right
    | .ok (.interior .index cells right) =>
      cells.flatMap (fun cell => skippedBelow pages h cell.1) ++ skippedBelow pages h right
    | _ => []

def skipped (pages : Pages κ) : Nat → Nat → List κ
  | 0, _ => []
  | h + 1, page =>
    match pages page with
    | .ok (.interior _ cells right) =>
      cells.flatMap (fun cell => skippedBelow pages h cell.1) ++ skipped pages h right
    | _ => []

variable {cells : List (Nat × κ)}

theorem part_cells (kind : Kind) (h : ∀ cell ∈ cells, Part (seenBelow pages n cell.1) (skippedBelow pages n cell.1)
      (entries pages n cell.1)) :
    Part (cells.flatMap fun cell => seenBelow pages n cell.1 ++ divider kind cell.2)
      (cells.flatMap fun cell => skippedBelow pages n cell.1)
      (cells.flatMap fun cell => entries pages n cell.1 ++ divider kind cell.2) := by
  refine Part.flatMap fun cell hm => ?_
  simpa using (h cell hm).append (.refl (divider kind cell.2))

theorem part_below (hs : Shape pages kind h page) :
    Part (seenBelow pages h page) (skippedBelow pages h page) (entries pages h page) := by
  induction h generalizing page with
  | zero => exact .refl _
  | succ h ih =>
    obtain ⟨cells,right,hp,-,hcells,hri⟩ := hs
    have hpa := part_cells kind fun cell hm => ih (hcells cell hm)
    rw [seenBelow_interior hp,entries_interior hp]
    cases kind with
    | table =>
      have hnone : Part [] (entries pages h right) (entries pages h right) :=
        ⟨nil_sublist _,by simp⟩
      simpa [skippedBelow,hp,indexOnly] using hpa.append hnone
    | index => simpa [skippedBelow,hp,indexOnly] using hpa.append (ih hri)

theorem part_fromLast (hs : Shape pages kind h page) :
    Part (seenFromLast pages h page) (skipped pages h page) (entries pages h page) := by
  induction h generalizing page with
  | zero => exact .refl _
  | succ h ih =>
    obtain ⟨cells,right,hp,-,hcells,hri⟩ := hs
    have hpa := part_cells kind fun cell hm => part_below (hcells cell hm)
    rw [seenFromLast_interior hp,entries_interior hp]
    simpa [skipped,hp] using hpa.append (ih hri)

def counted (c : Cursor) (stack : List (Nat × Int)) (count : Nat) : Cursor :=
  { c with stack := stack, count := count }

variable {stack : List (Nat × Int)}

theorem countUp_counted :
    countUp pages (c.counted stack n) parents = countUp pages (c.counted [] n) parents := by
  induction parents with
  | nil => rfl
  | cons frame parents ih =>
    simp only [countUp]
    cases pages frame.1 with
    | error byte => rfl
    | ok contents =>
      simp only
      split
      · rfl
      · exact ih

theorem push_counted {ρ : Type} (hl : stack.length < btcursorMaxDepth) :
    ((c.counted stack n).push page idx : Turn Cursor ρ Fault) = .again (c.counted ((page,idx) :: stack) n) :=
  if_pos hl

theorem countChild_cell {cell : Nat × κ} :
    (c.counted stack n).countChild (.interior kind (pre ++ cell :: post) right) page pre.length
        parents = (c.counted ((page,pre.length + 1) :: parents) n).push cell.1 (-1) := by
  have hne : ¬ (pre.length : Int) = (interior kind (pre ++ cell :: post) right).cellCount := by
    simp only [cellCount,length_append,length_cons]
    omega
  cases kind <;> simp [countChild,hne,cellGet,setStack,counted]

theorem countChild_right :
    (c.counted stack n).countChild (.interior kind cells right) page cells.length parents =
      (c.counted ((page,cells.length + 1) :: parents) n).push right (-1) := by
  simp [countChild,cellCount,rightmostPointer,setStack,counted]

theorem countTurn_interior (hp : pages page = .ok (.interior kind cells right)) :
    countTurn pages (c.counted ((page,-1) :: parents) n) =
      (c.counted ((page,-1) :: parents) (n + if kind = .index then cells.length else 0)).countChild
        (.interior kind ([] ++ cells) right) page ([] : List (Nat × κ)).length parents := by
  simp [countTurn,onTop,counted,hp,isLeaf,isIndex,cellCount]

theorem countUp_cell (hp : pages page = .ok contents) (hi : i ≤ contents.cellCount) :
    countUp pages (c.counted [] n) ((page,i) :: parents) =
      (c.counted [] n).countChild contents page i parents := by
  simp [countUp,hp,hi]

theorem countUp_past (hp : pages page = .ok contents) (hi : contents.cellCount < i) :
    countUp pages (c.counted [] n) ((page,i) :: parents) = countUp pages (c.counted [] n) parents := by
  simp [countUp,hp,Nat.not_le.mpr hi]

def Counts (pages : Pages κ) (c : Cursor) (parents : List (Nat × Int)) (n : Nat) (s : Cursor) : Prop :=
  ∃ s', Turns (countTurn pages) s s' ∧ countTurn pages s' = countUp pages (c.counted [] n) parents

abbrev ChildCount (pages : Pages κ) (kind : Kind) (h : Nat) (c : Cursor) : Prop :=
  ∀ (page : Nat) (parents : List (Nat × Int)) (n : Nat),
    Shape pages kind h page → parents.length + h < btcursorMaxDepth →
    Counts pages c parents (n + (entries pages h page).length) (c.counted ((page, -1) :: parents) n)

theorem Counts.of_again (ht : countTurn pages s = .again s') (h : Counts pages c parents n s') :
    Counts pages c parents n s := by
  obtain ⟨t,htu,hup⟩ := h
  exact ⟨t,.head ht htu,hup⟩

theorem Counts.trans (h : Counts pages c parents n s)
    (h' : ∀ t, countTurn pages t = countUp pages (c.counted [] n) parents → Counts pages c parents' n' t) :
    Counts pages c parents' n' s := by
  obtain ⟨t,htu,hup⟩ := h
  obtain ⟨t',htu',hup'⟩ := h' t hup
  exact ⟨t',htu.trans htu',hup'⟩

theorem counts_cells (pre : List (Nat × κ)) (n : Nat)
    (hp : pages page = .ok (.interior kind (pre ++ post) right)) (hch : ChildCount pages kind h c)
    (hs : ∀ cell ∈ post, Shape pages kind h cell.1) (hri : Shape pages kind h right)
    (hl : parents.length + 1 + h < btcursorMaxDepth) (htu : countTurn pages s =
      (c.counted stack n).countChild (.interior kind (pre ++ post) right) page pre.length parents) :
    Counts pages c parents (n + (post.map fun cell => (entries pages h cell.1).length).sum +
        (entries pages h right).length) s := by
  induction post generalizing pre s stack n with
  | nil =>
    simp only [append_nil] at hp htu
    have hri' := hch right ((page, pre.length + 1) :: parents) n hri (by simp only [length_cons]; omega)
    have hback : ∀ m, countUp pages (c.counted [] m) ((page, (pre.length : Int) + 1) :: parents) =
        countUp pages (c.counted [] m) parents :=
      fun m => countUp_past (i := pre.length + 1) hp (by simp [cellCount])
    rw [countChild_right,push_counted (by simp only [length_cons]; omega)] at htu
    refine .of_again htu (hri'.trans fun t ht => ⟨t,.refl,?_⟩)
    rw [ht,hback]
    simp
  | cons cell post ih =>
    have hdown := hch cell.1 ((page, pre.length + 1) :: parents) n (hs cell mem_cons_self)
      (by simp only [length_cons]; omega)
    have hp' : pages page = .ok (.interior kind (pre ++ [cell] ++ post) right) := by simpa using hp
    have hnext : ∀ m, countUp pages (c.counted [] m) ((page, (pre.length : Int) + 1) :: parents) =
        (c.counted [] m).countChild (.interior kind (pre ++ [cell] ++ post) right) page
          (pre ++ [cell]).length parents := by
      intro m
      have hcell : countUp pages (c.counted [] m) ((page, ((pre ++ [cell]).length : Nat)) :: parents) = _ :=
        countUp_cell hp' (by simp only [cellCount,length_append]; omega)
      simpa using hcell
    rw [countChild_cell,push_counted (by simp only [length_cons]; omega)] at htu
    refine .of_again htu (hdown.trans fun t ht => ?_)
    have hre := ih (pre ++ [cell]) (n + (entries pages h cell.1).length) hp'
      (fun c hc => hs c (mem_cons_of_mem _ hc)) (ht.trans (hnext _))
    simpa [Nat.add_assoc] using hre

theorem length_cells : (cells.flatMap fun cell => entries pages h cell.1 ++ divider kind cell.2).length =
      (cells.map fun cell => (entries pages h cell.1).length).sum +
        if kind = .index then cells.length else 0 := by
  induction cells with
  | nil => simp
  | cons cell cells ih =>
    simp only [flatMap_cons,length_append,ih,map_cons,sum_cons,length_cons]
    cases kind with
    | table => simp [divider]
    | index =>
      simp only [divider,length_singleton,if_true]
      omega

theorem counts_subtree : ChildCount pages kind h c := by
  induction h with
  | zero =>
    intro page parents n hs hl
    obtain ⟨cells,hp,-⟩ := hs
    refine ⟨_,.refl,?_⟩
    rw [entries_leaf hp,← countUp_counted]
    simp [countTurn,onTop,counted,hp]
    rfl
  | succ h ih =>
    intro page parents n hs hl
    obtain ⟨cells,right,hp,-,hcells,hri⟩ := hs
    have hco : Counts pages c parents _ (c.counted ((page, -1) :: parents) n) :=
      counts_cells [] _ hp ih hcells hri (by omega) (countTurn_interior hp)
    rw [entries_interior hp,length_append,length_cells]
    have hsum : n + (if kind = .index then cells.length else 0) +
        (cells.map fun cell => (entries pages h cell.1).length).sum + (entries pages h right).length =
        n + ((cells.map fun cell => (entries pages h cell.1).length).sum +
          (if kind = .index then cells.length else 0) + (entries pages h right).length) := by omega
    rwa [hsum] at hco

theorem ends_count (hs : Shape pages kind h c.rootPage) (hh : h < btcursorMaxDepth) (n : Nat) :
    Ends (countTurn pages) (c.counted [(c.rootPage,-1)] n) (.ok (n + (entries pages h c.rootPage).length,
        (c.counted [] (n + (entries pages h c.rootPage).length)).moveToRoot)) := by
  obtain ⟨s,htu,hup⟩ := counts_subtree c.rootPage [] n hs (by simpa using hh)
  exact .of_turns htu (.done hup)

theorem count_tooDeep (hs : Shape pages kind h page) (hl : parents.length < btcursorMaxDepth)
    (hh : btcursorMaxDepth ≤ parents.length + h) :
    Ends (countTurn pages) (c.counted ((page,-1) :: parents) n) (.error tooDeep) := by
  induction h generalizing page parents n with
  | zero => omega
  | succ h ih =>
    obtain ⟨cells,right,hp,-,hcells,hri⟩ := hs
    obtain ⟨child,m,hch,hdown⟩ : ∃ child m, Shape pages kind h child ∧
        countTurn pages (c.counted ((page, -1) :: parents) n) =
          (c.counted ((page, 1) :: parents) m).push child (-1) := by
      cases cells with
      | nil => exact ⟨right,_,hri,(countTurn_interior hp).trans countChild_right⟩
      | cons cell cells =>
        exact ⟨cell.1,_,hcells cell mem_cons_self,(countTurn_interior hp).trans countChild_cell⟩
    by_cases hlt : parents.length + 1 < btcursorMaxDepth
    · refine (ih hch (by simpa using hlt) ?_).again (hdown.trans (push_counted hlt))
      simp only [length_cons]
      omega
    · exact .fail (hdown.trans (if_neg hlt))

/-- A cursor on which `count` was called `n` times since it was opened. -/
def CountedTimes (pages : Pages κ) (root : Nat) : Nat → Cursor → Prop
  | 0, c => c = .new root
  | n + 1, c => ∃ c₀ fuel total, CountedTimes pages root n c₀ ∧
      countRecords pages c₀ fuel = some (.ok (total, c))

/-- The pages form a tree whose entries are in ascending order. -/
structure WellFormed (lt : κ → κ → Prop) (pages : Pages κ) (kind : Kind) (h root : Nat) : Prop where
  shape : Shape pages kind h root
  ascending : (entries pages h root).Pairwise lt

/-- Forwards and backwards every entry is found once, and the entries are counted right. -/
structure Enumerates (pages : Pages κ) (h : Nat) (c : Cursor) : Prop where
  forwards : ∃ fuel, scanForwards pages c fuel = some (.ok (entries pages h c.rootPage))
  backwards : ∃ fuel, scanBackwards pages c fuel = some (.ok (entries pages h c.rootPage).reverse)
  count : ∃ fuel c', countRecords pages c fuel = some (.ok ((entries pages h c.rootPage).length, c'))

/-- What the calls of `count` have done to the cursor: the next call starts at the root, with
what they counted. -/
theorem CountedTimes.start (hs : Shape pages kind h root) (hh : h < btcursorMaxDepth)
    (hc : CountedTimes pages root n c) : c.rootPage = root ∧ c.count = n * (entries pages h root).length ∧
      (if c.count = 0 then c.moveToRoot else c) = c.counted [(root,-1)] c.count := by
  induction n generalizing c with
  | zero =>
    cases hc
    exact ⟨rfl,by simp [new],rfl⟩
  | succ n ih =>
    obtain ⟨c0,fuel,total,hc0,hrun⟩ := hc
    obtain ⟨rfl,hco,hst⟩ := ih hc0
    rw [countRecords,hst] at hrun
    have hen := Ends.unique ⟨fuel,hrun⟩ (ends_count hs hh c0.count)
    obtain ⟨-,rfl⟩ := hen
    refine ⟨rfl,?_,?_⟩
    · simp only [moveToRoot,counted,hco]
      rw [Nat.add_mul,Nat.one_mul]
    · split <;> rfl

/-- On a tree that is too deep a first `count` does not return. -/
theorem CountedTimes.eq_new (hs : Shape pages kind h root) (hh : btcursorMaxDepth ≤ h)
    (hc : CountedTimes pages root n c) : c = .new root := by
  induction n generalizing c with
  | zero => exact hc
  | succ n ih =>
    obtain ⟨c0,fuel,total,hc0,hrun⟩ := hc
    cases ih hc0
    have hde : Ends (countTurn pages) ((new root).counted [(root, -1)] 0) (.error tooDeep) :=
      count_tooDeep hs (by simp [btcursorMaxDepth]) (by simpa using hh)
    have hen := Ends.unique ⟨fuel,hrun⟩ hde
    cases hen

theorem scanBackwards_mono (hn : scanBackwards pages c n = some r) (hle : n ≤ m) :
    scanBackwards pages c m = some r := by
  unfold scanBackwards at hn ⊢
  cases hl : loop (moveToRightmost pages) n c.moveToRoot with
  | none => simp [hl] at hn
  | some last =>
    rw [loop_mono hl hle]
    rw [hl] at hn
    rcases last with e | ⟨found,c'⟩
    · exact hn
    · cases found with
      | false => exact hn
      | true =>
        simp only at hn ⊢
        cases hk : c'.current pages with
        | none => simpa [hk] using hn
        | some key =>
          simp only [hk] at hn
          exact loop_mono hn hle

/-- Backwards the whole tree is seen if the last leaf is not empty beside other entries and
nothing is skipped. -/
theorem scanBackwards_iff (hs : Shape pages kind h c.rootPage) (hh : h < btcursorMaxDepth) :
    (∃ fuel, scanBackwards pages c fuel = some (.ok (entries pages h c.rootPage).reverse)) ↔
      (lastLeaf pages h c.rootPage = [] → entries pages h c.rootPage = []) ∧
        skipped pages h c.rootPage = [] := by
  have hpa := part_fromLast hs
  obtain ⟨n,hn⟩ := scanBackwards_eq hs hh
  have hre : (∃ fuel, scanBackwards pages c fuel = some (.ok (entries pages h c.rootPage).reverse)) ↔
      (if lastLeaf pages h c.rootPage = [] then [] else (seenFromLast pages h c.rootPage).reverse) =
        (entries pages h c.rootPage).reverse := by
    constructor
    · rintro ⟨m,hm⟩
      have hn' := scanBackwards_mono hn (le_max_left n m)
      have hm' := scanBackwards_mono hm (le_max_right n m)
      simpa using hn'.symm.trans hm'
    · intro he
      exact ⟨n,by rw [hn,he]⟩
  rw [hre,← hpa.eq_iff]
  split
  · rename_i hlast
    simp only [hlast,nil_eq,reverse_eq_nil_iff,forall_const]
    refine ⟨fun he => ⟨he,?_⟩,fun he => he.1⟩
    have hsub := hpa.sublist
    rw [he] at hsub ⊢
    exact sublist_nil.mp hsub
  · rename_i hlast
    simp [hlast]

/-- `count` is right the first time, and adds to what it has counted from then on. -/
theorem countRecords_iff (hs : Shape pages kind h root) (hh : h < btcursorMaxDepth)
    (hc : CountedTimes pages root n c) :
    (∃ fuel c', countRecords pages c fuel = some (.ok ((entries pages h root).length,c'))) ↔
      n = 0 ∨ entries pages h root = [] := by
  obtain ⟨rfl,hco,hst⟩ := hc.start hs hh
  have hen := ends_count hs hh c.count
  simp only [countRecords,hst]
  constructor
  · rintro ⟨fuel,c',hrun⟩
    have hre := Ends.unique ⟨fuel,hrun⟩ hen
    simp only [Except.ok.injEq,Prod.mk.injEq] at hre
    have hze : n * (entries pages h c.rootPage).length = 0 := by omega
    exact (Nat.mul_eq_zero.mp hze).imp_right length_eq_zero_iff.mp
  · intro hze
    have hnone : c.count = 0 := by
      rw [hco]
      exact Nat.mul_eq_zero.mpr (hze.imp_right length_eq_zero_iff.mpr)
    rw [hnone,Nat.zero_add] at hen
    rw [hnone]
    obtain ⟨fuel,hrun⟩ := hen
    exact ⟨fuel,_,hrun⟩

/-- Every entry is enumerated and counted exactly when the tree is not too deep for the stack, its
last leaf is not empty beside other entries, a scan backwards skips nothing, and nothing was
counted on this cursor before. -/
theorem enumerates_iff {lt : κ → κ → Prop} (hwf : WellFormed lt pages kind h root)
    (hc : CountedTimes pages root n c) : Enumerates pages h c ↔
      h < btcursorMaxDepth ∧ (lastLeaf pages h root = [] → entries pages h root = []) ∧
        skipped pages h root = [] ∧ (n = 0 ∨ entries pages h root = []) := by
  have hs := hwf.shape
  by_cases hh : h < btcursorMaxDepth
  · have hco := countRecords_iff hs hh hc
    obtain ⟨rfl,-,-⟩ := hc.start hs hh
    have hback := scanBackwards_iff hs hh
    constructor
    · intro he
      obtain ⟨hlast,hsk⟩ := hback.mp he.backwards
      exact ⟨hh,hlast,hsk,hco.mp he.count⟩
    · rintro ⟨-,hlast,hsk,hn⟩
      exact ⟨scanForwards_eq hs hh,hback.mpr ⟨hlast,hsk⟩,hco.mpr hn⟩
  · refine ⟨fun he => ?_,fun he => absurd he.1 hh⟩
    cases hc.eq_new hs (Nat.le_of_not_lt hh)
    have hde : Ends (collect pages (getNextRecord pages)) ((new root).moveToRoot, []) (.error tooDeep) :=
      scan_tooDeep hs (by simp [btcursorMaxDepth]) (by simpa using Nat.le_of_not_lt hh) fun _ => rfl
    cases Ends.unique he.forwards hde

/-- Two levels of interior pages over four leaves with two rows each. -/
def threeLevels : Pages Nat
  | 1 => .ok (.interior .table [(2, 4)] 3)
  | 2 => .ok (.interior .table [(4, 2)] 5)
  | 3 => .ok (.interior .table [(6, 6)] 7)
  | 4 => .ok (.leaf .table [1, 2])
  | 5 => .ok (.leaf .table [3, 4])
  | 6 => .ok (.leaf .table [5, 6])
  | 7 => .ok (.leaf .table [7, 8])
  | _ => .error 0

theorem wellFormed_threeLevels : WellFormed (· < ·) threeLevels .table 2 1 :=
  ⟨by decide,by decide⟩

/-- Backwards the rows 3 and 4 are not found. -/
theorem threeLevels_skips_rows :
    WellFormed (· < ·) threeLevels .table 2 1 ∧ CountedTimes threeLevels 1 0 (.new 1) ∧
      ¬ Enumerates threeLevels 2 (.new 1) := by
  refine ⟨wellFormed_threeLevels,rfl,fun he => ?_⟩
  have hsk := (scanBackwards_iff wellFormed_threeLevels.shape (by decide)).mp he.backwards
  exact absurd hsk.2 (by decide)

def twoLevels : Pages Nat
  | 1 => .ok (.interior .table [(4, 2), (5, 4), (6, 6)] 7)
  | 4 => .ok (.leaf .table [1, 2])
  | 5 => .ok (.leaf .table [3, 4])
  | 6 => .ok (.leaf .table [5, 6])
  | 7 => .ok (.leaf .table [7, 8])
  | _ => .error 0

theorem twoLevels_enumerates : WellFormed (· < ·) twoLevels .table 1 1 ∧ Enumerates twoLevels 1 (.new 1) := by
  have hwf : WellFormed (· < ·) twoLevels .table 1 1 := ⟨by decide,by decide⟩
  have hnew : CountedTimes twoLevels 1 0 (.new 1) := rfl
  exact ⟨hwf,(enumerates_iff hwf hnew).mpr (by decide)⟩

end Cursor

end OxiSql.Btree
