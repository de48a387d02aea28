import OxiSql.Btree.Descent

namespace OxiSql.Btree
open Lib List Cursor SeekOp Item

def i64Min : Int := -2 ^ 63

def i64Max : Int := 2 ^ 63 - 1

/-- The order of rows and interior keys: a key is an upper bound of what is on its left and below
what is on its right. -/
def Item.Before : Item Int → Item Int → Prop
  | .row a, .row b | .key a, .row b | .key a, .key b => a < b
  | .row a, .key b => a ≤ b

instance : DecidableRel Item.Before
  | .row _, .row _ | .key _, .row _ | .key _, .key _ => inferInstanceAs (Decidable (_ < _))
  | .row _, .key _ => inferInstanceAs (Decidable (_ ≤ _))

def Item.val : Item Int → Int
  | .row a | .key a => a

structure TableWellFormed (pages : Pages Int) (h root : Nat) : Prop where
  shape : Shape pages .table h root
  ordered : (items pages h root).Pairwise Item.Before
  range : ∀ item ∈ items pages h root, i64Min ≤ item.val ∧ item.val ≤ i64Max

/-- The keys of the pages on the way to the last leaf, page by page. -/
def spine {κ : Type} (pages : Pages κ) : Nat → Nat → List (List κ)
  | 0, _ => []
  | h + 1, page =>
    match pages page with
    | .ok (.interior _ cells right) => cells.map Prod.snd :: spine pages h right
    | _ => []

section
variable {κ : Type} {pages : Pages κ} {onLeft isEq : κ → Bool} {leaf : Nat} {before after : List (Item κ)}

theorem spine_interior (hp : pages page = .ok (.interior kind cells right)) :
    spine pages (h + 1) page = cells.map Prod.snd :: spine pages h right := by
  simp [spine,hp]

theorem sublist_cellItems (cells : List (Nat × κ)) :
    ((cells.map Prod.snd).map key).Sublist (cellItems pages h cells) := by
  induction cells with
  | nil => exact .refl _
  | cons cell cells ih =>
    simp only [flatMap_cons,append_assoc]
    exact (List.Sublist.cons_cons _ ih).trans (sublist_append_right ..)

theorem spine_sublist (hk : ks ∈ spine pages h page) : (ks.map key).Sublist (items pages h page) := by
  induction h generalizing page with
  | zero => cases hk
  | succ h ih =>
    unfold spine at hk
    split at hk
    · rename_i cells right hp
      rw [items_interior hp]
      rcases mem_cons.mp hk with rfl | hk
      · exact (sublist_cellItems cells).trans (sublist_append_left ..)
      · exact (ih hk).trans (sublist_append_right ..)
    · cases hk

variable (hpath : Path pages kind onLeft isEq slot eqSeen h page frames leaf before after)
include hpath

/-- A descent that leaves nothing behind it goes along the spine. -/
theorem Path.spine_right (ha : after = []) :
    ∀ ks ∈ spine pages h page, (∀ d, ks.getLast? = some d → onLeft d = false) ∧
      ∀ init d e, ks = init ++ [d,e] → onLeft d = false := by
  induction hpath with
  | leaf hp => simp [spine]
  | left hp hsearch hcell hpre hdown ih => simp at ha
  | right hp hsearch hcells hlast hdown ih =>
    intro ks hk
    rw [spine_interior hp] at hk
    rcases mem_cons.mp hk with rfl | hk
    · constructor
      · intro d hd
        rw [getLast?_map,Option.map_eq_some_iff] at hd
        obtain ⟨cell,hc,rfl⟩ := hd
        exact (hcells cell hc).1
      · intro init d e he
        rw [map_eq_append_iff] at he
        obtain ⟨l1,l2,rfl,-,he⟩ := he
        rw [map_eq_cons_iff] at he
        obtain ⟨x,l3,rfl,rfl,he⟩ := he
        rw [map_eq_singleton_iff] at he
        obtain ⟨y,rfl,-⟩ := he
        exact hlast l1 x y rfl
    · exact ih ha ks hk

theorem Path.before_last_spine (ha : after = []) (hd : before.getLast? = some (.key d)) :
    ∃ ks ∈ spine pages h page, d ∈ ks := by
  induction hpath with
  | leaf hp => cases hd
  | left hp hsearch hcell hpre hdown ih => simp at ha
  | right hp hsearch hcells hlast hdown ih =>
    rw [spine_interior hp]
    rw [getLast?_append,Option.or_eq_some_iff,Path.getLast?_cellItems] at hd
    rcases hd with hd | ⟨-,hd⟩
    · obtain ⟨ks,hk,hm⟩ := ih ha hd
      exact ⟨ks,mem_cons_of_mem _ hk,hm⟩
    · obtain ⟨cell,hc,he⟩ := Option.map_eq_some_iff.mp hd
      refine ⟨_,mem_cons_self,mem_map.mpr ⟨cell,mem_of_getLast? hc,?_⟩⟩
      simpa using he

/-- The descent goes along the spine if none of its keys turns it left. -/
theorem Path.after_eq_nil (hs : ∀ ks ∈ spine pages h page, ∀ d ∈ ks, onLeft d = false) : after = [] := by
  induction hpath with
  | leaf hp => rfl
  | @left _ _ _ cell _ _ _ _ _ _ hp hsearch hcell hpre hdown ih =>
    rw [spine_interior hp] at hs
    have hnot := hs _ mem_cons_self cell.2 (by simp)
    rw [hcell.1] at hnot
    cases hnot
  | right hp hsearch hcells hlast hdown ih =>
    rw [spine_interior hp] at hs
    exact ih fun ks hk => hs ks (mem_cons_of_mem _ hk)

end

/-- The row nearest to the rowid in the direction of the operation. -/
structure Nearest (op : SeekOp) (rowid : Int) (rows : List Int) (n : Int) : Prop where
  mem : n ∈ rows
  found : op.found (compare n rowid) = true
  forwards : op.iterationDirection = .forwards →
    ∀ m ∈ rows, op.found (compare m rowid) = true → n ≤ m
  backwards : op.iterationDirection = .backwards →
    ∀ m ∈ rows, op.found (compare m rowid) = true → m ≤ n

variable {op : SeekOp} {rows : List Int}

theorem Nearest.unique (hn : Nearest op rowid rows n) (hm : Nearest op rowid rows m) : n = m := by
  cases hd : op.iterationDirection with
  | forwards =>
    exact Int.le_antisymm (hn.forwards hd m hm.mem hm.found) (hm.forwards hd n hn.mem hn.found)
  | backwards =>
    exact Int.le_antisymm (hm.backwards hd n hn.mem hn.found) (hn.backwards hd m hm.mem hm.found)

theorem exists_nearest (hm : m ∈ rows) (hf : op.found (compare m rowid) = true) :
    ∃ n, Nearest op rowid rows n := by
  have hmem : m ∈ rows.filter fun k => op.found (compare k rowid) := by simp [hm,hf]
  cases hd : op.iterationDirection with
  | forwards =>
    obtain ⟨n,hn⟩ := Option.isSome_iff_exists.mp (isSome_min?_of_mem hmem)
    obtain ⟨hn,hmin⟩ := min?_eq_some_iff.mp hn
    obtain ⟨hmem,hfo⟩ := mem_filter.mp hn
    refine ⟨n,hmem,hfo,fun _ k hk hfk => hmin k ?_,by simp [hd]⟩
    simp [hk,hfk]
  | backwards =>
    obtain ⟨n,hn⟩ := Option.isSome_iff_exists.mp (isSome_max?_of_mem hmem)
    obtain ⟨hn,hmax⟩ := max?_eq_some_iff.mp hn
    obtain ⟨hmem,hfo⟩ := mem_filter.mp hn
    refine ⟨n,hmem,hfo,by simp [hd],fun _ k hk hfk => hmax k ?_⟩
    simp [hk,hfk]

section

variable (hs : rows.Pairwise (· < ·))
include hs

theorem rising_of_lt : rows.Pairwise (Rising fun k => compare k rowid) := by
  refine hs.imp fun {a b} hab => ⟨fun hb => ?_,fun ha => ?_⟩
  · rw [compare_lt_iff_lt] at hb ⊢
    omega
  · rw [compare_gt_iff_gt] at ha ⊢
    omega

/-- What the search of a leaf comes to: the nearest of its rows, or none where none is looked
for. -/
def FindsNearest (op : SeekOp) (rowid : Int) (rows : List Int) (result : Option Nat) : Prop :=
  (∀ i, result = some i → ∃ k, rows[i]? = some k ∧ Nearest op rowid rows k) ∧
    (result = none → ∀ m ∈ rows, op.found (compare m rowid) = false)

theorem First.nearest (h : First (fun k => compare k rowid) op rows n) : Nearest op rowid rows n := by
  obtain ⟨l,r,rfl,hl,hr⟩ := h.split
  obtain ⟨-,hn,hlr⟩ := pairwise_append.mp hs
  refine ⟨by simp,h.found,fun hdir m hm hfm => ?_,fun hdir m hm hfm => ?_⟩
  · rcases mem_append.mp hm with hm | hm
    · exact absurd ((hl hdir m hm).symm.trans hfm) nofun
    · rcases mem_cons.mp hm with rfl | hm
      · exact Int.le_refl _
      · exact Int.le_of_lt (rel_of_pairwise_cons hn hm)
  · rcases mem_append.mp hm with hm | hm
    · exact Int.le_of_lt (hlr m hm n mem_cons_self)
    · rcases mem_cons.mp hm with rfl | hm
      · exact Int.le_refl _
      · exact absurd ((hr hdir m hm).symm.trans hfm) nofun

theorem findsNearest_of_leafFound (hf : LeafFound op (fun k => compare k rowid) rows pre post result) :
    FindsNearest op rowid rows result := by
  rcases hf.rising (rising_of_lt hs) with ⟨i,k,rfl,hget,-,hfirst⟩ | ⟨rfl,hnone⟩
  · refine ⟨fun j hj => ?_,nofun⟩
    cases hj
    exact ⟨k,hget,hfirst.nearest hs⟩
  · exact ⟨nofun,fun _ => hnone⟩

end

theorem SeekOp.tableLeafProbe_eqOnly (he : op.eqOnly = true) :
    (op.tableLeafProbe o = .stop → o = .eq) ∧ (∀ goLeft, op.tableLeafProbe o ≠ .hit goLeft) ∧
      ((op.tableLeafProbe o).TurnsRight → o = .lt) ∧
      ((op.tableLeafProbe o).TurnsLeft → o = .gt) := by
  cases o <;>
    simp [tableLeafProbe,leafProbe,found_eqOnly he,he,Probe.TurnsRight, Probe.TurnsLeft]

theorem findsNearest_eqOnly (he : op.eqOnly = true) (hs : rows.Pairwise (· < ·)) : FindsNearest op rowid rows
      (searchAll (fun i => op.tableLeafProbe (compare (rows.getD i 0) rowid)) rows.length) := by
  have hget : ∀ {i} (hi : i < rows.length), rows.getD i 0 = rows[i] := by
    intro i hi
    simp [hi]
  have hfo := found_eqOnly he
  have hso := pairwise_iff_getElem.mp hs
  rcases searchAll_spec with
    ⟨i,hi,hst,hr⟩ | hb
  · rw [hr]
    have heq := (tableLeafProbe_eqOnly he).1 hst
    rw [hget hi] at heq
    have hon : ∀ m, op.found (compare m rowid) = true → rows[i] = m := by
      intro m hm
      rw [compare_eq_iff_eq.mp heq,← compare_eq_iff_eq.mp ((hfo _).mp hm)]
    refine ⟨fun j hj => ?_,nofun⟩
    cases hj
    refine ⟨rows[i],getElem?_eq_getElem hi,getElem_mem hi,(hfo _).mpr heq,?_,?_⟩
    · exact fun _ m _ hm => Int.le_of_eq (hon m hm)
    · exact fun _ m _ hm => Int.le_of_eq (hon m hm).symm
  · generalize boundaryOf (fun i => op.tableLeafProbe (compare (rows.getD i 0) rowid)) rows.length = b at hb
    constructor
    · intro i hi
      obtain ⟨-,goLeft,hp⟩ := (hb.found i hi).resolve_left (by simp)
      exact absurd hp ((tableLeafProbe_eqOnly he).2.1 goLeft)
    · intro _ m hm
      obtain ⟨i,hi,rfl⟩ := getElem_of_mem hm
      rw [Bool.eq_false_iff]
      intro hf
      have heq := compare_eq_iff_eq.mp ((hfo _).mp hf)
      rcases Nat.lt_or_ge i b with hlt | hge
      · have hlast : b - 1 < rows.length := by
          have := hb.upper
          omega
        have htu := (tableLeafProbe_eqOnly he).2.2.1 (hb.right _ (hb.before (by omega)) (by omega))
        rw [hget hlast,compare_lt_iff_lt] at htu
        rcases Nat.lt_or_eq_of_le (Nat.le_sub_one_of_lt hlt) with hlt | rfl
        · have := hso i (b - 1) hi hlast hlt
          omega
        · omega
      · have hnext : b < rows.length := by omega
        have htu := (tableLeafProbe_eqOnly he).2.2.2 (hb.left _ (hb.after hnext) (Nat.le_refl b))
        rw [hget hnext,compare_gt_iff_gt] at htu
        rcases Nat.lt_or_eq_of_le hge with hlt | rfl
        · have := hso b i hnext hi hlt
          omega
        · omega

theorem findsNearest (hs : rows.Pairwise (· < ·)) : FindsNearest op rowid rows
      (searchAll (fun i => op.tableLeafProbe (compare (rows.getD i 0) rowid)) rows.length) := by
  cases he : op.eqOnly with
  | true => exact findsNearest_eqOnly he hs
  | false =>
    have hpr : ∀ o, op.tableLeafProbe o = op.leafProbe o := by simp [tableLeafProbe,he]
    simp only [hpr]
    refine findsNearest_of_leafFound hs (leaf_search (fun k => compare k rowid) rows
      (fun i => compare (rows.getD i 0) rowid) ?_)
    intro i k hk
    simp [hk]

/-- An interior key between the rowid and the row, on which the descent turns away from the row. -/
def Separates (op : SeekOp) (rowid n d : Int) : Prop :=
  match op with
  | .gt => rowid < d ∧ d < n
  | .ge _ => rowid ≤ d ∧ d < n
  | .le _ => n ≤ d ∧ d < rowid
  | .lt => n ≤ d ∧ d + 1 < rowid

/-- Adding one to the largest rowid sends the descent past the last key. -/
def Overflows (pages : Pages Int) (h root : Nat) (rowid : Int) : Prop :=
  (∃ ks ∈ spine pages h root, i64Max ∈ ks) ∧
    ∀ ks ∈ spine pages h root, ∀ k ∈ ks, k ≠ i64Max → k + 1 < rowid

theorem i64Succ_of_lt (hlo : i64Min ≤ k) (hhi : k < i64Max) : i64Succ k = k + 1 := by
  unfold i64Succ i64Min i64Max at *
  omega

theorem i64Succ_i64Max : i64Succ i64Max = i64Min := by
  decide

def Item.row? : Item Int → Option Int
  | .row k => some k
  | .key _ => none

theorem entries_eq (hs : Shape pages .table h page) :
    entries pages h page = (items pages h page).filterMap row? := by
  induction h generalizing page with
  | zero =>
    obtain ⟨cells,hp,-⟩ := hs
    rw [entries_leaf hp,items_leaf hp,filterMap_map]
    exact filterMap_some.symm
  | succ h ih =>
    obtain ⟨cells,right,hp,-,hcells,hri⟩ := hs
    rw [entries_interior hp,items_interior hp,filterMap_append,← ih hri,filterMap_flatMap]
    refine congrArg (· ++ _) (flatMap_congr fun cell hc => ?_)
    rw [filterMap_append,← ih (hcells cell hc)]
    rfl

theorem mem_entries_iff (hs : Shape pages .table h page) (m : Int) :
    m ∈ entries pages h page ↔ row m ∈ items pages h page := by
  rw [entries_eq hs,mem_filterMap]
  constructor
  · rintro ⟨_ | _,hm,⟨⟩⟩
    exact hm
  · exact fun hm => ⟨_,hm,rfl⟩

theorem TableWellFormed.sorted (hw : TableWellFormed pages h root) : (entries pages h root).Pairwise (· < ·) := by
  rw [entries_eq hw.shape,pairwise_filterMap]
  refine hw.ordered.imp ?_
  rintro (a | a) (b | b) hab _ ⟨⟩ _ ⟨⟩
  exact hab

section
variable {after : List (Item Int)}

/-- A table and the leaf a descent leads to. -/
structure Reached (pages : Pages Int) (op : SeekOp) (rowid : Int) (h root : Nat) (rows : List Int)
    (before after : List (Item Int)) : Prop where
  well : TableWellFormed pages h root
  eq : items pages h root = before ++ (rows.map .row ++ after)
  path : ∃ isEq slot eqSeen frames leaf,
    Path pages .table (tableOnLeft op rowid) isEq slot eqSeen h root frames leaf before after

theorem Reached.sorted (hr : Reached pages op rowid h root rows before after) : rows.Pairwise (· < ·) := by
  have hord := hr.well.ordered
  rw [hr.eq,pairwise_append,pairwise_append,pairwise_map] at hord
  exact hord.2.1.1

section

variable (hr : Reached pages op rowid h root rows before after)
include hr

/-- Right before the leaf stands a key the descent turned right at. -/
theorem Reached.before_key (hi : item ∈ before) : ∃ d, key d ∈ before ∧ before.getLast? = some (.key d) ∧
      tableOnLeft op rowid d = false ∧ item.val ≤ d := by
  obtain ⟨isEq,slot,eqSeen,frames,leaf,hpath⟩ := hr.path
  rcases eq_nil_or_concat' before with rfl | ⟨init,last,rfl⟩
  · cases hi
  have hlast : (init ++ [last]).getLast? = some last := by simp
  obtain ⟨d,rfl,hd,-⟩ := hpath.before_last hlast
  refine ⟨d,by simp,hlast,hd,?_⟩
  have hord := hr.well.ordered
  rw [hr.eq] at hord
  have hin := (pairwise_append.mp (pairwise_append.mp hord).1).2.2
  rcases mem_append.mp hi with hi | hi
  · have := hin item hi (.key d) (by simp)
    cases item with
    | row a => exact this
    | key a => exact Int.le_of_lt this
  · rw [mem_singleton.mp hi]
    exact Int.le_refl _

/-- Right after it stands one the descent turned left at. -/
theorem Reached.after_key (hi : item ∈ after) :
    ∃ d, key d ∈ after ∧ tableOnLeft op rowid d = true ∧ (item = .key d ∨ d < item.val) := by
  obtain ⟨isEq,slot,eqSeen,frames,leaf,hpath⟩ := hr.path
  cases after with
  | nil => cases hi
  | cons first rest =>
    obtain ⟨d,rfl,hd,-⟩ := hpath.after_head rfl
    refine ⟨d,mem_cons_self,hd,?_⟩
    rcases mem_cons.mp hi with rfl | hi
    · exact .inl rfl
    · have hord := hr.well.ordered
      rw [hr.eq] at hord
      have hre := (pairwise_append.mp (pairwise_append.mp hord).2.1).2.1
      have := rel_of_pairwise_cons hre hi
      cases item with
      | row a | key a => exact .inr this

theorem Reached.range (hi : item ∈ before ∨ item ∈ after) : i64Min ≤ item.val ∧ item.val ≤ i64Max := by
  refine hr.well.range item ?_
  rw [hr.eq]
  rcases hi with hi | hi
  · exact mem_append_left _ hi
  · exact mem_append_right _ (mem_append_right _ hi)

end

section

variable (hr : Reached pages op rowid h root rows before after)
include hr

/-- A key before the leaf is below its rows, and one after it is not. -/
theorem Reached.key_lt (hn : n ∈ rows) (hd : key d ∈ before) : d < n := by
  have hord := hr.well.ordered
  rw [hr.eq] at hord
  exact (pairwise_append.mp hord).2.2 _ hd (.row n) (by simp [hn])

theorem Reached.le_key (hn : n ∈ rows) (hd : key d ∈ after) : n ≤ d := by
  have hord := hr.well.ordered
  rw [hr.eq] at hord
  exact (pairwise_append.mp (pairwise_append.mp hord).2.1).2.2 (.row n) (by simp [hn]) _ hd

theorem Reached.key_cases (hd : key d ∈ items pages h root) : key d ∈ before ∨ key d ∈ after := by
  rw [hr.eq] at hd
  simpa using hd

omit hr in
/-- The last key being the largest rowid, the descent for LT has overflowed there. -/
theorem Reached.overflows (hr : Reached pages .lt rowid h root rows before after)
    (hlast : before.getLast? = some (.key i64Max)) : Overflows pages h root rowid := by
  obtain ⟨isEq,slot,eqSeen,frames,leaf,hpath⟩ := hr.path
  have hord := hr.well.ordered
  have haf : after = [] := by
    cases after with
    | nil => rfl
    | cons item rest =>
      have hite := (hr.range (.inr mem_cons_self) : _ ∧ item.val ≤ i64Max).2
      rw [hr.eq] at hord
      have := (pairwise_append.mp hord).2.2 (.key i64Max) (mem_of_getLast? hlast) item (by simp)
      cases item with
      | row a | key a =>
        simp only [Item.Before,val] at this hite
        omega
  refine ⟨hpath.before_last_spine haf hlast,fun ks hks k hk hne => ?_⟩
  obtain ⟨hri,htwo⟩ := hpath.spine_right haf ks hks
  have hsub := hord.sublist (spine_sublist hks)
  rw [pairwise_map] at hsub
  have hmem : ∀ d ∈ ks, i64Min ≤ d ∧ d ≤ i64Max := fun d hd =>
    hr.well.range (.key d) ((spine_sublist hks).mem (mem_map_of_mem hd))
  -- Every key but the largest rowid is at most one that turned the descent right.
  have hpa : ∀ d ∈ ks, d ≠ i64Max → tableOnLeft .lt rowid d = false → d + 1 < rowid := by
    intro d hd hne htu
    have hra := hmem d hd
    rw [tableOnLeft,i64Succ_of_lt hra.1 (by omega)] at htu
    simpa using htu
  rcases eq_nil_or_concat' ks with rfl | ⟨init,last,rfl⟩
  · cases hk
  have hbe := (pairwise_append.mp hsub).2.2
  have hle : k ≤ last := by
    rcases mem_append.mp hk with hk | hk
    · exact Int.le_of_lt (hbe k hk last (by simp))
    · exact Int.le_of_eq (mem_singleton.mp hk)
  by_cases hl : last = i64Max
  · rcases mem_append.mp hk with hk | hk
    · rcases eq_nil_or_concat' init with rfl | ⟨init,second,rfl⟩
      · cases hk
      have hse : second < last := hbe second (by simp) last (by simp)
      have := hpa second (by simp) (by omega) (htwo init second last (by simp))
      have hle : k ≤ second := by
        rcases mem_append.mp hk with hk | hk
        · exact Int.le_of_lt ((pairwise_append.mp (pairwise_append.mp hsub).1).2.2 k hk second (by simp))
        · exact Int.le_of_eq (mem_singleton.mp hk)
      omega
    · exact absurd ((mem_singleton.mp hk).trans hl) hne
  · have := hpa last (by simp) hl (hri last (by simp))
    omega

omit hr in
theorem SeekOp.le_of_found_ge {eqOnly : Bool}
    (hf : (ge eqOnly).found (compare n rowid) = true) : rowid ≤ n := by
  cases ho : compare n rowid with
  | lt => cases eqOnly <;> simp [found,ho] at hf
  | eq => exact Int.le_of_eq (compare_eq_iff_eq.mp ho).symm
  | gt => exact Int.le_of_lt (compare_gt_iff_gt.mp ho)

omit hr in
theorem SeekOp.le_of_found_le {eqOnly : Bool}
    (hf : (le eqOnly).found (compare n rowid) = true) : n ≤ rowid := by
  cases ho : compare n rowid with
  | gt => cases eqOnly <;> simp [found,ho] at hf
  | eq => exact Int.le_of_eq (compare_eq_iff_eq.mp ho)
  | lt => exact Int.le_of_lt (compare_lt_iff_lt.mp ho)

/-- A row the operation looks for is in the leaf, unless the descent turned away from it. -/
theorem Reached.mem_or (hn : row n ∈ items pages h root) (hf : op.found (compare n rowid) = true) :
    n ∈ rows ∨ (∃ d, key d ∈ items pages h root ∧ Separates op rowid n d) ∨
      op = .lt ∧ Overflows pages h root rowid := by
  rw [hr.eq,mem_append,mem_append] at hn
  rcases hn with hn | hn | hn
  · obtain ⟨d,hd,hlast,htu,hle⟩ := hr.before_key hn
    have hra := hr.range (.inl hd)
    have hite : key d ∈ items pages h root := by
      rw [hr.eq]
      exact mem_append_left _ hd
    simp only [val] at hle hra
    cases op with
    | gt =>
      simp [found,compare_gt_iff_gt,tableOnLeft] at hf htu
      omega
    | ge eqOnly =>
      have := le_of_found_ge hf
      simp [tableOnLeft] at htu
      omega
    | le eqOnly =>
      simp [tableOnLeft] at htu
      exact .inr (.inl ⟨d,hite,hle,htu⟩)
    | lt =>
      by_cases hmax : d = i64Max
      · subst hmax
        exact .inr (.inr ⟨rfl,hr.overflows hlast⟩)
      · rw [tableOnLeft,i64Succ_of_lt hra.1 (by omega)] at htu
        simp at htu
        exact .inr (.inl ⟨d,hite,hle,htu⟩)
  · simp only [mem_map,row.injEq,exists_eq_right] at hn
    exact .inl hn
  · obtain ⟨d,hd,htu,hlt⟩ := hr.after_key hn
    have hlt : d < n := by simpa [val] using hlt
    have hra := hr.range (.inr hd)
    have hmax := (hr.range (.inr hn)).2
    have hite : key d ∈ items pages h root := by
      rw [hr.eq]
      exact mem_append_right _ (mem_append_right _ hd)
    simp only [val] at hra hmax
    cases op with
    | gt | ge eqOnly =>
      simp [tableOnLeft] at htu
      exact .inr (.inl ⟨d,hite,htu,hlt⟩)
    | le eqOnly =>
      have := le_of_found_le hf
      simp [tableOnLeft] at htu
      omega
    | lt =>
      rw [tableOnLeft,i64Succ_of_lt hra.1 (by omega)] at htu
      simp [found,compare_lt_iff_lt] at hf htu
      omega

theorem Reached.not_separates (hro : rowid ≤ i64Max) (hn : n ∈ rows) (hd : key d ∈ items pages h root) :
    ¬ Separates op rowid n d := by
  intro hsep
  rcases hr.key_cases hd with hd | hd
  · have hlt := hr.key_lt hn hd
    obtain ⟨e,-,-,htu,hle⟩ := hr.before_key hd
    simp only [val] at hle
    cases op with
    | gt | ge =>
      simp [Separates,tableOnLeft] at hsep htu
      omega
    | le | lt =>
      simp only [Separates] at hsep
      omega
  · have hle := hr.le_key hn hd
    obtain ⟨e,he,htu,hed⟩ := hr.after_key hd
    have hed : e ≤ d := by
      rcases hed with hed | hed
      · cases hed
        exact Int.le_refl _
      · exact Int.le_of_lt hed
    have hra := hr.range (.inr he)
    simp only [val] at hra
    cases op with
    | gt | ge =>
      simp only [Separates] at hsep
      omega
    | le =>
      simp [Separates,tableOnLeft] at hsep htu
      omega
    | lt =>
      simp only [Separates] at hsep
      rw [tableOnLeft,i64Succ_of_lt hra.1 (by omega)] at htu
      simp at htu
      omega

end

theorem Reached.not_overflows (hr : Reached pages .lt rowid h root rows before after)
    (hn : n ∈ rows) (hf : n < rowid) : ¬ Overflows pages h root rowid := by
  rintro ⟨⟨ks,hks,hmax⟩,hot⟩
  have hrow : i64Min ≤ n ∧ n ≤ i64Max := by
    refine hr.well.range (.row n) ?_
    rw [hr.eq]
    simp [hn]
  have hite : key i64Max ∈ items pages h root :=
    (spine_sublist hks).mem (mem_map_of_mem hmax)
  obtain ⟨isEq,slot,eqSeen,frames,leaf,hpath⟩ := hr.path
  have haf : after = [] := by
    refine hpath.after_eq_nil fun ks hks k hk => ?_
    have hra : i64Min ≤ k ∧ k ≤ i64Max :=
      hr.well.range (.key k) ((spine_sublist hks).mem (mem_map_of_mem hk))
    by_cases he : k = i64Max
    · subst he
      simp only [tableOnLeft,i64Succ_i64Max,decide_eq_false_iff_not]
      omega
    · have := hot ks hks k hk he
      simp only [tableOnLeft,i64Succ_of_lt hra.1 (by omega),decide_eq_false_iff_not]
      omega
  rcases hr.key_cases hite with hd | hd
  · have := hr.key_lt hn hd
    omega
  · rw [haf] at hd
    cases hd

end

namespace Cursor

def SeeksRight (pages : Pages Int) (h : Nat) (c : Cursor) (rowid : Int) (op : SeekOp) : Prop :=
  ∃ fuel found c', c.tablebtreeSeek pages rowid op fuel = some (.ok (found, c')) ∧
    (found = true ↔ ∃ m ∈ entries pages h c.rootPage, op.found (compare m rowid) = true) ∧
    (found = true → ∃ n, c'.current pages = some n ∧ Nearest op rowid (entries pages h c.rootPage) n)

variable {pages : Pages Int} {op : SeekOp} {rowid : Int} {h : Nat} {c : Cursor}

theorem tableSeekLeaf_spec (hp : pages leaf = .ok (.leaf .table rows)) (hs : rows.Pairwise (· < ·)) :
    ∃ found c', tableSeekLeaf pages rowid op (c.moved ((leaf,idx) :: parents) g) = .ok (found,c') ∧
      (found = true → ∃ k, c'.current pages = some k ∧ Nearest op rowid rows k) ∧
      (found = false → ∀ m ∈ rows, op.found (compare m rowid) = false) := by
  have hle : (c.moved ((leaf, idx) :: parents) g).leafCells pages = some (leaf, parents, rows) := by
    simp [leafCells,hp]
  obtain ⟨hso,hnone⟩ := findsNearest hs
  cases hro : rows with
  | nil =>
    rw [hro] at hle
    refine ⟨false,c.moved ((leaf, 0) :: parents) g,?_,nofun,fun _ => nofun⟩
    simp [tableSeekLeaf,hle]
  | cons row rest =>
    rw [← hro]
    cases hsearch : searchAll (fun i => op.tableLeafProbe (compare (rows.getD i 0) rowid)) rows.length with
    | none =>
      refine ⟨false,c.moved ((leaf, idx) :: parents) g,?_,nofun,fun _ => hnone hsearch⟩
      rw [hro] at hle hsearch
      simp only [tableSeekLeaf,hle,hsearch]
    | some i =>
      obtain ⟨k,hk,hne⟩ := hso i hsearch
      refine ⟨true,c.moved ((leaf, i) :: parents) g,?_,fun _ => ⟨k,?_,hne⟩,nofun⟩
      · rw [hro] at hle hsearch
        simp only [tableSeekLeaf,hle,hsearch,setStack_moved]
      · simp [current,hp,PageContent.cellGet,hk]

theorem tablebtreeSeek_reached (hw : TableWellFormed pages h c.rootPage) (hh : h < btcursorMaxDepth) :
    ∃ rows before after fuel found c', Reached pages op rowid h c.rootPage rows before after ∧
      c.tablebtreeSeek pages rowid op fuel = some (.ok (found,c')) ∧
      (found = true → ∃ k, c'.current pages = some k ∧ Nearest op rowid rows k) ∧
      (found = false → ∀ m ∈ rows, op.found (compare m rowid) = false) := by
  obtain ⟨eq',frames,leaf,before,after,-,hpath,fuel,hen⟩ :=
    moveTo_path (tableOnLeft op rowid) (fun _ => false) (fun i => i) c false false hw.shape []
      (by simpa using hh)
  obtain ⟨rows,hp,hite⟩ := hpath.items_eq
  have hr : Reached pages op rowid h c.rootPage rows before after :=
    ⟨hw,hite,_,_,_,_,_,hpath⟩
  obtain ⟨found,c',hle,htr,hfa⟩ :=
    tableSeekLeaf_spec hp hr.sorted
  refine ⟨rows,before,after,fuel,found,c',hr,?_,htr,hfa⟩
  have hro : c.moveToRoot = c.moved [(c.rootPage, -1)] false := rfl
  simp only [tablebtreeSeek,tablebtreeMoveTo,hro,hen]
  exact congrArg some hle

theorem tablebtreeSeek_tooDeep (hs : Shape pages .table h c.rootPage) (hh : btcursorMaxDepth ≤ h) :
    ∃ fuel, c.tablebtreeSeek pages rowid op fuel = some (.error tooDeep) := by
  obtain ⟨fuel,hen⟩ := moveTo_tooDeep (tableOnLeft op rowid) (fun _ => false) (fun i => i) c false
    false hs [] (by simp [btcursorMaxDepth]) (by simpa using hh)
  refine ⟨fuel,?_⟩
  have hro : c.moveToRoot = c.moved [(c.rootPage, -1)] false := rfl
  simp only [tablebtreeSeek,tablebtreeMoveTo,hro,hen]
  rfl

theorem tablebtreeSeek_unique (hn : c.tablebtreeSeek pages rowid op n = some r)
    (hm : c.tablebtreeSeek pages rowid op m = some r') : r = r' := by
  obtain ⟨s,hs,rfl⟩ := Option.map_eq_some_iff.mp hn
  obtain ⟨s',hs',rfl⟩ := Option.map_eq_some_iff.mp hm
  have : s = s' := Ends.unique ⟨n,hs⟩ ⟨m,hs'⟩
  rw [this]

/-- The seek is right where the tree is not too deep and no interior key stands between the rowid
and the nearest row: the search does not leave the leaf it comes to. -/
theorem tablebtreeSeek_right_iff (hw : TableWellFormed pages h c.rootPage) (hhi : rowid ≤ i64Max) :
    SeeksRight pages h c rowid op ↔
      h < btcursorMaxDepth ∧ ∀ n, Nearest op rowid (entries pages h c.rootPage) n →
        (∀ d, .key d ∈ items pages h c.rootPage → ¬ Separates op rowid n d) ∧
          ¬ (op = .lt ∧ Overflows pages h c.rootPage rowid) := by
  have hrow := mem_entries_iff hw.shape
  constructor
  · rintro ⟨fuel,found,c',hse,hiff,hcur⟩
    have hh : h < btcursorMaxDepth := by
      rw [← Nat.not_le]
      intro hde
      obtain ⟨fuel',htoo⟩ := tablebtreeSeek_tooDeep hw.shape hde
      cases tablebtreeSeek_unique hse htoo
    refine ⟨hh,fun n hne => ?_⟩
    obtain ⟨rows,before,after,fuel',found',c'',hr,hse',htr,-⟩ :=
      tablebtreeSeek_reached hw hh
    cases tablebtreeSeek_unique hse hse'
    have hfo := hiff.mpr ⟨n,hne.mem,hne.found⟩
    obtain ⟨n',hcur',hne'⟩ := hcur hfo
    obtain ⟨k,hk,hle⟩ := htr hfo
    rw [hcur'] at hk
    cases hk
    cases hne.unique hne'
    refine ⟨fun d hd => hr.not_separates hhi hle.mem hd,?_⟩
    rintro ⟨rfl,hov⟩
    exact hr.not_overflows hle.mem (by simpa [SeekOp.found,compare_lt_iff_lt] using hle.found) hov
  · rintro ⟨hh,hnot⟩
    obtain ⟨rows,before,after,fuel,found,c',hr,hse,htr,hfa⟩ :=
      tablebtreeSeek_reached hw hh
    have hle : ∀ n, Nearest op rowid (entries pages h c.rootPage) n → n ∈ rows := by
      intro n hne
      rcases hr.mem_or ((hrow n).mp hne.mem) hne.found with hn | ⟨d,hd,hsep⟩ | hov
      · exact hn
      · exact absurd hsep ((hnot n hne).1 d hd)
      · exact absurd hov (hnot n hne).2
    have hmem : ∀ k ∈ rows, k ∈ entries pages h c.rootPage := by
      intro k hk
      rw [hrow,hr.eq]
      simp [hk]
    have hso : (∃ m ∈ entries pages h c.rootPage, op.found (compare m rowid) = true) → found = true := by
      rintro ⟨m,hm,hf⟩
      obtain ⟨n,hne⟩ := exists_nearest hm hf
      cases hfo : found with
      | true => rfl
      | false =>
        have := hfa hfo n (hle n hne)
        rw [hne.found] at this
        cases this
    refine ⟨fuel,found,c',hse,⟨fun hf => ?_,hso⟩,fun hf => ?_⟩
    · obtain ⟨k,-,hk⟩ := htr hf
      exact ⟨k,hmem k hk.mem,hk.found⟩
    · obtain ⟨k,hk,hne⟩ := htr hf
      refine ⟨k,hk,?_⟩
      -- The nearest row of the table is in the leaf, so it is the leaf's nearest.
      obtain ⟨n,hn⟩ := exists_nearest (hmem k hne.mem) hne.found
      have hin : Nearest op rowid rows n :=
        ⟨hle n hn,hn.found,fun hd m hm => hn.forwards hd m (hmem m hm),
          fun hd m hm => hn.backwards hd m (hmem m hm)⟩
      rw [hne.unique hin]
      exact hn

/-- Rows 5 and 10 in one leaf, 20 and 30 in the next. -/
def twoLeaves : Pages Int
  | 1 => .ok (.interior .table [(2, 10)] 3)
  | 2 => .ok (.leaf .table [5, 10])
  | 3 => .ok (.leaf .table [20, 30])
  | _ => .error 0

theorem twoLeaves_wellFormed : TableWellFormed twoLeaves 1 1 :=
  ⟨by decide,by decide,by decide⟩

theorem twoLeaves_nearest : Nearest (.le false) 25 (entries twoLeaves 1 1) 20 :=
  ⟨by decide,by decide,by decide,by decide⟩

theorem twoLeaves_le_25 : TableWellFormed twoLeaves 1 1 ∧ SeeksRight twoLeaves 1 (.new 1) 25 (.le false) := by
  refine ⟨twoLeaves_wellFormed,(tablebtreeSeek_right_iff twoLeaves_wellFormed (by decide)).mpr
    ⟨by decide,fun n hn => ⟨fun d hd => ?_,nofun⟩⟩⟩
  obtain rfl : n = 20 := hn.unique twoLeaves_nearest
  have hten : d = 10 := by simpa [items,twoLeaves,new] using hd
  simp [Separates,hten]

/-- LE 15 is not: the largest row at most 15 is in the first leaf, and the seek finds none. -/
theorem twoLeaves_le_15 : TableWellFormed twoLeaves 1 1 ∧ ¬ SeeksRight twoLeaves 1 (.new 1) 15 (.le false) := by
  refine ⟨twoLeaves_wellFormed,?_⟩
  rintro ⟨fuel,found,c',hse,hiff,-⟩
  have hrun : (new 1).tablebtreeSeek twoLeaves 15 (.le false) 3 =
      some (.ok (false, (new 1).setStack [(3, -1),(1, 2)])) := by
    rfl
  cases tablebtreeSeek_unique hse hrun
  exact absurd (hiff.mpr ⟨10,by decide,by decide⟩) (by decide)

end Cursor

end OxiSql.Btree
