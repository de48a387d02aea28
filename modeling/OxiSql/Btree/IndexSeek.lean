import OxiSql.Btree.Ascent

namespace OxiSql.Btree
open Lib OxiSql.Types List SeekOp Item Cursor List.Pairwise

variable {κ : Type} {pages : Pages κ} {h : Nat} {cmp : κ → Ordering} {op : SeekOp}

def Item.entry : Item κ → κ
  | .row k | .key k => k

theorem entries_index (hs : Shape pages .index h page) :
    entries pages h page = (items pages h page).map entry := by
  induction h generalizing page with
  | zero =>
    obtain ⟨cells,hp,-⟩ := hs
    simp [entries_leaf hp,items_leaf hp,Function.comp_def,entry]
  | succ h ih =>
    obtain ⟨cells,right,hp,-,hcells,hri⟩ := hs
    rw [entries_interior hp,items_interior hp,map_append,map_flatMap,ih hri]
    congr 1
    refine flatMap_congr fun cell hc => ?_
    simp [ih (hcells cell hc),divider,entry]

def beyond (op : SeekOp) (before after : List (Item κ)) : Option κ :=
  match op.iterationDirection with
  | .forwards => after.head?.map entry
  | .backwards => before.getLast?.map entry

/-- The answer of a seek that has come to a leaf, and the entry it stands on then. -/
def answer (cmp : κ → Ordering) (op : SeekOp) (rows : List κ) (eqSeen : Bool) (next : Option κ) :
    Bool × Option κ :=
  if rows = [] then (next.isSome, next)
  else
    match searchAll (indexLeafProbe cmp op rows) rows.length with
    | some i => (true, rows[i]?)
    | none =>
      if op.eqOnly ∧ ¬ eqSeen then (false, none)
      else (next.any fun k => op.found (cmp k), next)

namespace Cursor
variable {c : Cursor}

def Answers (pages : Pages κ) (c : Cursor) (cmp : κ → Ordering) (op : SeekOp)
    (found : Bool) (k : Option κ) : Prop :=
  ∃ fuel c', c.seekIndex pages cmp op fuel = some (.ok (found, c')) ∧
    (found = true → c'.current pages = k)

theorem seekIndex_of_ends
    (hdown : Ends (indexbtreeMoveTo pages cmp op) (c.moveToRoot,false) (.ok (c',eqSeen)))
    (hle : ∀ m, n ≤ m → indexSeekLeaf pages cmp op m c' eqSeen = some r) :
    ∃ fuel, c.seekIndex pages cmp op fuel = some r := by
  obtain ⟨m,hm⟩ := hdown
  refine ⟨max m n,?_⟩
  rw [seekIndex,loop_mono hm (Nat.le_max_left ..)]
  exact hle _ (Nat.le_max_right ..)

theorem StopsOn.loop (hs : StopsOn pages body s k) :
    ∃ n c', (∀ m, n ≤ m → Lib.loop body m s = some (.ok (true,c'))) ∧ c'.parentCell pages = some k := by
  obtain ⟨c',⟨n,hn⟩,hk⟩ := hs
  exact ⟨n,c',fun m hm => loop_mono hn hm,hk⟩

def LeavesAt (op : SeekOp) (rows : List κ) (idx : Int) : Prop :=
  rows = [] ∧ idx = 0 ∨
    (op.iterationDirection = .forwards ∧ idx = rows.length) ∨
    op.iterationDirection = .backwards ∧ idx = -1

theorem getNextRecord_past (hp : pages leaf = .ok (.leaf .index rows)) (hi : rows.length ≤ idx) :
    getNextRecord pages (c.moved ((leaf,idx) :: parents) false) =
      (c.moved ((leaf,(idx + 1 : Nat)) :: parents) false).goUp parents := by
  have hidx : (idx : Int) = ((idx + 1 : Nat) : Int) - 1 := by omega
  have hne : ¬ (idx + 1 = rows.length) := by omega
  have hlt : rows.length < idx + 1 := by omega
  rw [hidx,getNextRecord_to hp (by simp)]
  simp [PageContent.cellCount,hne,hlt]

theorem getPrevRecord_first (hp : pages leaf = .ok (.leaf .index rows)) (hi : rows = [] ∧ idx = 0 ∨ idx = -1) :
    getPrevRecord pages (c.moved ((leaf,idx) :: parents) false) =
      (c.moved ((leaf,-1) :: parents) false).climb ((leaf,-1) :: parents) := by
  rcases hi with ⟨rfl,rfl⟩ | rfl
  · exact (getPrevRecord_leaf hp (.inr ⟨by simp [PageContent.cellCount],rfl⟩) fun _ => rfl).trans landOn_neg
  · rw [getPrevRecord,onTop_moved hp,if_neg (by simp [i32Max]),stepBack,if_neg (by omega),if_neg (by decide)]
    exact landOn_neg

theorem advance_beyond {before after : List (Item κ)}
    (hpa : Path pages .index onLeft isEq (indexSlot op) eqSeen h page frames leaf before after)
    (hp : pages leaf = .ok (.leaf .index rows)) (hi : LeavesAt op rows idx) :
    (∀ d, beyond op before after = some d →
      StopsOn pages (advance pages op) (c.moved ((leaf,idx) :: frames) false) d) ∧
    (beyond op before after = none →
      ∃ c', Ends (advance pages op) (c.moved ((leaf,idx) :: frames) false) (.ok (false,c'))) := by
  cases hdir : op.iterationDirection with
  | forwards =>
    obtain ⟨i,rfl,hle⟩ : ∃ i : Nat, idx = i ∧ rows.length ≤ i := by
      rcases hi with ⟨rfl,rfl⟩ | ⟨-,rfl⟩ | ⟨hd,-⟩
      · exact ⟨0,rfl,by simp⟩
      · exact ⟨_,rfl,Nat.le_refl _⟩
      · rw [hdir] at hd
        cases hd
    have hm : getNextRecord pages (c.moved ((leaf, (i : Int)) :: frames) false) =
        (c.moved ((leaf, (i + 1 : Nat)) :: frames) false).goUp (frames ++ []) := by
      rw [append_nil]
      exact getNextRecord_past hp hle
    obtain ⟨hst,hlea⟩ := hpa.next (fun i => by simp [indexSlot,hdir]) [] hm
    have hbo : advance pages op = getNextRecord pages := by simp [advance,hdir]
    rw [hbo,beyond,hdir]
    refine ⟨fun d hd => ?_,fun hd => (hlea ?_).ends rfl⟩
    · obtain ⟨item,hite,rfl⟩ := Option.map_eq_some_iff.mp hd
      obtain ⟨k,rfl,-⟩ := hpa.after_head hite
      exact hst k hite
    · simpa using hd
  | backwards =>
    have hm : getPrevRecord pages (c.moved ((leaf, idx) :: frames) false) =
        (c.moved ((leaf, -1) :: frames) false).climb ((leaf, -1) :: (frames ++ [])) := by
      rw [append_nil]
      refine getPrevRecord_first hp ?_
      rcases hi with hi | ⟨hd,-⟩ | ⟨-,hi⟩
      · exact .inl hi
      · rw [hdir] at hd
        cases hd
      · exact .inr hi
    obtain ⟨hst,hlea⟩ := hpa.prev (fun i => by simp [indexSlot,hdir]) [] hm
    have hbo : advance pages op = getPrevRecord pages := by simp [advance,hdir]
    rw [hbo,beyond,hdir]
    refine ⟨fun d hd => ?_,fun hd => (hlea ?_).ends rfl⟩
    · obtain ⟨item,hite,rfl⟩ := Option.map_eq_some_iff.mp hd
      obtain ⟨k,rfl,-⟩ := hpa.before_last hite
      exact hst k hite
    · simpa using hd

theorem seekIndex_answers (hs : Shape pages .index h c.rootPage)
    (hh : h < btcursorMaxDepth) : ∃ eqSeen frames leaf before rows after,
      Path pages .index (fun k => op.left (cmp k)) (fun k => (cmp k).isEq) (indexSlot op) eqSeen h
        c.rootPage frames leaf before after ∧
      pages leaf = .ok (.leaf .index rows) ∧
      items pages h c.rootPage = before ++ (rows.map .row ++ after) ∧
      Answers pages c cmp op (answer cmp op rows eqSeen (beyond op before after)).1
        (answer cmp op rows eqSeen (beyond op before after)).2 := by
  obtain ⟨eqSeen,frames,leaf,before,after,-,hpa,hdown⟩ :=
    moveTo_path (fun k => op.left (cmp k)) (fun k => (cmp k).isEq) (indexSlot op) c false false hs []
      (by simpa using hh)
  obtain ⟨rows,hp,hite⟩ := hpa.items_eq
  rw [append_nil] at hdown
  refine ⟨eqSeen,frames,leaf,before,rows,after,hpa,hp,hite,?_⟩
  have hle : (c.moved ((leaf, -1) :: frames) false).leafCells pages = some (leaf, frames, rows) := by
    simp [leafCells,hp]
  have hro : Ends (indexbtreeMoveTo pages cmp op) (c.moveToRoot, false)
      (.ok (c.moved ((leaf, -1) :: frames) false, eqSeen)) := hdown
  -- Where the seek leaves the leaf, for the cell index it leaves it from.
  have hmo : ∀ idx, LeavesAt op rows idx → ∃ n c', (∀ m, n ≤ m →
      loop (advance pages op) m (c.moved ((leaf, idx) :: frames) false) =
        some (.ok ((beyond op before after).isSome, c'))) ∧
      ∀ k, beyond op before after = some k → c'.parentCell pages = some k := by
    intro idx hi
    obtain ⟨hso,hnone⟩ := advance_beyond hpa hp hi
    cases hb : beyond op before after with
    | none =>
      obtain ⟨c',n,hn⟩ := hnone hb
      exact ⟨n,c',fun m hm => loop_mono hn hm,by simp⟩
    | some k =>
      obtain ⟨n,c',hn,hk⟩ := (hso k hb).loop
      exact ⟨n,c',hn,fun _ he => Option.some.inj he ▸ hk⟩
  unfold answer
  by_cases hrow : rows = []
  · rw [if_pos hrow]
    obtain ⟨n,c',hn,hk⟩ := hmo 0 (.inl ⟨hrow,rfl⟩)
    obtain ⟨fuel,hfu⟩ := seekIndex_of_ends hro (r := .ok (_, c')) (fun m hm => by
      rw [hrow] at hle
      simp only [indexSeekLeaf,hle]
      exact hn m hm)
    refine ⟨fuel,c',hfu,fun hf => ?_⟩
    obtain ⟨k,hb⟩ := Option.isSome_iff_exists.mp hf
    simp only [hb]
    exact current_of_parentCell (hk k hb)
  · rw [if_neg hrow]
    have hcells : ∀ m, indexSeekLeaf pages cmp op m (c.moved ((leaf, -1) :: frames) false) eqSeen =
        match searchAll (indexLeafProbe cmp op rows) rows.length with
        | some i => some (.ok (true, c.moved ((leaf, i) :: frames) false))
        | none =>
          if op.eqOnly ∧ ¬ eqSeen then
            some (.ok (false, c.moved ((leaf,
              ((probed (indexLeafProbe cmp op rows) rows.length).getLastD 0 : Nat)) :: frames) false))
          else
            (loop (advance pages op) m (c.moved ((leaf, match op.iterationDirection with
              | .forwards => rows.length
              | .backwards => -1) :: frames) false)).map (seekParent pages cmp op) := by
      intro m
      cases hr : rows with
      | nil => exact absurd hr hrow
      | cons row rest =>
        rw [hr] at hle
        simp only [indexSeekLeaf,hle]
        rfl
    cases hsearch : searchAll (indexLeafProbe cmp op rows) rows.length with
    | some i =>
      simp only [hsearch] at hcells
      obtain ⟨fuel,hfu⟩ := seekIndex_of_ends hro (n := 0) fun m _ => hcells m
      refine ⟨fuel,_,hfu,fun _ => ?_⟩
      cases hk : rows[i]? <;> simp [current,hp,PageContent.cellGet,hk]
    | none =>
      simp only [hsearch] at hcells
      by_cases hse : op.eqOnly = true ∧ ¬ eqSeen = true
      · simp only [if_pos hse] at hcells ⊢
        obtain ⟨fuel,hfu⟩ := seekIndex_of_ends hro (n := 0) fun m _ => hcells m
        exact ⟨fuel,_,hfu,by simp⟩
      · simp only [if_neg hse] at hcells ⊢
        obtain ⟨n,c',hn,hk⟩ := hmo (match op.iterationDirection with
          | .forwards => rows.length
          | .backwards => -1) (by
            cases hdir : op.iterationDirection with
            | forwards => exact .inr (.inl ⟨hdir,rfl⟩)
            | backwards => exact .inr (.inr ⟨hdir,rfl⟩))
        obtain ⟨fuel,hfu⟩ := seekIndex_of_ends hro fun m hm => by
          rw [hcells,hn m hm,Option.map_some]
        cases hb : beyond op before after with
        | none => exact ⟨fuel,c',by simpa [seekParent,hb] using hfu,by simp⟩
        | some k =>
          have hcell := hk k hb
          refine ⟨fuel,c',by simpa [seekParent,hb,hcell] using hfu,fun _ => ?_⟩
          exact current_of_parentCell hcell

end Cursor

section

variable (he : op.eqOnly = false)
include he

theorem SeekOp.found_eq_left (hdir : op.iterationDirection = .forwards) : op.found o = op.left o := by
  cases op with
  | gt => rfl
  | ge eqOnly =>
    obtain rfl : eqOnly = false := he
    rfl
  | le | lt => cases hdir

theorem SeekOp.found_eq_not_left (hdir : op.iterationDirection = .backwards) : op.found o = !op.left o := by
  cases op with
  | gt | ge => cases hdir
  | le eqOnly =>
    obtain rfl : eqOnly = false := he
    cases o <;> rfl
  | lt => cases o <;> rfl

theorem SeekOp.found_of_near (hl : ∀ k, l.getLast? = some k → op.left (cmp k) = false)
    (hr : ∀ k, r.head? = some k → op.left (cmp k) = true) (hk : near op l r = some k) :
    op.found (cmp k) = true := by
  unfold near at hk
  split at hk
  next hdir => rw [found_eq_left he hdir,hr k hk]
  next hdir => rw [found_eq_not_left he hdir,hl k hk,Bool.not_false]

end

/-- Only an exact operation turns to an entry that it does not take. -/
theorem SeekOp.missed_forwards (hdir : op.iterationDirection = .forwards)
    (hl : op.left o = true) (hf : op.found o = false) : op = .ge true ∧ o = .gt := by
  cases op with
  | gt => simp_all [left,found]
  | ge eqOnly => cases eqOnly <;> cases o <;> simp_all [left,found]
  | le | lt => cases hdir

theorem SeekOp.missed_backwards (hdir : op.iterationDirection = .backwards)
    (hl : op.left o = false) (hf : op.found o = false) : op = .le true ∧ o = .lt := by
  cases op with
  | gt | ge => cases hdir
  | le eqOnly => cases eqOnly <;> cases o <;> simp_all [left,found]
  | lt => cases o <;> simp_all [left,found]

variable {rows : List κ}

/-- The leaf a seek comes to, with the cells next to it turning to it. -/
structure Landed (cmp : κ → Ordering) (op : SeekOp) (before : List (Item κ)) (rows : List κ)
    (after : List (Item κ)) (eqSeen : Bool) : Prop where
  beforeKey : ∀ item, before.getLast? = some item →
    ∃ d, item = .key d ∧ op.left (cmp d) = false ∧ (cmp d = .eq → eqSeen = true)
  afterKey : ∀ item, after.head? = some item →
    ∃ d, item = .key d ∧ op.left (cmp d) = true ∧ (cmp d = .eq → eqSeen = true)

def place (cmp : κ → Ordering) (op : SeekOp) (rows : List κ) : Nat :=
  boundaryOf (indexLeafProbe cmp op rows) rows.length

def leftSide (cmp : κ → Ordering) (op : SeekOp) (before : List (Item κ)) (rows : List κ) : List κ :=
  before.map entry ++ rows.take (place cmp op rows)

def rightSide (cmp : κ → Ordering) (op : SeekOp) (rows : List κ) (after : List (Item κ)) : List κ :=
  rows.drop (place cmp op rows) ++ after.map entry

theorem sides_append (rows : List κ) (after : List (Item κ)) :
    leftSide cmp op before rows ++ rightSide cmp op rows after =
      (before ++ (rows.map row ++ after)).map entry := by
  have hro : rows.map (entry ∘ row) = rows := map_id rows
  rw [leftSide,rightSide,append_assoc,← append_assoc (rows.take _),
    take_append_drop,map_append,map_append,map_map,hro]

theorem place_search (cmp : κ → Ordering) (op : SeekOp) (rows : List κ) :
    LeafFound op cmp rows (rows.take (place cmp op rows)) (rows.drop (place cmp op rows))
      (searchAll (indexLeafProbe cmp op rows) rows.length) :=
  leaf_search cmp rows (fun i => (rows.map cmp).getD i .eq) fun i k hk => by
    simp [hk]

/-- Operations that turn alike end at the same place. -/
theorem place_congr (h : op.left = op'.left) (rows : List κ) : place cmp op rows = place cmp op' rows := by
  refine landing_congr (fun i => ?_) (fun i => ?_) (fun i => ?_)
  · unfold indexLeafProbe leafProbe
    split
    · simp
    · split <;> simp
  · simp [indexLeafProbe,leafProbe_turnsLeft,h]
  · simp [indexLeafProbe,leafProbe_turnsRight,h]

namespace Landed
variable {before after : List (Item κ)}

variable (hl : Landed cmp op before rows after eqSeen)
include hl

theorem left_last (hk : (leftSide cmp op before rows).getLast? = some k) : op.left (cmp k) = false := by
  rw [leftSide,getLast?_append,Option.or_eq_some_iff] at hk
  rcases hk with hk | ⟨-,hk⟩
  · exact (place_search cmp op rows).turnsRight k hk
  · rw [getLast?_map,Option.map_eq_some_iff] at hk
    obtain ⟨item,hite,rfl⟩ := hk
    obtain ⟨d,rfl,hd,-⟩ := hl.beforeKey item hite
    exact hd

theorem right_head (hk : (rightSide cmp op rows after).head? = some k) : op.left (cmp k) = true := by
  rw [rightSide,head?_append,Option.or_eq_some_iff] at hk
  rcases hk with hk | ⟨-,hk⟩
  · exact (place_search cmp op rows).turnsLeft k hk
  · rw [head?_map,Option.map_eq_some_iff] at hk
    obtain ⟨item,hite,rfl⟩ := hk
    obtain ⟨d,rfl,hd,-⟩ := hl.afterKey item hite
    exact hd

omit hl in
theorem beyond_mem (h : beyond op before after = some k) : k ∈ before.map entry ++ after.map entry := by
  have hne : near op (before.map entry) (after.map entry) = some k := by
    cases hdir : op.iterationDirection <;> simpa [near,beyond,hdir] using h
  exact near_mem hne

omit hl in
theorem near_sides : near op (leftSide cmp op before rows) (rightSide cmp op rows after) =
    (near op (rows.take (place cmp op rows)) (rows.drop (place cmp op rows))).or (beyond op before after) := by
  cases hdir : op.iterationDirection <;>
    simp [near,beyond,hdir,leftSide,rightSide,head?_append,getLast?_append]

theorem beyond_seen (hd : beyond op before after = some d) (heq : cmp d = .eq) : eqSeen = true := by
  unfold beyond at hd
  split at hd
  · obtain ⟨item,hite,rfl⟩ := Option.map_eq_some_iff.mp hd
    obtain ⟨d,rfl,-,hse⟩ := hl.afterKey item hite
    exact hse heq
  · obtain ⟨item,hite,rfl⟩ := Option.map_eq_some_iff.mp hd
    obtain ⟨d,rfl,-,hse⟩ := hl.beforeKey item hite
    exact hse heq

/-- An operation that takes what it turns to answers with the entry next to its place. -/
theorem answer_near (he : op.eqOnly = false) : answer cmp op rows eqSeen (beyond op before after) =
      ((near op (leftSide cmp op before rows) (rightSide cmp op rows after)).isSome,
        near op (leftSide cmp op before rows) (rightSide cmp op rows after)) := by
  have hfo : ∀ k, near op (leftSide cmp op before rows) (rightSide cmp op rows after) = some k →
      op.found (cmp k) = true := fun k hk => found_of_near he (fun _ => hl.left_last) (fun _ => hl.right_head) hk
  have hf := place_search cmp op rows
  rw [near_sides] at hfo ⊢
  unfold answer
  cases hne : near op (rows.take (place cmp op rows)) (rows.drop (place cmp op rows)) with
  | none =>
    rw [hne] at hfo
    rw [hf.none_of_near hne]
    cases hb : beyond op before after with
    | none => simp
    | some d => simp [he,hfo d hb]
  | some k =>
    obtain ⟨i,hi,hget⟩ := hf.some_of_near hne (hfo k (by rw [hne,Option.some_or]))
    have hro : rows ≠ [] := by rintro rfl; cases hget
    simp [hro,hi,hget]

theorem answer_rising (hro : rows ≠ [])
    (hri : ((before ++ (rows.map row ++ after)).map entry).Pairwise (Rising cmp)) :
    let k := near op (leftSide cmp op before rows) (rightSide cmp op rows after)
    (answer cmp op rows eqSeen (beyond op before after)).1 = k.any (fun k => op.found (cmp k)) ∧
      ((answer cmp op rows eqSeen (beyond op before after)).1 = true →
        (answer cmp op rows eqSeen (beyond op before after)).2 = k) := by
  have hle : rows.Pairwise (Rising cmp) := by
    refine sublist ?_ hri
    rw [map_append,map_append,map_map,show rows.map (entry ∘ row) = rows from map_id rows]
    exact (sublist_append_left ..).trans (sublist_append_right ..)
  rw [← sides_append] at hri
  have hrig := near_right hri (fun _ => hl.left_last) fun _ => hl.right_head
  simp only [near_sides,answer,if_neg hro] at hrig ⊢
  rcases (place_search cmp op rows).rising hle with ⟨i,k,hi,hget,hne,hfirst⟩ | ⟨hr,hnone⟩
  · simp [hi,hget,hne,hfirst.found]
  · simp only [hr]
    cases hne : near op (rows.take (place cmp op rows)) (rows.drop (place cmp op rows)) with
    | none =>
      split
      next hse =>
        have hmi : (beyond op before after).any (fun k => op.found (cmp k)) = false :=
          (Option.any_eq_false ..).mpr fun d hd => Bool.eq_false_iff.mpr fun hfo =>
            hse.2 (hl.beyond_seen hd ((found_eqOnly hse.1 _).mp hfo))
        simp [hmi]
      · simp
    | some k =>
      have hk : op.found (cmp k) = false := hnone k (by simpa using near_mem hne)
      rw [hne,Option.some_or,Option.any_some,hk] at hrig
      have hmi : (beyond op before after).any (fun k => op.found (cmp k)) = false :=
        (Option.any_eq_false ..).mpr fun d hd => hrig.not_found d (by
          rcases mem_append.mp (beyond_mem hd) with hd | hd <;> simp [leftSide,rightSide,hd])
      split <;> simp [hk,hmi]

end Landed

/-- The key falls into an empty leaf: all before it is less, all after it greater, and no row is
next to it. -/
def Hole (cmp : κ → Ordering) (its : List (Item κ)) : Prop :=
  its ≠ [] ∧ ∃ before after, its = before ++ after ∧
    (∀ item ∈ before, cmp item.entry = .lt) ∧ (∀ item ∈ after, cmp item.entry = .gt) ∧
    (∀ k, before.getLast? ≠ some (.row k)) ∧ ∀ k, after.head? ≠ some (.row k)

namespace Landed
variable {after : List (Item κ)}

/-- An empty leaf whose neighbour is not found is a hole. -/
theorem hole (hl : Landed cmp op before [] after eqSeen)
    (hri : ((before ++ (([] : List κ).map row ++ after)).map entry).Pairwise (Rising cmp))
    (hb : beyond op before after = some d) (hfo : op.found (cmp d) = false) :
    Hole cmp (before ++ (([] : List κ).map row ++ after)) := by
  have hke : (∀ k, before.getLast? ≠ some (.row k)) ∧ ∀ k, after.head? ≠ some (.row k) := by
    constructor
    · intro k hk
      obtain ⟨d,hd,-⟩ := hl.beforeKey _ hk
      cases hd
    · intro k hk
      obtain ⟨d,hd,-⟩ := hl.afterKey _ hk
      cases hd
  have hsi : (∀ k ∈ before.map entry, op.left (cmp k) = false) ∧
      ∀ k ∈ after.map entry, op.left (cmp k) = true := by
    rw [map_append] at hri
    exact sides_of_rising hri (fun k hk => hl.left_last (by simpa [leftSide] using hk)) fun k hk =>
      hl.right_head (by simpa [rightSide] using hk)
  rw [map_append] at hri
  cases hdir : op.iterationDirection with
  | forwards =>
    rw [beyond,hdir] at hb
    cases after with
    | nil => cases hb
    | cons item rest =>
      cases hb
      obtain ⟨rfl,hgt⟩ := missed_forwards hdir (hsi.2 _ (by simp)) hfo
      have hre := (pairwise_append.mp hri).2.1
      refine ⟨by simp,before,item :: rest,rfl,fun i hi => ?_,fun i hi => ?_,hke⟩
      · have := hsi.1 i.entry (mem_map_of_mem hi)
        cases hc : cmp i.entry with
        | lt => rfl
        | eq | gt => simp [left,hc] at this
      · rcases mem_cons.mp hi with rfl | hi
        · exact hgt
        · exact (rel_of_pairwise_cons hre (mem_map_of_mem hi)).2 hgt
  | backwards =>
    rw [beyond,hdir] at hb
    rcases eq_nil_or_concat' before with rfl | ⟨init,item,rfl⟩
    · cases hb
    · have hd : item.entry = d := by simpa using hb
      subst hd
      obtain ⟨rfl,hlt⟩ := missed_backwards hdir (hsi.1 _ (by simp)) hfo
      have hin := (pairwise_append.mp hri).1
      rw [map_append] at hin
      refine ⟨by simp,init ++ [item],after,rfl,fun i hi => ?_,fun i hi => ?_,hke⟩
      · rcases mem_append.mp hi with hi | hi
        · exact ((pairwise_append.mp hin).2.2 _ (mem_map_of_mem hi) item.entry (by simp)).1 hlt
        · rw [mem_singleton.mp hi]
          exact hlt
      · have := hsi.2 i.entry (mem_map_of_mem hi)
        simpa [left] using this

theorem right_of_rising (hl : Landed cmp op before rows after eqSeen)
    (hri : ((before ++ (rows.map row ++ after)).map entry).Pairwise (Rising cmp))
    (hho : ¬ Hole cmp (before ++ (rows.map row ++ after))) :
    RightAnswer cmp op ((before ++ (rows.map row ++ after)).map entry)
      (answer cmp op rows eqSeen (beyond op before after)).1
      (answer cmp op rows eqSeen (beyond op before after)).2 := by
  have hri' := hri
  rw [← sides_append] at hri' ⊢
  have hrig : RightAnswer cmp op _ _ _ :=
    near_right hri' (fun k => hl.left_last) fun k => hl.right_head
  suffices h : (answer cmp op rows eqSeen (beyond op before after)).1 =
      (near op (leftSide cmp op before rows) (rightSide cmp op rows after)).any (fun k => op.found (cmp k)) ∧
      ((answer cmp op rows eqSeen (beyond op before after)).1 = true →
        (answer cmp op rows eqSeen (beyond op before after)).2 =
          near op (leftSide cmp op before rows) (rightSide cmp op rows after)) by
    refine ⟨h.1 ▸ hrig.1,fun hf => ?_⟩
    rw [h.2 hf]
    exact hrig.2 (h.1 ▸ hf)
  by_cases hro : rows = []
  · subst hro
    have hne : near op (leftSide cmp op before []) (rightSide cmp op [] after) = beyond op before after := by
      cases hdir : op.iterationDirection <;> simp [near,beyond,hdir,leftSide,rightSide]
    rw [hne]
    simp only [answer,if_true,implies_true,and_true]
    cases hb : beyond op before after with
    | none => rfl
    | some d =>
      cases hfo : op.found (cmp d) with
      | true => simp [hfo]
      | false => exact absurd (hl.hole hri hb hfo) hho
  · exact hl.answer_rising hro hri

end Landed

variable {after : List (Item κ)}

theorem Path.landed {leaf : Nat} (hpa : Path pages .index (fun k => op.left (cmp k)) (fun k => (cmp k).isEq) slot
      eqSeen h page frames leaf before after) : Landed cmp op before rows after eqSeen := by
  constructor
  · intro item hite
    obtain ⟨d,hd,hl,he⟩ := hpa.before_last hite
    exact ⟨d,hd,hl,fun h => he (by simp [h])⟩
  · intro item hite
    obtain ⟨d,hd,hl,he⟩ := hpa.after_head hite
    exact ⟨d,hd,hl,fun h => he (by simp [h])⟩

variable {r : List κ}

theorem pairwise_of_split {P : κ → Prop} (hl : ∀ x ∈ l, P x) (hr : ∀ x ∈ r, ¬ P x) :
    (l ++ r).Pairwise fun a b => P b → P a := by
  refine pairwise_append.mpr ⟨?_,?_,fun a ha _ _ _ => hl a ha⟩
  · exact imp_of_mem (fun ha _ _ _ => hl _ ha) (pairwise_of_forall fun _ _ => trivial)
  · exact imp_of_mem (fun _ hb _ h => absurd h (hr _ hb))
      (pairwise_of_forall fun _ _ => trivial)

theorem eq_of_nodup (hd : (l ++ k :: r).Nodup) (he : l ++ k :: r = l' ++ k :: r') : l = l' ∧ r = r' := by
  rw [nodup_middle,nodup_cons,mem_append,not_or] at hd
  obtain ⟨hl,-,hr⟩ := (append_cons_inj_of_notMem hd.1.1 hd.1.2).mp he
  exact ⟨hl,hr⟩

/-- A right answer of an operation that takes what it turns to leaves nothing to find on the other
side. -/
theorem RightAnswer.other_side (hd : (l ++ r).Nodup)
    (hri : RightAnswer cmp op (l ++ r) (near op l r).isSome (near op l r)) :
    (op.iterationDirection = .forwards → ∀ x ∈ l, op.found (cmp x) = false) ∧
      (op.iterationDirection = .backwards → ∀ x ∈ r, op.found (cmp x) = false) := by
  have hfirst := hri.2
  have hnone : (near op l r).isSome = false → ∀ x ∈ l ++ r, op.found (cmp x) = false := by
    intro hn
    rw [hn] at hri
    exact hri.not_found
  constructor
  · intro hdir x hx
    simp only [near,hdir] at hfirst hnone
    cases r with
    | nil => exact hnone rfl x (mem_append_left _ hx)
    | cons k rest =>
      obtain ⟨e,he,hfirst⟩ := hfirst rfl
      cases he
      obtain ⟨l',r',hsp,hno,-⟩ := hfirst.split
      obtain ⟨rfl,-⟩ := eq_of_nodup hd hsp
      exact hno hdir x hx
  · intro hdir x hx
    simp only [near,hdir] at hfirst hnone
    rcases eq_nil_or_concat' l with rfl | ⟨init,k,rfl⟩
    · exact hnone rfl x (mem_append_right _ hx)
    · obtain ⟨e,he,hfirst⟩ := hfirst (by simp)
      have hk : k = e := by simpa using he
      subst hk
      obtain ⟨l',r',hsp,-,hno⟩ := hfirst.split
      rw [append_assoc] at hsp hd
      obtain ⟨-,rfl⟩ := eq_of_nodup hd hsp
      exact hno hdir x hx

namespace Cursor
variable {c : Cursor}

variable {r : Except Fault (Bool × Cursor)}

theorem indexSeekLeaf_mono (hn : indexSeekLeaf pages cmp op n c eqSeen = some r) (hle : n ≤ m) :
    indexSeekLeaf pages cmp op m c eqSeen = some r := by
  unfold indexSeekLeaf at hn ⊢
  split at hn
  · exact hn
  · exact loop_mono hn hle
  · split at hn
    · exact hn
    · split at hn
      · rw [if_pos ‹_›]
        exact hn
      · rw [if_neg ‹_›]
        obtain ⟨x,hx,rfl⟩ := Option.map_eq_some_iff.mp hn
        exact Option.map_eq_some_iff.mpr ⟨x,loop_mono hx hle,rfl⟩

theorem seekIndex_unique (hn : c.seekIndex pages cmp op n = some r)
    (hm : c.seekIndex pages cmp op m = some r') : r = r' := by
  have hmo : ∀ {n r}, c.seekIndex pages cmp op n = some r → ∀ m, n ≤ m →
      c.seekIndex pages cmp op m = some r := by
    intro n r hn m hle
    unfold seekIndex at hn ⊢
    split at hn
    · cases hn
    · rw [loop_mono ‹_› hle]
      exact hn
    · rw [loop_mono ‹_› hle]
      exact indexSeekLeaf_mono hn hle
  have hn' := hmo hn _ (Nat.le_max_left n m)
  have hm' := hmo hm _ (Nat.le_max_right n m)
  exact Option.some.inj (hn'.symm.trans hm')

/-- The seek returns whether some entry satisfies the operation, and stands on the first one in
its direction if so. -/
def IndexSeeksRight (pages : Pages κ) (h : Nat) (c : Cursor) (cmp : κ → Ordering) (op : SeekOp) : Prop :=
  ∃ fuel found c', c.seekIndex pages cmp op fuel = some (.ok (found, c')) ∧
    RightAnswer cmp op (entries pages h c.rootPage) found (c'.current pages)

theorem Answers.right_iff {found : Bool} {k : Option κ} (ha : Answers pages c cmp op found k) :
    IndexSeeksRight pages h c cmp op ↔ RightAnswer cmp op (entries pages h c.rootPage) found k := by
  obtain ⟨fuel,c',hse,hcur⟩ := ha
  constructor
  · rintro ⟨fuel',found',c'',hse',hiff,hfirst⟩
    cases seekIndex_unique hse hse'
    exact ⟨hiff,fun hf => hcur hf ▸ hfirst hf⟩
  · rintro ⟨hiff,hfirst⟩
    exact ⟨fuel,found,c',hse,hiff,fun hf => (hcur hf).symm ▸ hfirst hf⟩

theorem seekIndex_tooDeep (hs : Shape pages .index h c.rootPage)
    (hh : btcursorMaxDepth ≤ h) : ∃ fuel, c.seekIndex pages cmp op fuel = some (.error tooDeep) := by
  obtain ⟨fuel,hen⟩ := moveTo_tooDeep (fun k => op.left (cmp k)) (fun k => (cmp k).isEq)
    (indexSlot op) c false false hs [] (by simp [btcursorMaxDepth]) (by simpa using hh)
  refine ⟨fuel,?_⟩
  have hro : c.moveToRoot = c.moved [(c.rootPage, -1)] false := rfl
  simp [seekIndex,indexbtreeMoveTo,hro,hen]

theorem sides_of_right (op op' : SeekOp) (hs : Shape pages .index h c.rootPage)
    (hh : h < btcursorMaxDepth) (hd : (entries pages h c.rootPage).Nodup)
    (hle : op.left = op'.left) (he : op.eqOnly = false) (he' : op'.eqOnly = false)
    (hdir : op.iterationDirection = .forwards) (hdir' : op'.iterationDirection = .backwards)
    (hr : IndexSeeksRight pages h c cmp op) (hr' : IndexSeeksRight pages h c cmp op') :
    ∃ l r, entries pages h c.rootPage = l ++ r ∧ (∀ x ∈ l, op.left (cmp x) = false) ∧
      ∀ x ∈ r, op.left (cmp x) = true := by
  obtain ⟨eqSeen,frames,leaf,before,rows,after,hpa,hp,hite,ha⟩ :=
    seekIndex_answers hs hh
  obtain ⟨eqSeen',frames',leaf',before',rows',after',hpa',hp',-,ha'⟩ :=
    seekIndex_answers hs hh
  have hla : Landed cmp op before rows after eqSeen := hpa.landed
  have hla' : Landed cmp op' before' rows' after' eqSeen' := hpa'.landed
  rw [← hle] at hpa'
  obtain ⟨rfl,rfl,rfl⟩ := hpa.unique hpa'
  rw [hp] at hp'
  cases hp'
  have hsp : entries pages h c.rootPage = leftSide cmp op before rows ++ rightSide cmp op rows after := by
    rw [entries_index hs,hite,sides_append]
  have hpl : place cmp op' rows = place cmp op rows := place_congr hle.symm rows
  have hri := ha.right_iff.mp hr
  have hri' := ha'.right_iff.mp hr'
  rw [hla.answer_near he,hsp] at hri
  rw [hla'.answer_near he',leftSide,rightSide,hpl,hsp] at hri'
  rw [hsp] at hd
  refine ⟨_,_,hsp,fun x hx => ?_,fun x hx => ?_⟩
  · rw [← found_eq_left he hdir]
    exact (hri.other_side hd).1 hdir x hx
  · have := (RightAnswer.other_side hd hri').2 hdir' x hx
    rw [found_eq_not_left he' hdir',← hle] at this
    simpa using this

end Cursor

theorem SeekOp.left_gt (op : SeekOp) : op.left .gt = true := by
  cases op <;> rfl

theorem SeekOp.left_lt (op : SeekOp) : op.left .lt = false := by
  cases op <;> rfl

/-- Where there is a hole, every seek comes to its empty leaf. -/
theorem Landed.of_hole (hl : Landed cmp op before rows after eqSeen)
    (hsp : before ++ (rows.map row ++ after) = b ++ a) (hb : ∀ item ∈ b, cmp item.entry = .lt)
    (ha : ∀ item ∈ a, cmp item.entry = .gt) (hlast : ∀ k, b.getLast? ≠ some (.row k))
    (hhe : ∀ k, a.head? ≠ some (.row k)) : rows = [] ∧ before = b ∧ after = a := by
  -- No cell before the leaf is greater, and none after it less.
  have hbe : ∀ bs, before = b ++ bs → (∀ item ∈ bs, item ∈ a) → bs = [] := by
    intro bs he hmem
    rcases eq_nil_or_concat' bs with rfl | ⟨init,item,rfl⟩
    · rfl
    · obtain ⟨d,rfl,hd,-⟩ := hl.beforeKey item (by simp [he])
      have hgt := ha (.key d) (hmem _ (by simp))
      rw [show cmp d = .gt from hgt,op.left_gt] at hd
      cases hd
  have haf : ∀ z, after = z ++ a → (∀ item ∈ z, item ∈ b) → z = [] := by
    intro z he hmem
    cases z with
    | nil => rfl
    | cons item rest =>
      obtain ⟨d,rfl,hd,-⟩ := hl.afterKey item (by simp [he])
      have hlt := hb (.key d) (hmem _ mem_cons_self)
      rw [show cmp d = .lt from hlt,op.left_lt] at hd
      cases hd
  obtain ⟨x,rfl,hmid⟩ : ∃ x, b = before ++ x ∧ rows.map row ++ after = x ++ a := by
    rcases append_eq_append_iff.mp hsp with ⟨x,hx,hm⟩ | ⟨bs,hbs,hm⟩
    · exact ⟨x,hx,hm⟩
    · have hnil := hbe bs hbs fun item hi => by simp [hm,hi]
      subst hnil
      exact ⟨[],by simpa using hbs.symm,by simpa using hm.symm⟩
  have hrow : ∀ k, x.getLast? ≠ some (.row k) := by
    intro k hk
    exact hlast k (by simp [hk])
  have hx : ∀ {y : List (Item κ)}, rows.map row = x ++ y → x = [] := by
    intro y he
    rcases eq_nil_or_concat' x with rfl | ⟨init,item,rfl⟩
    · rfl
    · have hmem : item ∈ rows.map row := by simp [he]
      obtain ⟨k,-,rfl⟩ := mem_map.mp hmem
      exact absurd (by simp) (hrow k)
  rcases append_eq_append_iff.mp hmid with ⟨z,hz,hm⟩ | ⟨z,hz,hm⟩
  · have hnil := haf z hm fun item hi => by simp [hz,hi]
    subst hnil
    rw [append_nil] at hz
    have hxn := hx (hz.symm.trans (append_nil x).symm)
    subst hxn
    exact ⟨by simpa using hz.symm,by simp,by simpa using hm⟩
  · have hxn := hx hz
    subst hxn
    cases z with
    | nil => exact ⟨by simpa using hz,by simp,by simpa using hm.symm⟩
    | cons item rest =>
      have hmem : item ∈ rows.map row := by simp [hz]
      obtain ⟨k,-,rfl⟩ := mem_map.mp hmem
      exact absurd (by simp [hm]) (hhe k)

namespace Cursor

/-- Every seek is right where the tree is not too deep, comparing its entries with the key never
falls, and the key does not fall into an empty leaf. -/
theorem seekIndex_right_iff (hs : Shape pages .index h c.rootPage)
    (hd : (entries pages h c.rootPage).Nodup) : (∀ op, IndexSeeksRight pages h c cmp op) ↔
      h < btcursorMaxDepth ∧ (entries pages h c.rootPage).Pairwise (Rising cmp) ∧
        ¬ Hole cmp (items pages h c.rootPage) := by
  constructor
  · intro hr
    have hh : h < btcursorMaxDepth := by
      rw [← Nat.not_le]
      intro hde
      obtain ⟨fuel,htoo⟩ := seekIndex_tooDeep hs hde
      obtain ⟨fuel',found,c',hse,-⟩ := hr .gt
      cases seekIndex_unique hse htoo
    obtain ⟨l,r,hsp,hle,hgt⟩ := sides_of_right .gt (.le false) hs hh hd rfl rfl
      rfl rfl rfl (hr _) (hr _)
    obtain ⟨l',r',hsp',hlt,hge⟩ := sides_of_right (.ge false) .lt hs hh hd rfl
      rfl rfl rfl rfl (hr _) (hr _)
    refine ⟨hh,?_,fun hho => ?_⟩
    · have hfa : (entries pages h c.rootPage).Pairwise fun a b => cmp b = .lt → cmp a = .lt := by
        rw [hsp']
        refine pairwise_of_split (fun x hx => ?_) fun x hx hc => ?_
        · have := hlt x hx
          cases hc : cmp x with
          | lt => rfl
          | eq | gt => simp [left,hc] at this
        · have := hge x hx
          simp [left,hc] at this
      have hri : (entries pages h c.rootPage).Pairwise fun a b => ¬ cmp b = .gt → ¬ cmp a = .gt := by
        rw [hsp]
        refine pairwise_of_split (fun x hx hc => ?_) fun x hx hc => ?_
        · have := hle x hx
          simp [left,hc] at this
        · have := hgt x hx
          exact hc (by simpa [left] using this)
      exact imp₂ (fun a b hlt hgt => ⟨hlt,fun ha => by_contra fun hb => hgt hb ha⟩) hfa hri
    · obtain ⟨hne,b,a,hba,hb,ha,hlast,hhe⟩ := hho
      have hnone : ∀ e ∈ entries pages h c.rootPage, cmp e ≠ .eq := by
        intro e he
        rw [entries_index hs,hba] at he
        obtain ⟨item,hite,rfl⟩ := mem_map.mp he
        rcases mem_append.mp hite with hite | hite
        · rw [hb item hite]
          decide
        · rw [ha item hite]
          decide
      have hst : ∀ op : SeekOp, op.eqOnly = true → beyond op b a = none := by
        intro op he
        obtain ⟨eqSeen,frames,leaf,before,rows,after,hpa,-,hitems,hans⟩ :=
          seekIndex_answers hs hh
        obtain ⟨rfl,rfl,rfl⟩ := hpa.landed.of_hole (hitems.symm.trans hba) hb ha hlast hhe
        have hrig := hans.right_iff.mp (hr op)
        cases hbe : beyond op before after with
        | none => rfl
        | some d =>
          obtain ⟨e,hmem,hf⟩ := hrig.1.mp (by simp [answer,hbe])
          exact absurd ((found_eqOnly he _).mp hf) (hnone e hmem)
      have haf := hst (.ge true) rfl
      have hbef := hst (.le true) rfl
      simp only [beyond,iterationDirection,Option.map_eq_none_iff,head?_eq_none_iff,
        getLast?_eq_none_iff] at haf hbef
      exact hne (by rw [hba,haf,hbef,append_nil])
  · rintro ⟨hh,hris,hho⟩ op
    obtain ⟨eqSeen,frames,leaf,before,rows,after,hpa,hp,hitems,ha⟩ :=
      seekIndex_answers hs hh
    rw [ha.right_iff,entries_index hs,hitems]
    rw [entries_index hs,hitems] at hris
    rw [hitems] at hho
    exact hpa.landed.right_of_rising hris hho

/-- An index in the order of its records, and a key with no more columns than they have. -/
structure Searchable (pages : Pages Record) (h root : Nat) (order : IndexKeySortOrder)
    (collations : List CollationSeq) (key : Record) : Prop where
  shape : Shape pages .index h root
  ordered : (entries pages h root).Pairwise fun a b => compareImmutable a b order collations = .lt
  wide : ∀ record ∈ entries pages h root, key.length ≤ record.length

def RecordSeeksRight (pages : Pages Record) (h : Nat) (c : Cursor) (key : Record) (op : SeekOp)
    (order : IndexKeySortOrder) (collations : List CollationSeq) : Prop :=
  ∃ fuel found c', c.indexbtreeSeek pages key op order collations fuel = some (.ok (found, c')) ∧
    RightAnswer (compareWithKey key order collations) op (entries pages h c.rootPage) found
      (c'.current pages)

variable {order : IndexKeySortOrder} {collations : List CollationSeq} {key : Record}

/-- The order of the records does not suffice: it is the comparisons with the key that must not
fall, and large integers compare equal to floats that differ from each other. -/
theorem indexbtreeSeek_right_iff {pages : Pages Record} {c : Cursor}
    (hw : Searchable pages h c.rootPage order collations key) :
    (∀ op, RecordSeeksRight pages h c key op order collations) ↔ h < btcursorMaxDepth ∧
        (entries pages h c.rootPage).Pairwise (Rising (compareWithKey key order collations)) ∧
        ¬ Hole (compareWithKey key order collations) (items pages h c.rootPage) := by
  refine seekIndex_right_iff hw.shape (hw.ordered.imp fun {a b} hlt he => ?_)
  rw [he,compareImmutable_self] at hlt
  cases hlt

def oneLeaf (a b : Value) : Pages Record
  | 1 => .ok (.leaf .index [[a, .integer 1], [b, .integer 2]])
  | _ => .error 0

def twoPow53 : F64 :=
  .finite (2 ^ 53) 1074 (by decide) (by decide)

def twoLeafIndex : Pages Record
  | 1 => .ok (.interior .index [(2, [.integer 2, .integer 2])] 3)
  | 2 => .ok (.leaf .index [[.integer 1, .integer 1]])
  | 3 => .ok (.leaf .index [[.integer 3, .integer 3]])
  | _ => .error 0

theorem twoLeafIndex_right : Searchable twoLeafIndex 1 1 .default [] [.integer 3] ∧
    ∀ op, RecordSeeksRight twoLeafIndex 1 (.new 1) [.integer 3] op .default [] := by
  have hw : Searchable twoLeafIndex 1 1 .default [] [.integer 3] := ⟨by decide,by decide,by decide⟩
  refine ⟨hw,(indexbtreeSeek_right_iff hw).mpr ⟨by decide,by decide,?_⟩⟩
  rintro ⟨-,before,after,hsp,hb,ha,-⟩
  have hmem : row [.integer 3,.integer 3] ∈ before ++ after := by
    rw [← hsp]
    simp [items,twoLeafIndex,new]
  rcases mem_append.mp hmem with hmem | hmem
  · exact absurd (hb _ hmem) (by decide)
  · exact absurd (ha _ hmem) (by decide)

/-- `2 ^ 53 + 1` is not less than the float `2 ^ 53`, so it may stand before it; seeking `2 ^ 53`
then goes to its left, and the float is not found. -/
theorem oneLeaf_wrong :
    Searchable (oneLeaf (.integer (2 ^ 53 + 1)) (.float twoPow53)) 0 1 .default [] [.integer (2 ^ 53)] ∧
    ¬ RecordSeeksRight (oneLeaf (.integer (2 ^ 53 + 1)) (.float twoPow53)) 0 (.new 1)
      [.integer (2 ^ 53)] (.ge true) .default [] := by
  refine ⟨⟨by decide,by decide,by decide⟩,?_⟩
  rintro ⟨fuel,found,c',hse,hiff,-⟩
  have hrun : (new 1).indexbtreeSeek (oneLeaf (.integer (2 ^ 53 + 1)) (.float twoPow53))
      [.integer (2 ^ 53)] (.ge true) .default [] 1 =
      some (.ok (false, (new 1).setStack [(1, 0)])) := by
    rfl
  cases seekIndex_unique hse hrun
  exact absurd (hiff.mpr ⟨[.float twoPow53,.integer 2],by decide,by decide⟩) (by decide)

end Cursor

end OxiSql.Btree
