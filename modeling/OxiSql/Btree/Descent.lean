import OxiSql.Btree.Seek
import OxiSql.Btree.Traversal

namespace OxiSql.Btree
open Lib List Cursor SeekOp Option

variable {κ : Type} {pages : Pages κ} {onLeft isEq : κ → Bool}

abbrev cellItems (pages : Pages κ) (h : Nat) (cells : List (Nat × κ)) : List (Item κ) :=
  cells.flatMap fun cell => items pages h cell.1 ++ [.key cell.2]

/-- The way down from a page to a leaf, with the stack frames it leaves and what stands before
and after the leaf. The cells next to the way were looked at. -/
inductive Path (pages : Pages κ) (kind : Kind) (onLeft isEq : κ → Bool) (slot : Nat → Int)
    (eqSeen : Bool) :
    Nat → Nat → List (Nat × Int) → Nat → List (Item κ) → List (Item κ) → Prop
  | leaf {page rows} (hp : pages page = .ok (.leaf kind rows)) :
    Path pages kind onLeft isEq slot eqSeen 0 page [] page [] []
  | left {h page pre cell post right frames leaf before after}
    (hp : pages page = .ok (.interior kind (pre ++ cell :: post) right))
    (hsearch : searchAll (interiorProbe onLeft (pre ++ cell :: post))
      (pre ++ cell :: post).length = some pre.length)
    (hcell : onLeft cell.2 = true ∧ (isEq cell.2 = true → eqSeen = true))
    (hpre : ∀ d, pre.getLast? = some d →
      onLeft d.2 = false ∧ (isEq d.2 = true → eqSeen = true))
    (hdown : Path pages kind onLeft isEq slot eqSeen h cell.1 frames leaf before after) :
    Path pages kind onLeft isEq slot eqSeen (h + 1) page
      (frames ++ [(page, slot pre.length)]) leaf (cellItems pages h pre ++ before)
      (after ++ .key cell.2 :: (cellItems pages h post ++ items pages h right))
  | right {h page cells right frames leaf before after}
    (hp : pages page = .ok (.interior kind cells right))
    (hsearch : searchAll (interiorProbe onLeft cells) cells.length = none)
    (hcells : ∀ d, cells.getLast? = some d →
      onLeft d.2 = false ∧ (isEq d.2 = true → eqSeen = true))
    (hlast : ∀ init d e, cells = init ++ [d, e] → onLeft d.2 = false)
    (hdown : Path pages kind onLeft isEq slot eqSeen h right frames leaf before after) :
    Path pages kind onLeft isEq slot eqSeen (h + 1) page
      (frames ++ [(page, (cells.length : Int) + 1)]) leaf (cellItems pages h cells ++ before) after

theorem interior_search : ∃ pre post, cells = pre ++ post ∧
      searchAll (interiorProbe onLeft cells) cells.length = (if post = [] then none else some pre.length) ∧
      (∀ init d, pre = init ++ [d] →
        onLeft d.2 = false ∧ init.length ∈ probed (interiorProbe onLeft cells) cells.length) ∧
      (∀ d rest, post = d :: rest →
        onLeft d.2 = true ∧ pre.length ∈ probed (interiorProbe onLeft cells) cells.length) ∧
      (post = [] → ∀ init d e, cells = init ++ [d,e] → onLeft d.2 = false) := by
  have hst : ∀ i, interiorProbe onLeft cells i ≠ .stop := by
    intro i
    unfold interiorProbe
    split
    · split <;> simp
    · simp
  have hfa : ∀ i, interiorProbe onLeft cells i ≠ .hit false := by
    intro i
    unfold interiorProbe
    split
    · split <;> simp
    · simp
  have htu : ∀ {i d}, cells[i]? = some d → (interiorProbe onLeft cells i).TurnsRight → onLeft d.2 = false := by
    intro i d hd ht
    simp only [interiorProbe,hd] at ht
    split at ht
    · cases ht
    · simpa using ‹¬ onLeft d.2 = true›
  have htur : ∀ {i d}, cells[i]? = some d → (interiorProbe onLeft cells i).TurnsLeft → onLeft d.2 = true := by
    intro i d hd ht
    simp only [interiorProbe,hd] at ht
    split at ht
    · assumption
    · cases ht
  rcases searchAll_spec with
    ⟨i,-,hs,-⟩ | hb
  · exact absurd hs (hst i)
  generalize boundaryOf (interiorProbe onLeft cells) cells.length = b at hb
  have hsp := (take_append_drop b cells).symm
  have hlen : (cells.take b).length = b := length_take_of_le hb.upper
  refine ⟨cells.take b,cells.drop b,hsp,?_,?_,?_,?_⟩
  · rcases Nat.lt_or_eq_of_le hb.upper with hlt | rfl
    · have hne : cells.drop b ≠ [] := by
        intro he
        have := drop_eq_nil_iff.mp he
        omega
      have hcell : cells[b]? = some cells[b] := getElem?_eq_getElem hlt
      have hhit : interiorProbe onLeft cells b = .hit true := by
        simp [interiorProbe,hcell,htur hcell (hb.left b (hb.after hlt) (Nat.le_refl b))]
      rw [if_neg hne,hlen]
      exact (hb.forwards hfa).2 hlt hhit
    · rw [if_pos (by simp)]
      exact (hb.forwards hfa).1 rfl
  · intro init d he
    have hlast : b = init.length + 1 := by
      have := congrArg List.length he
      simp only [hlen,length_append] at this
      exact this
    have hd : cells[init.length]? = some d := by
      rw [hsp,he]
      simp
    have hmem := hb.before (by omega)
    have hidx : b - 1 = init.length := by omega
    rw [hidx] at hmem
    exact ⟨htu hd (hb.right _ hmem (by omega)),hmem⟩
  · intro d rest he
    have hd : cells[b]? = some d := by
      rw [← Nat.add_zero b,← getElem?_drop,he]
      rfl
    have hlt : b < cells.length := (List.getElem?_eq_some_iff.mp hd).1
    rw [hlen]
    exact ⟨htur hd (hb.left b (hb.after hlt) (Nat.le_refl b)),hb.after hlt⟩
  · intro hnil init d e he
    have hbl : b = cells.length := Nat.le_antisymm hb.upper (drop_eq_nil_iff.mp hnil)
    have hco : cells.length = init.length + 2 := by simp [he]
    have hd : cells[init.length]? = some d := by simp [he]
    have hmem := hb.last (by omega) hbl
    have hidx : cells.length - 2 = init.length := by omega
    rw [hidx] at hmem
    exact htu hd (hb.right _ hmem (by omega))

namespace Cursor
variable {c : Cursor}

theorem moveToTurn_leaf (hp : pages page = .ok (.leaf kind rows)) :
    moveToTurn pages onLeft isEq slot (c.moved ((page,idx) :: parents) g,eqSeen) =
      .done (c.moved ((page,idx) :: parents) g,eqSeen) := by
  simp [moveToTurn,hp]

variable (onLeft isEq : κ → Bool) (slot : Nat → Int)

theorem moveToTurn_interior
    (hp : pages page = .ok (.interior kind cells right)) : ∃ eq', (eqSeen = true → eq' = true) ∧
      ((∃ pre cell post, cells = pre ++ cell :: post ∧
          searchAll (interiorProbe onLeft cells) cells.length = some pre.length ∧
          (onLeft cell.2 = true ∧ (isEq cell.2 = true → eq' = true)) ∧
          (∀ d, pre.getLast? = some d → onLeft d.2 = false ∧ (isEq d.2 = true → eq' = true)) ∧
          moveToTurn pages onLeft isEq slot (c.moved ((page,idx) :: parents) g,eqSeen) =
            withEqSeen eq' ((c.moved ((page,slot pre.length) :: parents) g).push cell.1 (-1))) ∨
        (searchAll (interiorProbe onLeft cells) cells.length = none ∧
          (∀ d, cells.getLast? = some d → onLeft d.2 = false ∧ (isEq d.2 = true → eq' = true)) ∧
          (∀ init d e, cells = init ++ [d,e] → onLeft d.2 = false) ∧
          moveToTurn pages onLeft isEq slot (c.moved ((page,idx) :: parents) g,eqSeen) =
            withEqSeen eq' ((c.moved ((page,cells.length + 1) :: parents) g).push right (-1)))) := by
  obtain ⟨pre,post,hcells,hsearch,hpre,hpo,hlast⟩ := interior_search
  generalize heq : (eqSeen || (probed (interiorProbe onLeft cells) cells.length).any fun i =>
    cells[i]?.any fun cell => isEq cell.2) = eq'
  have hse : ∀ {i d}, i ∈ probed (interiorProbe onLeft cells) cells.length →
      cells[i]? = some d → isEq d.2 = true → eq' = true := by
    intro i d hi hd he
    rw [← heq,Bool.or_eq_true]
    exact .inr (any_eq_true.mpr ⟨i,hi,by simp [hd,he]⟩)
  have hpre' : ∀ d, pre.getLast? = some d → onLeft d.2 = false ∧ (isEq d.2 = true → eq' = true) := by
    intro d hd
    obtain ⟨init,he⟩ := getLast?_eq_some_iff.mp hd
    obtain ⟨hd,hmem⟩ := hpre init d he
    exact ⟨hd,hse hmem (by rw [hcells,he]; simp)⟩
  refine ⟨eq',fun h => by rw [← heq,h]; rfl,?_⟩
  cases post with
  | nil =>
    refine .inr ⟨hsearch,?_,hlast rfl,?_⟩
    · rw [hcells,append_nil]
      exact hpre'
    · simp [moveToTurn,hp,hsearch,heq]
  | cons cell post =>
    obtain ⟨hcell,hmem⟩ := hpo cell post rfl
    refine .inl ⟨pre,cell,post,hcells,hsearch,⟨hcell,hse hmem (by rw [hcells]; simp)⟩,hpre',?_⟩
    have hget : cells[pre.length]? = some cell := by rw [hcells]; simp
    simp [moveToTurn,hp,hsearch,hget,heq]

theorem moveTo_path (c : Cursor) (g eqSeen : Bool)
    (hs : Shape pages kind h page) (parents : List (Nat × Int)) (hl : parents.length + h < btcursorMaxDepth) :
    ∃ eq' frames leaf before after, (eqSeen = true → eq' = true) ∧
      Path pages kind onLeft isEq slot eq' h page frames leaf before after ∧
      Ends (moveToTurn pages onLeft isEq slot) (c.moved ((page,-1) :: parents) g,eqSeen)
        (.ok (c.moved ((leaf,-1) :: (frames ++ parents)) g,eq')) := by
  induction h generalizing page parents eqSeen with
  | zero =>
    obtain ⟨rows,hp,-⟩ := hs
    exact ⟨eqSeen,[],page,[],[],id,.leaf hp,.done (moveToTurn_leaf hp)⟩
  | succ h ih =>
    obtain ⟨cells,right,hp,-,hcells,hri⟩ := hs
    have hpu : ∀ (idx : Int) (child : Nat), ((c.moved ((page, idx) :: parents) g).push child (-1) :
        Turn Cursor (Cursor × Bool) Fault) = .again (c.moved ((child, -1) :: (page, idx) :: parents) g) :=
      fun idx child => push_moved (by simp only [length_cons]; omega)
    have hde : ∀ idx : Int, ((page, idx) :: parents).length + h < btcursorMaxDepth := by
      simp only [length_cons]
      omega
    obtain ⟨eq1,hmo,⟨pre,cell,post,rfl,hsearch,hcell,hpre,htu⟩ | ⟨hsearch,hlast,htwo,htu⟩⟩ :=
      moveToTurn_interior onLeft isEq slot hp
    · rw [hpu] at htu
      obtain ⟨eq',frames,leaf,before,after,hmo',hpath,hen⟩ :=
        ih eq1 (hcells cell (by simp)) ((page, slot pre.length) :: parents) (hde _)
      refine ⟨eq',_,leaf,_,_,fun he => hmo' (hmo he),.left hp hsearch ?_ ?_ hpath,?_⟩
      · exact ⟨hcell.1,fun he => hmo' (hcell.2 he)⟩
      · exact fun d he => ⟨(hpre d he).1,fun hd => hmo' ((hpre d he).2 hd)⟩
      · rw [append_assoc]
        exact hen.again htu
    · rw [hpu] at htu
      obtain ⟨eq',frames,leaf,before,after,hmo',hpath,hen⟩ :=
        ih eq1 hri ((page, (cells.length : Int) + 1) :: parents) (hde _)
      refine ⟨eq',_,leaf,_,_,fun he => hmo' (hmo he),.right hp hsearch ?_ htwo hpath,?_⟩
      · exact fun d he => ⟨(hlast d he).1,fun hd => hmo' ((hlast d he).2 hd)⟩
      · rw [append_assoc]
        exact hen.again htu

theorem moveTo_tooDeep (c : Cursor) (g eqSeen : Bool)
    (hs : Shape pages kind h page) (parents : List (Nat × Int))
    (hl : parents.length < btcursorMaxDepth) (hh : btcursorMaxDepth ≤ parents.length + h) :
    Ends (moveToTurn pages onLeft isEq slot) (c.moved ((page,-1) :: parents) g,eqSeen)
      (.error tooDeep) := by
  induction h generalizing page parents eqSeen with
  | zero => omega
  | succ h ih =>
    obtain ⟨cells,right,hp,-,hcells,hri⟩ := hs
    obtain ⟨child,idx,eq1,hch,htu⟩ : ∃ child idx eq1, Shape pages kind h child ∧
        moveToTurn pages onLeft isEq slot (c.moved ((page, -1) :: parents) g, eqSeen) =
          withEqSeen eq1 ((c.moved ((page, idx) :: parents) g).push child (-1)) := by
      obtain ⟨eq1,-,⟨pre,cell,post,rfl,-,-,-,htu⟩ | ⟨-,-,-,htu⟩⟩ :=
        moveToTurn_interior onLeft isEq slot hp
      · exact ⟨cell.1,_,eq1,hcells cell (by simp),htu⟩
      · exact ⟨right,_,eq1,hri,htu⟩
    rcases push_cases ((page, idx) :: parents) g with ⟨hlt,hpu⟩ | ⟨-,hpu⟩
    · rw [hpu] at htu
      refine (ih eq1 hch ((page, idx) :: parents) hlt ?_).again htu
      simp only [length_cons]
      omega
    · rw [hpu] at htu
      exact .fail htu

end Cursor

namespace Path
variable {leaf : Nat} {before after : List (Item κ)}

/-- The leaf stands between what is before and what is after it. -/
theorem items_eq (hpath : Path pages kind onLeft isEq slot eqSeen h page frames leaf before after) :
    ∃ rows, pages leaf = .ok (.leaf kind rows) ∧ items pages h page = before ++ (rows.map .row ++ after) := by
  induction hpath with
  | leaf hp => exact ⟨_,hp,by simp [items_leaf hp]⟩
  | left hp _ _ _ _ ih | right hp _ _ _ _ ih =>
    obtain ⟨rows,hro,hite⟩ := ih
    exact ⟨rows,hro,by simp [items_interior hp,hite]⟩

theorem getLast?_cellItems : (cellItems pages h cells).getLast? = cells.getLast?.map fun d => .key d.2 := by
  rcases eq_nil_or_concat' cells with rfl | ⟨cells,d,rfl⟩
  · rfl
  · simp

variable (hpath : Path pages kind onLeft isEq slot eqSeen h page frames leaf before after)
include hpath

/-- Right before the leaf stands a cell the target is not on the left of. -/
theorem before_last (he : before.getLast? = some item) :
    ∃ d, item = .key d ∧ onLeft d = false ∧ (isEq d = true → eqSeen = true) := by
  induction hpath with
  | leaf hp => cases he
  | left hp hsearch hcell hpre hdown ih =>
    rw [getLast?_append,or_eq_some_iff,getLast?_cellItems] at he
    rcases he with he | ⟨-,he⟩
    · exact ih he
    · obtain ⟨d,hd,rfl⟩ := map_eq_some_iff.mp he
      exact ⟨d.2,rfl,hpre d hd⟩
  | right hp hsearch hcells hlast hdown ih =>
    rw [getLast?_append,or_eq_some_iff,getLast?_cellItems] at he
    rcases he with he | ⟨-,he⟩
    · exact ih he
    · obtain ⟨d,hd,rfl⟩ := map_eq_some_iff.mp he
      exact ⟨d.2,rfl,hcells d hd⟩

/-- Right after it stands a cell the target is on the left of. -/
theorem after_head (he : after.head? = some item) :
    ∃ d, item = .key d ∧ onLeft d = true ∧ (isEq d = true → eqSeen = true) := by
  induction hpath with
  | leaf hp => cases he
  | left hp hsearch hcell hpre hdown ih =>
    rw [head?_append,or_eq_some_iff] at he
    rcases he with he | ⟨-,he⟩
    · exact ih he
    · cases he
      exact ⟨_,rfl,hcell⟩
  | right hp hsearch hcells hlast hdown ih => exact ih he

end Path

namespace SeekOp

theorem leafProbe_turnsLeft (op : SeekOp) (cmp : Ordering) :
    (op.leafProbe cmp).TurnsLeft ↔ op.left cmp = true := by
  rcases op with eqOnly | _ | eqOnly | _ <;> (try cases eqOnly) <;> cases cmp <;>
    simp [leafProbe,found,iterationDirection,left,Probe.TurnsLeft]

theorem leafProbe_turnsRight (op : SeekOp) (cmp : Ordering) :
    (op.leafProbe cmp).TurnsRight ↔ op.left cmp = false := by
  rcases op with eqOnly | _ | eqOnly | _ <;> (try cases eqOnly) <;> cases cmp <;>
    simp [leafProbe,found,iterationDirection,left,Probe.TurnsRight]

theorem found_eqOnly {op : SeekOp} (he : op.eqOnly = true) (o : Ordering) : op.found o = true ↔ o = .eq := by
  cases op with
  | ge eqOnly | le eqOnly =>
    obtain rfl : eqOnly = true := he
    cases o <;> simp [found]
  | gt | lt => cases he

end SeekOp

/-- What the search of a leaf finds. The rows it looked at next to the boundary turn to it. -/
structure LeafFound (op : SeekOp) (cmp : κ → Ordering) (rows pre post : List κ)
    (result : Option Nat) : Prop where
  split : rows = pre ++ post
  turnsRight : ∀ k, pre.getLast? = some k → op.left (cmp k) = false
  turnsLeft : ∀ k, post.head? = some k → op.left (cmp k) = true
  found : ∀ i, result = some i → ∃ k, rows[i]? = some k ∧ op.found (cmp k) = true
  forwards : op.iterationDirection = .forwards →
    (post = [] → result = none) ∧
      ∀ k, post.head? = some k → op.found (cmp k) = true → result = some pre.length
  backwards : op.iterationDirection = .backwards →
    (pre = [] → result = none) ∧
      ∀ k, pre.getLast? = some k → op.found (cmp k) = true → result = some (pre.length - 1)

theorem leaf_search (cmp : κ → Ordering) (rows : List κ) (order : Nat → Ordering)
    (ho : ∀ i k, rows[i]? = some k → order i = cmp k) : LeafFound op cmp rows
      (rows.take (boundaryOf (fun i => op.leafProbe (order i)) rows.length))
      (rows.drop (boundaryOf (fun i => op.leafProbe (order i)) rows.length))
      (searchAll (fun i => op.leafProbe (order i)) rows.length) := by
  have hst : ∀ i, op.leafProbe (order i) ≠ .stop := by
    intro i
    unfold leafProbe
    split
    · simp
    · split <;> simp
  have hit : ∀ {i goLeft}, op.leafProbe (order i) = .hit goLeft →
      op.found (order i) = true ∧ goLeft = decide (op.iterationDirection = .forwards) := by
    intro i goLeft he
    unfold leafProbe at he
    split at he
    · exact ⟨‹_›,by simpa using he.symm⟩
    · split at he <;> cases he
  have hfo : ∀ {i}, op.found (order i) = true →
      op.leafProbe (order i) = .hit (op.iterationDirection = .forwards) := by
    intro i he
    simp [leafProbe,he]
  rcases searchAll_spec with ⟨i,-,hs,-⟩ | hb
  · exact absurd hs (hst i)
  generalize boundaryOf (fun i => op.leafProbe (order i)) rows.length = b at hb ⊢
  have hsp := (take_append_drop b rows).symm
  have hlen : (rows.take b).length = b := length_take_of_le hb.upper
  have hpre : ∀ {k}, (rows.take b).getLast? = some k → 0 < b ∧ rows[b - 1]? = some k := by
    intro k hk
    have hne : rows.take b ≠ [] := by
      intro he
      simp [he] at hk
    have hpos : 0 < b := by
      rcases Nat.eq_zero_or_pos b with rfl | hpos
      · simp at hne
      · exact hpos
    refine ⟨hpos,?_⟩
    rw [getLast?_eq_getElem?,hlen,getElem?_take_of_lt (by omega)] at hk
    exact hk
  have hpo : ∀ {k}, (rows.drop b).head? = some k → b < rows.length ∧ rows[b]? = some k := by
    intro k hk
    rw [head?_drop] at hk
    exact ⟨(List.getElem?_eq_some_iff.mp hk).1,hk⟩
  refine ⟨hsp,?_,?_,?_,?_,?_⟩
  · intro k hk
    obtain ⟨hpos,hk⟩ := hpre hk
    rw [← ho _ k hk]
    exact (op.leafProbe_turnsRight _).mp (hb.right _ (hb.before hpos) (by omega))
  · intro k hk
    obtain ⟨hlt,hk⟩ := hpo hk
    rw [← ho _ k hk]
    exact (op.leafProbe_turnsLeft _).mp (hb.left _ (hb.after hlt) (Nat.le_refl b))
  · intro i hi
    obtain ⟨hmem,goLeft,hp⟩ := (hb.found i hi).resolve_left (by simp)
    have hlt := (hb.inside i hmem).2
    refine ⟨rows[i],getElem?_eq_getElem hlt,?_⟩
    rw [← ho i _ (getElem?_eq_getElem hlt)]
    exact (hit hp).1
  · intro hdir
    have hno : ∀ i, op.leafProbe (order i) ≠ .hit false := by
      intro i he
      simpa [hdir] using (hit he).2
    refine ⟨fun hnil => ?_,fun k hk hf => ?_⟩
    · have := drop_eq_nil_iff.mp hnil
      exact (hb.forwards hno).1 (Nat.le_antisymm hb.upper this)
    · obtain ⟨hlt,hk⟩ := hpo hk
      rw [← ho _ k hk] at hf
      rw [hlen]
      exact (hb.forwards hno).2 hlt (by simpa [hdir] using hfo hf)
  · intro hdir
    have hno : ∀ i, op.leafProbe (order i) ≠ .hit true := by
      intro i he
      simpa [hdir] using (hit he).2
    refine ⟨fun hnil => ?_,fun k hk hf => ?_⟩
    · have hze : b = 0 := by simpa [hlen] using congrArg List.length hnil
      exact (hb.backwards hno).1 hze
    · obtain ⟨hpos,hk⟩ := hpre hk
      rw [← ho _ k hk] at hf
      rw [hlen]
      exact (hb.backwards hno).2 hpos (by simpa [hdir] using hfo hf)

/-- Comparing with the key never falls from one entry to a later one. -/
def Rising (cmp : κ → Ordering) (a b : κ) : Prop :=
  (cmp b = .lt → cmp a = .lt) ∧ (cmp a = .gt → cmp b = .gt)

instance (cmp : κ → Ordering) : DecidableRel (Rising cmp) := fun a b =>
  inferInstanceAs (Decidable ((cmp b = .lt → cmp a = .lt) ∧ (cmp a = .gt → cmp b = .gt)))

theorem Rising.left {cmp : κ → Ordering} {a b : κ} (h : Rising cmp a b) {op : SeekOp}
    (ha : op.left (cmp a) = true) : op.left (cmp b) = true := by
  obtain ⟨hlt,hgt⟩ := h
  cases op with
  | gt | le => cases hc : cmp a <;> simp_all [SeekOp.left]
  | ge | lt => cases hc : cmp b <;> simp_all [SeekOp.left]

section
variable {op : SeekOp} {cmp : κ → Ordering} {rows pre post r : List κ}

theorem SeekOp.found_of_left (hdir : op.iterationDirection = .forwards) (hf : op.found o = true) :
    op.left o = true := by
  cases op with
  | gt => exact hf
  | ge eqOnly => cases eqOnly <;> cases o <;> first | rfl | cases hf
  | le | lt => cases hdir

theorem SeekOp.found_of_not_left (hdir : op.iterationDirection = .backwards)
    (hf : op.found o = true) : op.left o = false := by
  cases op with
  | gt | ge => cases hdir
  | le eqOnly => cases eqOnly <;> cases o <;> first | rfl | cases hf
  | lt => cases o <;> first | rfl | cases hf

/-- On the right of an entry that is passed by but looked for on the right, nothing is found. -/
theorem SeekOp.not_found_after (hdir : op.iterationDirection = .forwards) (h : Rising cmp a b)
    (hl : op.left (cmp a) = true) (hn : op.found (cmp a) = false) : op.found (cmp b) = false := by
  obtain ⟨-,hgt⟩ := h
  cases op with
  | gt => simp [left,found] at hl hn; simp [hl] at hn
  | ge eqOnly =>
    cases eqOnly <;> cases hc : cmp a <;> simp_all [left,found]
  | le | lt => cases hdir

theorem SeekOp.not_found_before (hdir : op.iterationDirection = .backwards) (h : Rising cmp a b)
    (hl : op.left (cmp b) = false) (hn : op.found (cmp b) = false) : op.found (cmp a) = false := by
  obtain ⟨hlt,-⟩ := h
  cases op with
  | gt | ge => cases hdir
  | le eqOnly =>
    cases eqOnly <;> cases hc : cmp b <;> simp_all [left,found]
  | lt => cases hc : cmp b <;> simp_all [left]

/-- The entry an operation is to find: the first one in its direction. -/
structure First (cmp : κ → Ordering) (op : SeekOp) (es : List κ) (e : κ) : Prop where
  found : op.found (cmp e) = true
  split : ∃ l r, es = l ++ e :: r ∧
    (op.iterationDirection = .forwards → ∀ x ∈ l, op.found (cmp x) = false) ∧
    (op.iterationDirection = .backwards → ∀ x ∈ r, op.found (cmp x) = false)

/-- An answer says whether there is an entry to find, and is the first one then. -/
def RightAnswer (cmp : κ → Ordering) (op : SeekOp) (es : List κ) (found : Bool) (k : Option κ) : Prop :=
  (found = true ↔ ∃ e ∈ es, op.found (cmp e) = true) ∧
    (found = true → ∃ e, k = some e ∧ First cmp op es e)

/-- The entry next to the place a seek comes to. -/
def near (op : SeekOp) (l r : List κ) : Option κ :=
  match op.iterationDirection with
  | .forwards => r.head?
  | .backwards => l.getLast?

/-- A place in a rising list that the entries next to it turn to is the only one. -/
theorem sides_of_rising (hri : (l ++ r).Pairwise (Rising cmp))
    (hl : ∀ k, l.getLast? = some k → op.left (cmp k) = false)
    (hr : ∀ k, r.head? = some k → op.left (cmp k) = true) :
    (∀ k ∈ l, op.left (cmp k) = false) ∧ ∀ k ∈ r, op.left (cmp k) = true := by
  obtain ⟨hpre,hpo,-⟩ := pairwise_append.mp hri
  constructor
  · intro k hk
    rcases eq_nil_or_concat' l with rfl | ⟨init,last,rfl⟩
    · cases hk
    · have hlast := hl last (by simp)
      rcases mem_append.mp hk with hk | hk
      · by_contra hne
        have := (pairwise_append.mp hpre).2.2 k hk last (by simp)
        rw [this.left (by simpa using hne)] at hlast
        cases hlast
      · rw [mem_singleton.mp hk]
        exact hlast
  · intro k hk
    cases r with
    | nil => cases hk
    | cons first rest =>
      have hfirst := hr first rfl
      rcases mem_cons.mp hk with rfl | hk
      · exact hfirst
      · exact (rel_of_pairwise_cons hpo hk).left hfirst

theorem RightAnswer.none {k : Option κ} (h : ∀ e ∈ es, op.found (cmp e) = false) :
    RightAnswer cmp op es false k :=
  ⟨⟨nofun,fun ⟨e,he,hf⟩ => absurd ((h e he).symm.trans hf) nofun⟩,nofun⟩

theorem RightAnswer.not_found {k : Option κ} (h : RightAnswer cmp op es false k) :
    ∀ e ∈ es, op.found (cmp e) = false :=
  fun e he => Bool.eq_false_iff.mpr fun hf => absurd (h.1.mpr ⟨e,he,hf⟩) nofun

theorem First.right {es : List κ} {e : κ} (h : First cmp op es e) : RightAnswer cmp op es true (some e) := by
  obtain ⟨l,r,rfl,-⟩ := h.split
  exact ⟨⟨fun _ => ⟨e,by simp,h.found⟩,fun _ => rfl⟩,fun _ => ⟨e,rfl,h⟩⟩

/-- There the entry next to the place is the one to find, if there is one. -/
theorem near_right (hri : (l ++ r).Pairwise (Rising cmp))
    (hl : ∀ k, l.getLast? = some k → op.left (cmp k) = false)
    (hr : ∀ k, r.head? = some k → op.left (cmp k) = true) :
    RightAnswer cmp op (l ++ r) ((near op l r).any fun k => op.found (cmp k)) (near op l r) := by
  obtain ⟨hle,hrig⟩ := sides_of_rising hri hl hr
  obtain ⟨hpre,hpo,-⟩ := pairwise_append.mp hri
  cases hdir : op.iterationDirection with
  | forwards =>
    have hnone : ∀ x ∈ l, op.found (cmp x) = false := fun x hx =>
      Bool.eq_false_iff.mpr fun hf => absurd ((hle x hx).symm.trans (found_of_left hdir hf)) nofun
    simp only [near,hdir]
    cases r with
    | nil => exact .none (by simpa using hnone)
    | cons k rest =>
      rw [head?_cons,any_some]
      cases hk : op.found (cmp k) with
      | true => exact First.right ⟨hk,l,rest,rfl,fun _ => hnone,by simp [hdir]⟩
      | false =>
        have hre : ∀ x ∈ rest, op.found (cmp x) = false := fun x hx =>
          not_found_after hdir (rel_of_pairwise_cons hpo hx) (hrig k mem_cons_self) hk
        exact .none (forall_mem_append.mpr ⟨hnone,forall_mem_cons.mpr ⟨hk,hre⟩⟩)
  | backwards =>
    have hnone : ∀ x ∈ r, op.found (cmp x) = false := fun x hx =>
      Bool.eq_false_iff.mpr fun hf => absurd ((hrig x hx).symm.trans (found_of_not_left hdir hf)) nofun
    simp only [near,hdir]
    rcases eq_nil_or_concat' l with rfl | ⟨init,k,rfl⟩
    · exact .none (by simpa using hnone)
    · rw [getLast?_concat,any_some]
      cases hk : op.found (cmp k) with
      | true => exact First.right ⟨hk,init,r,by simp,by simp [hdir],fun _ => hnone⟩
      | false =>
        have hre : ∀ x ∈ init, op.found (cmp x) = false := fun x hx =>
          not_found_before hdir ((pairwise_append.mp hpre).2.2 x hx k (by simp)) (hle k (by simp)) hk
        exact .none (forall_mem_append.mpr ⟨forall_mem_append.mpr ⟨hre,by simpa using hk⟩,hnone⟩)

theorem near_mem (h : near op l r = some k) : k ∈ l ++ r := by
  unfold near at h
  split at h
  · exact mem_append_right _ (mem_of_head? h)
  · exact mem_append_left _ (mem_of_getLast? h)

namespace LeafFound
variable (hf : LeafFound op cmp rows pre post result)
include hf

theorem none_of_near (h : near op pre post = none) : result = none := by
  unfold near at h
  split at h
  next hdir => exact (hf.forwards hdir).1 (head?_eq_none_iff.mp h)
  next hdir => exact (hf.backwards hdir).1 (getLast?_eq_none_iff.mp h)

theorem some_of_near (h : near op pre post = some k) (hk : op.found (cmp k) = true) :
    ∃ i, result = some i ∧ rows[i]? = some k := by
  rw [hf.split]
  unfold near at h
  split at h
  next hdir =>
    obtain ⟨rest,rfl⟩ := head?_eq_some_iff.mp h
    exact ⟨pre.length,(hf.forwards hdir).2 k h hk,by simp⟩
  next hdir =>
    obtain ⟨init,rfl⟩ := getLast?_eq_some_iff.mp h
    exact ⟨init.length,by simpa using (hf.backwards hdir).2 k h hk,by simp⟩

theorem rising (hri : rows.Pairwise (Rising cmp)) :
    (∃ i k, result = some i ∧ rows[i]? = some k ∧ near op pre post = some k ∧ First cmp op rows k) ∨
      result = none ∧ ∀ k ∈ rows, op.found (cmp k) = false := by
  have hrig := near_right (hf.split ▸ hri) hf.turnsRight hf.turnsLeft
  rw [← hf.split] at hrig
  cases hany : (near op pre post).any fun k => op.found (cmp k) with
  | true =>
    obtain ⟨k,hk,hfirst⟩ := hrig.2 hany
    obtain ⟨i,hi,hget⟩ := hf.some_of_near hk hfirst.found
    exact .inl ⟨i,k,hi,hget,hk,hfirst⟩
  | false =>
    rw [hany] at hrig
    refine .inr ⟨?_,hrig.not_found⟩
    cases hr : result with
    | none => rfl
    | some i =>
      obtain ⟨k,hget,hk⟩ := hf.found i hr
      exact absurd ((hrig.not_found k (mem_of_getElem? hget)).symm.trans hk) nofun

end LeafFound

end

end OxiSql.Btree
