import OxiSql.Plan.LimitPushThrough

namespace OxiSql.Plan
open List

/-- Without any match the requirement itself becomes the list of columns. -/
def prunedColumns (columns required : List String) : List String :=
  let pruned := columns.filter fun col => required.any fun r => col = r ∨ r.toList <:+: col.toList
  if pruned = [] then required else pruned

def pruneProjections (required : List String) : LogicalPlan → LogicalPlan
  | .project input columns =>
    .project (pruneProjections (prunedColumns columns required) input) (prunedColumns columns required)
  | .filter input predicate => .filter (pruneProjections required input) predicate
  | .aggregate input groupBy aggregates => .aggregate (pruneProjections required input) groupBy aggregates
  | .sort input orderBy => .sort (pruneProjections required input) orderBy
  | .limit input count offset => .limit (pruneProjections required input) count offset
  | .join left right on joinType algoHint =>
    .join (pruneProjections required left) (pruneProjections required right) on joinType algoHint
  | other => other

/-- `ProjectionPruning { required }.apply(plan)`. -/
def projectionPruning (required : List String) (plan : LogicalPlan) : LogicalPlan :=
  if required = [] then plan else pruneProjections required plan

/-- The column contains a required text. -/
abbrev Asked (required : List String) (c : String) : Prop :=
  ∃ r ∈ required, r.toList <:+: c.toList

/-- At each projection some column contains a required text. -/
def Matched (required : List String) : LogicalPlan → Prop
  | .project input columns => (∃ c ∈ columns, Asked required c) ∧ Matched (columns.filter (Asked required)) input
  | .filter input _ | .aggregate input _ _ | .sort input _ | .limit input _ _ => Matched required input
  | .join left right _ _ _ => Matched required left ∧ Matched required right
  | _ => True

theorem prunedColumns_of_asked (h : ∃ c ∈ columns, Asked required c) :
    prunedColumns columns required = columns.filter (Asked required) := by
  have heq : columns.filter (fun col => required.any fun r => col = r ∨ r.toList <:+: col.toList) =
      columns.filter (Asked required) := by
    grind
  obtain ⟨c,hc,ha⟩ := h
  rw [prunedColumns,heq,if_neg (ne_nil_of_mem (mem_filter.mpr ⟨hc,decide_eq_true ha⟩))]

abbrev Columns (V : Type) := String → Option V

/-- The same values in these columns, row for row. -/
def AgreeOn {V : Type} (needed : List String) : List (Columns V) → List (Columns V) → Prop :=
  Forall₂ fun r r' => ∀ c ∈ needed, r c = r' c

theorem AgreeOn.refl {V : Type} (needed : List String) (rs : List (Columns V)) : AgreeOn needed rs rs :=
  forall₂_same.mpr fun _ _ _ _ => rfl

theorem AgreeOn.mono (h : AgreeOn needed rs rs') (hsub : needed' ⊆ needed) : AgreeOn needed' rs rs' :=
  h.imp fun _ _ hr c hc => hr c (hsub hc)

/-- Rows with the same keys are sorted in the same way. -/
theorem AgreeOn.mergeSort {V : Type} {rs rs' : List (Columns V)} (h : AgreeOn needed rs rs')
    {le : Columns V → Columns V → Bool}
    (hle : ∀ r r' q q', (∀ c ∈ needed, r c = r' c) → (∀ c ∈ needed, q c = q' c) → le r q = le r' q') :
    AgreeOn needed (rs.mergeSort le) (rs'.mergeSort le) := by
  have hlen := h.length_eq
  have hall : ∀ z ∈ rs.zip rs', ∀ c ∈ needed, z.1 c = z.2 c := fun z hz => (forall₂_iff_zip.mp h).2 hz
  have hfst := map_mergeSort (r := fun z w => le z.1 w.1) (s := le) (f := Prod.fst) (l := rs.zip rs')
    (fun _ _ _ _ => rfl)
  have hsnd := map_mergeSort (r := fun z w => le z.1 w.1) (s := le) (f := Prod.snd) (l := rs.zip rs')
    (fun z hz w hw => hle _ _ _ _ (hall z hz) (hall w hw))
  rw [map_fst_zip hlen.le] at hfst
  rw [map_snd_zip hlen.ge] at hsnd
  rw [← hfst,← hsnd]
  refine forall₂_map_left_iff.mpr (forall₂_map_right_iff.mpr (forall₂_same.mpr fun z hz => ?_))
  exact hall z (mem_mergeSort.mp hz)

/-- A database, the columns each text reads and what it means; groups and joins read nothing else,
and a join hands the columns on. -/
structure Reading (V : Type) where
  rows : LogicalPlan → List (Columns V)
  columns : LogicalPlan → List String
  uses : String → List String
  value : String → Columns V → Option V
  value_congr : ∀ text r r', (∀ c ∈ uses text, r c = r' c) → value text r = value text r'
  holds : Option V → Bool
  le : List SortExpr → List (Option V) → List (Option V) → Bool
  group : List String → List String → List (Columns V) → List (Columns V)
  group_congr : ∀ groupBy aggregates {rs rs'}, AgreeOn ((groupBy ++ aggregates).flatMap uses) rs rs' →
    group groupBy aggregates rs = group groupBy aggregates rs'
  combine : String → JoinType → List (Columns V) → List (Columns V) → List (Columns V)
  combine_congr : ∀ on joinType needed {ls ls' rs rs'}, AgreeOn (needed ++ uses on) ls ls' →
    AgreeOn (needed ++ uses on) rs rs' → AgreeOn needed (combine on joinType ls rs) (combine on joinType ls' rs')

namespace Reading
variable {V : Type} (M : Reading V)

def keys (orderBy : List SortExpr) (r : Columns V) : List (Option V) :=
  orderBy.map fun s => M.value s.column r

def eval : LogicalPlan → List (Columns V)
  | .filter input predicate => (eval input).filter fun r => M.holds (M.value predicate r)
  | .project input columns => (eval input).map fun r c => if c ∈ columns then M.value c r else none
  | .sort input orderBy => (eval input).mergeSort fun r r' => M.le orderBy (M.keys orderBy r) (M.keys orderBy r')
  | .limit input count offset => takeAtMost count ((eval input).drop (offset.getD 0))
  | .aggregate input groupBy aggregates => M.group groupBy aggregates (eval input)
  | .join left right on joinType _ => M.combine on joinType (eval left) (eval right)
  | other => M.rows other

def produces : LogicalPlan → List String
  | .filter input _ | .sort input _ | .limit input _ _ => produces input
  | .project _ columns => columns
  | .aggregate _ groupBy aggregates => groupBy ++ aggregates
  | .join left right _ _ _ => produces left ++ produces right
  | other => M.columns other

/-- What each node reads is there. -/
def Scoped : LogicalPlan → Prop
  | .filter input predicate => M.uses predicate ⊆ M.produces input ∧ Scoped input
  | .project input columns => columns.flatMap M.uses ⊆ M.produces input ∧ Scoped input
  | .sort input orderBy => (orderBy.flatMap fun s => M.uses s.column) ⊆ M.produces input ∧ Scoped input
  | .limit input _ _ => Scoped input
  | .aggregate input groupBy aggregates =>
    (groupBy ++ aggregates).flatMap M.uses ⊆ M.produces input ∧ Scoped input
  | .join left right on _ _ => M.uses on ⊆ M.produces left ++ M.produces right ∧ Scoped left ∧ Scoped right
  | _ => True

/-- What is read of a projection (by the nodes above it, up to the next projection or aggregate) contains
a text required there. Below, the required texts are the columns that contain one. -/
def Keeps (required needed : List String) : LogicalPlan → Prop
  | .filter input predicate => Keeps required (needed ++ M.uses predicate) input
  | .project input columns => (∀ c ∈ needed, c ∈ columns → Asked required c) ∧
      Keeps (columns.filter (Asked required)) ((columns.filter (Asked required)).flatMap M.uses) input
  | .sort input orderBy => Keeps required (needed ++ orderBy.flatMap fun s => M.uses s.column) input
  | .limit input _ _ => Keeps required needed input
  | .aggregate input groupBy aggregates => Keeps required ((groupBy ++ aggregates).flatMap M.uses) input
  | .join left right on _ _ =>
    Keeps required (needed ++ M.uses on) left ∧ Keeps required (needed ++ M.uses on) right
  | _ => True

/-- No column comes from both sides of a join. -/
def Unambiguous : LogicalPlan → Prop
  | .filter input _ | .project input _ | .sort input _ | .limit input _ _ | .aggregate input _ _ => Unambiguous input
  | .join left right _ _ _ =>
    (M.produces left).Disjoint (M.produces right) ∧ Unambiguous left ∧ Unambiguous right
  | _ => True

variable {M}

theorem keys_congr (h : ∀ c ∈ orderBy.flatMap fun s => M.uses s.column, r c = r' c) :
    M.keys orderBy r = M.keys orderBy r' :=
  map_congr_left fun s hs => M.value_congr _ _ _ fun c hc => h c (mem_flatMap.mpr ⟨s,hs,hc⟩)

theorem agreeOn_prune (hm : Matched required p) (h : M.Keeps required needed p) :
    AgreeOn needed (M.eval (pruneProjections required p)) (M.eval p) := by
  fun_induction pruneProjections required p generalizing needed with
  | case1 required input columns ih =>
    rw [prunedColumns_of_asked hm.1] at ih ⊢
    refine forall₂_map_left_iff.mpr (forall₂_map_right_iff.mpr ((ih hm.2 h.2).imp fun r r' hr c hc => ?_))
    by_cases hcol : c ∈ columns
    · have hpr : c ∈ columns.filter (Asked required) := mem_filter.mpr ⟨hcol,decide_eq_true (h.1 c hc hcol)⟩
      dsimp only
      rw [if_pos hpr,if_pos hcol]
      exact M.value_congr _ _ _ fun d hd => hr d (mem_flatMap.mpr ⟨c,hpr,hd⟩)
    · simp [hcol]
  | case2 required input predicate ih =>
    refine AgreeOn.mono (rel_filter (fun r r' hr => ?_) (ih hm h)) (subset_append_left _ _)
    dsimp only
    rw [M.value_congr predicate r r' fun c hc => hr c (mem_append_right _ hc)]
  | case3 required input groupBy aggregates ih =>
    rw [eval,M.group_congr groupBy aggregates (ih hm h)]
    exact .refl _ _
  | case4 required input orderBy ih =>
    refine ((ih hm h).mergeSort fun r r' q q' hr hq => ?_).mono (subset_append_left _ _)
    rw [keys_congr fun c hc => hr c (mem_append_right _ hc),keys_congr fun c hc => hq c (mem_append_right _ hc)]
  | case5 required input count offset ih =>
    have hdrop := forall₂_drop (offset.getD 0) (ih hm h)
    cases count with
    | none => exact hdrop
    | some n => exact forall₂_take n hdrop
  | case6 required left right on joinType algoHint ihl ihr =>
    exact M.combine_congr on joinType needed (ihl hm.1 h.1) (ihr hm.2 h.2)
  | case7 required other => exact .refl _ _

theorem mem_produces_prune (hm : Matched required p) (h : M.Keeps required needed p) (hc : c ∈ needed)
    (hp : c ∈ M.produces p) : c ∈ M.produces (pruneProjections required p) := by
  fun_induction pruneProjections required p generalizing needed with
  | case1 required input columns ih =>
    rw [prunedColumns_of_asked hm.1]
    exact mem_filter.mpr ⟨hp,decide_eq_true (h.1 c hc hp)⟩
  | case2 required input predicate ih => exact ih hm h (mem_append_left _ hc) hp
  | case3 => exact hp
  | case4 required input orderBy ih => exact ih hm h (mem_append_left _ hc) hp
  | case5 required input count offset ih => exact ih hm h hc hp
  | case6 required left right on joinType algoHint ihl ihr =>
    rcases mem_append.mp hp with hp | hp
    · exact mem_append_left _ (ihl hm.1 h.1 (mem_append_left _ hc) hp)
    · exact mem_append_right _ (ihr hm.2 h.2 (mem_append_left _ hc) hp)
  | case7 => exact hp

theorem Scoped.prune (hs : M.Scoped p) (hm : Matched required p) (h : M.Keeps required needed p) :
    M.Scoped (pruneProjections required p) := by
  fun_induction pruneProjections required p generalizing needed with
  | case1 required input columns ih =>
    rw [prunedColumns_of_asked hm.1] at ih ⊢
    refine ⟨fun c hc => mem_produces_prune hm.2 h.2 hc ?_,ih hs.2 hm.2 h.2⟩
    obtain ⟨col,hcol,hc⟩ := mem_flatMap.mp hc
    exact hs.1 (mem_flatMap.mpr ⟨col,(mem_filter.mp hcol).1,hc⟩)
  | case2 required input predicate ih =>
    exact ⟨fun c hc => mem_produces_prune hm h (mem_append_right _ hc) (hs.1 hc),ih hs.2 hm h⟩
  | case3 required input groupBy aggregates ih =>
    exact ⟨fun c hc => mem_produces_prune hm h hc (hs.1 hc),ih hs.2 hm h⟩
  | case4 required input orderBy ih =>
    exact ⟨fun c hc => mem_produces_prune hm h (mem_append_right _ hc) (hs.1 hc),ih hs.2 hm h⟩
  | case5 required input count offset ih => exact ih hs hm h
  | case6 required left right on joinType algoHint ihl ihr =>
    refine ⟨fun c hc => ?_,ihl hs.2.1 hm.1 h.1,ihr hs.2.2 hm.2 h.2⟩
    rcases mem_append.mp (hs.1 hc) with hp | hp
    · exact mem_append_left _ (mem_produces_prune hm.1 h.1 (mem_append_right _ hc) hp)
    · exact mem_append_right _ (mem_produces_prune hm.2 h.2 (mem_append_right _ hc) hp)
  | case7 => exact hs

theorem produces_prune_subset (hm : Matched required p) :
    M.produces (pruneProjections required p) ⊆ M.produces p := by
  fun_induction pruneProjections required p with
  | case1 required input columns =>
    rw [prunedColumns_of_asked hm.1]
    exact filter_subset_self _
  | case2 _ _ _ ih | case4 _ _ _ ih | case5 _ _ _ _ ih => exact ih hm
  | case3 | case7 => exact Subset.refl _
  | case6 required left right on joinType algoHint ihl ihr =>
    exact append_subset.mpr ⟨subset_append_of_subset_left _ (ihl hm.1),subset_append_of_subset_right _ (ihr hm.2)⟩

/-- A column that is lost is missed by the node that reads it. -/
theorem keeps_of_scoped (hm : Matched required p) (hu : M.Unambiguous p)
    (hs : M.Scoped (pruneProjections required p))
    (h : ∀ c ∈ needed, c ∈ M.produces p → c ∈ M.produces (pruneProjections required p)) :
    M.Keeps required needed p := by
  fun_induction pruneProjections required p generalizing needed with
  | case1 required input columns ih =>
    rw [prunedColumns_of_asked hm.1] at ih hs h
    exact ⟨fun c hc hcol => of_decide_eq_true (mem_filter.mp (h c hc hcol)).2,
      ih hm.2 hu hs.2 fun c hc _ => hs.1 hc⟩
  | case2 required input predicate ih =>
    exact ih hm hu hs.2 fun c hc hp => (mem_append.mp hc).elim (h c · hp) (@hs.1 c)
  | case3 required input groupBy aggregates ih => exact ih hm hu hs.2 fun c hc _ => hs.1 hc
  | case4 required input orderBy ih =>
    exact ih hm hu hs.2 fun c hc hp => (mem_append.mp hc).elim (h c · hp) (@hs.1 c)
  | case5 required input count offset ih => exact ih hm hu hs h
  | case6 required left right on joinType algoHint ihl ihr =>
    obtain ⟨hd,hul,hur⟩ := hu
    have hboth : ∀ c ∈ needed ++ M.uses on, c ∈ M.produces left ++ M.produces right →
        c ∈ M.produces (pruneProjections required left) ++ M.produces (pruneProjections required right) :=
      fun c hc hp => (mem_append.mp hc).elim (h c · hp) (@hs.1 c)
    constructor
    · refine ihl hm.1 hul hs.2.1 fun c hc hp => ?_
      exact (mem_append.mp (hboth c hc (mem_append_left _ hp))).resolve_right
        fun hr => hd hp (produces_prune_subset hm.2 hr)
    · refine ihr hm.2 hur hs.2.2 fun c hc hp => ?_
      exact (mem_append.mp (hboth c hc (mem_append_right _ hp))).resolve_left
        fun hl => hd (produces_prune_subset hm.1 hl) hp
  | case7 required other => cases other <;> first | trivial | grind

theorem projectionPruning_right_iff (hs : M.Scoped p) (hu : M.Unambiguous p) (hne : required ≠ [])
    (hpr : required ⊆ M.produces p) (hm : Matched required p) :
    (required ⊆ M.produces (projectionPruning required p) ∧
      AgreeOn required (M.eval (projectionPruning required p)) (M.eval p) ∧
      M.Scoped (projectionPruning required p)) ↔ M.Keeps required required p := by
  rw [projectionPruning,if_neg hne]
  constructor
  · exact fun ⟨hpr',_,hs'⟩ => keeps_of_scoped hm hu hs' fun c hc _ => hpr' hc
  · exact fun hk => ⟨fun c hc => mem_produces_prune hm hk hc (hpr hc),agreeOn_prune hm hk,hs.prune hm hk⟩

/-- One row of two columns; each text is the name of a column. -/
def twoColumns : Reading Nat where
  rows _ := [fun c => if c = "a" ∨ c = "c" then some 1 else none]
  columns _ := ["a", "c"]
  uses text := [text]
  value text r := r text
  value_congr _ _ _ h := h _ (mem_singleton_self _)
  holds := Option.isSome
  le _ _ _ := true
  group _ _ _ := []
  group_congr _ _ _ _ _ := rfl
  combine _ _ _ _ := []
  combine_congr _ _ _ _ _ _ _ _ _ := .nil

def twoOfTable : LogicalPlan :=
  .project (.scan "t" none none) ["a", "c"]

def filtered (column : String) : LogicalPlan :=
  .project (.filter twoOfTable column) ["a"]

theorem filtered_pruned :
    AgreeOn ["a"] (twoColumns.eval (projectionPruning ["a"] (filtered "a"))) (twoColumns.eval (filtered "a")) :=
  ((@projectionPruning_right_iff _ twoColumns (filtered "a") ["a"]
    ⟨by decide,by decide,by decide,trivial⟩ trivial (by decide)
    (by decide) ⟨by decide,by decide,trivial⟩).mpr ⟨by decide,by decide,trivial⟩).2.1

/-- A filter reads a column that is not asked for above it. -/
theorem filter_misses_column : let plan := filtered "c"
    twoColumns.Scoped plan ∧ ["a"] ⊆ twoColumns.produces plan ∧ (twoColumns.eval plan).length = 1 ∧
      twoColumns.eval (projectionPruning ["a"] plan) = [] ∧
      ¬twoColumns.Scoped (projectionPruning ["a"] plan) :=
  ⟨⟨by decide,by decide,by decide,trivial⟩,by decide,rfl,rfl,fun h => absurd h.2.1 (by decide)⟩

end Reading
end OxiSql.Plan
