import OxiSql.Plan.Planner

/-! Which relations of a query are left in its plan. -/

namespace OxiSql.Plan
open List

def children : LogicalPlan → List LogicalPlan
  | .filter input _ | .project input _ | .aggregate input _ _ | .sort input _ | .limit input _ _
  | .window input _ | .compute input _ | .cte _ input _ | .subquery input _ | .exists input _
  | .inSubquery _ input _ => [input]
  | .join left right _ _ _ | .setOp _ _ left right => [left, right]
  | .scan .. | .values .. | .empty | .cteRef _ => []

inductive SubPlan (part : LogicalPlan) : LogicalPlan → Prop
  | self : SubPlan part part
  | step (hc : child ∈ children plan) (h : SubPlan part child) : SubPlan part plan

/-- The tables that occur as a Scan. -/
def scans : LogicalPlan → List String
  | .scan table _ _ => [table]
  | .filter input _ | .project input _ | .aggregate input _ _ | .sort input _ | .limit input _ _
  | .window input _ | .compute input _ | .cte _ input _ | .subquery input _ | .exists input _
  | .inSubquery _ input _ => scans input
  | .join left right _ _ _ | .setOp _ _ left right => scans left ++ scans right
  | .values .. | .empty | .cteRef _ => []

/-- A relation of a FROM clause, and whether it is a base table: no derived table and no name from a
WITH. -/
abbrev Relation := String × Bool

def bases (relations : List Relation) : List String :=
  (relations.filter (·.2)).map (·.1)

mutual

def TableFactor.tables : TableFactor → List String
  | .table name _ => [name]
  | .nestedJoin _ factors => tablesIn factors
  | .other _ => []

def tablesIn : List TableFactor → List String
  | [] => []
  | f :: fs => f.tables ++ tablesIn fs

end

/-- Here `known` are the names from the WITH clauses around. -/
def named (known : List String) (name : String) : Relation :=
  (name, name ∉ known)

def TableFactor.relations (known : List String) : TableFactor → List Relation
  | .table name _ => [named known name]
  | .nestedJoin text factors => (text, false) :: (tablesIn factors).map (named known)
  | .other text => [(text, false)]

def factors (tables : List TableWithJoins) : List TableFactor :=
  tables.flatMap fun t => t.relation :: t.joins.map (·.relation)

def fromRelations (known : List String) (tables : List TableWithJoins) : List Relation :=
  (factors tables).flatMap (·.relations known)

/-- Are the subqueries of the projection planned? -/
def plansProjection (groupBy : List String) (projection : List SelectItem) : Bool :=
  !projection.all (·.isWildcard) && groupBy.isEmpty && !projection.any (·.isAggregate)

section

variable (parse : String → Option (List (String × List String)))

def correlated (scope : List String) (query : Query) : Bool :=
  (extractCorrelatedFilter parse scope (planQueryWithOpts parse ⟨false⟩ query)).2 ≠ []

/-- The EXISTS and IN queries that are planned and do not stay in a text. -/
def plansWhere (opts : PlannerOptions) (tables : List TableWithJoins) (selection : Conjuncts) (query : Query) : Bool :=
  if opts.decorrelate then correlated parse (collectOuterScope (buildFromPlan tables)) query else selection.isSingle

mutual

/-- The relations of the query, of its WITH and of the subqueries that are planned. -/
def Query.relations (opts : PlannerOptions) (known : List String) : Query → List Relation
  | .mk ctes recursive body _ _ _ =>
    ctes.cteRelations opts recursive known ++ body.relations opts (ctes.names ++ known)

def Queries.cteRelations (opts : PlannerOptions) (recursive : Bool) (known : List String) : Queries → List Relation
  | .nil => []
  | .cons name query rest => query.relations opts (if recursive then name.toList ++ known else known) ++
      rest.cteRelations opts recursive (name.toList ++ known)

def Queries.relations (known : List String) : Queries → List Relation
  | .nil => []
  | .cons _ query rest => query.relations ⟨false⟩ known ++ rest.relations known

def SetExpr.relations (opts : PlannerOptions) (known : List String) : SetExpr → List Relation
  | .select tables selection groupBy _ projection subqueries =>
    fromRelations known tables ++ selection.relations known (plansWhere parse opts tables selection) ++
      if plansProjection groupBy projection then subqueries.relations known else []
  | .query inner => inner.relations opts known
  | .setOperation _ _ left right => left.relations opts known ++ right.relations opts known
  | .other => []

def Conjuncts.relations (known : List String) (planned : Query → Bool) : Conjuncts → List Relation
  | .nil => []
  | .other _ rest => rest.relations known planned
  | .subquery _ _ query _ rest =>
    (if planned query then query.relations ⟨false⟩ known else []) ++ rest.relations known planned

end

def TableFactor.Plain (known : List String) : TableFactor → Prop
  | .nestedJoin _ factors => bases ((tablesIn factors).map (named known)) = []
  | .table .. | .other _ => True

mutual

/-- What the planner drops names no base table: the body and the later tables of a WITH, the FROM clause
under a single EXISTS or IN, all before the last subquery of a projection, joins in parentheses. -/
def Query.Plain (opts : PlannerOptions) (known : List String) : Query → Prop
  | .mk .nil _ body _ _ _ => body.Plain opts known
  | .mk (.cons name query rest) recursive body _ _ _ =>
    (query.Plain opts (if recursive then name.toList ++ known else known) ∧
      bases (rest.cteRelations parse opts recursive (name.toList ++ known)) = []) ∧
    bases (body.relations parse opts ((Queries.cons name query rest).names ++ known)) = []

def Queries.Plain (known : List String) : Queries → Prop
  | .nil => True
  | .cons _ query .nil => query.Plain ⟨false⟩ known
  | .cons _ query rest => bases (query.relations parse ⟨false⟩ known) = [] ∧ rest.Plain known

def SetExpr.Plain (opts : PlannerOptions) (known : List String) : SetExpr → Prop
  | .select tables selection groupBy _ projection subqueries =>
    let planned := plansWhere parse opts tables selection
    if plansProjection groupBy projection && !subqueries.isNil then
      bases (fromRelations known tables ++ selection.relations parse known planned) = [] ∧ subqueries.Plain known
    else (if !opts.decorrelate && selection.isSingle then bases (fromRelations known tables) = []
      else ∀ f ∈ factors tables, f.Plain known) ∧ selection.Plain known planned
  | .query inner => inner.Plain opts known
  | .setOperation _ _ left right => left.Plain opts known ∧ right.Plain opts known
  | .other => True

def Conjuncts.Plain (known : List String) (planned : Query → Bool) : Conjuncts → Prop
  | .nil => True
  | .other _ rest => rest.Plain known planned
  | .subquery _ _ query _ rest => (planned query → query.Plain ⟨false⟩ known) ∧ rest.Plain known planned

end

end

theorem SubPlan.ite [Decidable c] (h : SubPlan p q) (h' : SubPlan p r) : SubPlan p (if c then q else r) := by
  split
  · exact h
  · exact h'

theorem SubPlan.scans (h : SubPlan p q) : scans p ⊆ scans q := by
  induction h with
  | self => exact Subset.refl _
  | @step plan child hc _ ih =>
    have hchild : Plan.scans child ⊆ Plan.scans plan := by
      cases plan <;> simp [children,Plan.scans] at hc ⊢
      all_goals first | simp | rcases hc with rfl | rfl <;> simp
    exact Subset.trans ih hchild

/-- The scans stay among the relations, and none of the base tables is missing if `plain` holds, and
only then unless a relation is named twice. -/
structure Covers (relations : List Relation) (scanned : List String) (plain : Prop) : Prop where
  within : scanned ⊆ relations.map (·.1)
  keeps : plain → bases relations ⊆ scanned
  only : (relations.map (·.1)).Nodup → bases relations ⊆ scanned → plain

theorem bases_subset : bases rs ⊆ rs.map (·.1) :=
  map_subset _ (filter_subset_self _)

theorem bases_append : bases (rs ++ rs') = bases rs ++ bases rs' := by
  simp [bases]

theorem Covers.nil : Covers [] [] True :=
  ⟨Subset.refl _,fun _ => Subset.refl _,fun _ _ => trivial⟩

theorem Covers.lost (rs : List Relation) : Covers rs [] (bases rs = []) :=
  ⟨nil_subset _,fun h => h ▸ Subset.refl _,fun _ => subset_nil.mp⟩

theorem Covers.single (name : String) (b : Bool) : Covers [(name,b)] [name] True :=
  ⟨Subset.refl _,fun _ => bases_subset,fun _ _ => trivial⟩

/-- A base table of one side is not among the scans of the other. -/
theorem Covers.apart (h : Covers rs' scanned' plain') (hd : (rs.map (·.1)).Disjoint (rs'.map (·.1)))
    (hs : bases rs ⊆ scanned ++ scanned') : bases rs ⊆ scanned := fun _ hb =>
  (mem_append.mp (hs hb)).resolve_right fun hs' => hd (bases_subset hb) (h.within hs')

theorem Covers.append (h : Covers rs scanned plain) (h' : Covers rs' scanned' plain') :
    Covers (rs ++ rs') (scanned ++ scanned') (plain ∧ plain') where
  within := by
    rw [map_append]
    exact append_subset.mpr ⟨subset_append_of_subset_left _ h.within,subset_append_of_subset_right _ h'.within⟩
  keeps := fun ⟨hp,hp'⟩ => by
    rw [bases_append]
    exact append_subset.mpr ⟨subset_append_of_subset_left _ (h.keeps hp),
      subset_append_of_subset_right _ (h'.keeps hp')⟩
  only hn hs := by
    rw [map_append] at hn
    obtain ⟨hn,hn',hd⟩ := nodup_append'.mp hn
    rw [bases_append,append_subset] at hs
    exact ⟨h.only hn (h'.apart hd hs.1),
      h'.only hn' (h.apart hd.symm fun b hb => mem_append.mpr (mem_append.mp (hs.2 hb)).symm)⟩

theorem Covers.lostRight (h : Covers rs scanned plain) (rs' : List Relation) :
    Covers (rs ++ rs') scanned (plain ∧ bases rs' = []) := by
  simpa using h.append (.lost rs')

theorem TableFactor.covers (known : List String) (f : TableFactor) :
    Covers (f.relations known) [(tableFactorNameAlias f).1] (f.Plain known) := by
  cases f with
  | table name aliasName => exact .single name _
  | nestedJoin text factors =>
    have h := (Covers.single text false).lostRight ((tablesIn factors).map (named known))
    rwa [true_and] at h
  | other text => exact .single text false

theorem scans_foldl {α : Type} (f : α → LogicalPlan) (on : α → String) (type : α → JoinType) (l : List α)
    (p : LogicalPlan) : scans (l.foldl (fun plan a => .join plan (f a) (on a) (type a) none) p) =
      scans p ++ l.flatMap fun a => scans (f a) := by
  induction l generalizing p with
  | nil => simp
  | cons a l ih => simp [ih,scans]

theorem scans_buildTableWithJoinsPlan (t : TableWithJoins) : scans (buildTableWithJoinsPlan t) =
    (t.relation :: t.joins.map (·.relation)).flatMap fun f => [(tableFactorNameAlias f).1] := by
  rw [buildTableWithJoinsPlan,scans_foldl (fun j : Join => scanOf j.relation),flatMap_cons,flatMap_map]
  rfl

theorem scans_buildFromPlan (tables : List TableWithJoins) : scans (buildFromPlan tables) =
    (factors tables).flatMap fun f => [(tableFactorNameAlias f).1] := by
  rw [factors,flatMap_assoc]
  cases tables with
  | nil => rfl
  | cons t ts =>
    rw [buildFromPlan,scans_foldl buildTableWithJoinsPlan (fun _ => "") fun _ => .cross,flatMap_cons]
    simp only [scans_buildTableWithJoinsPlan]

theorem from_covers (known : List String) (tables : List TableWithJoins) :
    Covers (fromRelations known tables) (scans (buildFromPlan tables)) (∀ f ∈ factors tables, f.Plain known) := by
  rw [scans_buildFromPlan,fromRelations]
  induction factors tables with
  | nil => simpa using Covers.nil
  | cons f fs ih =>
    rw [forall_mem_cons]
    exact (f.covers known).append ih

theorem scans_planAggregate : scans (planAggregate groupBy having projection plan) = scans plan := by
  simp only [planAggregate]
  split
  · rfl
  · cases having <;> rfl

theorem scans_planWindows : scans (planWindows functions plan) = scans plan := by
  unfold planWindows
  split <;> rfl

/-- Neither an aggregate nor a filter. -/
def IsRelation : LogicalPlan → Prop
  | .scan .. | .join .. | .empty | .exists .. | .inSubquery .. => True
  | _ => False

theorem isRelation_foldl {α : Type} {f : α → LogicalPlan} {on : α → String} {type : α → JoinType}
    (l : List α) (h : IsRelation p) :
    IsRelation (l.foldl (fun plan a => .join plan (f a) (on a) (type a) none) p) := by
  induction l generalizing p with
  | nil => exact h
  | cons a l ih => exact ih trivial

theorem isRelation_buildFromPlan (tables : List TableWithJoins) : IsRelation (buildFromPlan tables) := by
  cases tables with
  | nil => trivial
  | cons t ts => exact isRelation_foldl ts (isRelation_foldl t.joins trivial)

theorem isAggregated_planAggregate (h : isAggregated plan = false) :
    (projection.all (·.isWildcard) || isAggregated (planAggregate groupBy having projection plan)) =
      !plansProjection groupBy projection := by
  simp only [planAggregate,plansProjection]
  split
  case isTrue hn => simp_all
  case isFalse hn => cases having <;> simp_all [isAggregated] <;> grind

section

variable {parse : String → Option (List (String × List String))}

theorem scans_extractCorrelatedFilter (scope : List String) (plan : LogicalPlan) :
    scans (extractCorrelatedFilter parse scope plan).1 = scans plan := by
  induction plan with
  | filter input predicate =>
    rw [extractCorrelatedFilter]
    cases parse predicate with
    | none => rfl
    | some conjuncts =>
      simp only [Option.elim,apply_ite scans,scans,ite_self]
  | project input columns ih => exact ih
  | _ => rfl

variable (parse) in
/-- The scans of the planned subqueries. -/
def Conjuncts.scans (planned : Query → Bool) : Conjuncts → List String
  | .nil => []
  | .other _ rest => rest.scans planned
  | .subquery _ _ query _ rest =>
    (if planned query then Plan.scans (planQueryWithOpts parse ⟨false⟩ query) else []) ++ rest.scans planned

theorem Conjuncts.scans_none : ∀ selection : Conjuncts, selection.scans parse (fun _ => false) = []
  | .nil => rfl
  | .other _ rest => rest.scans_none
  | .subquery _ _ _ _ rest => rest.scans_none

theorem scans_applyDecorrelatedWhere (scope : List String) (plan : LogicalPlan) (remaining : List String) :
    ∀ selection : Conjuncts, scans (applyDecorrelatedWhere parse scope plan remaining selection) =
      scans plan ++ selection.scans parse (correlated parse scope)
  | .nil => by
    rw [applyDecorrelatedWhere,apply_ite scans]
    simp [scans,Conjuncts.scans]
  | .other text rest => scans_applyDecorrelatedWhere scope plan _ rest
  | .subquery text expr query negated rest => by
    rw [applyDecorrelatedWhere,Conjuncts.scans,correlated]
    by_cases hc : (extractCorrelatedFilter parse scope (planQueryWithOpts parse ⟨false⟩ query)).2 = []
    · simp only [hc]
      simpa using scans_applyDecorrelatedWhere scope plan _ rest
    · simp only [hc,if_false]
      rw [scans_applyDecorrelatedWhere scope _ _ rest]
      simp [scans,scans_extractCorrelatedFilter,hc]

theorem scans_planSelection (plan : LogicalPlan) (selection : Conjuncts) :
    scans (planSelection parse plan selection) =
      (if selection.isSingle then [] else scans plan) ++ selection.scans parse fun _ => selection.isSingle := by
  cases selection with
  | nil => simp [planSelection,Conjuncts.isSingle,Conjuncts.scans]
  | other text rest => simp [planSelection,Conjuncts.isSingle,Conjuncts.scans_none,scans]
  | subquery text expr query negated rest =>
    cases rest with
    | nil => cases expr <;> simp [planSelection,Conjuncts.isSingle,Conjuncts.isNil,Conjuncts.scans,scans]
    | _ => simp [planSelection,Conjuncts.isSingle,Conjuncts.isNil,Conjuncts.scans_none,scans]

theorem isAggregated_filter (h : IsRelation p) : isAggregated (.filter p predicate) = false := by
  cases p <;> first | rfl | exact h.elim

theorem isAggregated_relation (h : IsRelation p) : isAggregated p = false := by
  cases p <;> first | rfl | exact h.elim

theorem isAggregated_planSelection (h : IsRelation p) (selection : Conjuncts) :
    isAggregated (planSelection parse p selection) = false := by
  cases selection with
  | nil => exact isAggregated_relation h
  | other text rest => exact isAggregated_filter h
  | subquery text expr query negated rest =>
    rw [planSelection]
    split
    · cases expr <;> rfl
    · exact isAggregated_filter h

theorem isAggregated_applyDecorrelatedWhere (scope : List String) {p : LogicalPlan} (h : IsRelation p)
    (remaining : List String) : ∀ selection : Conjuncts,
      isAggregated (applyDecorrelatedWhere parse scope p remaining selection) = false
  | .nil => by
    rw [applyDecorrelatedWhere]
    split
    · exact isAggregated_relation h
    · exact isAggregated_filter h
  | .other _ rest => isAggregated_applyDecorrelatedWhere scope h _ rest
  | .subquery _ _ _ _ rest => by
    simp only [applyDecorrelatedWhere]
    split
    · exact isAggregated_applyDecorrelatedWhere scope h _ rest
    · refine isAggregated_applyDecorrelatedWhere scope ?_ _ rest
      trivial

variable (parse) in
def planWhere (opts : PlannerOptions) (plan : LogicalPlan) (selection : Conjuncts) : LogicalPlan :=
  if opts.decorrelate then applyDecorrelatedWhere parse (collectOuterScope plan) plan [] selection
  else planSelection parse plan selection

theorem isAggregated_planWhere (h : IsRelation p) :
    isAggregated (planWhere parse opts p selection) = false := by
  obtain ⟨_ | _⟩ := opts
  · exact isAggregated_planSelection h selection
  · exact isAggregated_applyDecorrelatedWhere _ h [] selection

theorem scans_planWhere : scans (planWhere parse opts (buildFromPlan tables) selection) =
    (if !opts.decorrelate && selection.isSingle then [] else scans (buildFromPlan tables)) ++
      selection.scans parse (plansWhere parse opts tables selection) := by
  obtain ⟨_ | _⟩ := opts
  · exact scans_planSelection _ selection
  · exact scans_applyDecorrelatedWhere _ _ [] selection

theorem scans_select : scans (planSetExpr parse opts
      (.select tables selection groupBy having projection subqueries)) =
    scans (if plansProjection groupBy projection then planSubqueries parse subqueries.firstName
      (.project (planAggregate groupBy having projection (planWhere parse opts (buildFromPlan tables) selection))
        (projection.map (·.text))) subqueries
      else planWhere parse opts (buildFromPlan tables) selection) := by
  have h := @isAggregated_planAggregate _ groupBy having projection
    (@isAggregated_planWhere parse _ opts selection (isRelation_buildFromPlan tables))
  rw [planSetExpr,scans_planWindows]
  simp only [planWhere] at h ⊢
  rw [h]
  cases plansProjection groupBy projection with
  | false => exact scans_planAggregate
  | true => rfl

mutual

theorem Query.covers (opts : PlannerOptions) (known : List String) : ∀ q : Query,
    Covers (q.relations parse opts known) (scans (planQueryWithOpts parse opts q))
      (q.Plain parse opts known)
  | .mk .nil _ body orderBy count offset => by
    rw [planQueryWithOpts,planCtes]
    simp only [apply_ite scans,scans,ite_self]
    exact body.covers opts known
  | .mk (.cons name query rest) recursive body _ _ _ =>
    ((query.covers opts (if recursive then name.toList ++ known else known)).lostRight _).lostRight _

/-- Only the last one stays. -/
theorem Queries.covers (known : List String) (aliasName : Option String) : ∀ (qs : Queries) (plan : LogicalPlan),
    qs.isNil = false → Covers (qs.relations parse known) (scans (planSubqueries parse aliasName plan qs))
      (qs.Plain parse known)
  | .cons _ query .nil, _, _ => by
    rw [Queries.relations,Queries.relations,append_nil]
    exact query.covers ⟨false⟩ known
  | .cons _ query (.cons name query' rest), _, _ =>
    (Covers.lost _).append ((Queries.cons name query' rest).covers known aliasName .empty rfl)

theorem SetExpr.covers (opts : PlannerOptions) (known : List String) : ∀ body : SetExpr,
    Covers (body.relations parse opts known) (scans (planSetExpr parse opts body))
      (body.Plain parse opts known)
  | .select tables selection groupBy having projection subqueries => by
    have hwhere : Covers (fromRelations known tables ++
        selection.relations parse known (plansWhere parse opts tables selection))
        (scans (planWhere parse opts (buildFromPlan tables) selection))
        ((if !opts.decorrelate && selection.isSingle then bases (fromRelations known tables) = []
          else ∀ f ∈ factors tables, f.Plain known) ∧
          selection.Plain parse known (plansWhere parse opts tables selection)) := by
      rw [scans_planWhere]
      refine Covers.append ?_ (selection.covers known _)
      split
      · exact .lost _
      · exact from_covers known tables
    rw [scans_select,SetExpr.relations,SetExpr.Plain]
    cases plansProjection groupBy projection with
    | false => simpa using hwhere
    | true =>
      cases subqueries with
      | nil => simpa [planSubqueries,scans,scans_planAggregate,Queries.isNil,Queries.relations] using hwhere
      | cons name query rest =>
        exact (Covers.lost _).append ((Queries.cons name query rest).covers known _ .empty rfl)
  | .query inner => inner.covers opts known
  | .setOperation _ _ left right => (left.covers opts known).append (right.covers opts known)
  | .other => .nil

theorem Conjuncts.covers (known : List String) (planned : Query → Bool) : ∀ selection : Conjuncts,
    Covers (selection.relations parse known planned) (selection.scans parse planned)
      (selection.Plain parse known planned)
  | .nil => .nil
  | .other _ rest => rest.covers known planned
  | .subquery _ _ query _ rest => by
    refine Covers.append ?_ (rest.covers known planned)
    cases planned query with
    | false => simpa using Covers.nil
    | true => simpa using query.covers ⟨false⟩ known

end

def Query.body : Query → SetExpr
  | .mk _ _ body _ _ _ => body

def Query.ctes : Query → Queries
  | .mk ctes _ _ _ _ _ => ctes

variable (parse) in
/-- The base tables of the query, of its WITH and of the subqueries that are planned. -/
def Query.tables (opts : PlannerOptions) (q : Query) : List String :=
  bases (q.relations parse opts [])

theorem subPlan_body (h : q.ctes = .nil) :
    SubPlan (planSetExpr parse opts q.body) (planQueryWithOpts parse opts q) := by
  obtain ⟨ctes,recursive,body,orderBy,count,offset⟩ := q
  subst h
  have hsort : SubPlan (planSetExpr parse opts body) (if orderBy = [] then planSetExpr parse opts body
      else .sort (planSetExpr parse opts body) orderBy) := SubPlan.self.ite (.step mem_cons_self .self)
  exact SubPlan.ite (.step mem_cons_self hsort) hsort

/-- With a WITH only its first table is left. -/
theorem ctes_nil (hn : ((q.relations parse opts []).map (·.1)).Nodup)
    (hs : scans (planSetExpr parse opts q.body) ≠ [])
    (h : SubPlan (planSetExpr parse opts q.body) (planQueryWithOpts parse opts q)) :
    q.ctes = .nil := by
  obtain ⟨ctes,recursive,body,orderBy,count,offset⟩ := q
  cases ctes with
  | nil => rfl
  | cons name query rest =>
    obtain ⟨x,hx⟩ := exists_mem_of_ne_nil _ hs
    have hbody := (body.covers opts ((Queries.cons name query rest).names ++ [])).within hx
    have hfirst := (query.covers opts (if recursive then name.toList ++ [] else [])).within (h.scans hx)
    rw [Query.relations,Queries.cteRelations,map_append,map_append] at hn
    exact absurd hbody (disjoint_of_nodup_append hn (mem_append_left _ hfirst))

/-- The condition is exact where no relation is named twice: under
`WITH c AS (SELECT * FROM t) SELECT * FROM t` the table of the body is scanned for the WITH. -/
theorem planQuery_keeps (opts : PlannerOptions) (q : Query) :
    let plan := planQueryWithOpts parse opts q
    let body := planSetExpr parse opts q.body
    (q.ctes = .nil ∧ q.Plain parse opts [] → q.tables parse opts ⊆ scans plan ∧ SubPlan body plan) ∧
    (((q.relations parse opts []).map (·.1)).Nodup → scans body ≠ [] →
      q.tables parse opts ⊆ scans plan ∧ SubPlan body plan → q.ctes = .nil ∧ q.Plain parse opts []) :=
  ⟨fun ⟨hw,hp⟩ => ⟨(q.covers opts []).keeps hp,subPlan_body hw⟩,
    fun hn hs ⟨ht,hb⟩ => ⟨ctes_nil hn hs hb,(q.covers opts []).only hn ht⟩⟩

end

/-- `SELECT * FROM` these relations. -/
def everyRow (tables : List TableWithJoins) (selection : Conjuncts) (subqueries : Queries) : SetExpr :=
  .select tables selection [] none [⟨"", subqueries.isNil, false, none⟩] subqueries

def ofBody (ctes : Queries) (body : SetExpr) : Query :=
  .mk ctes false body [] none none

def rowsOf (table : String) : Query :=
  ofBody .nil (everyRow [⟨.table table none, []⟩] .nil .nil)

/-- `SELECT * FROM t JOIN u ON t.b = u.b WHERE EXISTS (SELECT * FROM x WHERE x.a = t.a)`, decorrelated. -/
theorem joined_scans : let parse := fun text : String => some [(text,["x","t"])]
    let inner := ofBody .nil (everyRow [⟨.table "x" none,[]⟩] (.other "x.a = t.a" .nil) .nil)
    let q := ofBody .nil (everyRow [⟨.table "t" none,[⟨.table "u" none,.inner,"t.b = u.b"⟩]⟩]
      (.subquery "EXISTS (SELECT * FROM x WHERE x.a = t.a)" none inner false .nil) .nil)
    q.tables parse ⟨true⟩ = ["t","u","x"] ∧ q.tables parse ⟨true⟩ ⊆ scans (planQueryWithOpts parse ⟨true⟩ q) := by
  intro parse inner q
  have hp : q.Plain parse ⟨true⟩ [] := by
    simp [q,inner,ofBody,everyRow,Query.Plain,SetExpr.Plain,factors,TableFactor.Plain,Conjuncts.Plain,
      Queries.isNil,Conjuncts.isSingle]
  exact ⟨by decide +kernel,((planQuery_keeps ⟨true⟩ q).1 ⟨rfl,hp⟩).1⟩

/-- A WITH, a single EXISTS, a subquery in the projection and joins in parentheses each lose a table of
the query itself. -/
theorem outer_table_lost :
    "t" ∉ scans (planQueryWithOpts (fun _ => none) ⟨true⟩ (ofBody (.cons (some "c") (rowsOf "x") .nil)
      (rowsOf "t").body)) ∧
    "t" ∉ scans (planQueryWithOpts (fun _ => none) ⟨false⟩ (ofBody .nil (everyRow [⟨.table "t" none,[]⟩]
      (.subquery "EXISTS (SELECT * FROM x)" none (rowsOf "x") false .nil) .nil))) ∧
    "t" ∉ scans (planQueryWithOpts (fun _ => none) ⟨true⟩ (ofBody .nil (everyRow [⟨.table "t" none,[]⟩] .nil
      (.cons none (rowsOf "x") .nil)))) ∧
    "a" ∉ scans (planQueryWithOpts (fun _ => none) ⟨true⟩ (ofBody .nil (everyRow
      [⟨.nestedJoin "(a JOIN b ON a.id = b.id)" [.table "a" none,.table "b" none],[]⟩] .nil .nil))) :=
  have h : "t" ∉ ["x"] := by decide
  ⟨h,h,h,(by decide : "a" ∉ ["(a JOIN b ON a.id = b.id)"])⟩

end OxiSql.Plan
