import OxiSql.Plan.LogicalPlan

/-! Planning a query, with and without decorrelation. Expressions are texts, as `to_string` gives
them. -/

namespace OxiSql.Plan
open List

inductive TableFactor
  | table (name : String) (aliasName : Option String)
  /-- Joins in parentheses. -/
  | nestedJoin (text : String) (relations : List TableFactor)
  /-- A derived table, a function and so on. -/
  | other (text : String)

/-- The operator of a join as `join_operator_info` gives it. -/
structure Join where
  relation : TableFactor
  joinType : JoinType
  on : String

structure TableWithJoins where
  relation : TableFactor
  joins : List Join

structure SelectItem where
  text : String
  isWildcard : Bool
  isAggregate : Bool
  window : Option WindowFunctionDef

mutual

inductive Query
  | mk (ctes : Queries) (recursive : Bool) (body : SetExpr) (orderBy : List SortExpr) (count offset : Option Nat)

/-- The tables of a WITH under their names, or the items of a projection that are subqueries with
their aliases. -/
inductive Queries
  | nil
  | cons (name : Option String) (query : Query) (rest : Queries)

inductive SetExpr
  | select (tables : List TableWithJoins) (selection : Conjuncts) (groupBy : List String)
      (having : Option String) (projection : List SelectItem) (subqueries : Queries)
  | query (inner : Query)
  | setOperation (op : SetOpType) (all : Bool) (left right : SetExpr)
  | other

/-- The WHERE clause as `split_conjuncts` takes it apart; `nil` where there is none. -/
inductive Conjuncts
  | nil
  /-- `EXISTS (query)`, or `expr IN (query)`. -/
  | subquery (text : String) (expr : Option String) (query : Query) (negated : Bool) (rest : Conjuncts)
  | other (text : String) (rest : Conjuncts)

end

def Queries.firstName : Queries → Option String
  | nil => none
  | cons name _ rest => name.or rest.firstName

def Queries.names : Queries → List String
  | nil => []
  | cons name _ rest => name.toList ++ rest.names

def Queries.isNil : Queries → Bool
  | nil => true
  | cons .. => false

def Conjuncts.texts : Conjuncts → List String
  | nil => []
  | subquery text _ _ _ rest | other text rest => text :: rest.texts

def Conjuncts.isNil : Conjuncts → Bool
  | nil => true
  | subquery .. | other .. => false

/-- Is the clause a single EXISTS or IN? -/
def Conjuncts.isSingle : Conjuncts → Bool
  | subquery _ _ _ _ rest => rest.isNil
  | nil | other .. => false

def joinConjuncts (texts : List String) : String :=
  " AND ".intercalate texts

def tableFactorNameAlias : TableFactor → String × Option String
  | .table name aliasName => (name, aliasName)
  | .nestedJoin text _ | .other text => (text, none)

def scanOf (f : TableFactor) : LogicalPlan :=
  .scan (tableFactorNameAlias f).1 (tableFactorNameAlias f).2 none

def buildTableWithJoinsPlan (t : TableWithJoins) : LogicalPlan :=
  t.joins.foldl (fun plan j => .join plan (scanOf j.relation) j.on j.joinType none) (scanOf t.relation)

def buildFromPlan : List TableWithJoins → LogicalPlan
  | [] => .empty
  | t :: ts => ts.foldl (fun plan t => .join plan (buildTableWithJoinsPlan t) "" .cross none)
      (buildTableWithJoinsPlan t)

def collectOuterScope : LogicalPlan → List String
  | .scan table aliasName _ => table :: aliasName.toList
  | .filter input _ | .project input _ | .aggregate input _ _ | .sort input _ | .limit input _ _
  | .window input _ | .compute input _ => collectOuterScope input
  | .join left right _ _ _ | .setOp _ _ left right => collectOuterScope left ++ collectOuterScope right
  | .values .. | .empty | .cteRef _ | .cte .. | .subquery .. | .exists .. | .inSubquery .. => []

def extractProjectionCols : LogicalPlan → List String
  | .project _ columns => columns
  | .filter input _ => extractProjectionCols input
  | _ => []

def isAggregated : LogicalPlan → Bool
  | .aggregate .. | .filter (.aggregate ..) _ => true
  | _ => false

def planAggregate (groupBy : List String) (having : Option String) (projection : List SelectItem)
    (plan : LogicalPlan) : LogicalPlan :=
  let aggregates := (projection.filter (·.isAggregate)).map (·.text)
  if groupBy = [] ∧ aggregates = [] then plan
  else having.elim (.aggregate plan groupBy aggregates) (.filter (.aggregate plan groupBy aggregates))

def planWindows (functions : List WindowFunctionDef) (plan : LogicalPlan) : LogicalPlan :=
  if functions = [] then plan else .window plan functions

section

-- The third-party parser: the conjuncts of a predicate, each with the qualifiers of its columns.
variable (parse : String → Option (List (String × List String)))

def extractCorrelatedFilter (scope : List String) : LogicalPlan → LogicalPlan × List String
  | .filter input predicate => (parse predicate).elim (.filter input predicate, []) fun conjuncts =>
    let (corr, nonCorr) := conjuncts.partition (·.2.any (· ∈ scope))
    (if nonCorr = [] then input else .filter input (joinConjuncts (nonCorr.map (·.1))), corr.map (·.1))
  | .project input columns =>
    let (input, corr) := extractCorrelatedFilter scope input
    (.project input columns, corr)
  | plan => (plan, [])

mutual

/-- With `decorrelate` off this is `plan_query` too, whose text is the same. -/
def planQueryWithOpts (opts : PlannerOptions) : Query → LogicalPlan
  | .mk ctes recursive body orderBy count offset =>
    let plan := planSetExpr opts body
    let plan := if orderBy = [] then plan else .sort plan orderBy
    let plan := if count.isSome ∨ offset.isSome then .limit plan count offset else plan
    planCtes opts recursive plan ctes

/-- The loop goes from the last table to the first, and each turn puts its plan in place of the one
there was. -/
def planCtes (opts : PlannerOptions) (recursive : Bool) (plan : LogicalPlan) : Queries → LogicalPlan
  | .nil => plan
  | .cons name query _ => .cte (name.getD "") (planQueryWithOpts opts query) recursive

def planSetExpr (opts : PlannerOptions) : SetExpr → LogicalPlan
  | .select tables selection groupBy having projection subqueries =>
    let plan := buildFromPlan tables
    let plan := if opts.decorrelate then applyDecorrelatedWhere (collectOuterScope plan) plan [] selection
      else planSelection plan selection
    let plan := planAggregate groupBy having projection plan
    planWindows (projection.filterMap (·.window))
      (if projection.all (·.isWildcard) || isAggregated plan then plan
      else planSubqueries subqueries.firstName (.project plan (projection.map (·.text))) subqueries)
  | .query inner => planQueryWithOpts opts inner
  | .setOperation op all left right => .setOp op all (planSetExpr opts left) (planSetExpr opts right)
  | .other => .empty

def planSelection (plan : LogicalPlan) : Conjuncts → LogicalPlan
  | .nil => plan
  | .other text rest => .filter plan (joinConjuncts (text :: rest.texts))
  | .subquery text expr query negated rest =>
    let inner := planQueryWithOpts ⟨false⟩ query
    if rest.isNil then expr.elim (.exists inner negated) (.inSubquery · inner negated)
    else .filter plan (joinConjuncts (text :: rest.texts))

/-- What does not become a join stays in the predicate. -/
def applyDecorrelatedWhere (scope : List String) (plan : LogicalPlan) (remaining : List String) :
    Conjuncts → LogicalPlan
  | .nil => if remaining = [] then plan else .filter plan (joinConjuncts remaining)
  | .other text rest => applyDecorrelatedWhere scope plan (remaining ++ [text]) rest
  | .subquery text expr query negated rest =>
    let inner := planQueryWithOpts ⟨false⟩ query
    let (nonCorr, corr) := extractCorrelatedFilter parse scope inner
    if corr = [] then applyDecorrelatedWhere scope plan (remaining ++ [text]) rest
    else
      let equality := expr.toList.flatMap fun e => ((extractProjectionCols inner).take 1).map (e ++ " = " ++ ·)
      let joinType := if negated then .leftAnti else .leftSemi
      applyDecorrelatedWhere scope (.join plan nonCorr (joinConjuncts (equality ++ corr)) joinType none)
        remaining rest

/-- Here too each turn puts its plan in place of the one there was. -/
def planSubqueries (aliasName : Option String) (plan : LogicalPlan) : Queries → LogicalPlan
  | .nil => plan
  | .cons _ query rest => planSubqueries aliasName (.subquery (planQueryWithOpts ⟨false⟩ query) aliasName) rest

end

end

end OxiSql.Plan
