import Mathlib

/-! The logical plan the planner builds and the optimizer passes rewrite. Predicates, columns and
join conditions are SQL text. -/

namespace OxiSql.Plan

inductive JoinAlgoHint where
  | hashJoin
  | mergeJoin
  | nestedLoop
deriving DecidableEq

inductive JoinType where
  | inner
  | left
  | right
  | full
  | cross
  | leftSemi
  | leftAnti
deriving DecidableEq

inductive SetOpType where
  | union
  | intersect
  | except
deriving DecidableEq

structure SortExpr where
  column : String
  ascending : Bool
deriving DecidableEq

structure WindowFunctionDef where
  name : String
  args : List String
  partitionBy : List String
  orderBy : List SortExpr
  aliasName : String
deriving DecidableEq

inductive LogicalPlan where
  | scan (table : String) (aliasName : Option String) (limit : Option Nat)
  | filter (input : LogicalPlan) (predicate : String)
  | project (input : LogicalPlan) (columns : List String)
  | join (left right : LogicalPlan) (on : String) (joinType : JoinType)
      (algoHint : Option JoinAlgoHint)
  | aggregate (input : LogicalPlan) (groupBy aggregates : List String)
  | sort (input : LogicalPlan) (orderBy : List SortExpr)
  | limit (input : LogicalPlan) (count offset : Option Nat)
  | values (columns : List String) (rows : Nat)
  | empty
  | setOp (op : SetOpType) (all : Bool) (left right : LogicalPlan)
  | cte (name : String) (query : LogicalPlan) (recursive : Bool)
  | cteRef (name : String)
  | window (input : LogicalPlan) (functions : List WindowFunctionDef)
  | subquery (query : LogicalPlan) (aliasName : Option String)
  | exists (subquery : LogicalPlan) (negated : Bool)
  | inSubquery (expr : String) (subquery : LogicalPlan) (negated : Bool)
  | compute (input : LogicalPlan) (bindings : List (String × String))
deriving DecidableEq

structure PlannerOptions where
  decorrelate : Bool := true
deriving DecidableEq

end OxiSql.Plan
