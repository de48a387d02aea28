import OxiSql.Storage.Savepoints

namespace OxiSql.Translate
open Storage

abbrev TableId := Nat

inductive CmpOp where
  | equals
  | greater
  | greaterEquals
  | less
  | lessEquals
deriving DecidableEq

/-- A `subquery` is an EXISTS, an IN or a scalar one: a walk sees the expressions beside its select
but not the tables the select refers to. Every other form with parts is a `compound`. -/
inductive Expr where
  | column (table : TableId) (column : Nat)
  | rowid (table : TableId)
  | literal
  | compare (lhs : Expr) (op : CmpOp) (rhs : Expr)
  | parenthesized (exprs : List Expr)
  | compound (exprs : List Expr)
  | subquery (exprs : List Expr) (tables : List TableId)

namespace Expr

mutual

/-- The tables a walk over an expression meets. -/
def walked : Expr → List TableId
  | .column table _ | .rowid table => [table]
  | .literal => []
  | .compare lhs _ rhs => walked lhs ++ walked rhs
  | .parenthesized exprs | .compound exprs | .subquery exprs _ => walkedAll exprs

def walkedAll : List Expr → List TableId
  | [] => []
  | e :: es => walked e ++ walkedAll es

end

mutual

/-- The tables the selects inside an expression refer to. -/
def hidden : Expr → List TableId
  | .column .. | .rowid _ | .literal => []
  | .compare lhs _ rhs => hidden lhs ++ hidden rhs
  | .parenthesized exprs | .compound exprs => hiddenAll exprs
  | .subquery exprs tables => hiddenAll exprs ++ tables

def hiddenAll : List Expr → List TableId
  | [] => []
  | e :: es => hidden e ++ hiddenAll es

end

def refs (e : Expr) : List TableId :=
  walked e ++ hidden e

def unwrapParens : Expr → Except LimboError Expr
  | .parenthesized [e] => unwrapParens e
  | .parenthesized _ => .error (.parseError "expected single expression in parentheses")
  | e => .ok e

def asBinaryComponents (e : Expr) : Except LimboError (Option (Expr × CmpOp × Expr)) :=
  match unwrapParens e with
  | .error err => .error err
  | .ok (.compare lhs op rhs) => .ok (some (lhs, op, rhs))
  | .ok _ => .ok none

end Expr

end OxiSql.Translate
