import OxiSql.Lib.Loop
import OxiSql.Lib.Results
import OxiSql.Optimizer.Equivalence
import OxiSql.Storage.Savepoints

namespace OxiSql.Ast
open Lib Storage

structure WhereTerm (S : Type) where
  expr : Expr S
  fromOuterJoin : Option Nat
  consumed : Bool

def WhereTerm.fresh {S : Type} (expr : Expr S) (fromOuterJoin : Option Nat) : WhereTerm S :=
  ⟨expr, fromOuterJoin, false⟩

namespace Expr
variable {S : Type}

def flattenOr : Expr S → List (Expr S)
  | .binary lhs .or rhs => flattenOr lhs ++ flattenOr rhs
  | e => [e]

def flattenAnd : Expr S → List (Expr S)
  | .binary lhs .and rhs => flattenAnd lhs ++ flattenAnd rhs
  | e => [e]

def unwrapParensOwned : Expr S → Except LimboError (Expr S × Nat)
  | .parenthesized [e] => do
    let (e, count) ← unwrapParensOwned e
    return (e, count + 1)
  | .parenthesized _ => .error (.parseError "expected single expression in parentheses")
  | e => .ok (e, 0)

/-- `rebuild_and_expr_from_list` and `rebuild_or_expr_from_list`; the list is not empty. -/
def rebuild (op : Operator) : List (Expr S) → Expr S
  | [] => .literal .null
  | e :: es => es.foldl (fun acc next => .binary acc op next) e

def wrapParens : Nat → Expr S → Expr S
  | 0, e => e
  | n + 1, e => wrapParens n (.parenthesized [e])

def isOr : Expr S → Bool
  | .binary _ .or _ => true
  | _ => false

/-- The branches of an OR, each as its conjuncts and the number of its parentheses. -/
def branches (e : Expr S) : Except LimboError (List (List (Expr S) × Nat)) :=
  e.flattenOr.mapM fun operand => do
    let (inner, parens) ← operand.unwrapParensOwned
    return (inner.flattenAnd, parens)

end Expr

section
variable {S : Type} (sameSelect : S → S → Bool) (parseF64 : String → Option Types.F64)

def commonConjuncts : List (List (Expr S) × Nat) → List (Expr S)
  | [] => []
  | (first, _) :: rest => rest.foldl (fun common branch => common.filter fun c =>
      branch.1.any fun e => exprsAreEquivalent sameSelect parseF64 c e) first

def remaining (common conjuncts : List (Expr S)) : List (Expr S) :=
  conjuncts.filter fun e => !common.any fun c => e.same sameSelect c

/-- The term without its common conjuncts; it is consumed if that leaves nothing of a branch. -/
def withoutCommon (term : WhereTerm S) (common : List (Expr S))
    (bs : List (List (Expr S) × Nat)) : WhereTerm S :=
  if bs.any fun b => (remaining sameSelect common b.1).isEmpty then { term with consumed := true }
  else { term with expr := Expr.rebuild .or (bs.map fun b =>
    Expr.wrapParens b.2 (Expr.rebuild .and (remaining sameSelect common b.1))) }

/-- A turn of the loop over the terms, which grow at the end. -/
def liftTurn : Nat × List (WhereTerm S) → Turn (Nat × List (WhereTerm S)) (List (WhereTerm S)) LimboError
  | (i, terms) =>
    match terms[i]? with
    | none => .done terms
    | some term =>
      if !term.expr.isOr then .again (i + 1, terms)
      else
        match term.expr.branches with
        | .error e => .fail e
        | .ok bs =>
          let common := commonConjuncts sameSelect parseF64 bs
          if common.isEmpty then .again (i + 1, terms)
          else .again (i + 1, terms.set i (withoutCommon sameSelect term common bs) ++
            common.map fun c => .fresh c term.fromOuterJoin)

/-- The loop ends and returns the terms, or an error. -/
def LiftCommonSubexpressions (terms : List (WhereTerm S))
    (r : Except LimboError (List (WhereTerm S))) : Prop :=
  Ends (liftTurn sameSelect parseF64) (0, terms) r

end

end OxiSql.Ast
