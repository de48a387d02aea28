import OxiSql.Optimizer.LiftPreserves

/-! The values of equivalent expressions. A value may be a function of the row and of the parameters
and may carry a collation and an affinity. -/

namespace OxiSql.Ast
open List Bool

section
variable {S V : Type} (sameSelect : S → S → Bool) (parseF64 : String → Option Types.F64) (val : Expr S → V)

/-- The same form, names that differ at most in case, and parts with the same values. -/
def Matches : Expr S → Expr S → Prop
  | .between l n s e, .between l' n' s' e' => n = n' ∧ val l = val l' ∧ val s = val s' ∧ val e = val e'
  | .binary l op r, .binary l' op' r' => op = op' ∧ val l = val l' ∧ val r = val r'
  | .case b w t e, .case b' w' t' e' => b = b' ∧ map val w = map val w' ∧ map val t = map val t' ∧ e = e'
  | .cast e (some t), .cast e' (some t') => val e = val e' ∧ eqIgnoreAsciiCase t.toList t'.toList
  | .collate e c, .collate e' c' => val e = val e' ∧ eqIgnoreAsciiCase c.toList c'.toList
  | .functionCall n f ps, .functionCall n' f' ps' =>
    eqIgnoreAsciiCase n.toList n'.toList ∧ f = f' ∧ ps = ps'
  | .functionCallStar n t f o, .functionCallStar n' t' f' o' =>
    eqIgnoreAsciiCase n.toList n'.toList ∧ t = t' ∧ (t → map val f = map val f' ∧ o = o')
  | .inList l n h r, .inList l' n' h' r' => n = n' ∧ h = h' ∧ val l = val l' ∧ map val r = map val r'
  | .notNull e, .notNull e' | .isNull e, .isNull e' => val e = val e'
  | .unary op e, .unary op' e' => op = op' ∧ val e = val e'
  | .id n, .id n' => checkIdentEquivalency n n'
  | .qualified t c, .qualified t' c' => checkIdentEquivalency t t' ∧ checkIdentEquivalency c c'
  | .doublyQualified s t c, .doublyQualified s' t' c' =>
    checkIdentEquivalency s s' ∧ checkIdentEquivalency t t' ∧ checkIdentEquivalency c c'
  | .variable n _, .variable n' _ => n = n' ∧ n ≠ ""
  | .parenthesized es, .parenthesized es' => map val es = map val es'
  | _, _ => False

/-- What SQL says of values: they come from the values of the parts, and neither the case of a name nor
parentheses around one expression matter. -/
structure Compositional : Prop where
  matching {e e'} : Matches val e e' → val e = val e'
  parentheses (e) : val (.parenthesized [e]) = val e

/-- Are the operands compared in their order? -/
def inOrder (l r l' r' : Expr S) : Bool :=
  exprsAreEquivalent sameSelect parseF64 l l' && exprsAreEquivalent sameSelect parseF64 r r'

/-- The comparisons that the one of two equivalent expressions goes on to. -/
def comparisons : Expr S → Expr S → List (Expr S × Expr S)
  | .between l _ s e, .between l' _ s' e' => [(l, l'), (s, s'), (e, e')]
  | .binary l _ r, .binary l' _ r' =>
    if inOrder sameSelect parseF64 l r l' r' then [(l, l'), (r, r')] else [(l, r'), (r, l')]
  | .case _ w t _, .case _ w' t' _ => w.zip w' ++ t.zip t'
  | .cast e _, .cast e' _ | .collate e _, .collate e' _ | .isNull e, .isNull e' | .notNull e, .notNull e'
  | .unary _ e, .unary _ e' => [(e, e')]
  | .functionCallStar _ _ f _, .functionCallStar _ _ f' _ => f.zip f'
  | .inList l _ _ r, .inList l' _ _ r' => (l, l') :: r.zip r'
  | .parenthesized es, .parenthesized es' => es.zip es'
  | .parenthesized [e], e' => [(e, e')]
  | e, .parenthesized [e'] => [(e', e)]
  | _, _ => []

/-- Literals of one value, operands that may be exchanged if they are, the same OVER clause, and the same
expression (each `?` with its place) where `==` decides. -/
def Harmless : Expr S → Expr S → Prop
  | .literal l, .literal l' => val (.literal l) = val (.literal l')
  | .binary l op r, .binary l' _ r' =>
    inOrder sameSelect parseF64 l r l' r' ∨ val (.binary l op r) = val (.binary r op l)
  | .functionCallStar _ _ _ o, .functionCallStar _ _ _ o' => o = o'
  | .case b _ _ e, .case b' _ _ e' => b = b' ∧ e = e'
  | .functionCall _ f ps, .functionCall _ f' ps' => f = f' ∧ ps = ps'
  | .other f ps, .other f' ps' => f = f' ∧ ps = ps'
  | _, _ => True

/-- No comparison, at any depth, lets a difference pass that matters. -/
inductive Faithful : Expr S → Expr S → Prop
  | mk (here : Harmless sameSelect parseF64 val e e')
      (below : ∀ c ∈ comparisons sameSelect parseF64 e e', Faithful c.1 c.2) : Faithful e e'

variable {sameSelect parseF64 val}

theorem Faithful.here (h : Faithful sameSelect parseF64 val e e') : Harmless sameSelect parseF64 val e e' := by
  cases h with
  | mk here => exact here

theorem Faithful.next (h : Faithful sameSelect parseF64 val e e') {a a' : Expr S}
    (hc : (a,a') ∈ comparisons sameSelect parseF64 e e') : Faithful sameSelect parseF64 val a a' := by
  cases h with
  | mk _ below => exact below _ hc

theorem map_same_value (h : exprsAllEquivalent sameSelect parseF64 es es' = true)
    (hf : ∀ c ∈ es.zip es', Faithful sameSelect parseF64 val c.1 c.2)
    (hes : ∀ e e', sizeOf e + sizeOf e' < sizeOf es + sizeOf es' → Faithful sameSelect parseF64 val e e' →
      exprsAreEquivalent sameSelect parseF64 e e' = true → val e = val e') : map val es = map val es' := by
  induction es generalizing es' with
  | nil => cases es' <;> simp_all [exprsAllEquivalent]
  | cons e es ih =>
    rcases es' with _ | ⟨e',es'⟩ <;> simp only [exprsAllEquivalent,and_eq_true,false_eq_true] at h
    obtain ⟨hfe,hf⟩ := forall_mem_cons.mp hf
    simp only [cons.sizeOf_spec] at hes
    rw [map_cons,map_cons,hes e e' (by omega) hfe h.1,ih h.2 hf fun a a' ha => hes a a' (by omega)]

end

/-- Integers, with `none` for NULL: columns, sums and tests for NULL. -/
def integer (row : List Char → Option Int) : Expr Unit → Option Int
  | .id n => row ((stripQuotes n.text.toList).map Char.toLower)
  | .binary l op r =>
    if op = .add then (integer row l).bind fun a => (integer row r).map (a + ·) else none
  | .isNull e => some (if (integer row e).isNone then 1 else 0)
  | .parenthesized [e] => integer row e
  | _ => none

theorem integer_compositional (row : List Char → Option Int) : Compositional (integer row) where
  matching {e e'} h := by
    unfold Matches at h
    split at h
    case h_16 es es' =>
      rcases es with _ | ⟨_,_ | _⟩ <;> rcases es' with _ | ⟨_,_ | _⟩ <;> simp_all [integer]
    all_goals simp_all [integer,checkIdentEquivalency,eqIgnoreAsciiCase]
  parentheses _ := rfl

end OxiSql.Ast
