import OxiSql.Types.Value

namespace OxiSql.Ast
open OxiSql.Types

inductive Operator where
  | add
  | and
  | arrowRight
  | arrowRightShift
  | bitwiseAnd
  | bitwiseOr
  | bitwiseNot
  | concat
  | equals
  | divide
  | greater
  | greaterEquals
  | is
  | isNot
  | leftShift
  | less
  | lessEquals
  | modulus
  | multiply
  | notEquals
  | or
  | rightShift
  | subtract
deriving DecidableEq

def Operator.isCommutative : Operator → Bool
  | .add | .multiply | .bitwiseAnd | .bitwiseOr | .equals | .notEquals => true
  | _ => false

inductive UnaryOperator where
  | bitwiseNot
  | negative
  | not
  | positive
deriving DecidableEq

/-- The text of a token. One that opens with a quote also closes with it, so it is no lone quote. -/
structure Token where
  text : String
  closed : text ≠ "\"" ∧ text ≠ "`"
deriving DecidableEq

inductive Literal where
  | numeric (digits : String)
  | string (quoted : Token)
  | blob (hex : String)
  | keyword (word : Token)
  | null
  | currentDate
  | currentTime
  | currentTimestamp
deriving DecidableEq

/-- What a function call has beside its name and its expressions: the numbers of arguments and of
ORDER BY terms, if it has them, and the rest. `S` is what is compared as a whole. -/
structure CallForm (S : Type) where
  distinctness : Option Bool
  args : Option Nat
  orderBy : Option Nat
  rest : S

/-- The forms that are equivalent only if they are equal. -/
inductive Form (S : Type) where
  | column (table column : Nat) (isRowidAlias : Bool)
  | rowId (table : Nat)
  | name (name : String)
  | register (reg : Nat)
  | exists (select : S)
  | subquery (select : S)
  | inSelect (not : Bool) (select : S)
  | inTable (not : Bool) (rest : S)
  | like (not : Bool) (rest : S)
  | raise (rest : S)

/-- A list that may be absent is empty and marked. Each `?` has its place in the statement, which
no comparison sees. -/
inductive Expr (S : Type) where
  | between (lhs : Expr S) (not : Bool) (start stop : Expr S)
  | binary (lhs : Expr S) (op : Operator) (rhs : Expr S)
  | case (base whens thens orElse : List (Expr S))
  | cast (expr : Expr S) (typeName : Option String)
  | collate (expr : Expr S) (collation : String)
  | functionCall (name : String) (form : CallForm S) (parts : List (Expr S))
  | functionCallStar (name : String) (tail : Bool) (filter : List (Expr S)) (overWindow : Option S)
  | id (name : Token)
  | inList (lhs : Expr S) (not : Bool) (listed : Bool) (rhs : List (Expr S))
  | isNull (expr : Expr S)
  | literal (literal : Literal)
  | notNull (expr : Expr S)
  | parenthesized (exprs : List (Expr S))
  | qualified (table column : Token)
  | doublyQualified (schema table column : Token)
  | unary (op : UnaryOperator) (expr : Expr S)
  | variable (name : String) (place : Nat)
  | other (form : Form S) (parts : List (Expr S))

section
variable {S : Type} (sameSelect : S → S → Bool)

def CallForm.same (f g : CallForm S) : Bool :=
  f.distinctness == g.distinctness && f.args == g.args && f.orderBy == g.orderBy &&
    sameSelect f.rest g.rest

def Form.same : Form S → Form S → Bool
  | .column t c a, .column t' c' a' => t == t' && c == c' && a == a'
  | .rowId t, .rowId t' => t == t'
  | .name n, .name n' => n == n'
  | .register r, .register r' => r == r'
  | .exists s, .exists s' | .subquery s, .subquery s' | .raise s, .raise s' => sameSelect s s'
  | .inSelect n s, .inSelect n' s' | .inTable n s, .inTable n' s' | .like n s, .like n' s' =>
    n == n' && sameSelect s s'
  | _, _ => false

def sameOver : Option S → Option S → Bool
  | none, none => true
  | some s, some s' => sameSelect s s'
  | _, _ => false

mutual

/-- The derived `==`. -/
def Expr.same : Expr S → Expr S → Bool
  | .between l n s e, .between l' n' s' e' => l.same l' && n == n' && s.same s' && e.same e'
  | .binary l op r, .binary l' op' r' => l.same l' && op == op' && r.same r'
  | .case b w t e, .case b' w' t' e' =>
    sameAll b b' && sameAll w w' && sameAll t t' && sameAll e e'
  | .cast e ty, .cast e' ty' => e.same e' && ty == ty'
  | .collate e c, .collate e' c' => e.same e' && c == c'
  | .functionCall n f ps, .functionCall n' f' ps' => n == n' && f.same sameSelect f' && sameAll ps ps'
  | .functionCallStar n t f o, .functionCallStar n' t' f' o' =>
    n == n' && t == t' && sameAll f f' && sameOver sameSelect o o'
  | .id n, .id n' => n == n'
  | .inList l n h r, .inList l' n' h' r' => l.same l' && n == n' && h == h' && sameAll r r'
  | .isNull e, .isNull e' | .notNull e, .notNull e' => e.same e'
  | .literal l, .literal l' => l == l'
  | .parenthesized es, .parenthesized es' => sameAll es es'
  | .qualified t c, .qualified t' c' => t == t' && c == c'
  | .doublyQualified s t c, .doublyQualified s' t' c' => s == s' && t == t' && c == c'
  | .unary op e, .unary op' e' => op == op' && e.same e'
  | .variable n _, .variable n' _ => n == n'
  | .other f ps, .other f' ps' => f.same sameSelect f' && sameAll ps ps'
  | _, _ => false

def sameAll : List (Expr S) → List (Expr S) → Bool
  | [], [] => true
  | e :: es, e' :: es' => e.same e' && sameAll es es'
  | _, _ => false

end

/-- `eq_ignore_ascii_case` -/
def eqIgnoreAsciiCase (s s' : List Char) : Bool :=
  s.map Char.toLower == s'.map Char.toLower

def stripQuotes (s : List Char) : List Char :=
  if (s.head? == some '"' && s.getLast? == some '"') ||
      (s.head? == some '[' && s.getLast? == some ']') ||
      (s.head? == some '`' && s.getLast? == some '`') then
    s.tail.dropLast
  else s

def checkIdentEquivalency (a b : Token) : Bool :=
  eqIgnoreAsciiCase (stripQuotes a.text.toList) (stripQuotes b.text.toList)

variable (parseF64 : String → Option F64)

def cmpNumericStrings (n n' : String) : Bool :=
  match parseF64 n, parseF64 n' with
  | some x, some y => x.cmp y == .eq
  | _, _ => n == n'

def checkLiteralEquivalency : Literal → Literal → Bool
  | .numeric n, .numeric n' => cmpNumericStrings parseF64 n n'
  | .string s, .string s' => checkIdentEquivalency s s'
  | .blob b, .blob b' => b == b'
  | .keyword k, .keyword k' => checkIdentEquivalency k k'
  | .null, .null | .currentDate, .currentDate | .currentTime, .currentTime
  | .currentTimestamp, .currentTimestamp => true
  | _, _ => false

mutual

def exprsAreEquivalent : Expr S → Expr S → Bool
  | .between l n s e, .between l' n' s' e' =>
    n == n' && exprsAreEquivalent l l' && exprsAreEquivalent s s' && exprsAreEquivalent e e'
  | .binary l op r, .binary l' op' r' =>
    op == op' && ((exprsAreEquivalent l l' && exprsAreEquivalent r r') ||
      (op.isCommutative && exprsAreEquivalent l r' && exprsAreEquivalent r l'))
  | .case b w t e, .case b' w' t' e' =>
    sameAll sameSelect b b' && exprsAllEquivalent w w' && exprsAllEquivalent t t' &&
      sameAll sameSelect e e'
  | .cast e ty, .cast e' ty' => exprsAreEquivalent e e' &&
    match ty, ty' with
    | some t, some t' => eqIgnoreAsciiCase t.toList t'.toList
    | _, _ => false
  | .collate e c, .collate e' c' =>
    exprsAreEquivalent e e' && eqIgnoreAsciiCase c.toList c'.toList
  | .functionCall n f ps, .functionCall n' f' ps' =>
    eqIgnoreAsciiCase n.toList n'.toList && f.same sameSelect f' && sameAll sameSelect ps ps'
  | .functionCallStar n t f o, .functionCallStar n' t' f' o' =>
    eqIgnoreAsciiCase n.toList n'.toList &&
    match t, t', f, f', o, o' with
    | false, false, _, _, _, _ => true
    | true, true, [c], [c'], some w, some w' => exprsAreEquivalent c c' && sameSelect w w'
    | true, true, [c], [c'], _, _ => exprsAreEquivalent c c'
    | _, _, _, _, _, _ => false
  | .notNull e, .notNull e' | .isNull e, .isNull e' => exprsAreEquivalent e e'
  | .literal l, .literal l' => checkLiteralEquivalency parseF64 l l'
  | .id n, .id n' => checkIdentEquivalency n n'
  | .unary op e, .unary op' e' => op == op' && exprsAreEquivalent e e'
  -- an anonymous parameter is like no other
  | .variable n _, .variable n' _ => !(n == "" && n' == "") && n == n'
  | .parenthesized es, .parenthesized es' => exprsAllEquivalent es es'
  | .parenthesized [e], e' => exprsAreEquivalent e e'
  | .parenthesized _, _ => false
  | e, .parenthesized [e'] => exprsAreEquivalent e' e
  | _, .parenthesized _ => false
  | .qualified t c, .qualified t' c' => checkIdentEquivalency t t' && checkIdentEquivalency c c'
  | .doublyQualified s t c, .doublyQualified s' t' c' =>
    checkIdentEquivalency s s' && checkIdentEquivalency t t' && checkIdentEquivalency c c'
  | .inList l n h r, .inList l' n' h' r' =>
    n == n' && exprsAreEquivalent l l' && (h && h') && exprsAllEquivalent r r'
  | e, e' => e.same sameSelect e'
termination_by e e' => sizeOf e + sizeOf e'

def exprsAllEquivalent : List (Expr S) → List (Expr S) → Bool
  | [], [] => true
  | e :: es, e' :: es' => exprsAreEquivalent e e' && exprsAllEquivalent es es'
  | _, _ => false
termination_by es es' => sizeOf es + sizeOf es'

end

end

end OxiSql.Ast
