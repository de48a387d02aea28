import OxiSql.Params.Refilling

namespace OxiSql.Templates
open Lib Params List

inductive Kind where
  | blank
  | comment
  | openComment
  | string
  | quoted
  | number
  | word
  | placeholder
  | symbol
deriving DecidableEq

structure Token where
  kind : Kind
  text : List Char
deriving DecidableEq

def isWordStart (c : Char) : Bool :=
  c.isAlpha || c == '_' || !isAscii c

def isWordPart (c : Char) : Bool :=
  isWordStart c || c.isDigit

def closedComment : List Char → Option (List Char × List Char)
  | [] => none
  | c :: cs =>
    if c = '*' ∧ next cs '/' then some (['*', '/'], cs.tail)
    else (closedComment cs).map fun p => (c :: p.1, p.2)

/-- The rest of a quoted identifier; two quotes are one in the identifier. -/
def quotedBody : List Char → List Char × List Char
  | [] => ([], [])
  | c :: cs =>
    if c = '"' then
      match cs with
      | [] => ([c], [])
      | d :: ds => if d = '"' then (c :: d :: (quotedBody ds).1, (quotedBody ds).2) else ([c], d :: ds)
    else (c :: (quotedBody cs).1, (quotedBody cs).2)

/-- A number. An `e` that no digit follows is not part of it. -/
def numberText (cs : List Char) : List Char × List Char :=
  let f := fraction (cs.dropWhile Char.isDigit)
  let e := exponent f.2
  if e.1.getLast?.any Char.isDigit then (cs.takeWhile Char.isDigit ++ f.1 ++ e.1, e.2)
  else (cs.takeWhile Char.isDigit ++ f.1, f.2)

def isPair (c d : Char) : Bool :=
  [('<', '='), ('>', '='), ('<', '>'), ('!', '='), ('|', '|'), (':', ':')].contains (c, d)

def symbolToken (c : Char) (cs : List Char) : Token × List Char :=
  match cs with
  | [] => (⟨.symbol, [c]⟩, [])
  | d :: ds => if isPair c d then (⟨.symbol, [c, d]⟩, ds) else (⟨.symbol, [c]⟩, d :: ds)

def nextToken (c : Char) (cs : List Char) : Token × List Char :=
  if c = '-' ∧ next cs '-' then
    (⟨.comment, (c :: cs).takeWhile (· ≠ '\n')⟩, (c :: cs).dropWhile (· ≠ '\n'))
  else if c = '/' ∧ next cs '*' then
    match closedComment cs.tail with
    | some (body, rest) => (⟨.comment, '/' :: '*' :: body⟩, rest)
    | none => (⟨.openComment, c :: cs⟩, [])
  else if c = '\'' then (⟨.string, c :: (stringBody cs).1⟩, (stringBody cs).2)
  else if c = '"' then (⟨.quoted, c :: (quotedBody cs).1⟩, (quotedBody cs).2)
  else if c.isDigit ∨ (c = '.' ∧ cs.head?.any Char.isDigit) then
    (⟨.number, (numberText (c :: cs)).1⟩, (numberText (c :: cs)).2)
  else if isWordStart c then (⟨.word, c :: cs.takeWhile isWordPart⟩, cs.dropWhile isWordPart)
  else if c = '?' ∨ (c = '$' ∧ cs.head?.any Char.isDigit) then
    (⟨.placeholder, c :: cs.takeWhile Char.isDigit⟩, cs.dropWhile Char.isDigit)
  else if isBlank c then (⟨.blank, [c]⟩, cs)
  else symbolToken c cs

def lexLoop : Nat → List Char → List Token
  | _, [] => []
  | 0, _ => []
  | fuel + 1, c :: cs => (nextToken c cs).1 :: lexLoop fuel (nextToken c cs).2

def lex (cs : List Char) : List Token :=
  lexLoop cs.length cs

def Token.isLiteral (t : Token) : Bool :=
  match t.kind with
  | .number | .string => true
  | .word => [nullText, trueText, falseText].contains (t.text.map Char.toUpper)
  | _ => false

inductive Shape where
  | literal
  | token (t : Token)
deriving DecidableEq

def Token.shape (t : Token) : Shape :=
  if t.isLiteral then .literal else .token t

def shapes (sql : String) : List Shape :=
  ((lex sql.toList).filter fun t => t.kind ≠ .blank).map Token.shape

def Token.masked (t : Token) : List Char :=
  if t.isLiteral then ['?'] else t.text

/-- `before` is the text in front of the token with its literals masked, `ts` are the tokens after it. -/
def RegularToken (before : List Char) (t : Token) (ts : List Token) : Prop :=
  match t.kind with
  | .string => True
  | .blank | .comment | .quoted => ∀ c ∈ t.text, isAscii c
  -- a number starts with a digit, and no word is joined to its end
  | .number => t.text.head?.any Char.isDigit ∧ ∀ t' ∈ ts.head?, t'.kind ≠ .word
  | .word => ∀ c ∈ t.text, isAscii c ∧ ¬ c.isDigit
  | .placeholder | .openComment => False
  -- a minus with a number after it has an operand in front of it
  | .symbol => (∀ c ∈ t.text, isAscii c) ∧
      (t.text = ['-'] → (∃ t' ∈ ts.head?, t'.text.head?.any Char.isDigit) → ¬ inValueContext before)

def RegularTokens (before : List Char) : List Token → Prop
  | [] => True
  | t :: ts => RegularToken before t ts ∧ RegularTokens (before ++ t.masked) ts

/-- Outside its strings the text is in ASCII, without digits in its words, without numbers that start
with a dot or run into a word, without placeholders and without a minus that is the sign of a number,
and its comments are closed. -/
def Regular (sql : String) : Prop :=
  RegularTokens [] (lex sql.toList)

/-- The text of a comment that is closed, piece by piece. -/
inductive Closed (rest : List Char) : List Char → List Char → Prop
  | stop : Closed rest ('*' :: '/' :: rest) ['*', '/']
  | more (hop : ¬(c = '*' ∧ next cs '/')) (h : Closed rest cs body) : Closed rest (c :: cs) (c :: body)

theorem closed_of_closedComment (h : closedComment cs = some (body,rest)) : Closed rest cs body := by
  induction cs generalizing body with
  | nil => cases h
  | cons c cs ih =>
    rw [closedComment] at h
    split at h
    · next hcl =>
      obtain ⟨rfl,hnext⟩ := hcl
      obtain ⟨ds,rfl⟩ := next_iff.mp hnext
      cases h
      exact .stop
    · next hop =>
      obtain ⟨p,hp,heq⟩ := Option.map_eq_some_iff.mp h
      cases heq
      exact .more hop (ih hp)

theorem Closed.append (h : Closed rest cs body) : body ++ rest = cs := by
  induction h with
  | stop => rfl
  | more _ _ ih => rw [cons_append,ih]

theorem quotedBody_append : (quotedBody cs).1 ++ (quotedBody cs).2 = cs := by
  fun_induction quotedBody cs <;> simp_all

theorem numberText_append : (numberText cs).1 ++ (numberText cs).2 = cs := by
  simp only [numberText]
  split <;> simp [exponent_append,fraction_append]

theorem symbolToken_append : (symbolToken c cs).1.text ++ (symbolToken c cs).2 = c :: cs := by
  fun_cases symbolToken c cs <;> rfl

theorem nextToken_append (c : Char) (cs : List Char) :
    (nextToken c cs).1.text ++ (nextToken c cs).2 = c :: cs := by
  fun_cases nextToken c cs with
  | case1 => simp
  | case2 _ h body rest hcl =>
    obtain ⟨ds,rfl⟩ := next_iff.mp h.2
    simp [(closed_of_closedComment hcl).append,h.1]
  | case3 => simp
  | case4 => simp [stringBody_append]
  | case5 => simp [quotedBody_append]
  | case6 => exact numberText_append
  | case7 | case8 => simp
  | case9 => rfl
  | case10 => exact symbolToken_append

theorem numberText_ne_nil (h : c.isDigit ∨ (c = '.' ∧ cs.head?.any Char.isDigit)) :
    (numberText (c :: cs)).1 ≠ [] := by
  simp only [numberText]
  rcases h with h | ⟨rfl,-⟩
  · split <;> simp [h]
  · split <;> simp [fraction]

theorem nextToken_ne_nil (c : Char) (cs : List Char) : (nextToken c cs).1.text ≠ [] := by
  fun_cases nextToken c cs with
  | case1 h => simp [h.1]
  | case6 _ _ _ _ h => exact numberText_ne_nil h
  | case10 => fun_cases symbolToken c cs <;> simp
  | _ => simp

theorem nextToken_head (c : Char) (cs : List Char) : (nextToken c cs).1.text.head? = some c := by
  have hap := nextToken_append c cs
  cases hte : (nextToken c cs).1.text with
  | nil => exact absurd hte (nextToken_ne_nil c cs)
  | cons d ds =>
    rw [hte] at hap
    rw [head?_cons,(List.cons.inj hap).1]

theorem nextToken_length (c : Char) (cs : List Char) : (nextToken c cs).2.length ≤ cs.length := by
  have hap := congrArg List.length (nextToken_append c cs)
  have hpos := length_pos_of_ne_nil (nextToken_ne_nil c cs)
  rw [length_append,length_cons] at hap
  omega

theorem lexLoop_eq (h : cs.length ≤ fuel) : lexLoop fuel cs = lex cs := by
  unfold lex
  induction fuel using Nat.strong_induction_on generalizing cs with
  | _ fuel ih =>
    cases cs with
    | nil => cases fuel <;> rfl
    | cons c cs =>
      cases fuel with
      | zero => simp at h
      | succ fuel =>
        have hlen := nextToken_length c cs
        simp only [length_cons] at h
        simp only [length_cons,lexLoop]
        rw [ih fuel (by omega) (by omega)]
        by_cases hfu : cs.length = fuel
        · rw [hfu,ih fuel (by omega) (by omega)]
        · rw [ih cs.length (by omega) hlen]

theorem lex_cons : lex (c :: cs) = (nextToken c cs).1 :: lex (nextToken c cs).2 := by
  rw [lex,length_cons,lexLoop,lexLoop_eq (nextToken_length c cs)]

@[simp] theorem lex_nil : lex [] = [] := rfl

end OxiSql.Templates
