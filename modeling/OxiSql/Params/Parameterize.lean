import OxiSql.Params.Placeholders

namespace OxiSql.Templates
open Lib Params

/-! Replacing the literals of a text by `?`. The source goes through the bytes of the text. The bytes
of a character outside ASCII pass none of its tests, so they are taken together here; each of them is
pushed as a character of its own (`latin`). -/

/-- What the loop looks at in one turn: some text, and the literal that is recorded for it. -/
structure Piece where
  text : List Char
  literal : Option (List Char)
deriving DecidableEq

def fraction : List Char → List Char × List Char
  | [] => ([], [])
  | c :: cs =>
    if c = '.' then (c :: cs.takeWhile Char.isDigit, cs.dropWhile Char.isDigit) else ([], c :: cs)

def sign : List Char → List Char × List Char
  | [] => ([], [])
  | c :: cs => if c = '+' ∨ c = '-' then ([c], cs) else ([], c :: cs)

/-- The exponent may have no digits. -/
def exponent : List Char → List Char × List Char
  | [] => ([], [])
  | c :: cs =>
    if c = 'e' ∨ c = 'E' then
      (c :: (sign cs).1 ++ (sign cs).2.takeWhile Char.isDigit, (sign cs).2.dropWhile Char.isDigit)
    else ([], c :: cs)

def consumeNumber (cs : List Char) : List Char × List Char :=
  let f := fraction (cs.dropWhile Char.isDigit)
  let e := exponent f.2
  (cs.takeWhile Char.isDigit ++ f.1 ++ e.1, e.2)

/-- `prev` is the character before the text. -/
def keywordAt (prev : Option Char) (cs keyword : List Char) : Bool :=
  (cs.take keyword.length).map Char.toUpper == keyword
    && !(cs.drop keyword.length).head?.any isIdentContinue
    && !prev.any isIdentContinue

def isBlank (c : Char) : Bool :=
  c == ' ' || c == '\t' || c == '\n' || c == '\r'

def inValueContext (template : List Char) : Bool :=
  match template.reverse.find? fun c => !isBlank c with
  | none => true
  | some c => ['=', '<', '>', '(', ',', '[', '+', '*', '/', '!'].contains c

/-- The rest of a block comment. Without an end to the comment the last character stays behind. -/
def blockBody : List Char → List Char × List Char
  | [] => ([], [])
  | [c] => ([], [c])
  | c :: d :: cs =>
    if c = '*' ∧ d = '/' then (['*', '/'], cs)
    else (c :: (blockBody (d :: cs)).1, (blockBody (d :: cs)).2)

def nullText : List Char := ['N', 'U', 'L', 'L']
def trueText : List Char := ['T', 'R', 'U', 'E']
def falseText : List Char := ['F', 'A', 'L', 'S', 'E']

/-- A keyword is recorded in upper case, whatever the text has. -/
def keywordPiece (keyword cs : List Char) : Piece × List Char :=
  (⟨cs.take keyword.length, some keyword⟩, cs.drop keyword.length)

def literalPiece (text rest : List Char) : Piece × List Char :=
  (⟨text, some text⟩, rest)

def passPiece (text rest : List Char) : Piece × List Char :=
  (⟨text, none⟩, rest)

/-- One turn of the loop: the piece the text `c :: cs` starts with, and what is after it. -/
def cut (prev : Option Char) (template : List Char) (c : Char) (cs : List Char) : Piece × List Char :=
  if c = '-' ∧ next cs '-' then
    passPiece ((c :: cs).takeWhile (· ≠ '\n')) ((c :: cs).dropWhile (· ≠ '\n'))
  else if c = '/' ∧ next cs '*' then
    passPiece ('/' :: '*' :: (blockBody cs.tail).1) (blockBody cs.tail).2
  else if c = '\'' then literalPiece (c :: (stringBody cs).1) (stringBody cs).2
  else if c = '"' then passPiece (c :: (bodyUpTo '"' cs).1) (bodyUpTo '"' cs).2
  else if keywordAt prev (c :: cs) nullText then keywordPiece nullText (c :: cs)
  else if keywordAt prev (c :: cs) trueText then keywordPiece trueText (c :: cs)
  else if keywordAt prev (c :: cs) falseText then keywordPiece falseText (c :: cs)
  else if c.isDigit then literalPiece (consumeNumber (c :: cs)).1 (consumeNumber (c :: cs)).2
  else if c = '-' ∧ cs.head?.any Char.isDigit ∧ inValueContext template then
    literalPiece (c :: (consumeNumber cs).1) (consumeNumber cs).2
  else passPiece [c] cs

/-- What a piece adds to the template; `none` is a `?` that was not in the text. -/
def Piece.slots (p : Piece) : List (Option Char) :=
  match p.literal with
  | none => (latin p.text).map some
  | some _ => [none]

/-- Where the loop is: the text behind it and before it, and what it has written. -/
structure Scan where
  before : List Char
  rest : List Char
  out : List (Option Char)
  literals : List (List Char)

def templateOf (out : List (Option Char)) : List Char :=
  out.map fun slot => slot.getD '?'

def Scan.take (s : Scan) (p : Piece × List Char) : Scan :=
  ⟨s.before ++ p.1.text, p.2, s.out ++ p.1.slots, s.literals ++ p.1.literal.toList⟩

def turn (s : Scan) (c : Char) (cs : List Char) : Scan :=
  s.take (cut s.before.getLast? (templateOf s.out) c cs)

/-- Each turn reads a character or more, so there are no more turns than characters. -/
def scanLoop : Nat → Scan → Scan
  | 0, s => s
  | fuel + 1, s =>
    match s.rest with
    | [] => s
    | c :: cs => scanLoop fuel (turn s c cs)

def scan (cs : List Char) : Scan :=
  scanLoop cs.length ⟨[], cs, [], []⟩

structure ParameterizedSql where
  template : String
  literals : List String
deriving DecidableEq

def parameterize (sql : String) : ParameterizedSql :=
  let s := scan sql.toList
  ⟨String.ofList (templateOf s.out), s.literals.map String.ofList⟩

end OxiSql.Templates
