import OxiSql.Lib.Utf8

namespace OxiSql.Params
open Lib

/-! Rewriting named placeholders to positions. The scanner takes each byte for a character. -/

inductive ScanState where
  | normal
  | inSingleQuote
  | inDoubleQuote
  | inLineComment
  | inBlockComment
deriving DecidableEq

def isIdentStart (c : Char) : Bool :=
  c.isAlpha || c == '_'

def isIdentContinue (c : Char) : Bool :=
  c.isAlphanum || c == '_'

/-- The identifier a text starts with, and the text after it; no identifier is an empty one. -/
def advanceIdentifier : List Char → List Char × List Char
  | [] => ([], [])
  | c :: cs =>
    if isIdentStart c then (c :: cs.takeWhile isIdentContinue, cs.dropWhile isIdentContinue)
    else ([], c :: cs)

def assignIndex (names : List String) (name : String) : Nat × List String :=
  if name ∈ names then (names.idxOf name + 1, names) else (names.length + 1, names ++ [name])

def positional (idx : Nat) : List Char :=
  '$' :: (toString idx).toList

/-- Where the scanner is: what is still to be read, and what it has written. -/
structure Scan where
  state : ScanState
  rest : List Char
  out : List Char
  names : List String

def Scan.emit (s : Scan) (text : List Char) (state : ScanState) (rest : List Char) : Scan :=
  { s with state, rest, out := s.out ++ text }

def Scan.placeholder (s : Scan) (name rest : List Char) : Scan :=
  let (idx, names) := assignIndex s.names (String.ofList name)
  { s with rest, names, out := s.out ++ positional idx }

def next (cs : List Char) (c : Char) : Bool :=
  cs.head? = some c

/-- One turn of the loop, in the state outside quotes and comments. -/
def normalTurn (s : Scan) (ch : Char) (rest : List Char) : Scan :=
  if ch = '\'' then s.emit [ch] .inSingleQuote rest
  else if ch = '"' then s.emit [ch] .inDoubleQuote rest
  else if ch = '-' ∧ next rest '-' then s.emit ['-', '-'] .inLineComment rest.tail
  else if ch = '/' ∧ next rest '*' then s.emit ['/', '*'] .inBlockComment rest.tail
  else if ch = ':' then
    if next rest ':' then s.emit [':', ':'] .normal rest.tail
    else
      match advanceIdentifier rest with
      | ([], _) => s.emit [':'] .normal rest
      | (name, after) => s.placeholder name after
  else if ch = '$' then
    match rest with
    | [] => s.emit ['$'] .normal []
    | c :: cs =>
      if isIdentStart c then
        let (name, after) := advanceIdentifier (c :: cs)
        s.placeholder name after
      else if c.isDigit then
        s.emit ('$' :: (c :: cs).takeWhile Char.isDigit) .normal ((c :: cs).dropWhile Char.isDigit)
      else s.emit ['$'] .normal (c :: cs)
  else if ch = '@' then
    match advanceIdentifier rest with
    | ([], _) => s.emit ['@'] .normal rest
    | (name, after) => s.placeholder name after
  else s.emit [ch] .normal rest

def turn (s : Scan) (ch : Char) (rest : List Char) : Scan :=
  match s.state with
  | .inSingleQuote =>
    if ch = '\'' then
      if next rest '\'' then s.emit ['\'', '\''] .inSingleQuote rest.tail
      else s.emit [ch] .normal rest
    else s.emit [ch] .inSingleQuote rest
  | .inDoubleQuote => s.emit [ch] (if ch = '"' then .normal else .inDoubleQuote) rest
  | .inLineComment => s.emit [ch] (if ch = '\n' then .normal else .inLineComment) rest
  | .inBlockComment =>
    if ch = '*' ∧ next rest '/' then s.emit ['*', '/'] .normal rest.tail
    else s.emit [ch] .inBlockComment rest
  | .normal => normalTurn s ch rest

/-- The loop. Each turn reads a byte or more, so there are no more turns than bytes. -/
def scanLoop : Nat → Scan → Scan
  | 0, s => s
  | fuel + 1, s =>
    match s.rest with
    | [] => s
    | ch :: rest => scanLoop fuel (turn s ch rest)

def rewriteNamedParams (sql : String) : String × List String :=
  let bytes := latin sql.toList
  let s := scanLoop bytes.length ⟨.normal, bytes, [], []⟩
  (String.ofList s.out, s.names)

end OxiSql.Params
