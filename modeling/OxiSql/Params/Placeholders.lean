import OxiSql.Lib.Quoting
import OxiSql.Params.NamedParams

namespace OxiSql.Params
open Lib List

/-- The rest of a string literal, up to its closing quote; two quotes are one in the string. -/
def stringBody : List Char → List Char × List Char
  | [] => ([], [])
  | c :: cs =>
    if c = '\'' then
      match cs with
      | [] => ([c], [])
      | d :: ds =>
        if d = '\'' then
          let (body, rest) := stringBody ds
          (c :: d :: body, rest)
        else ([c], d :: ds)
    else
      let (body, rest) := stringBody cs
      (c :: body, rest)

def bodyUpTo (close : Char) : List Char → List Char × List Char
  | [] => ([], [])
  | c :: cs =>
    if c = close then ([c], cs)
    else
      let (body, rest) := bodyUpTo close cs
      (c :: body, rest)

def commentBody : List Char → List Char × List Char
  | [] => ([], [])
  | c :: cs =>
    if c = '*' ∧ next cs '/' then (['*', '/'], cs.tail)
    else
      let (body, rest) := commentBody cs
      (c :: body, rest)

def bodyThrough (delim : List Char) : List Char → List Char × List Char
  | [] => ([], [])
  | c :: cs =>
    if delim <+: c :: cs then (delim, (c :: cs).drop delim.length)
    else
      let (body, rest) := bodyThrough delim cs
      (c :: body, rest)

/-- The rest of a part in quotes of the dialect, if `c` opens one. -/
def quotedPart (d : Dialect) (c : Char) (cs : List Char) : Option (List Char × List Char) :=
  match d.closing c with
  | some close => some (bodyUpTo close cs)
  | none => (d.delimiter c cs).map fun delim =>
    let (body, rest) := bodyThrough delim (cs.drop (delim.length - 1))
    (cs.take (delim.length - 1) ++ body, rest)

/-- A part of a text: one that stays as it is, or a placeholder with its sign. -/
inductive Piece where
  | text (cs : List Char)
  | placeholder (sign : Char) (name : List Char)
deriving DecidableEq

def Piece.source : Piece → List Char
  | .text cs => cs
  | .placeholder sign name => sign :: name

def signPiece (sign : Char) (cs : List Char) : Piece × List Char :=
  match advanceIdentifier cs with
  | ([], _) => (.text [sign], cs)
  | (name, rest) => (.placeholder sign name, rest)

/-- The piece a text starts with where no quotes but `'` and `"` are known: a string, a quoted
identifier, a comment, a cast, a placeholder, a number of a position, or one character. -/
def nextPiece (c : Char) (cs : List Char) : Piece × List Char :=
  if c = '\'' then ((.text (c :: (stringBody cs).1)), (stringBody cs).2)
  else if c = '"' then ((.text (c :: (bodyUpTo '"' cs).1)), (bodyUpTo '"' cs).2)
  else if c = '-' ∧ next cs '-' then
    (.text ('-' :: '-' :: (bodyUpTo '\n' cs.tail).1), (bodyUpTo '\n' cs.tail).2)
  else if c = '/' ∧ next cs '*' then
    (.text ('/' :: '*' :: (commentBody cs.tail).1), (commentBody cs.tail).2)
  else if c = ':' ∧ next cs ':' then (.text [':', ':'], cs.tail)
  else if c = '$' ∧ (cs.head?.any Char.isDigit) then
    (.text ('$' :: cs.takeWhile Char.isDigit), cs.dropWhile Char.isDigit)
  else if c = ':' ∨ c = '$' ∨ c = '@' then signPiece c cs
  else (.text [c], cs)

def nextPieceIn (d : Dialect) (c : Char) (cs : List Char) : Piece × List Char :=
  match quotedPart d c cs with
  | some (body, rest) => (.text (c :: body), rest)
  | none => nextPiece c cs

theorem stringBody_append : (stringBody cs).1 ++ (stringBody cs).2 = cs := by
  fun_induction stringBody cs with
  | case1 | case2 => rfl
  | case3 ds body rest hrec ih => simpa [hrec] using ih
  | case4 => rfl
  | case5 c cs hc body rest hrec ih => simpa [hrec] using ih

theorem bodyUpTo_append (close : Char) (cs : List Char) :
    (bodyUpTo close cs).1 ++ (bodyUpTo close cs).2 = cs := by
  fun_induction bodyUpTo close cs with
  | case1 | case2 => rfl
  | case3 c cs hc body rest hrec ih => simpa [hrec] using ih

theorem next_iff : next cs c ↔ ∃ ds, cs = c :: ds := by
  cases cs with
  | nil | cons d ds => simp [next]

theorem commentBody_append : (commentBody cs).1 ++ (commentBody cs).2 = cs := by
  fun_induction commentBody cs with
  | case1 => rfl
  | case2 c cs h =>
    obtain ⟨rfl,hnext⟩ := h
    obtain ⟨ds,rfl⟩ := next_iff.mp hnext
    rfl
  | case3 c cs hc body rest hrec ih => simpa [hrec] using ih

theorem advanceIdentifier_append (cs : List Char) :
    (advanceIdentifier cs).1 ++ (advanceIdentifier cs).2 = cs := by
  cases cs with
  | nil => rfl
  | cons c cs =>
    rw [advanceIdentifier]
    split
    · simp
    · rfl

theorem signPiece_append : (signPiece sign cs).1.source ++ (signPiece sign cs).2 = sign :: cs := by
  have hap := advanceIdentifier_append cs
  unfold signPiece
  split
  · rfl
  · next h =>
    rw [h] at hap
    simpa [Piece.source] using hap

theorem nextPiece_append (c : Char) (cs : List Char) :
    (nextPiece c cs).1.source ++ (nextPiece c cs).2 = c :: cs := by
  unfold nextPiece
  split
  · simpa [Piece.source] using stringBody_append
  · split
    · simpa [Piece.source] using bodyUpTo_append '"' cs
    · split
      · next h =>
        obtain ⟨rfl,hnext⟩ := h
        obtain ⟨ds,rfl⟩ := next_iff.mp hnext
        simpa [Piece.source] using bodyUpTo_append '\n' ds
      · split
        · next h =>
          obtain ⟨rfl,hnext⟩ := h
          obtain ⟨ds,rfl⟩ := next_iff.mp hnext
          simpa [Piece.source] using commentBody_append
        · split
          · next h =>
            obtain ⟨rfl,hnext⟩ := h
            obtain ⟨ds,rfl⟩ := next_iff.mp hnext
            rfl
          · split
            · next h => simp [Piece.source,h.1]
            · split
              · exact signPiece_append
              · rfl

theorem source_ne_nil (c : Char) (cs : List Char) : (nextPiece c cs).1.source ≠ [] := by
  unfold nextPiece signPiece
  repeat' split
  all_goals simp [Piece.source]

theorem nextPiece_length (c : Char) (cs : List Char) : (nextPiece c cs).2.length ≤ cs.length := by
  have hap := congrArg List.length (nextPiece_append c cs)
  have hpos := length_pos_of_ne_nil (source_ne_nil c cs)
  rw [length_append,length_cons] at hap
  omega

theorem bodyThrough_append (delim cs : List Char) : (bodyThrough delim cs).1 ++ (bodyThrough delim cs).2 = cs := by
  fun_induction bodyThrough delim cs with
  | case1 => rfl
  | case2 c cs h =>
    obtain ⟨rest,hre⟩ := h
    simp [← hre]
  | case3 c cs hc body rest hrec ih => simpa [hrec] using ih

theorem quotedPart_append (h : quotedPart d c cs = some (body,rest)) : body ++ rest = cs := by
  unfold quotedPart at h
  split at h
  · next close _ =>
    have hap := bodyUpTo_append close cs
    rwa [Option.some.inj h] at hap
  · obtain ⟨delim,-,h⟩ := Option.map_eq_some_iff.mp h
    have hap := bodyThrough_append delim (cs.drop (delim.length - 1))
    obtain ⟨rfl,rfl⟩ := Prod.mk.inj h
    rw [append_assoc,hap,take_append_drop]

theorem nextPieceIn_length (d : Dialect) (c : Char) (cs : List Char) :
    (nextPieceIn d c cs).2.length ≤ cs.length := by
  unfold nextPieceIn
  split
  · next h =>
    rw [← quotedPart_append h,length_append]
    exact Nat.le_add_left ..
  · exact nextPiece_length c cs

def pieces : List Char → List Piece
  | [] => []
  | c :: cs => (nextPiece c cs).1 :: pieces (nextPiece c cs).2
termination_by cs => cs.length
decreasing_by
  have := nextPiece_length c cs
  simp
  omega

def piecesIn (d : Dialect) : List Char → List Piece
  | [] => []
  | c :: cs => (nextPieceIn d c cs).1 :: piecesIn d (nextPieceIn d c cs).2
termination_by cs => cs.length
decreasing_by
  have := nextPieceIn_length d c cs
  simp
  omega

/-- The parts in quotes of the dialect, each with what follows it. -/
def quotedParts (d : Dialect) : List Char → List (List Char × List Char)
  | [] => []
  | c :: cs =>
    ((quotedPart d c cs).map fun p => (c :: p.1, p.2)).toList ++ quotedParts d (nextPieceIn d c cs).2
termination_by cs => cs.length
decreasing_by
  have := nextPieceIn_length d c cs
  simp
  omega

theorem pieces_source (cs : List Char) : (pieces cs).flatMap Piece.source = cs := by
  fun_induction pieces cs with
  | case1 => rfl
  | case2 c cs ih => rw [flatMap_cons,ih,nextPiece_append]

def Piece.name? : Piece → Option String
  | .text _ => none
  | .placeholder _ name => some (String.ofList name)

def namesOf (ps : List Piece) : List String :=
  (ps.filterMap Piece.name?).eraseDups

def Piece.rewritten (names : List String) : Piece → List Char
  | .text cs => cs
  | .placeholder _ name => positional (names.idxOf (String.ofList name) + 1)

/-- Each placeholder replaced by the position of its name, and nothing else changed. -/
def expected (d : Dialect) (sql : String) : String × List String :=
  let ps := piecesIn d sql.toList
  (String.ofList (ps.flatMap (Piece.rewritten (namesOf ps))), namesOf ps)

/-- A character that opens no string, quoted identifier, comment or cast and is no sign before a name. -/
def quiet (c : Char) (cs : List Char) : Bool :=
  c ≠ '\'' && c ≠ '"' && !(c = '-' && next cs '-') && !(c = '/' && next cs '*') && !(c = ':' && next cs ':') &&
    !((c = ':' || c = '$' || c = '@') && cs.head?.any isIdentStart)

/-- A part, before the given text, of quiet characters and casts. -/
def inert : List Char → List Char → Bool
  | [], _ => true
  | ':' :: ':' :: part, rest => inert part rest
  | c :: part, rest => quiet c (part ++ rest) && inert part rest

end OxiSql.Params
