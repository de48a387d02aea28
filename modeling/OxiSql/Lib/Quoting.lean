import Mathlib

namespace OxiSql.Lib

/-- The quotes a dialect of SQL has besides `'` and `"`. -/
structure Dialect where
  backticks : Bool
  brackets : Bool
  dollars : Bool
deriving DecidableEq

def isTagChar (c : Char) : Bool :=
  c.isAlphanum || c = '_' || 128 ≤ c.toNat

/-- The tag of a dollar quote, from the text after its first `$`. -/
def dollarTag (cs : List Char) : Option (List Char) :=
  let tag := cs.takeWhile isTagChar
  if tag.head?.any Char.isDigit = false ∧ (cs.dropWhile isTagChar).head? = some '$' then some tag else none

namespace Dialect
variable (d : Dialect)

/-- The character that closes the quotes that `c` opens. -/
def closing (c : Char) : Option Char :=
  if c = '`' ∧ d.backticks then some '`'
  else if c = '[' ∧ d.brackets then some ']'
  else none

/-- What opens and closes the dollar quotes that `c` opens. -/
def delimiter (c : Char) (cs : List Char) : Option (List Char) :=
  if c = '$' ∧ d.dollars then (dollarTag cs).map fun tag => '$' :: tag ++ ['$'] else none

end Dialect

end OxiSql.Lib
