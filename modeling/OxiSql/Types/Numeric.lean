import OxiSql.Lib.Binary64
import OxiSql.Lib.Results

namespace OxiSql.Types

open OxiSql.Lib

structure NonNan where
  val : Double
  ne_nan : val ≠ .nan

namespace NonNan

def new : Double → Option NonNan
  | .nan => none
  | .infinite negative => some ⟨.infinite negative, by simp⟩
  | .finite q => some ⟨.finite q, by simp⟩

def ofInt (i : Int64) : NonNan :=
  ⟨.ofRat i.toInt, Double.ofRat_ne_nan⟩

def neg (x : NonNan) : NonNan :=
  ⟨x.val.neg, mt Double.neg_eq_nan.mp x.ne_nan⟩

end NonNan

inductive Numeric where
  | null
  | integer (i : Int64)
  | float (x : NonNan)

namespace Numeric

/-- A result outside the `i64` range is none: `checked_add` and the like. -/
def checked (n : Int) : Option Int64 :=
  if -2 ^ 63 ≤ n ∧ n < 2 ^ 63 then some (.ofInt n) else none

def ofDouble (x : Double) : Numeric :=
  match NonNan.new x with
  | some v => .float v
  | none => .null

def add : Numeric → Numeric → Numeric
  | .null, _ | _, .null => .null
  | .integer lhs, .integer rhs =>
    match checked (lhs.toInt + rhs.toInt) with
    | none => ofDouble ((NonNan.ofInt lhs).val.add (NonNan.ofInt rhs).val)
    | some i => .integer i
  | .float lhs, .float rhs => ofDouble (lhs.val.add rhs.val)
  | .float f, .integer i | .integer i, .float f => ofDouble (f.val.add (NonNan.ofInt i).val)

def sub : Numeric → Numeric → Numeric
  | .null, _ | _, .null => .null
  | .float lhs, .float rhs => ofDouble (lhs.val.sub rhs.val)
  | .integer lhs, .integer rhs =>
    match checked (lhs.toInt - rhs.toInt) with
    | none => ofDouble ((NonNan.ofInt lhs).val.sub (NonNan.ofInt rhs).val)
    | some i => .integer i
  | .float f, .integer i => ofDouble (f.val.sub (NonNan.ofInt i).val)
  | .integer i, .float f => ofDouble ((NonNan.ofInt i).val.sub f.val)

def mul : Numeric → Numeric → Numeric
  | .null, _ | _, .null => .null
  | .float lhs, .float rhs => ofDouble (lhs.val.mul rhs.val)
  | .integer lhs, .integer rhs =>
    match checked (lhs.toInt * rhs.toInt) with
    | none => ofDouble ((NonNan.ofInt lhs).val.mul (NonNan.ofInt rhs).val)
    | some i => .integer i
  | .float f, .integer i | .integer i, .float f => ofDouble (f.val.mul (NonNan.ofInt i).val)

def divFloat (lhs rhs : Double) : Numeric :=
  match NonNan.new (lhs.div rhs) with
  | some v => if rhs = .finite 0 then .null else .float v
  | none => .null

def div : Numeric → Numeric → Numeric
  | .null, _ | _, .null => .null
  | .float lhs, .float rhs => divFloat lhs.val rhs.val
  | .integer lhs, .integer rhs =>
    -- `checked_div` has no quotient by zero
    match if rhs.toInt = 0 then none else checked (lhs.toInt.tdiv rhs.toInt) with
    | none => divFloat (NonNan.ofInt lhs).val (NonNan.ofInt rhs).val
    | some v => .integer v
  | .float f, .integer i => divFloat f.val (NonNan.ofInt i).val
  | .integer i, .float f => divFloat (NonNan.ofInt i).val f.val

def neg : Numeric → Numeric
  | .null => .null
  | .integer v =>
    match checked (-v.toInt) with
    | none => .float (NonNan.ofInt v).neg
    | some i => .integer i
  | .float v => .float v.neg

end Numeric

/-- `u64::MAX << 11` -/
def MAX_EXACT : Nat :=
  2 ^ 64 - 2 ^ 11

structure DoubleDouble where
  head : Double
  tail : Double

namespace DoubleDouble

/-- `x as u64`, of a number that is not negative. -/
def asU64 : Double → Nat
  | .finite q => ⌊q⌋.toNat
  | _ => 0

def ofU64 (value : Nat) : DoubleDouble :=
  let r := Double.ofRat value
  let rr :=
    if r.le (.ofRat MAX_EXACT) then
      let roundTripped := asU64 r
      let sign : Double := if roundTripped ≤ value then .finite 1 else .finite (-1)
      sign.mul (.ofRat ((value : ℤ) - roundTripped).natAbs)
    else .finite 0
  ⟨r, rr⟩

def toF64 (x : DoubleDouble) : Double :=
  x.head.add x.tail

def mul (x rhs : DoubleDouble) : DoubleDouble :=
  let selfHeadHi := x.head.high
  let selfHeadLo := x.head.sub selfHeadHi
  let rhsHeadHi := rhs.head.high
  let rhsHeadLo := rhs.head.sub rhsHeadHi
  let productHi := selfHeadHi.mul rhsHeadHi
  let crossTerms := (selfHeadHi.mul rhsHeadLo).add (selfHeadLo.mul rhsHeadHi)
  let head := productHi.add crossTerms
  let tail := ((productHi.sub head).add crossTerms).add (selfHeadLo.mul rhsHeadLo)
  let tail := ((x.head.mul rhs.tail).add (x.tail.mul rhs.head)).add tail
  let resultHi := head.add tail
  let resultLo := (head.sub resultHi).add tail
  ⟨resultHi, resultLo⟩

/-- A constant of the source, each half the double nearest to its literal. -/
def literal (head tail : ℚ) : DoubleDouble :=
  ⟨.ofRat head, .ofRat tail⟩

end DoubleDouble

/-- `attempt to add with overflow` -/
inductive Panic where
  | overflow
deriving DecidableEq

/-- The exponent is an `i32`. -/
def i32 (n : Int) : Except Panic Int :=
  if -2 ^ 31 ≤ n ∧ n < 2 ^ 31 then .ok n else .error .overflow

/-- `is_ascii_whitespace`, or a vertical tab. -/
def isTrimmed (ch : Char) : Bool :=
  ch = ' ' || ch = '\t' || ch = '\n' || ch = '\x0c' || ch = '\r' || ch = '\x0b'

def trimMatches (input : String) : List Char :=
  ((input.toList.dropWhile isTrimmed).reverse.dropWhile isTrimmed).reverse

/-- The sign in front, if there is one, and what follows: `next_if`. -/
def takeSign : List Char → Bool × List Char
  | '-' :: rest => (true, rest)
  | '+' :: rest => (false, rest)
  | input => (false, input)

def toDigit (ch : Char) : Nat :=
  ch.toNat - '0'.toNat

def signed (negative : Bool) (n : Nat) : Int :=
  if negative then -n else n

/-- `parse`, with the nearest limit for a number out of range. -/
def saturate (value : Int) : Int64 :=
  match Numeric.checked value with
  | some i => i
  | none => if 0 ≤ value then Int64.maxValue else Int64.minValue

def strToI64 (input : String) : Int64 :=
  let (negative, rest) := takeSign (trimMatches input)
  let digits := rest.takeWhile Char.isDigit
  if digits.isEmpty then 0 else saturate (signed negative (Nat.ofDigitChars 10 digits 0))

inductive StrToF64 where
  | fractional (x : NonNan)
  | decimal (x : NonNan)

structure Scan where
  significant : Nat
  exponent : Int
  isFractional : Bool

/-- Copy as many significant digits as fit into a `u64`. -/
def scanSignificant (significant : Nat) : List Char → Nat × List Char
  | [] => (significant, [])
  | ch :: rest =>
    if ch.isDigit ∧ significant * 10 + toDigit ch < 2 ^ 64 then
      scanSignificant (significant * 10 + toDigit ch) rest
    else (significant, ch :: rest)

/-- The digits after the point; one that no longer fits is dropped. -/
def scanDecimals (significant : Nat) (exponent : Int) : List Char → Nat × Int
  | [] => (significant, exponent)
  | ch :: rest =>
    if significant < (2 ^ 64 - 1 - 9) / 10 then
      scanDecimals (significant * 10 + toDigit ch) (exponent - 1) rest
    else scanDecimals significant exponent rest

def startsWithDigit (input : List Char) : Bool :=
  input.head?.any Char.isDigit

def scanWhole (input : List Char) : Except Panic (Scan × List Char) := do
  let (significant, rest) := scanSignificant 0 input
  let exponent ← i32 (rest.takeWhile Char.isDigit).length
  return (⟨significant, exponent, false⟩, rest.dropWhile Char.isDigit)

def scanFraction (hadDigits : Bool) (scan : Scan) : List Char → Except Panic (Scan × List Char)
  | '.' :: rest => do
    let digits := rest.takeWhile Char.isDigit
    let (significant, exponent) := scanDecimals scan.significant scan.exponent digits
    let exponent ← i32 exponent
    return (⟨significant, exponent, hadDigits || startsWithDigit rest⟩, rest.dropWhile Char.isDigit)
  | rest => return (scan, rest)

/-- The number after an `e`, cut off above a thousand. -/
def exponentValue (digits : List Char) : Int :=
  digits.foldl (fun acc ch => if acc < 1000 then acc * 10 + toDigit ch else 1000) 0

def isExponentMark (ch : Char) : Bool :=
  ch = 'e' || ch = 'E'

def scanExponent (scan : Scan) : List Char → Except Panic Scan
  | [] => return scan
  | ch :: rest =>
    if isExponentMark ch then do
      let (negative, rest) := takeSign rest
      let e := exponentValue (rest.takeWhile Char.isDigit)
      let exponent ← i32 (scan.exponent + if negative then -e else e)
      return ⟨scan.significant, exponent, scan.isFractional || startsWithDigit rest⟩
    else return scan

/-- Take powers of ten from the exponent while the product stays exact. -/
def raise : Nat → Nat → Nat × Nat
  | significant, 0 => (significant, 0)
  | significant, exponent + 1 =>
    if significant < MAX_EXACT / 10 then raise (significant * 10) exponent
    else (significant, exponent + 1)

/-- Take powers of ten out of the digits while the quotient stays exact. -/
def lower : Nat → Nat → Nat × Nat
  | significant, 0 => (significant, 0)
  | significant, exponent + 1 =>
    if significant % 10 = 0 then lower (significant / 10) exponent
    else (significant, exponent + 1)

/-- Multiply by a hundredth, a tenth and a single power of ten as often as each fits. -/
def scale (hundred ten one : DoubleDouble) (exponent : Nat) (result : DoubleDouble) : DoubleDouble :=
  let result := (·.mul hundred)^[exponent / 100] result
  let result := (·.mul ten)^[exponent % 100 / 10] result
  (·.mul one)^[exponent % 10] result

def scaleUp : Nat → DoubleDouble → DoubleDouble :=
  scale (.literal (10 ^ 100) (-15902891109759918046 * 10 ^ 64)) (.literal (10 ^ 10) 0)
    (.literal 10 0)

def scaleDown : Nat → DoubleDouble → DoubleDouble :=
  scale (.literal (1 / 10 ^ 100) (-199918998026028836196 / 10 ^ 137))
    (.literal (1 / 10 ^ 10) (-36432197315497741579 / 10 ^ 46))
    (.literal (1 / 10) (-55511151231257827021 / 10 ^ 37))

/-- A product that is not a number is taken for the infinity of the sign. -/
def withSign (negative : Bool) (result : Double) : NonNan :=
  let sign : Double := if negative then .finite (-1) else .finite 1
  match NonNan.new (result.mul sign) with
  | some x => x
  | none => ⟨.infinite negative, by simp⟩

/-- The double a scanned number is taken for. -/
def assemble (negative : Bool) (significant : Nat) (exponent : Int) : NonNan :=
  let result :=
    if 0 < exponent then
      let (significant, exponent) := raise significant exponent.toNat
      scaleUp exponent (.ofU64 significant)
    else
      let (significant, exponent) := lower significant (-exponent).toNat
      scaleDown exponent (.ofU64 significant)
  withSign negative result.toF64

def strToF64 (input : String) : Except Panic (Option StrToF64) := do
  let (negative, input) := takeSign (trimMatches input)
  if input.head?.any isExponentMark then return none
  let (scan, rest) ← scanWhole input
  let (scan, rest) ← scanFraction (startsWithDigit input) scan rest
  let scan ← scanExponent scan rest
  let result := assemble negative scan.significant scan.exponent
  return some (if scan.isFractional then .fractional result else .decimal result)

/-- `Numeric::from` of a text. -/
def Numeric.ofText (text : String) : Except Panic Numeric := do
  match ← strToF64 text with
  | none => return .integer 0
  | some (.fractional value) => return .float value
  | some (.decimal real) =>
    let integer := strToI64 text
    return if real.val.eq (.ofRat integer.toInt) then .integer integer else .float real

end OxiSql.Types
