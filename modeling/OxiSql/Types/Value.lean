import Mathlib

namespace OxiSql.Types

/-- A double that is a number: `mantissa * 2 ^ (exponent - 1074)`, or infinite. -/
inductive F64 where
  | finite (mantissa : Int) (exponent : Nat) (hm : mantissa.natAbs ≤ 2 ^ 53) (he : exponent ≤ 2045)
  | infinite (negative : Bool)
deriving DecidableEq

namespace F64

/-- `partial_cmp`, which has an answer for numbers. -/
def cmp : F64 → F64 → Ordering
  | .finite m e _ _, .finite m' e' _ _ => compare (m * (2 ^ (e - e') : Nat)) (m' * (2 ^ (e' - e) : Nat))
  | .finite .., .infinite negative => if negative then .gt else .lt
  | .infinite negative, .finite .. => if negative then .lt else .gt
  | .infinite negative, .infinite negative' => compare negative' negative

@[simp] theorem cmp_self (x : F64) : x.cmp x = .eq := by
  cases x with
  | finite m e hm he => simp [cmp]
  | infinite negative => cases negative <;> rfl

theorem cmp_swap (x y : F64) : (x.cmp y).swap = y.cmp x := by
  cases x with
  | finite m e hm he =>
    cases y with
    | finite m' e' hm' he' => exact Std.OrientedOrd.eq_swap.symm
    | infinite negative => cases negative <;> rfl
  | infinite negative =>
    cases y with
    | finite m' e' hm' he' => cases negative <;> rfl
    | infinite negative' => cases negative <;> cases negative' <;> rfl

/-- The quotient by `2 ^ k`, rounded to the nearest, to the even one in the middle. -/
def roundShift (n k : Nat) : Nat :=
  if 2 ^ k < 2 * (n % 2 ^ k) ∨ 2 * (n % 2 ^ k) = 2 ^ k ∧ n / 2 ^ k % 2 = 1 then n / 2 ^ k + 1
  else n / 2 ^ k

theorem roundShift_le (h : n < 2 ^ (53 + k)) : roundShift n k ≤ 2 ^ 53 := by
  have hq : n / 2 ^ k < 2 ^ 53 := by
    rw [Nat.div_lt_iff_lt_mul (Nat.two_pow_pos k),← Nat.pow_add]
    exact h
  unfold roundShift
  split <;> omega

/-- How many bits of an integer a mantissa has no place for. -/
def excess (n : Nat) : Nat :=
  n.log2 + 1 - 53

theorem lt_two_pow_excess (n : Nat) : n < 2 ^ (53 + excess n) :=
  Nat.lt_of_lt_of_le Nat.lt_log2_self (Nat.pow_le_pow_right (by decide) (by unfold excess; omega))

/-- `i as f64`. -/
def ofInt (i : Int) : F64 :=
  if he : 1074 + excess i.natAbs ≤ 2045 then
    .finite (i.sign * roundShift i.natAbs (excess i.natAbs)) (1074 + excess i.natAbs) (by
      rw [Int.natAbs_mul, Int.natAbs_sign, Int.natAbs_natCast]
      have := roundShift_le (lt_two_pow_excess i.natAbs)
      split <;> omega) he
  else .infinite (i < 0)

end F64

inductive Value where
  | null
  | integer (i : Int)
  | float (x : F64)
  | text (s : String)
  | blob (bytes : List UInt8)
deriving DecidableEq

abbrev Record := List Value

/-- NOCASE compares as the crate `uncased` does; all that is used of it is that this is an order. -/
inductive CollationSeq where
  | binary
  | noCase (uncased : String → String → Ordering) (law : Std.TransCmp uncased)
  | rtrim

namespace CollationSeq

/-- `char::is_whitespace`. -/
def isWhitespace (ch : Char) : Bool :=
  let n := ch.toNat
  9 ≤ n && n ≤ 13 || n == 0x20 || n == 0x85 || n == 0xA0 || n == 0x1680 ||
    0x2000 ≤ n && n ≤ 0x200A || n == 0x2028 || n == 0x2029 || n == 0x202F || n == 0x205F || n == 0x3000

def trimEnd (s : String) : List Char :=
  (s.toList.reverse.dropWhile isWhitespace).reverse

/-- Comparing the bytes of two texts is comparing their characters. -/
def compareStrings : CollationSeq → String → String → Ordering
  | .binary, lhs, rhs => compare lhs.toList rhs.toList
  | .noCase uncased _, lhs, rhs => uncased lhs rhs
  | .rtrim, lhs, rhs => compare (trimEnd lhs) (trimEnd rhs)

instance transCmp (collation : CollationSeq) : Std.TransCmp collation.compareStrings := by
  cases collation with
  | binary => exact inferInstanceAs (Std.TransCmp (compareOn String.toList))
  | noCase uncased law => exact law
  | rtrim => exact inferInstanceAs (Std.TransCmp (compareOn trimEnd))

end CollationSeq

/-- Values of two columns, texts by their collation. -/
def Value.compareWith (collation : CollationSeq) : Value → Value → Ordering
  | .text lhs, .text rhs => collation.compareStrings lhs rhs
  | .integer l, .integer r => compare l r
  | .integer l, .float r => (F64.ofInt l).cmp r
  | .float l, .integer r => l.cmp (F64.ofInt r)
  | .float l, .float r => l.cmp r
  | .integer _, .text _ | .integer _, .blob _ | .float _, .text _ | .float _, .blob _ => .lt
  | .text _, .integer _ | .text _, .float _ | .blob _, .integer _ | .blob _, .float _ => .gt
  | .text _, .blob _ => .lt
  | .blob _, .text _ => .gt
  | .blob l, .blob r => compare l r
  | .null, .null => .eq
  | .null, _ => .lt
  | _, .null => .gt

@[simp] theorem Value.compareWith_self (v : Value) : v.compareWith collation v = .eq := by
  cases v with
  | null => rfl
  | integer i => simp [compareWith]
  | float x => exact x.cmp_self
  | text s => exact @Std.ReflCmp.compare_self _ collation.compareStrings _ _
  | blob bytes => simp [compareWith]

theorem Value.compareWith_swap (v w : Value) :
    (v.compareWith collation w).swap = w.compareWith collation v := by
  cases v <;> cases w <;> first
    | rfl
    | exact Std.OrientedOrd.eq_swap.symm
    | exact F64.cmp_swap _ _
    | exact (@Std.OrientedCmp.eq_swap _ collation.compareStrings _ _ _).symm

inductive SortOrder where
  | asc
  | desc
deriving DecidableEq

/-- One bit for each of the first 64 columns. -/
structure IndexKeySortOrder where
  bits : BitVec 64

def IndexKeySortOrder.getSortOrderForCol (order : IndexKeySortOrder) (columnIdx : Nat) : SortOrder :=
  if order.bits.getLsbD columnIdx then .desc else .asc

def IndexKeySortOrder.default : IndexKeySortOrder :=
  ⟨0⟩

/-- The loop of `compare_immutable`, from a column on. -/
def compareFrom (order : IndexKeySortOrder) (collations : List CollationSeq) :
    Nat → Record → Record → Ordering
  | i, l :: ls, r :: rs =>
    match l.compareWith (collations.getD i .binary) r with
    | .eq => compareFrom order collations (i + 1) ls rs
    | cmp =>
      match order.getSortOrderForCol i with
      | .asc => cmp
      | .desc => cmp.swap
  | _, _, _ => .eq

/-- Records of one length are compared column by column. -/
def compareImmutable (l r : Record) (order : IndexKeySortOrder) (collations : List CollationSeq) : Ordering :=
  compareFrom order collations 0 l r

theorem compareImmutable_self : compareImmutable l l order collations = .eq := by
  have hfr : ∀ i, compareFrom order collations i l l = .eq := by
    induction l with
    | nil => exact fun _ => rfl
    | cons v l ih =>
      simp [compareFrom,ih]
  exact hfr 0

end OxiSql.Types
