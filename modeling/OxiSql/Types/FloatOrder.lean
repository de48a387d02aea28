import OxiSql.Lib.Binary64
import OxiSql.Types.Value

namespace OxiSql.Types

theorem compare_mul_right {a b c : Int} (hc : 0 < c) : compare (a * c) (b * c) = compare a b := by
  rw [← cmp_eq_compare,← cmp_eq_compare,cmp_mul_pos_right hc]

namespace F64

/-- A double in units of the least one; an infinity lies beyond every finite double. -/
def rank : F64 → Int
  | .finite m e _ _ => m * 2 ^ e
  | .infinite negative => if negative then -2 ^ 2099 else 2 ^ 2099

theorem abs_finite_lt {m : Int} (hm : m.natAbs ≤ 2 ^ 53) (he : e ≤ 2045) : |m * 2 ^ e| < 2 ^ 2099 := by
  have hpow : 2 ^ e ≤ 2 ^ 2045 := Nat.pow_le_pow_right (by decide) he
  have hnat : (m * 2 ^ e).natAbs < 2 ^ 2099 := by
    calc (m * 2 ^ e).natAbs = m.natAbs * 2 ^ e := by simp [Int.natAbs_mul]
      _ ≤ 2 ^ 53 * 2 ^ 2045 := Nat.mul_le_mul hm hpow
      _ < 2 ^ 2099 := by
        rw [← Nat.pow_add]
        exact Nat.pow_lt_pow_right (by decide) (by decide)
  rw [Int.abs_eq_natAbs]
  exact_mod_cast hnat

theorem cmp_eq_compare_rank (x y : F64) : x.cmp y = compare x.rank y.rank := by
  have hinf : (-2 ^ 2099 : Int) < 2 ^ 2099 := neg_lt_self (pow_pos two_pos _)
  cases x with
  | finite m e hm he =>
    have hx := abs_lt.mp (abs_finite_lt hm he)
    cases y with
    | finite m' e' hm' he' =>
      -- Both are scaled by the smaller of the two powers.
      have hsc : ∀ (a b : Nat) (n : Int), n * ((2 ^ (a - b) : Nat) : Int) * 2 ^ min a b = n * 2 ^ a := by
        intro a b n
        have hexp : a - b + min a b = a := by omega
        push_cast
        rw [mul_assoc,← pow_add,hexp]
      calc compare (m * ((2 ^ (e - e') : Nat) : Int)) (m' * ((2 ^ (e' - e) : Nat) : Int))
          = compare (m * ((2 ^ (e - e') : Nat) : Int) * 2 ^ min e e')
              (m' * ((2 ^ (e' - e) : Nat) : Int) * 2 ^ min e e') :=
            (compare_mul_right (pow_pos two_pos _)).symm
        _ = compare (m * 2 ^ e) (m' * 2 ^ e') := by
            rw [hsc,min_comm,hsc]
    | infinite negative =>
      cases negative with
      | false => exact (compare_lt_iff_lt.mpr hx.2).symm
      | true => exact (compare_gt_iff_gt.mpr hx.1).symm
  | infinite negative =>
    cases y with
    | finite m e hm he =>
      have hy := abs_lt.mp (abs_finite_lt hm he)
      cases negative with
      | false => exact (compare_gt_iff_gt.mpr hy.2).symm
      | true => exact (compare_lt_iff_lt.mpr hy.1).symm
    | infinite negative' =>
      cases negative <;> cases negative'
      · exact (compare_eq_iff_eq.mpr rfl).symm
      · exact (compare_gt_iff_gt.mpr hinf).symm
      · exact (compare_lt_iff_lt.mpr hinf).symm
      · exact (compare_eq_iff_eq.mpr rfl).symm

/-- The number for the arithmetic of doubles, which has NaN too. -/
def toDouble : F64 → Lib.Double
  | .finite m e _ _ => .finite (m * 2 ^ e / 2 ^ 1074)
  | .infinite negative => .infinite negative

theorem toDouble_le (x y : F64) : x.toDouble.le y.toDouble = (x.cmp y).isLE := by
  rcases x with ⟨m,e,hm,he⟩ | _ | _ <;> rcases y with ⟨m',e',hm',he'⟩ | _ | _
  · have hle : (m * 2 ^ e / 2 ^ 1074 : ℚ) ≤ m' * 2 ^ e' / 2 ^ 1074 ↔ m * 2 ^ e ≤ m' * 2 ^ e' := by
      rw [div_le_div_iff_of_pos_right (pow_pos two_pos _)]
      exact_mod_cast Iff.rfl
    rw [cmp_eq_compare_rank,Bool.eq_iff_iff,Ordering.isLE_iff_ne_gt,compare_gt_iff_gt,not_lt]
    exact decide_eq_true_iff.trans hle
  all_goals rfl

theorem roundShift_mono (h : n ≤ n') : roundShift n k ≤ roundShift n' k := by
  have hq : n / 2 ^ k ≤ n' / 2 ^ k := Nat.div_le_div_right h
  rcases hq.lt_or_eq with hlt | heq
  · unfold roundShift
    split <;> split <;> omega
  · have hr : n % 2 ^ k ≤ n' % 2 ^ k := by
      have hn := Nat.div_add_mod n (2 ^ k)
      have hn' := Nat.div_add_mod n' (2 ^ k)
      rw [heq] at hn
      omega
    unfold roundShift
    split <;> split <;> omega

theorem excess_mono (h : n ≤ n') : excess n ≤ excess n' := by
  have hlog : n.log2 ≤ n'.log2 := by
    rw [Nat.log2_eq_log_two,Nat.log2_eq_log_two]
    exact Nat.log_mono_right h
  unfold excess
  omega

def converted (n : Nat) : Int :=
  if 1074 + excess n ≤ 2045 then roundShift n (excess n) * 2 ^ (1074 + excess n) else 2 ^ 2099

theorem le_roundShift (h : 0 < excess n) : 2 ^ 52 ≤ roundShift n (excess n) := by
  have hn : n ≠ 0 := by
    rintro rfl
    exact absurd h (by decide)
  have hlog : 52 + excess n = n.log2 := by
    unfold excess at h ⊢
    omega
  have hq : 2 ^ 52 ≤ n / 2 ^ excess n := by
    rw [Nat.le_div_iff_mul_le (Nat.two_pow_pos _),← Nat.pow_add,hlog]
    exact Nat.log2_self_le hn
  unfold roundShift
  split <;> omega

theorem converted_mono (h : n ≤ n') : converted n ≤ converted n' := by
  have hex := excess_mono h
  unfold converted
  by_cases he' : 1074 + excess n' ≤ 2045
  · have he : 1074 + excess n ≤ 2045 := by omega
    rw [if_pos he,if_pos he']
    rcases hex.lt_or_eq with hlt | heq
    · have hlow := roundShift_le (lt_two_pow_excess n)
      have hhi := le_roundShift (Nat.zero_lt_of_lt hlt)
      have hnat : roundShift n (excess n) * 2 ^ (1074 + excess n) ≤
          roundShift n' (excess n') * 2 ^ (1074 + excess n') := by
        calc roundShift n (excess n) * 2 ^ (1074 + excess n)
            ≤ 2 ^ 53 * 2 ^ (1074 + excess n) := Nat.mul_le_mul_right _ hlow
          _ = 2 ^ 52 * 2 ^ (1074 + excess n + 1) := by
            rw [← Nat.pow_add,← Nat.pow_add]
            congr 1
            omega
          _ ≤ roundShift n' (excess n') * 2 ^ (1074 + excess n') :=
            Nat.mul_le_mul hhi (Nat.pow_le_pow_right (by decide) (by omega))
      exact_mod_cast hnat
    · rw [heq]
      have hro : (roundShift n (excess n') : Int) ≤ roundShift n' (excess n') := by
        exact_mod_cast roundShift_mono h
      exact mul_le_mul_of_nonneg_right hro (pow_nonneg zero_le_two _)
  · split
    · next he =>
      have hm : ((roundShift n (excess n) : Nat) : Int).natAbs ≤ 2 ^ 53 := by
        exact roundShift_le (lt_two_pow_excess n)
      exact ((abs_lt.mp (abs_finite_lt hm he)).2).le
    · rfl

theorem converted_nonneg (n : Nat) : 0 ≤ converted n := by
  have hze : converted 0 = 0 := by
    simp [converted,excess,roundShift]
  rw [← hze]
  exact converted_mono (Nat.zero_le n)

theorem rank_ofInt : (ofInt i).rank = i.sign * converted i.natAbs := by
  unfold ofInt converted
  split
  · rw [rank,mul_assoc]
  · rcases lt_trichotomy i 0 with hi | rfl | hi
    · simp [rank,hi,Int.sign_eq_neg_one_of_neg hi]
    · next he => exact absurd (by decide) he
    · simp [rank,hi.le,Int.sign_eq_one_of_pos hi]

/-- Rounding keeps the order of integers, though it may make neighbours equal. -/
theorem rank_ofInt_mono (h : i ≤ j) : (ofInt i).rank ≤ (ofInt j).rank := by
  rw [rank_ofInt,rank_ofInt]
  rcases lt_trichotomy i 0 with hi | rfl | hi
  · rw [Int.sign_eq_neg_one_of_neg hi]
    rcases lt_trichotomy j 0 with hj | rfl | hj
    · rw [Int.sign_eq_neg_one_of_neg hj,neg_one_mul,neg_one_mul]
      exact neg_le_neg (converted_mono (by omega))
    · have := converted_nonneg i.natAbs
      simp [this]
    · rw [Int.sign_eq_one_of_pos hj,neg_one_mul,one_mul]
      exact (neg_nonpos.mpr (converted_nonneg _)).trans (converted_nonneg _)
  · rcases h.lt_or_eq with hj | rfl
    · rw [Int.sign_eq_one_of_pos hj,one_mul,Int.sign_zero,zero_mul]
      exact converted_nonneg _
    · rfl
  · have hj : 0 < j := hi.trans_le h
    rw [Int.sign_eq_one_of_pos hi,Int.sign_eq_one_of_pos hj,one_mul,one_mul]
    exact converted_mono (by omega)

end F64
end OxiSql.Types
