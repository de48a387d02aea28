import OxiSql.Types.Dekker

namespace OxiSql.Types

open OxiSql.Lib List DoubleDouble Numeric Char Bool

variable {v : Nat}

theorem abs_natCast_le (hv : v < 2 ^ 64) : |(v : ℚ)| ≤ 2 ^ 64 := by
  exact_mod_cast hv.le

theorem abs_nearest_natCast_le (hv : v < 2 ^ 64) : |nearest v| ≤ 2 ^ 65 := by
  have hle := abs_natCast_le hv
  have hro := abs_le.mp (abs_nearest_sub_le v)
  rw [Nat.abs_cast] at hle hro
  rw [abs_le]
  constructor <;> linarith

/-- The head is the nearest double, and the tail does not move it. -/
theorem DoubleDouble.ofU64_eq (hv : v < 2 ^ 64) : ∃ t, ofU64 v = ⟨.finite (nearest v),.finite t⟩ ∧
      nearest (nearest v + t) = nearest v ∧ |t| ≤ (v + 1) / 2 ^ 52 := by
  have hro := abs_nearest_sub_le v
  rw [Nat.abs_cast] at hro
  have hvq : (v : ℚ) < 2 ^ 64 := by exact_mod_cast hv
  unfold ofU64
  simp only [Double.ofRat_of_abs_le ((abs_natCast_le hv).trans (by norm_num))]
  split
  · obtain ⟨m,hm⟩ := nearest_intCast_eq v
    rw [Int.cast_natCast] at hm
    have hm0 : 0 ≤ m := by
      rw [abs_le] at hro
      have : (-1 : ℚ) < m := by linarith
      have : ((-1 : ℤ) : ℚ) < m := by exact_mod_cast this
      have := Int.cast_lt.mp this
      omega
    have hasU64 : asU64 (.finite (nearest v)) = m.toNat := by
      rw [hm]
      simp [asU64]
    set d : ℤ := (v : ℤ) - m.toNat
    have hd : (d : ℚ) = v - nearest v := by
      rw [hm]
      simp only [d,Int.toNat_of_nonneg hm0]
      push_cast
      rfl
    have hda : |(d : ℚ)| ≤ (v + 1) / 2 ^ 52 := by
      rw [hd,abs_sub_comm]
      exact hro
    have hsm : |d| ≤ 2 ^ 53 := by
      have : |(d : ℚ)| ≤ 2 ^ 53 := by linarith
      exact_mod_cast this
    refine ⟨d,?_,by rw [hd,add_sub_cancel],hda⟩
    have hfin : ∀ k : ℤ, |k| ≤ 2 ^ 53 → Double.ofRat k = .finite k := by
      intro k hk
      have hkq : |(k : ℚ)| ≤ 2 ^ 53 := by
        exact_mod_cast hk
      rw [Double.ofRat_of_abs_le (hkq.trans (by norm_num)),nearest_intCast hk]
    have hnat : Double.ofRat d.natAbs = .finite |(d : ℚ)| := by
      have := hfin |d| (by rwa [abs_abs])
      rw [Int.cast_abs] at this
      rwa [Nat.cast_natAbs,Int.cast_abs]
    rw [hasU64]
    congr 1
    rw [hnat]
    split
    case _ hle =>
      have : 0 ≤ d := by omega
      rw [abs_of_nonneg (by exact_mod_cast this)]
      show Double.ofRat (1 * d) = _
      rw [one_mul,hfin d hsm]
    case _ hlt =>
      have : d < 0 := by omega
      rw [abs_of_neg (by exact_mod_cast this)]
      show Double.ofRat (-1 * -d) = _
      rw [neg_one_mul,neg_neg,hfin d hsm]
  · refine ⟨0,rfl,by rw [add_zero,nearest_nearest],?_⟩
    positivity

theorem withSign_finite (hq : nearest q = q) (hle : |q| ≤ 2 ^ 100) :
    (withSign negative (.finite q)).val = .finite (if negative then -q else q) := by
  unfold withSign
  cases negative with
  | false =>
    have : (Double.finite q).mul (.finite 1) = .finite q := by
      show Double.ofRat (q * 1) = _
      rw [mul_one,Double.ofRat_of_abs_le hle,hq]
    simp [this,NonNan.new]
  | true =>
    have : (Double.finite q).mul (.finite (-1)) = .finite (-q) := by
      show Double.ofRat (q * -1) = _
      rw [mul_neg_one,Double.ofRat_of_abs_le (by rwa [abs_neg]),nearest_neg,hq]
    simp [this,NonNan.new]

theorem finite_of_withSign (h : (withSign negative x).val = .finite q) :
    ∃ r, x = .finite r ∧ |nearest r| = |q| := by
  unfold withSign at h
  cases hy : x.mul (if negative then Double.finite (-1) else .finite 1) with
  | nan | infinite n =>
    simp only [hy] at h
    cases h
  | finite r =>
    simp only [hy] at h
    cases h
    obtain ⟨a,b,rfl,hb,rfl⟩ := Double.mul_finite hy
    refine ⟨a,rfl,?_⟩
    cases negative with
    | false =>
      cases hb
      rw [mul_one]
    | true =>
      cases hb
      rw [mul_neg_one,nearest_neg,abs_neg]

theorem assemble_zero (hv : v < 2 ^ 64) :
    (assemble negative v 0).val = .finite (nearest (signed negative v)) := by
  obtain ⟨t,ht,hsum,hta⟩ := ofU64_eq hv
  have hne := abs_nearest_natCast_le hv
  have hsm : |nearest v + t| ≤ 2 ^ 100 := by
    have hle := abs_natCast_le hv
    rw [Nat.abs_cast] at hle
    rw [abs_le] at hne hta ⊢
    constructor <;> linarith
  have htoF64 : (ofU64 v).toF64 = .finite (nearest v) := by
    rw [ht]
    show Double.ofRat (nearest v + t) = _
    rw [Double.ofRat_of_abs_le hsm,hsum]
  have has : assemble negative v 0 = withSign negative (ofU64 v).toF64 := rfl
  rw [has,htoF64,withSign_finite (nearest_nearest) (hne.trans (by norm_num))]
  cases negative with
  | false => simp [signed]
  | true => simp [signed,nearest_neg]

theorem literal_factor {head tail : ℚ} (hhe : 11 ≤ head) (hta : |tail| ≤ 1 / 2 ^ 30 * head) :
    (literal head tail).Above 10 (1 / 2 ^ 20) := by
  have h1 := abs_le.mp (abs_nearest_sub_le head)
  have h2 := abs_le.mp (abs_nearest_sub_le tail)
  rw [abs_of_nonneg (by linarith : (0 : ℚ) ≤ head)] at h1
  have h3 := abs_le.mp hta
  refine literal_above (by linarith) (abs_le.mpr ⟨?_,?_⟩)
  · linarith
  · linarith

theorem ten_factor : (literal 10 0).Above 10 (1 / 2 ^ 20) := by
  have h1 : nearest 10 = 10 := by exact_mod_cast nearest_intCast (n := 10) (by norm_num)
  have h2 : nearest 0 = 0 := by exact_mod_cast nearest_intCast (n := 0) (by norm_num)
  exact literal_above (by rw [h1]) (by rw [h1,h2]; norm_num)

theorem scaleUp_above (hbo : 10 ≤ bound) (hx : x.Above bound (1 / 2 ^ 10)) (hk : 0 < k) :
    (scaleUp k x).Above (9 * bound) (1 / 2 ^ 10) := by
  have more : ∀ (n : Nat) {b : ℚ}, 10 ≤ b → 10 ≤ 9 ^ n * b := by
    intro n b hb
    calc (10 : ℚ) ≤ 1 * b := by rwa [one_mul]
      _ ≤ 9 ^ n * b := mul_le_mul_of_nonneg_right (one_le_pow₀ (by norm_num)) (by linarith)
  have h1 := iterate_mul_above hbo hx
    (literal_factor (by norm_num) (by rw [abs_of_neg] <;> norm_num) :
      (literal (10 ^ 100) (-15902891109759918046 * 10 ^ 64)).Above 10 (1 / 2 ^ 20))
    (k / 100)
  have h2 := iterate_mul_above (more _ hbo) h1 (literal_factor (by norm_num) (by norm_num) :
      (literal (10 ^ 10) 0).Above 10 (1 / 2 ^ 20)) (k % 100 / 10)
  have h3 := iterate_mul_above (more _ (more _ hbo)) h2 ten_factor (k % 10)
  intro a b ha hb
  obtain ⟨hge,hle⟩ := h3 a b ha hb
  refine ⟨le_trans ?_ hge,hle⟩
  rw [← mul_assoc,← mul_assoc,← pow_add,← pow_add]
  gcongr
  have : k % 100 % 10 = k % 10 := Nat.mod_mod_of_dvd k (by decide)
  exact le_self_pow₀ (by norm_num) (by omega)

theorem assemble_skipped (hv : v < 2 ^ 64) (hla : 2 ^ 64 ≤ v * 10 + 9) (hk : 0 < k)
    (hq : (assemble negative v k).val = .finite q) : 2 ^ 63 + 2 ^ 62 < |q| := by
  obtain ⟨t,ht,-,hta⟩ := ofU64_eq hv
  have hvq : (1844674407370955161 : ℚ) ≤ v := by
    have : 1844674407370955161 ≤ v := by omega
    exact_mod_cast this
  have hab : (ofU64 v).Above 1844674407370900000 (1 / 2 ^ 10) := by
    intro a b ha hb
    rw [ht] at ha hb
    cases ha
    cases hb
    have hro := abs_le.mp (abs_nearest_sub_le v)
    rw [Nat.abs_cast] at hro
    exact ⟨by linarith,by linarith⟩
  have hra : raise v k.toNat = (v, k.toNat) := by
    obtain ⟨n,hn⟩ : ∃ n, k.toNat = n + 1 := ⟨k.toNat - 1,by omega⟩
    rw [hn]
    unfold raise
    rw [if_neg (by unfold MAX_EXACT; omega)]
  have has : assemble negative v k = withSign negative (scaleUp k.toNat (.ofU64 v)).toF64 := by
    unfold assemble
    rw [if_pos hk,hra]
  rw [has] at hq
  obtain ⟨r,hr,habs⟩ := finite_of_withSign hq
  have hgr := (scaleUp_above (by norm_num) hab (k := k.toNat) (by omega)).toF64 (by norm_num) hr
  have hro := abs_le.mp (abs_nearest_sub_le r)
  rw [abs_of_nonneg (by linarith : (0 : ℚ) ≤ r)] at hro
  rw [← habs]
  refine lt_of_lt_of_le ?_ (le_abs_self _)
  linarith

theorem le_ofDigitChars : init ≤ Nat.ofDigitChars 10 digits init := by
  rw [Nat.ofDigitChars_eq_ofDigitChars_zero]
  have : 1 ≤ 10 ^ digits.length := Nat.one_le_pow _ _ (by decide)
  calc init = 1 * init := (one_mul _).symm
    _ ≤ 10 ^ digits.length * init := Nat.mul_le_mul_right _ this
    _ ≤ _ := Nat.le_add_right _ _

theorem toDigit_le (h : ch.isDigit) : toDigit ch ≤ 9 := by
  have hle : ch.val ≤ 57 := by
    simp only [isDigit,and_eq_true,decide_eq_true_eq] at h
    exact h.2
  have : ch.toNat ≤ 57 := hle
  have : '0'.toNat = 48 := rfl
  unfold toDigit
  omega

theorem scanSignificant_spec (hlt : significant < 2 ^ 64)
    (h : scanSignificant significant input = (result,rest)) :
    ∃ digits, input = digits ++ rest ∧ (∀ ch ∈ digits, ch.isDigit) ∧ result < 2 ^ 64 ∧
      result = Nat.ofDigitChars 10 digits significant ∧
      ∀ ch rest', rest = ch :: rest' → ch.isDigit → 2 ^ 64 ≤ result * 10 + toDigit ch := by
  induction input generalizing significant with
  | nil =>
    cases h
    exact ⟨[],rfl,nofun,hlt,rfl,nofun⟩
  | cons ch input ih =>
    unfold scanSignificant at h
    split at h
    case isTrue hfits =>
      obtain ⟨digits,hin,hdi,hres,heq,hst⟩ := ih hfits.2 h
      refine ⟨ch :: digits,by rw [hin]; rfl,?_,hres,?_,hst⟩
      · intro c hc
        rcases mem_cons.mp hc with rfl | hc
        · exact hfits.1
        · exact hdi c hc
      · rw [heq,Nat.ofDigitChars_cons,mul_comm 10]
        rfl
    case isFalse hfits =>
      cases h
      refine ⟨[],rfl,nofun,hlt,rfl,fun c rest' hc hdig => ?_⟩
      cases hc
      exact not_lt.mp fun hlt => hfits ⟨hdig,hlt⟩

theorem i32_ok (h : i32 n = .ok m) : m = n := by
  unfold i32 at h
  split at h
  · exact (Except.ok.inj h).symm
  · cases h

theorem scanSignificant_cases (hsc : scanSignificant 0 input = (result,rest)) :
    input.dropWhile isDigit = rest.dropWhile isDigit ∧ result < 2 ^ 64 ∧
      (rest.takeWhile isDigit = [] ∧ result = Nat.ofDigitChars 10 (input.takeWhile isDigit) 0 ∨
        rest.takeWhile isDigit ≠ [] ∧ 2 ^ 64 ≤ result * 10 + 9 ∧
          2 ^ 64 ≤ Nat.ofDigitChars 10 (input.takeWhile isDigit) 0) := by
  obtain ⟨digits,rfl,hdi,hlt,heq,hst⟩ := scanSignificant_spec (by norm_num) hsc
  rw [takeWhile_append_of_pos hdi,dropWhile_append_of_pos hdi,Nat.ofDigitChars_append,← heq]
  refine ⟨rfl,hlt,?_⟩
  cases rest with
  | nil => exact .inl ⟨rfl,rfl⟩
  | cons ch rest =>
    rw [takeWhile_cons]
    split
    case isTrue hdig =>
      have hla := hst ch rest rfl hdig
      have hle := toDigit_le hdig
      refine .inr ⟨nofun,by omega,?_⟩
      rw [Nat.ofDigitChars_cons,mul_comm 10]
      exact hla.trans (le_ofDigitChars)
    case isFalse => exact .inl ⟨rfl,rfl⟩

variable {scan : Scan}

theorem scanWhole_spec (h : scanWhole input = .ok (scan,rest)) :
    rest = input.dropWhile isDigit ∧ scan.isFractional = false ∧ scan.significant < 2 ^ 64 ∧
      (scan.exponent = 0 ∧ scan.significant = Nat.ofDigitChars 10 (input.takeWhile isDigit) 0 ∨
        0 < scan.exponent ∧ 2 ^ 64 ≤ scan.significant * 10 + 9 ∧
          2 ^ 64 ≤ Nat.ofDigitChars 10 (input.takeWhile isDigit) 0) := by
  rcases hsc : scanSignificant 0 input with ⟨result,left⟩
  obtain ⟨hdr,hlt,hca⟩ := scanSignificant_cases hsc
  unfold scanWhole at h
  rw [hsc] at h
  obtain ⟨exponent,hexp,h⟩ := bind_ok h
  cases h
  refine ⟨hdr.symm,rfl,hlt,hca.imp (fun hall => ⟨?_,hall.2⟩) fun hma => ⟨?_,hma.2⟩⟩
  · rw [i32_ok hexp,hall.1,length_nil,Nat.cast_zero]
  · rw [i32_ok hexp]
    exact Int.natCast_pos.mpr (length_pos_iff.mpr hma.1)

theorem scanWhole_ok (hfits : Nat.ofDigitChars 10 (input.takeWhile isDigit) 0 < 2 ^ 64) :
    scanWhole input = .ok (⟨Nat.ofDigitChars 10 (input.takeWhile isDigit) 0,0,false⟩,
      input.dropWhile isDigit) := by
  rcases hsc : scanSignificant 0 input with ⟨result,left⟩
  obtain ⟨hdr,-,⟨hnone,heq⟩ | hma⟩ := scanSignificant_cases hsc
  · unfold scanWhole
    rw [hsc,hdr,← heq]
    show (i32 ((left.takeWhile isDigit).length) >>= fun _ => _) = _
    rw [hnone]
    rfl
  · exact absurd hfits (not_lt.mpr hma.2.2)

structure Numeral where
  negative : Bool
  whole : List Char
  fraction : Option (List Char)
  exponent : Option Int
deriving DecidableEq

namespace Numeral

def value (n : Numeral) : ℚ :=
  let digits := n.whole ++ n.fraction.getD []
  let m : ℚ := Nat.ofDigitChars 10 digits 0 / 10 ^ (n.fraction.getD []).length * 10 ^ n.exponent.getD 0
  if n.negative then -m else m

def IsPlain (n : Numeral) : Prop :=
  n.whole ≠ [] ∧ n.fraction = none ∧ n.exponent = none

def magnitude (n : Numeral) : Nat :=
  Nat.ofDigitChars 10 n.whole 0

def integer (n : Numeral) : ℤ :=
  signed n.negative n.magnitude

end Numeral

/-- A point belongs to the number if there is a digit on one side of it. -/
def takeFraction (hadDigits : Bool) : List Char → Option (List Char) × List Char
  | '.' :: rest =>
    if hadDigits || startsWithDigit rest then
      (some (rest.takeWhile Char.isDigit), rest.dropWhile Char.isDigit)
    else (none, '.' :: rest)
  | rest => (none, rest)

/-- An exponent belongs to the number if it has a digit. -/
def takeExponent : List Char → Option Int
  | [] => none
  | ch :: rest =>
    let (negative, rest) := takeSign rest
    if isExponentMark ch && startsWithDigit rest then
      some (signed negative (Nat.ofDigitChars 10 (rest.takeWhile Char.isDigit) 0))
    else none

/-- The longest numeral a text starts with, white space apart; without a digit it is empty. -/
def longestNumeral (text : String) : Numeral :=
  let (negative, rest) := takeSign (trimMatches text)
  let whole := rest.takeWhile Char.isDigit
  let (fraction, rest) := takeFraction (!whole.isEmpty) (rest.dropWhile Char.isDigit)
  if whole.isEmpty && fraction.isNone then ⟨false, [], none, none⟩
  else ⟨negative, whole, fraction, takeExponent rest⟩

theorem startsWithDigit_eq : startsWithDigit input = !(input.takeWhile isDigit).isEmpty := by
  cases input with
  | nil => rfl
  | cons ch rest =>
    cases h : ch.isDigit <;> simp [startsWithDigit,h]

theorem scanFraction_spec (h : scanFraction had scan rest = .ok (scan',rest'))
    (hsc : scan.isFractional = false) (hno : scan'.isFractional = false) :
    scan' = scan ∧ (takeFraction had rest).1 = none ∧ (had = true → rest' = rest) := by
  unfold scanFraction at h
  split at h
  case _ rest =>
    obtain ⟨exponent,hexp,h⟩ := bind_ok h
    cases h
    obtain ⟨hhad,hdi⟩ := or_eq_false_iff.mp hno
    have hnone : rest.takeWhile isDigit = [] := by
      rw [startsWithDigit_eq] at hdi
      simpa using hdi
    cases i32_ok hexp
    rw [hnone]
    refine ⟨?_,?_,fun htr => by rw [hhad] at htr; cases htr⟩
    · cases scan
      cases hsc
      simp [scanDecimals,hhad,hdi]
    · simp [takeFraction,hhad,hdi]
  case _ hpo =>
    cases h
    refine ⟨rfl,?_,fun _ => rfl⟩
    unfold takeFraction
    split
    · exact absurd rfl (hpo _)
    · rfl

theorem scanExponent_spec (h : scanExponent scan rest = .ok scan')
    (hno : scan'.isFractional = false) : scan' = scan ∧ takeExponent rest = none := by
  cases rest with
  | nil =>
    cases h
    exact ⟨rfl,rfl⟩
  | cons ch rest =>
    unfold scanExponent at h
    rcases hsi : takeSign rest with ⟨negative,left⟩
    simp only [hsi] at h
    unfold takeExponent
    simp only [hsi]
    split at h
    case isTrue hmark =>
      obtain ⟨exponent,hexp,h⟩ := bind_ok h
      cases h
      obtain ⟨hsc,hdi⟩ := or_eq_false_iff.mp hno
      have hnone : left.takeWhile isDigit = [] := by
        rw [startsWithDigit_eq] at hdi
        simpa using hdi
      rw [hnone] at hexp
      have hexp := i32_ok hexp
      cases scan
      simpa [exponentValue,hdi] using hexp
    case isFalse hmark =>
      cases h
      exact ⟨rfl,by simp [hmark]⟩

theorem scanFraction_of_none
    (h : (takeFraction true rest).1 = none) : scanFraction true scan rest = .ok (scan,rest) := by
  unfold scanFraction
  split
  · cases h
  · rfl

theorem scanExponent_of_none (h : takeExponent rest = none) :
    scanExponent ⟨significant,0,false⟩ rest = .ok ⟨significant,0,false⟩ := by
  cases rest with
  | nil => rfl
  | cons ch rest =>
    rcases hsi : takeSign rest with ⟨negative,left⟩
    unfold takeExponent at h
    unfold scanExponent
    simp only [hsi] at h ⊢
    split
    case isTrue hmark =>
      have hdi : startsWithDigit left = false := by
        cases hd : startsWithDigit left with
        | false => rfl
        | true => simp [hmark,hd] at h
      have hnone : left.takeWhile isDigit = [] := by
        rw [startsWithDigit_eq] at hdi
        simpa using hdi
      rw [hnone,hdi]
      cases negative <;> rfl
    case isFalse => rfl

theorem head_no_mark (h : startsWithDigit input = true) : input.head?.any isExponentMark = false := by
  cases input with
  | nil => rfl
  | cons ch rest =>
    show isExponentMark ch = false
    unfold isExponentMark
    rw [or_eq_false_iff,decide_eq_false_iff_not,decide_eq_false_iff_not]
    constructor <;> rintro rfl <;> cases h

section

variable (hsi : takeSign (trimMatches text) = (negative, input))
include hsi

theorem longestNumeral_eq
    (hdi : input.takeWhile isDigit ≠ []) : longestNumeral text = ⟨negative,input.takeWhile isDigit,
      (takeFraction true (input.dropWhile isDigit)).1,
      takeExponent (takeFraction true (input.dropWhile isDigit)).2⟩ := by
  have hempty : (input.takeWhile isDigit).isEmpty = false := by simpa using hdi
  unfold longestNumeral
  simp only [hsi,hempty]
  rfl

theorem longestNumeral_whole (hdi : input.takeWhile isDigit = []) : (longestNumeral text).whole = [] := by
  unfold longestNumeral
  simp only [hsi,hdi]
  split <;> rfl

omit hsi in
theorem takeFraction_none {had : Bool} {rest : List Char}
    (h : (takeFraction had rest).1 = none) : (takeFraction had rest).2 = rest := by
  unfold takeFraction at h ⊢
  split
  · split
    case isTrue hif =>
      simp [hif] at h
    case isFalse => rfl
  · rfl

omit hsi in
theorem takeFraction_of_ne {had : Bool} {ch : Char} {rest : List Char} (h : ch ≠ '.') :
    takeFraction had (ch :: rest) = (none,ch :: rest) := by
  unfold takeFraction
  split
  case _ heq => exact absurd (List.cons.inj heq).1 h
  case _ => rfl

theorem strToF64_of_plain
    (hpl : (longestNumeral text).IsPlain) (hfits : (longestNumeral text).magnitude < 2 ^ 64) :
    (longestNumeral text).negative = negative ∧
      strToF64 text = .ok (some (.decimal (assemble negative (longestNumeral text).magnitude 0))) := by
  have hdi : input.takeWhile isDigit ≠ [] :=
    fun h => hpl.1 (longestNumeral_whole hsi h)
  have heq := longestNumeral_eq hsi hdi
  rw [heq] at hpl hfits ⊢
  obtain ⟨-,hfr,hexp⟩ := hpl
  rw [takeFraction_none hfr] at hexp
  refine ⟨rfl,?_⟩
  have hst : startsWithDigit input = true := by
    rw [startsWithDigit_eq]
    simpa using hdi
  unfold strToF64
  simp only [hsi,head_no_mark hst,scanWhole_ok hfits,hst]
  show (scanFraction true _ _ >>= fun _ => _) = _
  rw [scanFraction_of_none hfr]
  show (scanExponent _ _ >>= fun _ => _) = _
  rw [scanExponent_of_none hexp]
  rfl

theorem strToF64_decimal (h : strToF64 text = .ok (some (.decimal x))) :
    ∃ scan rest, scanWhole input = .ok (scan,rest) ∧ x = assemble negative scan.significant scan.exponent ∧
      (input.takeWhile isDigit ≠ [] → (longestNumeral text).IsPlain) ∧
      (input.takeWhile isDigit = [] → longestNumeral text = ⟨false,[],none,none⟩) := by
  unfold strToF64 at h
  simp only [hsi] at h
  split at h
  · cases h
  obtain ⟨⟨scan,rest⟩,hwh,h⟩ := bind_ok h
  obtain ⟨⟨scan1,rest₁⟩,hfr,h⟩ := bind_ok h
  obtain ⟨scan2,hex,h⟩ := bind_ok h
  obtain ⟨hre,hsc,-⟩ := scanWhole_spec hwh
  have hno : scan2.isFractional = false := by
    cases hf : scan2.isFractional with
    | false => rfl
    | true =>
      rw [hf] at h
      cases h
  rw [hno] at h
  cases h
  obtain ⟨rfl,hexp⟩ := scanExponent_spec hex hno
  obtain ⟨rfl,hfra,hsa⟩ := scanFraction_spec hfr hsc hno
  refine ⟨scan2,rest,hwh,rfl,fun hdi => ?_,fun hdi => ?_⟩
  · have hhad : startsWithDigit input = true := by
      rw [startsWithDigit_eq]
      simpa using hdi
    rw [hhad,hre] at hfra
    rw [hsa hhad,hre] at hexp
    rw [longestNumeral_eq hsi hdi]
    exact ⟨hdi,hfra,by rw [takeFraction_none hfra]; exact hexp⟩
  · have hhad : startsWithDigit input = false := by
      rw [startsWithDigit_eq,hdi]
      rfl
    rw [hhad,hre] at hfra
    unfold longestNumeral
    simp only [hsi,hdi,isEmpty_nil,Bool.not_true,hfra]
    rfl

end

theorem nearest_eq_two_pow_iff (hge : 2 ^ 63 ≤ v) (hlt : v < 2 ^ 64) :
    nearest v = 2 ^ 63 ↔ v ≤ 2 ^ 63 + 1024 := by
  have hvge : (2 ^ 63 : ℚ) ≤ v := by exact_mod_cast hge
  have hpl : nearest v = roundEven (v / 2 ^ 11) * 2 ^ 11 := by
    have := nearest_of_binade (q := v) (e := 63) (by norm_num) (by rw [Nat.abs_cast]; exact_mod_cast hge)
      (by rw [Nat.abs_cast]; exact_mod_cast hlt)
    rwa [show (63 : ℤ) - 52 = (11 : ℕ) by norm_num] at this
  have hiff : nearest v = 2 ^ 63 ↔ roundEven (v / 2 ^ 11) = 2 ^ 52 := by
    rw [hpl]
    constructor
    · intro h
      have : (roundEven (v / 2 ^ 11) : ℚ) = 2 ^ 52 := by linarith
      exact_mod_cast this
    · intro h
      rw [h]
      norm_num
  rw [hiff]
  constructor
  · intro h
    have hcl := abs_le.mp (abs_roundEven_sub_le (v / 2 ^ 11))
    rw [h] at hcl
    have : (v : ℚ) ≤ 2 ^ 63 + 1024 := by linarith
    exact_mod_cast this
  · intro h
    have hle : (v : ℚ) ≤ 2 ^ 63 + 1024 := by exact_mod_cast h
    rcases lt_or_eq_of_le hle with hlt | heq
    · refine roundEven_of_lt (abs_lt.mpr ⟨?_,?_⟩) <;> push_cast <;> linarith
    · refine roundEven_of_even (by norm_num) ?_
      rw [heq]
      norm_num

theorem nearest_two_pow : nearest (2 ^ 63) = 2 ^ 63 := by
  exact_mod_cast (nearest_eq_two_pow_iff (v := 2 ^ 63) le_rfl (by norm_num)).mpr (by norm_num)

theorem nearest_maxValue : nearest (2 ^ 63 - 1) = 2 ^ 63 := by
  have hpl := nearest_of_binade (q := 2 ^ 63 - 1) (e := 62) (by norm_num) (by norm_num) (by norm_num)
  rw [show (62 : ℤ) - 52 = (10 : ℕ) by norm_num,zpow_natCast] at hpl
  have hro : roundEven ((2 ^ 63 - 1) / 2 ^ 10) = 2 ^ 53 :=
    roundEven_of_lt (by norm_num)
  rw [hpl,hro]
  norm_num

theorem saturate_of_range (hle : -2 ^ 63 ≤ n) (hlt : n < 2 ^ 63) : (saturate n).toInt = n := by
  unfold saturate checked
  rw [if_pos ⟨hle,hlt⟩]
  exact Int64.toInt_ofInt_of_le hle hlt

theorem saturate_of_ge (h : 2 ^ 63 ≤ n) : (saturate n).toInt = 2 ^ 63 - 1 := by
  unfold saturate checked
  rw [if_neg (by omega)]
  rw [if_pos (by omega),Int64.toInt_maxValue]

theorem saturate_of_lt (h : n < -2 ^ 63) : (saturate n).toInt = -2 ^ 63 := by
  unfold saturate checked
  rw [if_neg (by omega)]
  rw [if_neg (by omega),Int64.toInt_minValue]

/-- A number above the limit whose nearest double is that of the limit. -/
def NearLimit (negative : Bool) (v : Nat) : Prop :=
  (if negative then 2 ^ 63 < v else 2 ^ 63 ≤ v) ∧ v ≤ 2 ^ 63 + 1024

theorem NearLimit.saturate_ne (h : NearLimit negative v) :
    (saturate (signed negative v)).toInt ≠ signed negative v := by
  obtain ⟨hge,-⟩ := h
  cases negative with
  | false =>
    show (saturate (v : ℤ)).toInt ≠ v
    replace hge : 2 ^ 63 ≤ v := hge
    rw [saturate_of_ge (by omega)]
    omega
  | true =>
    show (saturate (-v : ℤ)).toInt ≠ -v
    replace hge : 2 ^ 63 < v := hge
    rw [saturate_of_lt (by omega)]
    omega

theorem nearest_saturate_iff (hv : v < 2 ^ 64) :
    nearest (signed negative v) = nearest (saturate (signed negative v)).toInt ↔
      (saturate (signed negative v)).toInt = signed negative v ∨ NearLimit negative v := by
  cases negative with
  | false =>
    show nearest (v : ℤ) = nearest (saturate (v : ℤ)).toInt ↔ (saturate (v : ℤ)).toInt = v ∨ _
    rcases lt_or_ge v (2 ^ 63) with hlt | hge
    · rw [saturate_of_range (by omega) (by omega)]
      simp
    · rw [saturate_of_ge (by omega)]
      rw [Int.cast_natCast,show ((2 ^ 63 - 1 : ℤ) : ℚ) = 2 ^ 63 - 1 by norm_num,nearest_maxValue,
        nearest_eq_two_pow_iff hge hv]
      simp only [NearLimit,false_eq_true,if_false]
      omega
  | true =>
    show nearest ((-v : ℤ) : ℚ) = nearest (saturate (-v : ℤ)).toInt ↔ (saturate (-v : ℤ)).toInt = -v ∨ _
    rcases le_or_gt v (2 ^ 63) with hle | hgt
    · rw [saturate_of_range (by omega) (by omega)]
      simp
    · rw [saturate_of_lt (by omega)]
      rw [Int.cast_neg,Int.cast_natCast,show ((-2 ^ 63 : ℤ) : ℚ) = -2 ^ 63 by norm_num,nearest_neg,
        nearest_neg,nearest_two_pow,neg_inj,nearest_eq_two_pow_iff hgt.le hv]
      simp only [NearLimit,if_true]
      omega

/-- An integer is the exact result, and a result that fits is an integer. -/
def Yields (r : Numeric) (n : ℤ) : Prop :=
  (∀ k, r = .integer k → k.toInt = n) ∧ ∀ k : Int64, k.toInt = n → r = .integer k

/-- What `Numeric::from` gives for a text is what the text says, if it is an integer. -/
def TextExact (text : String) : Prop :=
  (∀ n, ofText text = .ok (.integer n) → (n.toInt : ℚ) = (longestNumeral text).value) ∧
    ((longestNumeral text).IsPlain → ∀ n : Int64, (n.toInt : ℚ) = (longestNumeral text).value →
      ofText text = .ok (.integer n))

/-- The arithmetic of two integers. -/
structure ArithmeticExact (a b : Int64) : Prop where
  add : Yields (.add (.integer a) (.integer b)) (a.toInt + b.toInt)
  sub : Yields (.sub (.integer a) (.integer b)) (a.toInt - b.toInt)
  mul : Yields (.mul (.integer a) (.integer b)) (a.toInt * b.toInt)
  div : b ≠ 0 → Yields (.div (.integer a) (.integer b)) (a.toInt.tdiv b.toInt)
  neg : Yields (.neg (.integer a)) (-a.toInt)

theorem Yields.of_checked (hot : ∀ k, other ≠ .integer k) :
    Yields (match checked n with | none => other | some i => .integer i) n := by
  unfold checked
  split_ifs with hra
  · have hto := Int64.toInt_ofInt_of_le hra.1 hra.2
    refine ⟨fun k hk => ?_,fun k hk => ?_⟩
    · cases hk
      exact hto
    · rw [← hto] at hk
      rw [Int64.toInt_inj.mp hk]
  · refine ⟨fun k hk => absurd hk (hot k),fun k hk => ?_⟩
    exact absurd ⟨hk ▸ k.le_toInt,hk ▸ k.toInt_lt⟩ hra

theorem ofDouble_ne_integer (k : Int64) : ofDouble x ≠ .integer k := by
  unfold ofDouble
  split <;> nofun

theorem divFloat_ne_integer (k : Int64) : divFloat x y ≠ .integer k := by
  unfold divFloat
  split
  · split <;> nofun
  · nofun

theorem arithmetic_exact : ArithmeticExact a b where
  add := .of_checked (ofDouble_ne_integer)
  sub := .of_checked (ofDouble_ne_integer)
  mul := .of_checked (ofDouble_ne_integer)
  div hb := by
    have hb : b.toInt ≠ 0 := fun h => hb (Int64.toInt_inj.mp h)
    have hdiv : div (.integer a) (.integer b) = match checked (a.toInt.tdiv b.toInt) with
        | none => divFloat (NonNan.ofInt a).val (NonNan.ofInt b).val
        | some v => .integer v := by
      simp only [div,if_neg hb] <;> rfl
    rw [hdiv]
    exact .of_checked (divFloat_ne_integer)
  neg := .of_checked nofun

theorem Numeral.IsPlain.value_eq {n : Numeral} (h : n.IsPlain) : n.value = n.integer := by
  obtain ⟨-,hfr,hexp⟩ := h
  unfold Numeral.value Numeral.integer Numeral.magnitude signed
  rw [hfr,hexp]
  cases n.negative <;> simp

theorem abs_toInt_le (k : Int64) : |(k.toInt : ℚ)| ≤ 2 ^ 63 := by
  have h1 : ((-2 ^ 63 : ℤ) : ℚ) ≤ k.toInt := Int.cast_le.mpr k.le_toInt
  have h2 : (k.toInt : ℚ) < (2 ^ 63 : ℤ) := Int.cast_lt.mpr k.toInt_lt
  exact abs_le.mpr ⟨h1,h2.le⟩

section

variable (hpl : (longestNumeral text).IsPlain)
include hpl

theorem strToI64_plain : strToI64 text = saturate (longestNumeral text).integer := by
  rcases hsi : takeSign (trimMatches text) with ⟨negative,input⟩
  have hdi : input.takeWhile isDigit ≠ [] :=
    fun h => hpl.1 (longestNumeral_whole hsi h)
  have hempty : (input.takeWhile isDigit).isEmpty = false := by simpa using hdi
  unfold strToI64
  rw [longestNumeral_eq hsi hdi]
  simp only [hsi,hempty]
  rfl

/-- A plain number that fits a `u64` is an integer where the two readings agree. -/
theorem ofText_plain (hfits : (longestNumeral text).magnitude < 2 ^ 64) : ∃ real, ofText text = .ok
      (if nearest (longestNumeral text).integer = nearest (saturate (longestNumeral text).integer).toInt
        then .integer (saturate (longestNumeral text).integer) else .float real) := by
  rcases hsi : takeSign (trimMatches text) with ⟨negative,input⟩
  obtain ⟨hneg,hre⟩ := strToF64_of_plain hsi hpl hfits
  refine ⟨assemble negative (longestNumeral text).magnitude 0,?_⟩
  unfold ofText
  rw [hre]
  show Except.ok (if Double.eq _ _ then _ else _) = _
  have hsm : |((saturate (longestNumeral text).integer).toInt : ℚ)| ≤ 2 ^ 100 :=
    (abs_toInt_le _).trans (by norm_num)
  rw [strToI64_plain hpl,assemble_zero hfits,Double.ofRat_of_abs_le hsm,← hneg]
  simp only [Double.eq,decide_eq_true_eq]
  rfl

omit hpl in
theorem longestNumeral_of_mark {negative : Bool} {input : List Char}
    (hsi : takeSign (trimMatches text) = (negative,input))
    (hmark : input.head?.any isExponentMark = true) : longestNumeral text = ⟨false,[],none,none⟩ := by
  cases input with
  | nil => cases hmark
  | cons ch rest =>
    have hdi : ch.isDigit = false := by
      cases hd : ch.isDigit with
      | false => rfl
      | true =>
        have := head_no_mark (show startsWithDigit (ch :: rest) = true from hd)
        rw [hmark] at this
        cases this
    have hpo : ch ≠ '.' := by
      rintro rfl
      cases hmark
    unfold longestNumeral
    simp only [hsi,takeWhile_cons,dropWhile_cons,hdi,false_eq_true,if_false,takeFraction_of_ne hpo]
    rfl

omit hpl in
theorem ofText_integer {n : Int64} (h : ofText text = .ok (.integer n)) :
    (longestNumeral text).IsPlain ∧ (longestNumeral text).magnitude < 2 ^ 64 ∨
      longestNumeral text = ⟨false,[],none,none⟩ ∧ n = 0 := by
  rcases hsi : takeSign (trimMatches text) with ⟨negative,input⟩
  obtain ⟨r,hr,h⟩ := bind_ok h
  match r, hr, h with
  | none, hr, h =>
    cases h
    refine .inr ⟨longestNumeral_of_mark hsi ?_,rfl⟩
    unfold strToF64 at hr
    simp only [hsi] at hr
    split at hr
    case isTrue hmark => exact hmark
    case isFalse =>
      obtain ⟨_,-,hr⟩ := bind_ok hr
      obtain ⟨_,-,hr⟩ := bind_ok hr
      obtain ⟨_,-,hr⟩ := bind_ok hr
      cases hr
  | some (.fractional x), hr, h => cases h
  | some (.decimal real), hr, h =>
    obtain ⟨scan,rest,hsc,rfl,hpl,hnone⟩ := strToF64_decimal hsi hr
    replace h : (if Double.eq _ (.ofRat (strToI64 text).toInt) then integer (strToI64 text)
      else .float _) = .integer n := Except.ok.inj h
    split at h
    case isFalse => cases h
    case isTrue heq =>
      by_cases hdi : input.takeWhile isDigit = []
      · refine .inr ⟨hnone hdi,?_⟩
        cases h
        unfold strToI64
        simp only [hsi,hdi]
        rfl
      · refine .inl ⟨hpl hdi,?_⟩
        obtain ⟨-,-,hlt,⟨hze,hsig⟩ | ⟨hpos,hla,-⟩⟩ := scanWhole_spec hsc
        · rw [longestNumeral_eq hsi hdi]
          show Nat.ofDigitChars 10 (input.takeWhile isDigit) 0 < 2 ^ 64
          rwa [← hsig]
        · -- the double is above the limits, and no `i64` is
          have hint := abs_toInt_le (strToI64 text)
          rw [Double.ofRat_of_abs_le (hint.trans (by norm_num))] at heq
          have hsk := assemble_skipped hlt hla hpos (Double.eq_finite heq)
          have hro := abs_le.mp (abs_nearest_sub_le (strToI64 text).toInt)
          rw [abs_le] at hint
          have habs := abs_le.mpr hint
          have : |nearest (strToI64 text).toInt| ≤ 2 ^ 63 + 2 ^ 62 := by
            rw [abs_le]
            constructor <;> linarith
          linarith

theorem ofText_of_nearLimit (hne : NearLimit (longestNumeral text).negative (longestNumeral text).magnitude) :
    ofText text = .ok (.integer (saturate (longestNumeral text).integer)) := by
  have hfits : (longestNumeral text).magnitude < 2 ^ 64 := lt_of_le_of_lt hne.2 (by norm_num)
  have hag : nearest (longestNumeral text).integer = nearest (saturate (longestNumeral text).integer).toInt :=
    (nearest_saturate_iff hfits).mpr (.inr hne)
  obtain ⟨real,hre⟩ := ofText_plain hpl hfits
  rwa [if_pos hag] at hre

end

theorem textExact_iff : TextExact text ↔ ¬((longestNumeral text).IsPlain ∧
    NearLimit (longestNumeral text).negative (longestNumeral text).magnitude) := by
  constructor
  · rintro ⟨hex,-⟩ ⟨hpl,hne⟩
    have hva := hex _ (ofText_of_nearLimit hpl hne)
    rw [hpl.value_eq] at hva
    exact hne.saturate_ne (Int.cast_inj.mp hva)
  · intro hne
    refine ⟨fun n hn => ?_,fun hpl n hn => ?_⟩
    · rcases ofText_integer hn with ⟨hpl,hfits⟩ | ⟨hempty,rfl⟩
      · obtain ⟨real,hre⟩ := ofText_plain hpl hfits
        rw [hn] at hre
        split at hre
        case isFalse => cases hre
        case isTrue hag =>
          cases hre
          rw [hpl.value_eq]
          rcases (nearest_saturate_iff hfits).mp hag with heq | hli
          · exact Int.cast_inj.mpr heq
          · exact absurd ⟨hpl,hli⟩ hne
      · rw [hempty]
        simp [Numeral.value]
    · rw [hpl.value_eq] at hn
      have hn : n.toInt = (longestNumeral text).integer := Int.cast_inj.mp hn
      have hge := n.le_toInt
      have hlt := n.toInt_lt
      rw [hn] at hge hlt
      have hsat := saturate_of_range hge hlt
      have hfits : (longestNumeral text).magnitude < 2 ^ 64 := by
        unfold Numeral.integer signed at hge hlt
        split_ifs at hge hlt <;> omega
      obtain ⟨real,hre⟩ := ofText_plain hpl hfits
      rw [if_pos (by rw [hsat])] at hre
      rw [hre,Int64.toInt_inj.mp (hsat.trans hn.symm)]

/-- An integer read from a text is the one it says, unless that is just beyond the limits; and
arithmetic is exact. -/
theorem integers_exact_iff (text : String) (a b : Int64) : TextExact text ∧ ArithmeticExact a b ↔
      ¬((longestNumeral text).IsPlain ∧
        NearLimit (longestNumeral text).negative (longestNumeral text).magnitude) := by
  rw [← textExact_iff]
  exact and_iff_left (arithmetic_exact)

/-- `2 ^ 63` is read as the number before it. -/
theorem two_pow_not_exact : ofText "9223372036854775808" = .ok (.integer Int64.maxValue) ∧
      (longestNumeral "9223372036854775808").IsPlain ∧
      (longestNumeral "9223372036854775808").value = 9223372036854775808 ∧
      ¬TextExact "9223372036854775808" := by
  have hpl : (longestNumeral "9223372036854775808").IsPlain := by
    exact ⟨by decide,rfl,rfl⟩
  have hin : (longestNumeral "9223372036854775808").integer = 2 ^ 63 := by
    rfl
  have hne : NearLimit (longestNumeral "9223372036854775808").negative
      (longestNumeral "9223372036854775808").magnitude := by
    exact ⟨le_rfl,by decide⟩
  refine ⟨?_,hpl,?_,fun h => textExact_iff.mp h ⟨hpl,hne⟩⟩
  · rw [ofText_of_nearLimit hpl hne]
    rfl
  · rw [hpl.value_eq,hin]
    norm_num

end OxiSql.Types
