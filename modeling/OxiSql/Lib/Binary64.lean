import Mathlib

namespace OxiSql.Lib

/-- The nearest integer, the even one in the middle. -/
def roundEven (q : ℚ) : ℤ :=
  if q - ⌊q⌋ < 1 / 2 then ⌊q⌋
  else if 1 / 2 < q - ⌊q⌋ then ⌊q⌋ + 1
  else if ⌊q⌋ % 2 = 0 then ⌊q⌋ else ⌊q⌋ + 1

theorem abs_roundEven_sub_le (q : ℚ) : |(roundEven q : ℚ) - q| ≤ 1 / 2 := by
  have hle := Int.floor_le q
  have hlt := Int.lt_floor_add_one q
  unfold roundEven
  split_ifs <;> rw [abs_le] <;> push_cast <;> constructor <;> linarith

theorem roundEven_of_lt {n : ℤ} (h : |(n : ℚ) - q| < 1 / 2) : roundEven q = n := by
  have hle := abs_le.mp (abs_roundEven_sub_le q)
  have hlt := abs_lt.mp h
  have h1 : (roundEven q : ℚ) < (n + 1 : ℤ) := by push_cast; linarith
  have h2 : ((n - 1 : ℤ) : ℚ) < roundEven q := by push_cast; linarith
  have h1 := Int.cast_lt.mp h1
  have h2 := Int.cast_lt.mp h2
  omega

theorem roundEven_of_even {n : ℤ} (hev : n % 2 = 0) (h : |(n : ℚ) - q| = 1 / 2) : roundEven q = n := by
  have hfl : ⌊q⌋ = n ∧ q - ⌊q⌋ = 1 / 2 ∨ ⌊q⌋ = n - 1 ∧ q - ⌊q⌋ = 1 / 2 := by
    rcases abs_eq (by norm_num : (0 : ℚ) ≤ 1 / 2) |>.mp h with h | h
    · have hf : ⌊q⌋ = n - 1 := by
        rw [Int.floor_eq_iff]
        push_cast
        constructor <;> linarith
      refine .inr ⟨hf,?_⟩
      rw [hf]
      push_cast
      linarith
    · have hf : ⌊q⌋ = n := by
        rw [Int.floor_eq_iff]
        constructor <;> linarith
      refine .inl ⟨hf,?_⟩
      rw [hf]
      linarith
  unfold roundEven
  rcases hfl with ⟨hf,hha⟩ | ⟨hf,hha⟩
  · rw [hha,if_neg (lt_irrefl _),if_neg (lt_irrefl _),hf,if_pos hev]
  · rw [hha,if_neg (lt_irrefl _)]
    omega

theorem roundEven_intCast (n : ℤ) : roundEven n = n :=
  roundEven_of_lt (by simp)

section

variable (q : ℚ)

theorem roundEven_neg : roundEven (-q) = -roundEven q := by
  have hle := abs_roundEven_sub_le q
  have hneg : |((-roundEven q : ℤ) : ℚ) - -q| = |(roundEven q : ℚ) - q| := by
    rw [← abs_neg]
    push_cast
    ring_nf
  rcases lt_or_eq_of_le hle with hlt | heq
  · exact roundEven_of_lt (by rw [hneg]; exact hlt)
  · refine roundEven_of_even ?_ (by rw [hneg]; exact heq)
    -- the value in the middle is even
    have hev : roundEven q % 2 = 0 := by
      have hfl := Int.floor_le q
      have hfu := Int.lt_floor_add_one q
      unfold roundEven at heq ⊢
      split_ifs at heq ⊢ with h1 h2 h3
      · rcases abs_eq (by norm_num : (0 : ℚ) ≤ 1 / 2) |>.mp heq with h | h <;> linarith
      · rcases abs_eq (by norm_num : (0 : ℚ) ≤ 1 / 2) |>.mp heq with h | h <;>
          push_cast at h <;> linarith
      · exact h3
      · omega
    omega

/-- The distance of two doubles next to each other, about a number. -/
def ulp (q : ℚ) : ℚ :=
  2 ^ max (Int.log 2 |q| - 52) (-1074)

/-- The nearest number with the precision of a double. -/
def nearest (q : ℚ) : ℚ :=
  roundEven (q / ulp q) * ulp q

theorem ulp_pos : 0 < ulp q := by
  unfold ulp
  positivity

theorem ulp_neg : ulp (-q) = ulp q := by
  unfold ulp
  rw [abs_neg]

theorem nearest_neg : nearest (-q) = -nearest q := by
  unfold nearest
  rw [ulp_neg,neg_div,roundEven_neg]
  push_cast
  ring

theorem abs_nearest_sub_le_ulp : |nearest q - q| ≤ ulp q / 2 := by
  have hpos := ulp_pos q
  have h := abs_roundEven_sub_le (q / ulp q)
  have heq : nearest q - q = (roundEven (q / ulp q) - q / ulp q) * ulp q := by
    unfold nearest
    field_simp
  rw [heq,abs_mul,abs_of_pos hpos]
  calc _ ≤ 1 / 2 * ulp q := mul_le_mul_of_nonneg_right h hpos.le
    _ = ulp q / 2 := by ring

theorem ulp_le : ulp q ≤ (|q| + 1) / 2 ^ 52 := by
  have hsp : (|q| + 1) / 2 ^ 52 = |q| / 2 ^ (52 : ℤ) + 2 ^ (-52 : ℤ) := by
    rw [add_div,one_div]
    rfl
  have hq : (0 : ℚ) ≤ |q| / 2 ^ (52 : ℤ) := by positivity
  rw [hsp]
  unfold ulp
  rcases le_total (Int.log 2 |q| - 52) (-1074) with hle | hle
  · rw [max_eq_right hle]
    have hsm : (2 : ℚ) ^ (-1074 : ℤ) ≤ 2 ^ (-52 : ℤ) :=
      zpow_le_zpow_right₀ one_le_two (by decide)
    exact hsm.trans (le_add_of_nonneg_left hq)
  · rw [max_eq_left hle]
    rcases eq_or_ne q 0 with rfl | hne
    · simp
    · have hlog : (2 : ℚ) ^ Int.log 2 |q| ≤ |q| :=
        Int.zpow_log_le_self one_lt_two (abs_pos.mpr hne)
      rw [zpow_sub₀ two_ne_zero]
      linarith

theorem abs_nearest_sub_le : |nearest q - q| ≤ (|q| + 1) / 2 ^ 52 := by
  have h1 := abs_nearest_sub_le_ulp q
  have h2 := ulp_le q
  have h3 := ulp_pos q
  linarith

end

theorem nearest_of_places {n k : ℤ} (hk : max (Int.log 2 |(n * 2 ^ k : ℚ)| - 52) (-1074) ≤ k) :
    nearest (n * 2 ^ k) = n * 2 ^ k := by
  unfold nearest ulp
  set e := max (Int.log 2 |(n * 2 ^ k : ℚ)| - 52) (-1074)
  have hpl : (n * 2 ^ k : ℚ) / 2 ^ e = (n * 2 ^ (k - e).toNat : ℤ) := by
    rw [mul_div_assoc,← zpow_sub₀ two_ne_zero]
    push_cast
    rw [← zpow_natCast,Int.toNat_of_nonneg (by omega)]
  rw [hpl,roundEven_intCast,← hpl]
  exact div_mul_cancel₀ _ (by positivity)

theorem nearest_of_bits {n k : ℤ} (hn : |n| ≤ 2 ^ 53) (hk : -1074 ≤ k) : nearest (n * 2 ^ k) = n * 2 ^ k := by
  rcases eq_or_ne n 0 with rfl | hne
  · simp [nearest,roundEven]
  have habs : |(n : ℚ) * 2 ^ k| = |n| * 2 ^ k := by
    rw [abs_mul,abs_of_pos (by positivity : (0 : ℚ) < 2 ^ k),Int.cast_abs]
  have hpos : 0 < |(n : ℚ) * 2 ^ k| := by
    positivity
  rcases lt_or_eq_of_le hn with hlt | heq
  · refine nearest_of_places (max_le ?_ hk)
    have hbo : |(n : ℚ) * 2 ^ k| < ((2 : ℕ) : ℚ) ^ (53 + k) := by
      rw [habs,Nat.cast_ofNat,zpow_add₀ two_ne_zero]
      exact mul_lt_mul_of_pos_right (by exact_mod_cast hlt) (by positivity)
    have := (Int.lt_zpow_iff_log_lt one_lt_two hpos).mp hbo
    omega
  · -- a power of two, which has a place more
    obtain ⟨m,hm⟩ : ∃ m, n = 2 * m := by
      rcases abs_choice n with h | h
      · exact ⟨2 ^ 52,by omega⟩
      · exact ⟨-2 ^ 52,by omega⟩
    have hsh : (n * 2 ^ k : ℚ) = m * 2 ^ (k + 1) := by
      rw [hm,zpow_add_one₀ two_ne_zero]
      push_cast
      ring
    have hlog : Int.log 2 |(m * 2 ^ (k + 1) : ℚ)| = 53 + k := by
      have hpow : |(m * 2 ^ (k + 1) : ℚ)| = ((2 : ℕ) : ℚ) ^ (53 + k) := by
        rw [← hsh,habs,heq,Nat.cast_ofNat,zpow_add₀ two_ne_zero]
        norm_num
      rw [hpow,Int.log_zpow one_lt_two]
    rw [hsh]
    exact nearest_of_places (by rw [hlog]; omega)

theorem nearest_intCast {n : ℤ} (hn : |n| ≤ 2 ^ 53) : nearest n = n := by
  simpa using nearest_of_bits (k := 0) hn (by decide)

theorem nearest_nearest : nearest (nearest q) = nearest q := by
  refine nearest_of_bits ?_ (le_max_right _ _)
  have hle := abs_le.mp (abs_roundEven_sub_le (q / ulp q))
  have hlt : |q / ulp q| < 2 ^ 53 := by
    rw [abs_div,abs_of_pos (ulp_pos q),div_lt_iff₀ (ulp_pos q)]
    have hlog : |q| < ((2 : ℕ) : ℚ) ^ (Int.log 2 |q| + 1) := Int.lt_zpow_succ_log_self one_lt_two _
    have hmo : (2 : ℚ) ^ (Int.log 2 |q| - 52) ≤ ulp q :=
      zpow_le_zpow_right₀ one_le_two (le_max_left _ _)
    calc |q| < (2 : ℚ) ^ (Int.log 2 |q| + 1) := hlog
      _ = 2 ^ 53 * 2 ^ (Int.log 2 |q| - 52) := by
        rw [← zpow_natCast,← zpow_add₀ two_ne_zero]
        ring_nf
      _ ≤ 2 ^ 53 * ulp q := mul_le_mul_of_nonneg_left hmo (by positivity)
  have hlt := abs_lt.mp hlt
  rw [abs_le]
  have h1 : ((-2 ^ 53 - 1 : ℤ) : ℚ) < roundEven (q / ulp q) := by
    linarith
  have h2 : (roundEven (q / ulp q) : ℚ) < (2 ^ 53 + 1 : ℤ) := by
    linarith
  have h1 := Int.cast_lt.mp h1
  have h2 := Int.cast_lt.mp h2
  omega

theorem nearest_of_binade {e : ℤ} (he : -1022 ≤ e) (hle : (2 : ℚ) ^ e ≤ |q|)
    (hlt : |q| < 2 ^ (e + 1)) : nearest q = roundEven (q / 2 ^ (e - 52)) * 2 ^ (e - 52) := by
  have hpos : 0 < |q| := lt_of_lt_of_le (by positivity) hle
  have hlog : Int.log 2 |q| = e := by
    have h1 := (Int.zpow_le_iff_le_log one_lt_two hpos).mp (by exact_mod_cast hle)
    have h2 := (Int.lt_zpow_iff_log_lt one_lt_two hpos).mp (by exact_mod_cast hlt)
    omega
  unfold nearest ulp
  rw [hlog,max_eq_left (by omega)]

theorem nearest_intCast_eq (n : ℤ) : ∃ m : ℤ, nearest n = m := by
  rcases le_total |n| (2 ^ 53) with hle | hle
  · exact ⟨n,nearest_intCast hle⟩
  · have hpos : (0 : ℚ) < |(n : ℚ)| := by
      exact_mod_cast lt_of_lt_of_le (by norm_num) hle
    have hlog : 53 ≤ Int.log 2 |(n : ℚ)| := by
      refine (Int.zpow_le_iff_le_log one_lt_two hpos).mp ?_
      exact_mod_cast hle
    refine ⟨roundEven (n / ulp n) * 2 ^ (Int.log 2 |(n : ℚ)| - 52).toNat,?_⟩
    unfold nearest
    push_cast
    unfold ulp
    rw [max_eq_left (by omega),← zpow_natCast,Int.toNat_of_nonneg (by omega)]

/-- A double; zero has no sign here. -/
inductive Double where
  | nan
  | infinite (negative : Bool)
  | finite (q : ℚ)
deriving DecidableEq

namespace Double

def ofRat (q : ℚ) : Double :=
  if |nearest q| < 2 ^ 1024 then .finite (nearest q) else .infinite (q < 0)

def neg : Double → Double
  | .nan => .nan
  | .infinite negative => .infinite !negative
  | .finite q => .finite (-q)

def add : Double → Double → Double
  | .finite a, .finite b => ofRat (a + b)
  | .infinite n, .infinite m => if n = m then .infinite n else .nan
  | .infinite n, .finite _ | .finite _, .infinite n => .infinite n
  | _, _ => .nan

def sub (x y : Double) : Double :=
  add x (neg y)

def mul : Double → Double → Double
  | .finite a, .finite b => ofRat (a * b)
  | .infinite n, .infinite m => .infinite (n != m)
  | .infinite n, .finite a | .finite a, .infinite n =>
    if a = 0 then .nan else .infinite (n != decide (a < 0))
  | _, _ => .nan

/-- The sign of what a division by zero gives is left open. -/
def div : Double → Double → Double
  | .finite a, .finite b =>
    if b = 0 then if a = 0 then .nan else .infinite (a < 0) else ofRat (a / b)
  | .infinite n, .finite b => .infinite (n != decide (b < 0))
  | .finite _, .infinite _ => .finite 0
  | _, _ => .nan

def eq : Double → Double → Bool
  | .finite a, .finite b => a = b
  | .infinite n, .infinite m => n == m
  | _, _ => false

def le : Double → Double → Bool
  | .finite a, .finite b => a ≤ b
  | .infinite n, .infinite m => n || !m
  | .infinite n, .finite _ => n
  | .finite _, .infinite n => !n
  | _, _ => false

def high : Double → Double
  | .finite q => .finite (if 0 ≤ q then ⌊q / (2 ^ 26 * ulp q)⌋ * (2 ^ 26 * ulp q)
      else -(⌊-q / (2 ^ 26 * ulp q)⌋ * (2 ^ 26 * ulp q)))
  | x => x

theorem ofRat_finite (h : ofRat q = .finite r) : r = nearest q := by
  unfold ofRat at h
  split at h
  · exact (Double.finite.inj h).symm
  · cases h

theorem ofRat_of_lt (h : |nearest q| < 2 ^ 1024) : ofRat q = .finite (nearest q) :=
  if_pos h

theorem ofRat_of_abs_le (h : |q| ≤ 2 ^ 100) : ofRat q = .finite (nearest q) := by
  have hro := abs_le.mp (abs_nearest_sub_le q)
  refine ofRat_of_lt (lt_of_lt_of_le (b := 2 ^ 101) ?_ (pow_le_pow_right₀ one_le_two (by norm_num)))
  rw [abs_le] at h
  have habs : |q| ≤ 2 ^ 100 := abs_le.mpr h
  rw [abs_lt]
  constructor <;> linarith

theorem ofRat_ne_nan : ofRat q ≠ .nan := by
  unfold ofRat
  split <;> nofun

theorem eq_finite (h : eq x (.finite q)) : x = .finite q := by
  cases x with
  | nan | infinite n => cases h
  | finite a => rw [of_decide_eq_true h]

theorem neg_eq_nan : neg x = .nan ↔ x = .nan := by
  cases x <;> simp [neg]

/-- A number comes of numbers only. -/
theorem add_finite (h : add x y = .finite q) : ∃ a b, x = .finite a ∧ y = .finite b ∧ q = nearest (a + b) := by
  cases x with
  | nan => cases h
  | infinite n =>
    cases y with
    | nan | finite b => cases h
    | infinite m =>
      simp only [add] at h
      split at h <;> cases h
  | finite a =>
    cases y with
    | nan | infinite m => cases h
    | finite b => exact ⟨a,b,rfl,rfl,ofRat_finite h⟩

theorem sub_finite (h : sub x y = .finite q) : ∃ a b, x = .finite a ∧ y = .finite b ∧ q = nearest (a - b) := by
  obtain ⟨a,b,hx,hy,hq⟩ := add_finite h
  cases y with
  | nan | infinite m => cases hy
  | finite c =>
    cases hy
    exact ⟨a,c,hx,rfl,by rw [hq,sub_eq_add_neg]⟩

theorem mul_finite (h : mul x y = .finite q) : ∃ a b, x = .finite a ∧ y = .finite b ∧ q = nearest (a * b) := by
  cases x with
  | nan => cases h
  | infinite n =>
    cases y with
    | nan | infinite m => cases h
    | finite b =>
      simp only [mul] at h
      split at h <;> cases h
  | finite a =>
    cases y with
    | nan => cases h
    | infinite m =>
      simp only [mul] at h
      split at h <;> cases h
    | finite b => exact ⟨a,b,rfl,rfl,ofRat_finite h⟩

theorem high_finite (h : high x = .finite q) :
    ∃ a, x = .finite a ∧ |a - q| ≤ (|a| + 1) / 2 ^ 26 ∧ (0 ≤ a → 0 ≤ q ∧ q ≤ a) := by
  cases x with
  | nan | infinite n => cases h
  | finite a =>
    have hpos : 0 < 2 ^ 26 * ulp a := mul_pos (by positivity) (ulp_pos a)
    have hulp : 2 ^ 26 * ulp a ≤ (|a| + 1) / 2 ^ 26 := by
      have := ulp_le a
      calc 2 ^ 26 * ulp a ≤ 2 ^ 26 * ((|a| + 1) / 2 ^ 52) := by gcongr
        _ = (|a| + 1) / 2 ^ 26 := by ring
    have hfl : ∀ b : ℚ, 0 ≤ b - ⌊b / (2 ^ 26 * ulp a)⌋ * (2 ^ 26 * ulp a) ∧
        b - ⌊b / (2 ^ 26 * ulp a)⌋ * (2 ^ 26 * ulp a) ≤ 2 ^ 26 * ulp a := by
      intro b
      have h1 := Int.floor_le (b / (2 ^ 26 * ulp a))
      have h2 := Int.lt_floor_add_one (b / (2 ^ 26 * ulp a))
      rw [le_div_iff₀ hpos] at h1
      rw [div_lt_iff₀ hpos] at h2
      constructor <;> linarith
    cases h
    refine ⟨a,rfl,?_,fun ha => ?_⟩
    · split
      · obtain ⟨h1,h2⟩ := hfl a
        rw [abs_le]
        constructor <;> linarith
      · obtain ⟨h1,h2⟩ := hfl (-a)
        rw [abs_le]
        constructor <;> linarith
    · rw [if_pos ha]
      obtain ⟨h1,-⟩ := hfl a
      refine ⟨mul_nonneg ?_ hpos.le,by linarith⟩
      exact_mod_cast Int.floor_nonneg.mpr (div_nonneg ha hpos.le)

end Double

end OxiSql.Lib
