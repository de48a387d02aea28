import OxiSql.Types.Numeric

namespace OxiSql.Types

open OxiSql.Lib Double

theorem abs_nearest_sub_le_mul (hm : 1 ≤ m) (h : |q| ≤ k * m) : |nearest q - q| ≤ (k + 1) * m / 2 ^ 52 := by
  refine (abs_nearest_sub_le q).trans ?_
  linarith

theorem abs_mul_le_mul {x y a b k l : ℚ} (ha : 0 ≤ a) (hk : 0 ≤ k) (hx : |x| ≤ k * a)
    (hy : |y| ≤ l * b) : |x * y| ≤ k * l * (a * b) := by
  rw [abs_mul]
  calc |x| * |y| ≤ k * a * (l * b) := mul_le_mul hx hy (abs_nonneg y) (mul_nonneg hk ha)
    _ = k * l * (a * b) := by ring

namespace DoubleDouble

/-- As far as it is finite, the number is at least the bound and the tail far below the head. -/
def Above (bound small : ℚ) (x : DoubleDouble) : Prop :=
  ∀ a b, x.head = .finite a → x.tail = .finite b → bound ≤ a ∧ |b| ≤ small * a

theorem low_le {x : Double} (ha : 10 ≤ a) (hx : x = .finite a) (hhi : x.high = .finite hi)
    (hlo : lo = nearest (a - hi)) :
    0 ≤ hi ∧ hi ≤ a ∧ a - hi ≤ 1 / 2 ^ 25 * a ∧ |lo| ≤ 1 / 2 ^ 24 * a := by
  obtain ⟨a',ha',hcl,hle⟩ := high_finite hhi
  cases hx.symm.trans ha'
  obtain ⟨h1,h2⟩ := hle (by linarith)
  rw [abs_of_nonneg (by linarith : (0 : ℚ) ≤ a),abs_of_nonneg (by linarith)] at hcl
  have hsm : a - hi ≤ 1 / 2 ^ 25 * a := by linarith
  have hro := abs_nearest_sub_le_mul (q := a - hi) (k := 1 / 2 ^ 25) (m := a) (by linarith)
    (by rw [abs_of_nonneg (by linarith)]; exact hsm)
  refine ⟨h1,h2,hsm,?_⟩
  rw [abs_le] at hro ⊢
  constructor <;> linarith

theorem product_close (ha : 10 ≤ a) (hb : 10 ≤ b)
    (hah : 0 ≤ ah ∧ ah ≤ a ∧ a - ah ≤ 1 / 2 ^ 25 * a ∧ |al| ≤ 1 / 2 ^ 24 * a)
    (hbh : 0 ≤ bh ∧ bh ≤ b ∧ b - bh ≤ 1 / 2 ^ 25 * b ∧ |bl| ≤ 1 / 2 ^ 24 * b)
    (hp : p = nearest (ah * bh)) (hc : c = nearest (nearest (ah * bl) + nearest (al * bh))) :
    |p - a * b| ≤ 1 / 2 ^ 20 * (a * b) ∧ |c| ≤ 1 / 2 ^ 20 * (a * b) := by
  obtain ⟨hah0,hah1,hah2,hal⟩ := hah
  obtain ⟨hbh0,hbh1,hbh2,hbl⟩ := hbh
  have hm : 1 ≤ a * b := one_le_mul_of_one_le_of_one_le (by linarith only [ha]) (by linarith only [hb])
  have hah' : |ah| ≤ 1 * a := by rw [abs_of_nonneg hah0]; linarith
  have hbh' : |bh| ≤ 1 * b := by rw [abs_of_nonneg hbh0]; linarith
  have hap : 0 ≤ a := by linarith
  have h1 := abs_mul_le_mul hap zero_le_one hah' hbh'
  have h2 := abs_mul_le_mul hap zero_le_one hah' hbl
  have h3 := abs_mul_le_mul hap (by norm_num) hal hbh'
  have e1 := abs_nearest_sub_le_mul hm h1
  have e2 := abs_nearest_sub_le_mul hm h2
  have e3 := abs_nearest_sub_le_mul hm h3
  rw [abs_le] at e1 e2 e3 h2 h3
  have hsum : |nearest (ah * bl) + nearest (al * bh)| ≤ 1 / 2 ^ 22 * (a * b) := by
    rw [abs_le]
    constructor <;> linarith
  have e4 := abs_nearest_sub_le_mul hm hsum
  rw [abs_le] at e4 hsum
  have hbp : 0 ≤ b := by linarith
  have hcr : a * b - ah * bh ≤ 2 * (1 / 2 ^ 25) * (a * b) := by
    have i₁ : (a - ah) * b ≤ 1 / 2 ^ 25 * a * b := mul_le_mul_of_nonneg_right hah2 hbp
    have i₂ : ah * (b - bh) ≤ a * (1 / 2 ^ 25 * b) :=
      mul_le_mul hah1 hbh2 (by linarith) hap
    linarith
  have hcr0 : ah * bh ≤ a * b := mul_le_mul hah1 hbh1 hbh0 hap
  constructor <;> rw [abs_le] <;> constructor <;> linarith

/-- The whole product is off by little, and its tail is the error of one rounding. -/
theorem result_close (hm : 1 ≤ m) (hp : |p - m| ≤ 1 / 2 ^ 20 * m) (hc : |c| ≤ 1 / 2 ^ 20 * m)
    (hq : |q| ≤ 1 / 2 ^ 20 * m) (hu : |u| ≤ 1 / 2 ^ 9 * m) (hv : |v| ≤ 1 / 2 ^ 9 * m)
    (hh : h = nearest (p + c)) (ht : t = nearest (nearest (nearest (p - h) + c) + q))
    (ht' : t' = nearest (nearest (u + v) + t)) (hhi : hi = nearest (h + t'))
    (hlo : lo = nearest (nearest (h - hi) + t')) : 9 / 10 * m ≤ hi ∧ |lo| ≤ 1 / 2 ^ 10 * hi := by
  have near : ∀ {r s k : ℚ}, s = nearest r → |r| ≤ k * m → |s - r| ≤ (k + 1) * m / 2 ^ 52 := by
    intro r s k hs hr
    rw [hs]
    exact abs_nearest_sub_le_mul hm hr
  rw [abs_le] at hp hc hq hu hv
  have e1 := near hh (k := 2) (abs_le.mpr ⟨by linarith,by linarith⟩)
  rw [abs_le] at e1
  have e2 := near rfl (r := p - h) (k := 1 / 2 ^ 18) (abs_le.mpr ⟨by linarith,by linarith⟩)
  rw [abs_le] at e2
  have e3 := near rfl (r := nearest (p - h) + c) (k := 1 / 2 ^ 17) (abs_le.mpr ⟨by linarith,by linarith⟩)
  rw [abs_le] at e3
  have e4 := near ht (k := 1 / 2 ^ 16) (abs_le.mpr ⟨by linarith,by linarith⟩)
  rw [abs_le] at e4
  have e5 := near rfl (r := u + v) (k := 1 / 2 ^ 8) (abs_le.mpr ⟨by linarith,by linarith⟩)
  rw [abs_le] at e5
  have e6 := near ht' (k := 1 / 2 ^ 7) (abs_le.mpr ⟨by linarith,by linarith⟩)
  rw [abs_le] at e6
  have e7 := near hhi (k := 2) (abs_le.mpr ⟨by linarith,by linarith⟩)
  rw [abs_le] at e7
  have e8 := near rfl (r := h - hi) (k := 1 / 2 ^ 5) (abs_le.mpr ⟨by linarith,by linarith⟩)
  rw [abs_le] at e8
  have e9 := near hlo (k := 1 / 2 ^ 49) (abs_le.mpr ⟨by linarith,by linarith⟩)
  rw [abs_le] at e9
  refine ⟨by linarith,?_⟩
  rw [abs_le]
  constructor <;> linarith

theorem mul_above {x y : DoubleDouble} (hbo : 10 ≤ bound) (hx : x.Above bound (1 / 2 ^ 10))
    (hy : y.Above 10 (1 / 2 ^ 20)) : (x.mul y).Above (9 * bound) (1 / 2 ^ 10) := by
  intro hi lo hhi hlo
  obtain ⟨h,t',hh,ht',ehi⟩ := add_finite hhi
  obtain ⟨d,t'',hd,ht'',elo⟩ := add_finite hlo
  obtain ⟨h',hi',hh',hhi',ed⟩ := sub_finite hd
  cases ht'.symm.trans ht''
  cases hh.symm.trans hh'
  cases hhi.symm.trans hhi'
  obtain ⟨p,c,hp,hc,eh⟩ := add_finite hh
  obtain ⟨w,t,hw,ht,et'⟩ := add_finite ht'
  obtain ⟨u,v,hu,hv,ew⟩ := add_finite hw
  obtain ⟨s,q,hs,hq,et⟩ := add_finite ht
  obtain ⟨r,c',hr,hc',es⟩ := add_finite hs
  obtain ⟨p',h',hp',hh',er⟩ := sub_finite hr
  cases hc.symm.trans hc'
  cases hp.symm.trans hp'
  cases hh.symm.trans hh'
  obtain ⟨ah,bh,hah,hbh,ep⟩ := mul_finite hp
  obtain ⟨f,g,hf,hg,ec⟩ := add_finite hc
  obtain ⟨ah',bl,hah',hbl,ef⟩ := mul_finite hf
  obtain ⟨al,bh',hal,hbh',eg⟩ := mul_finite hg
  obtain ⟨al',bl',hal',hbl',eq⟩ := mul_finite hq
  cases hah.symm.trans hah'
  cases hbh.symm.trans hbh'
  cases hal.symm.trans hal'
  cases hbl.symm.trans hbl'
  obtain ⟨a,b',ha,hb',eu⟩ := mul_finite hu
  obtain ⟨a',b,ha',hb,ev⟩ := mul_finite hv
  obtain ⟨a₂,ah₂,ha2,hah2,eal⟩ := sub_finite hal
  obtain ⟨b2,bh₂,hb2,hbh2,ebl⟩ := sub_finite hbl
  cases ha.symm.trans ha2
  cases hb.symm.trans hb2
  cases hah.symm.trans hah2
  cases hbh.symm.trans hbh2
  obtain ⟨hxa,hxa'⟩ := hx a a' ha ha'
  obtain ⟨hyb,hyb'⟩ := hy b b' hb hb'
  have hxl := low_le (by linarith) ha hah eal
  have hyl := low_le hyb hb hbh ebl
  have hm : 1 ≤ a * b := one_le_mul_of_one_le_of_one_le (by linarith only [hxa,hbo]) (by linarith only [hyb])
  have hap : 0 ≤ a := by linarith
  have ha1 : |a| ≤ 1 * a := by rw [abs_of_nonneg hap,one_mul]
  have hb1 : |b| ≤ 1 * b := by rw [abs_of_nonneg (by linarith),one_mul]
  have round : ∀ {r s k l : ℚ}, s = nearest r → |r| ≤ k * (a * b) →
      (k + (k + 1) / 2 ^ 52) ≤ l → |s| ≤ l * (a * b) := by
    intro r s k l hs hr hl
    have hro := abs_nearest_sub_le_mul hm hr
    have hmul : (k + (k + 1) / 2 ^ 52) * (a * b) ≤ l * (a * b) :=
      mul_le_mul_of_nonneg_right hl (by linarith)
    rw [abs_le] at hr hro ⊢
    constructor <;> linarith
  obtain ⟨hcl,hcr⟩ := product_close (by linarith) hyb hxl hyl ep (ec.trans (by rw [ef,eg]))
  have hq := round (l := 1 / 2 ^ 20) eq (abs_mul_le_mul hap (by norm_num) hxl.2.2.2 hyl.2.2.2) (by norm_num)
  have hu := round (l := 1 / 2 ^ 9) eu (abs_mul_le_mul hap zero_le_one ha1 hyb') (by norm_num)
  have hv := round (l := 1 / 2 ^ 9) ev (abs_mul_le_mul hap (by norm_num) hxa' hb1) (by norm_num)
  obtain ⟨hge,hle⟩ := result_close hm hcl hcr hq hu hv eh (et.trans (by rw [es,er]))
    (et'.trans (by rw [ew])) ehi (elo.trans (by rw [ed]))
  refine ⟨?_,hle⟩
  have : bound * 10 ≤ a * b := mul_le_mul hxa hyb (by norm_num) hap
  linarith

theorem iterate_mul_above {x y : DoubleDouble} (hbo : 10 ≤ bound) (hx : x.Above bound (1 / 2 ^ 10))
    (hy : y.Above 10 (1 / 2 ^ 20)) (n : Nat) :
    ((·.mul y)^[n] x).Above (9 ^ n * bound) (1 / 2 ^ 10) := by
  induction n with
  | zero => simpa using hx
  | succ n ih =>
    rw [Function.iterate_succ_apply',pow_succ,mul_comm _ (9 : ℚ),mul_assoc]
    refine mul_above ?_ ih hy
    calc (10 : ℚ) ≤ 1 * bound := by rwa [one_mul]
      _ ≤ 9 ^ n * bound := by gcongr; exact one_le_pow₀ (by norm_num)

theorem literal_above {head tail : ℚ} (hhe : 10 ≤ nearest head)
    (hta : |nearest tail| ≤ 1 / 2 ^ 20 * nearest head) : (literal head tail).Above 10 (1 / 2 ^ 20) := by
  intro a b ha hb
  rw [ofRat_finite ha,ofRat_finite hb]
  exact ⟨hhe,hta⟩

theorem Above.toF64 {x : DoubleDouble} (hbo : 10 ≤ bound) (hx : x.Above bound (1 / 2 ^ 10))
    (hq : x.toF64 = .finite q) : 8 / 9 * bound < q := by
  obtain ⟨a,b,ha,hb,rfl⟩ := add_finite hq
  obtain ⟨hge,hle⟩ := hx a b ha hb
  have hro := abs_nearest_sub_le (a + b)
  have habs : |a + b| ≤ 2 * a := by
    rw [abs_le] at hle ⊢
    constructor <;> linarith
  rw [abs_le] at hro hle
  linarith

end DoubleDouble

end OxiSql.Types
