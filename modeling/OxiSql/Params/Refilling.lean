import OxiSql.Params.Parameterize

namespace OxiSql.Templates
open Lib Params List Piece

/-- The slots that are not in the text, replaced by the literals from left to right. -/
def refill : List (Option Char) → List (List Char) → List Char
  | [], _ => []
  | some c :: out, literals => c :: refill out literals
  | none :: out, literals => literals.headD [] ++ refill out literals.tail

def Reproduces (sql : String) : Prop :=
  refill (scan sql.toList).out (scan sql.toList).literals = sql.toList

section
variable {prev : Option Char}

theorem fraction_append : (fraction cs).1 ++ (fraction cs).2 = cs := by
  fun_cases fraction cs <;> simp

theorem sign_append : (sign cs).1 ++ (sign cs).2 = cs := by
  fun_cases sign cs <;> simp

theorem exponent_append : (exponent cs).1 ++ (exponent cs).2 = cs := by
  fun_cases exponent cs with
  | case1 => rfl
  | case2 c cs => simp [sign_append]
  | case3 => rfl

theorem consumeNumber_append : (consumeNumber cs).1 ++ (consumeNumber cs).2 = cs := by
  simp [consumeNumber,exponent_append,fraction_append]

theorem blockBody_append : (blockBody cs).1 ++ (blockBody cs).2 = cs := by
  fun_induction blockBody cs with
  | case1 | case2 => rfl
  | case3 c d cs h => simp [h.1,h.2]
  | case4 c d cs h ih => simpa using ih

theorem consumeNumber_ne_nil (h : c.isDigit) : (consumeNumber (c :: cs)).1 ≠ [] := by
  simp [consumeNumber,h]

theorem cut_append (prev : Option Char) (template : List Char) (c : Char) (cs : List Char) :
    (cut prev template c cs).1.text ++ (cut prev template c cs).2 = c :: cs := by
  fun_cases cut prev template c cs with
  | case1 => simp [passPiece]
  | case2 _ h =>
    obtain ⟨ds,rfl⟩ := next_iff.mp h.2
    simp [passPiece,blockBody_append,h.1]
  | case3 => simp [literalPiece,stringBody_append]
  | case4 => simp [passPiece,bodyUpTo_append]
  | case5 | case6 | case7 => simp [keywordPiece]
  | case8 | case9 => simp [literalPiece,consumeNumber_append]
  | case10 => simp [passPiece]

theorem keywordPiece_ne_nil (hk : keyword ≠ []) : (keywordPiece keyword (c :: cs)).1.text ≠ [] := by
  cases keyword with
  | nil => exact absurd rfl hk
  | cons k ks => simp [keywordPiece]

theorem cut_ne_nil (prev : Option Char) (template : List Char) (c : Char) (cs : List Char) :
    (cut prev template c cs).1.text ≠ [] := by
  fun_cases cut prev template c cs with
  | case1 h => simp [passPiece,h.1]
  | case2 => simp [passPiece]
  | case3 => simp [literalPiece]
  | case4 => simp [passPiece]
  | case5 | case6 | case7 => exact keywordPiece_ne_nil (by decide)
  | case8 _ _ _ _ _ _ _ h => exact consumeNumber_ne_nil h
  | case9 => simp [literalPiece]
  | case10 => simp [passPiece]

theorem cut_length (prev : Option Char) (template : List Char) (c : Char) (cs : List Char) :
    (cut prev template c cs).2.length ≤ cs.length := by
  have hap := congrArg List.length (cut_append prev template c cs)
  have hpos := length_pos_of_ne_nil (cut_ne_nil prev template c cs)
  rw [length_append,length_cons] at hap
  omega

end

/-- The pieces of a text, a minus always apart from the number after it. -/
def segments (prev : Option Char) : List Char → List Piece
  | [] => []
  | c :: cs =>
    (cut prev ['?'] c cs).1 ::
      segments (cut prev ['?'] c cs).1.text.getLast? (cut prev ['?'] c cs).2
termination_by cs => cs.length
decreasing_by
  have := cut_length prev ['?'] c cs
  simp
  omega

/-- What passes through is in ASCII, and what is recorded is what stands in the text. -/
def Piece.Exact (p : Piece) : Prop :=
  match p.literal with
  | none => ∀ c ∈ p.text, isAscii c
  | some literal => literal = p.text

/-- Outside its strings the text is in ASCII, and the keywords that are replaced are in upper case. -/
def Exact (sql : String) : Prop :=
  ∀ p ∈ segments none sql.toList, p.Exact

def Piece.restored (p : Piece) : List Char :=
  match p.literal with
  | none => latin p.text
  | some literal => literal

def restoredOf (ps : List Piece) : List Char :=
  ps.flatMap restored

theorem segments_text (prev : Option Char) : (segments prev cs).flatMap text = cs := by
  fun_induction segments prev cs with
  | case1 => rfl
  | case2 prev c cs ih => rw [flatMap_cons,ih,cut_append]

theorem inValueContext_mark : inValueContext ['?'] = false := by
  decide

variable {c : Char} {prev : Option Char}

theorem keywordAt_of_ne (h : c.toUpper ≠ k) : keywordAt prev (c :: cs) (k :: ks) = false := by
  simp [keywordAt,h]

theorem toUpper_of_digit (h : c.isDigit) : c.toUpper = c := by
  simp only [Char.isDigit,Bool.and_eq_true,decide_eq_true_eq] at h
  rw [Char.toUpper,dif_neg]
  exact fun hlo => absurd (UInt32.le_trans hlo.1 h.2) (by decide)

theorem keywordAt_digit (hc : c.isDigit) (hk : ¬ k.isDigit) : keywordAt prev (c :: cs) (k :: ks) = false := by
  apply keywordAt_of_ne
  rw [toUpper_of_digit hc]
  exact fun h => hk (h ▸ hc)

theorem ne_of_isIdentContinue (h : isIdentContinue c) : c ≠ '-' ∧ c ≠ '/' ∧ c ≠ '\'' ∧ c ≠ '"' ∧ c ≠ '.' := by
  refine ⟨?_,?_,?_,?_,?_⟩ <;> exact fun he => absurd (he ▸ h) (by decide)

theorem cut_digit (h : c.isDigit) : cut prev template c cs =
      literalPiece (consumeNumber (c :: cs)).1 (consumeNumber (c :: cs)).2 := by
  have hid : isIdentContinue c := by simp [isIdentContinue,Char.isAlphanum,h]
  simp [cut,ne_of_isIdentContinue hid,h,nullText,trueText,falseText,keywordAt_digit h]

/-- A template changes a piece only where it takes a minus to the number after it. -/
theorem cut_template (prev : Option Char) (template : List Char) (c : Char) (cs : List Char) :
    cut prev template c cs = cut prev ['?'] c cs ∨
      (c = '-' ∧ cut prev ['?'] c cs = passPiece ['-'] cs ∧ cs.head?.any Char.isDigit ∧
        cut prev template c cs = literalPiece ('-' :: (consumeNumber cs).1) (consumeNumber cs).2) := by
  by_cases hmi : c = '-' ∧ cs.head?.any Char.isDigit ∧ inValueContext template
  · obtain ⟨rfl,hdi,hva⟩ := hmi
    have hnot : ¬ next cs '-' := by
      intro hnext
      obtain ⟨ds,rfl⟩ := next_iff.mp hnext
      simp at hdi
    simp [cut,hnot,nullText,trueText,falseText,hdi,hva,inValueContext_mark,
      keywordAt_of_ne (show ('-' : Char).toUpper ≠ 'N' by decide),
      keywordAt_of_ne (show ('-' : Char).toUpper ≠ 'T' by decide),
      keywordAt_of_ne (show ('-' : Char).toUpper ≠ 'F' by decide)]
  · left
    simp [cut,hmi,inValueContext_mark]

theorem restored_segments (prev : Option Char) :
    restoredOf (segments prev (c :: cs)) = (cut prev template c cs).1.restored ++
        restoredOf (segments (cut prev template c cs).1.text.getLast? (cut prev template c cs).2) := by
  rcases cut_template prev template c cs with h | ⟨rfl,hmark,hdi,h⟩
  · rw [h,segments]
    rfl
  · rw [h,segments,hmark]
    cases cs with
    | nil => simp at hdi
    | cons d ds =>
      have hd : d.isDigit := by simpa using hdi
      have hlast : ('-' :: (consumeNumber (d :: ds)).1).getLast? = (consumeNumber (d :: ds)).1.getLast? := by
        rw [getLast?_cons,getLast?_eq_some_getLast (consumeNumber_ne_nil hd)]
        rfl
      simp only [passPiece,literalPiece]
      rw [segments,cut_digit hd,hlast]
      simp [restoredOf,restored,literalPiece,latin_ascii (show isAscii '-' by decide)]

theorem refill_append (h : out.count none = literals.length) :
    refill (out ++ out') (literals ++ literals') = refill out literals ++ refill out' literals' := by
  induction out generalizing literals with
  | nil =>
    obtain rfl := length_eq_zero_iff.mp h.symm
    rfl
  | cons slot out ih =>
    cases slot with
    | none =>
      cases literals with
      | nil => simp at h
      | cons l literals =>
        have hco : out.count none = literals.length := by simpa using h
        simp [refill,ih hco]
    | some c =>
      have hco : out.count none = literals.length := by simpa using h
      simp [refill,ih hco]

theorem refill_chars : refill (cs.map some) [] = cs := by
  induction cs with
  | nil => rfl
  | cons c cs ih => simp [refill,ih]

theorem refill_slots (p : Piece) : refill p.slots p.literal.toList = p.restored := by
  cases h : p.literal with
  | none => simp [slots,restored,h,refill_chars]
  | some l => simp [slots,restored,h,refill]

theorem count_slots (p : Piece) : p.slots.count none = p.literal.toList.length := by
  cases h : p.literal with
  | none =>
    simp only [slots,h]
    exact count_eq_zero.mpr (by simp)
  | some l => simp [slots,h]

theorem scanLoop_refill (hfu : s.rest.length ≤ fuel) (hco : s.out.count none = s.literals.length) :
    refill (scanLoop fuel s).out (scanLoop fuel s).literals =
      refill s.out s.literals ++ restoredOf (segments s.before.getLast? s.rest) := by
  induction fuel generalizing s with
  | zero =>
    rw [length_eq_zero_iff.mp (Nat.le_zero.mp hfu)]
    simp [scanLoop,segments,restoredOf]
  | succ fuel ih =>
    cases hre : s.rest with
    | nil => simp [scanLoop,hre,segments,restoredOf]
    | cons c cs =>
      let p := cut s.before.getLast? (templateOf s.out) c cs
      have hlen : p.2.length ≤ cs.length := cut_length _ _ c cs
      have hlast : (s.before ++ p.1.text).getLast? = p.1.text.getLast? :=
        getLast?_append_of_ne_nil _ (cut_ne_nil _ _ c cs)
      rw [hre,length_cons] at hfu
      have hlo : scanLoop (fuel + 1) s = scanLoop fuel (s.take p) := by
        rw [scanLoop,hre]
        rfl
      rw [hlo,ih (s := s.take p) (hlen.trans (by omega)) (by simp [Scan.take,hco,count_slots])]
      rw [restored_segments _]
      simp only [Scan.take,refill_append hco,refill_slots,hlast,append_assoc]
      rfl

theorem scan_refill : refill (scan cs).out (scan cs).literals = restoredOf (segments none cs) := by
  have h := scanLoop_refill (s := ⟨[],cs,[],[]⟩) (le_refl cs.length) rfl
  simpa [scan,refill] using h

theorem keywordPiece_length (h : keywordAt prev cs keyword) :
    keyword.length = (cs.take keyword.length).length := by
  simp only [keywordAt,Bool.and_eq_true,beq_iff_eq] at h
  conv_lhs => rw [← h.1.1]
  exact length_map _

def Piece.Fits (p : Piece) : Prop :=
  ∀ literal, p.literal = some literal → literal.length = p.text.length

theorem keywordPiece_fits (h : keywordAt prev cs keyword) : (keywordPiece keyword cs).1.Fits := by
  intro literal hl
  obtain rfl := Option.some.inj hl
  exact keywordPiece_length h

theorem passPiece_fits (text rest : List Char) : (passPiece text rest).1.Fits := by
  simp [Piece.Fits,passPiece]

theorem literalPiece_fits (text rest : List Char) : (literalPiece text rest).1.Fits := by
  simp [Piece.Fits,literalPiece]

theorem cut_fits (prev : Option Char) : (cut prev template c cs).1.Fits := by
  fun_cases cut prev template c cs with
  | case1 | case2 => exact passPiece_fits _ _
  | case3 => exact literalPiece_fits _ _
  | case4 => exact passPiece_fits _ _
  | case5 _ _ _ _ h | case6 _ _ _ _ _ h | case7 _ _ _ _ _ _ h => exact keywordPiece_fits h
  | case8 | case9 => exact literalPiece_fits _ _
  | case10 => exact passPiece_fits _ _

theorem segments_fit (prev : Option Char) : ∀ p ∈ segments prev cs, p.Fits := by
  fun_induction segments prev cs with
  | case1 => simp
  | case2 prev c cs ih =>
    intro p hp
    rcases mem_cons.mp hp with rfl | hp
    · exact cut_fits _
    · exact ih p hp

theorem Piece.Fits.length_le {p : Piece} (h : p.Fits) : p.text.length ≤ p.restored.length := by
  unfold restored
  split
  · exact length_le_latin p.text
  · next literal hl => exact (h literal hl).ge

theorem Piece.restored_iff {p : Piece} : p.restored = p.text ↔ p.Exact := by
  unfold restored Piece.Exact
  split
  · constructor
    · intro h
      exact (length_latin_iff).mp (congrArg List.length h)
    · exact latin_of_ascii
  · exact Iff.rfl

theorem length_le_restoredOf (h : ∀ p ∈ ps, p.Fits) : (ps.flatMap text).length ≤ (restoredOf ps).length := by
  induction ps with
  | nil => exact le_refl _
  | cons p ps ih =>
    have hp := (h p (by simp)).length_le
    have hps := ih fun q hq => h q (by simp [hq])
    simp only [restoredOf,flatMap_cons,length_append] at hps ⊢
    omega

/-- No piece can make up for what another has lost: none is restored shorter than it was. -/
theorem restoredOf_iff (h : ∀ p ∈ ps, p.Fits) : restoredOf ps = ps.flatMap text ↔ ∀ p ∈ ps, p.Exact := by
  induction ps with
  | nil => simp [restoredOf]
  | cons p ps ih =>
    have hps : ∀ q ∈ ps, q.Fits := fun q hq => h q (by simp [hq])
    have hle := (h p (by simp)).length_le
    have hles := length_le_restoredOf hps
    rw [forall_mem_cons,← ih hps,← restored_iff]
    simp only [restoredOf,flatMap_cons] at hles ⊢
    constructor
    · intro heq
      have hlen := congrArg List.length heq
      rw [length_append,length_append] at hlen
      exact append_inj heq (by omega)
    · rintro ⟨hp,hre⟩
      rw [hp,hre]

theorem reproduces_iff : Reproduces sql ↔ Exact sql := by
  unfold Reproduces Exact
  rw [scan_refill,← restoredOf_iff (segments_fit none),segments_text]

end OxiSql.Templates
