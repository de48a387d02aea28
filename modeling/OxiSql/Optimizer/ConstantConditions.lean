import OxiSql.Optimizer.LiftPreserves
import OxiSql.Types.Numeric

namespace OxiSql.Ast
open Lib OxiSql.Types List

def parseI64 (s : String) : Option Int64 :=
  let (negative, digits) := takeSign s.toList
  if digits ≠ [] ∧ digits.all Char.isDigit then
    Numeric.checked (signed negative (Nat.ofDigitChars 10 digits 0))
  else none

section
variable {S : Type} (parseF64 : String → Option Double)

/-- Whether a number is another than zero. -/
def numberTruth (s : String) : Option Bool :=
  match parseI64 s with
  | some i => some (i != 0)
  | none => (parseF64 s).map (· != .finite 0)

/-- `trim_matches('\'')` -/
def trimQuotes (s : String) : String :=
  .ofList ((s.toList.dropWhile (· == '\'')).reverse.dropWhile (· == '\'')).reverse

/-- `AlwaysTrue` is `some true`, and `AlwaysFalse` is `some false`. -/
def checkAlwaysTrueOrFalse : Expr S → Option Bool
  | .literal (.numeric b) => numberTruth parseF64 b
  | .literal (.string s) => some ((numberTruth parseF64 (trimQuotes s.text)).getD false)
  | .unary .not e => (checkAlwaysTrueOrFalse e).map (!·)
  | .unary .negative e => checkAlwaysTrueOrFalse e
  | .inList _ not listed rhs => if !listed || rhs.isEmpty then some not else none
  | .binary lhs .and rhs => and3 (checkAlwaysTrueOrFalse lhs) (checkAlwaysTrueOrFalse rhs)
  | .binary lhs .or rhs => or3 (checkAlwaysTrueOrFalse lhs) (checkAlwaysTrueOrFalse rhs)
  | _ => none

/-- The terms afterwards; none are left for `ImpossibleCondition`. -/
def eliminateConstantConditions : List (WhereTerm S) → Option (List (WhereTerm S))
  | [] => some []
  | t :: terms =>
    match checkAlwaysTrueOrFalse parseF64 t.expr with
    | some true => (eliminateConstantConditions terms).map ({ t with consumed := true } :: ·)
    | some false =>
      if t.fromOuterJoin.isSome then (eliminateConstantConditions terms).map (t :: ·) else none
    | none => (eliminateConstantConditions terms).map (t :: ·)

/-- Digits with a sign, a point and an exponent, if it has them. -/
def isNumeral (cs : List Char) : Bool :=
  let cs := (takeSign cs).2
  let (decimals, rest) := match cs.dropWhile Char.isDigit with
    | '.' :: rest => (rest.takeWhile Char.isDigit, rest.dropWhile Char.isDigit)
    | rest => ([], rest)
  cs.takeWhile Char.isDigit ++ decimals != [] && match rest with
    | [] => true
    | e :: rest => (e == 'e' || e == 'E') && (takeSign rest).2 != [] && (takeSign rest).2.all Char.isDigit

/-- Text is as true as the longest numeral it begins with. No numeral goes on over a quote, doubled or
not. -/
def textTruth (quoted : String) : Bool :=
  let text := quoted.toList.tail.dropLast.dropWhile isTrimmed
  ((text.inits.filter isNumeral).getLast?.bind fun cs => numberTruth parseF64 (.ofList cs)).getD false

/-- The truth of an expression, where `atom` says it of what does not follow from its parts. -/
def conditionTruth (atom : Expr S → Option Bool) : Expr S → Option Bool
  | .literal (.numeric b) => (numberTruth parseF64 b).or (atom (.literal (.numeric b)))
  | .literal (.string s) => some (textTruth parseF64 s.text)
  | .literal .null => none
  | .unary .not e => (conditionTruth atom e).map (!·)
  | .unary .negative e => conditionTruth atom e
  | .inList lhs not listed rhs =>
    if !listed || rhs.isEmpty then some not else atom (.inList lhs not listed rhs)
  | .binary lhs .and rhs => and3 (conditionTruth atom lhs) (conditionTruth atom rhs)
  | .binary lhs .or rhs => or3 (conditionTruth atom lhs) (conditionTruth atom rhs)
  | e => atom e

/-- The parts on whose classification that of an expression rests, and itself. -/
def parts : Expr S → List (Expr S)
  | .unary .not e => .unary .not e :: parts e
  | .unary .negative e => .unary .negative e :: parts e
  | .binary lhs .and rhs => .binary lhs .and rhs :: (parts lhs ++ parts rhs)
  | .binary lhs .or rhs => .binary lhs .or rhs :: (parts lhs ++ parts rhs)
  | e => [e]

/-- The strings among them are numerals as a whole, or begin with none that is true. -/
def Legible (e : Expr S) : Prop :=
  ∀ s, .literal (.string s) ∈ parts e →
    (numberTruth parseF64 (trimQuotes s.text)).getD false = textTruth parseF64 s.text

/-- The terms of inner joins that are left are TRUE. -/
def Selects (atom : Expr S → Option Bool) (terms : List (WhereTerm S)) : Prop :=
  ∀ t ∈ terms, t.fromOuterJoin = none → t.consumed = false → conditionTruth parseF64 atom t.expr = some true

variable {parseF64}

theorem known3 (hx : ∀ b, x = some b → x' = some b) (hy : ∀ b, y = some b → y' = some b) :
    (and3 x y = some b → and3 x' y' = some b) ∧ (or3 x y = some b → or3 x' y' = some b) := by
  rcases x with _ | _ | _ <;> rcases y with _ | _ | _ <;> rcases x' with _ | _ | _ <;> simp_all [and3,or3]

theorem mem_parts_self (e : Expr S) : e ∈ parts e := by
  unfold parts
  split <;> simp

theorem parts_trans (h : e' ∈ parts e) : parts e' ⊆ parts e := by
  fun_induction parts e with
  | case1 e ih | case2 e ih =>
    rcases mem_cons.mp h with rfl | h
    · exact Subset.refl _
    · exact subset_cons_of_subset _ (ih h)
  | case3 lhs rhs ihl ihr | case4 lhs rhs ihl ihr =>
    rcases mem_cons.mp h with rfl | h
    · exact Subset.refl _
    · rcases mem_append.mp h with h | h
      · exact subset_cons_of_subset _ (subset_append_of_subset_left _ (ihl h))
      · exact subset_cons_of_subset _ (subset_append_of_subset_right _ (ihr h))
  | case5 e =>
    rw [parts] <;> simp_all

theorem Legible.part (h : Legible parseF64 e) (hp : e' ∈ parts e) : Legible parseF64 e' :=
  fun s hs => h s (parts_trans hp hs)

/-- Where the strings are legible, the classification is what the literals alone make true or false. -/
theorem check_eq (hle : Legible parseF64 e) :
    checkAlwaysTrueOrFalse parseF64 e = conditionTruth parseF64 (fun _ => none) e := by
  fun_induction checkAlwaysTrueOrFalse parseF64 e with
  | case1 digits => simp [conditionTruth]
  | case2 s => exact congrArg some (hle s (mem_parts_self _))
  | case3 e ih | case4 e ih => simp [conditionTruth,ih (hle.part (mem_cons_of_mem _ (mem_parts_self e)))]
  | case5 lhs not listed rhs hnone => exact (if_pos hnone).symm
  | case6 lhs not listed rhs hsome => exact (if_neg hsome).symm
  | case7 lhs rhs ihl ihr | case8 lhs rhs ihl ihr =>
    have hl := ihl (hle.part (mem_cons_of_mem _ (mem_append_left _ (mem_parts_self lhs))))
    have hr := ihr (hle.part (mem_cons_of_mem _ (mem_append_right _ (mem_parts_self rhs))))
    simp only [conditionTruth,hl,hr]
  | case9 e hnum hstr hnot hneg hin hand hor =>
    unfold conditionTruth
    split
    case h_6 => exact (hin _ _ _ _ rfl).elim
    all_goals simp_all

theorem conditionTruth_mono (h : conditionTruth parseF64 (fun _ => none) e = some b) :
    conditionTruth parseF64 atom e = some b := by
  fun_induction conditionTruth parseF64 (fun _ => none) e generalizing b with
  | case1 digits =>
    rw [Option.or_none] at h
    simp [conditionTruth,h]
  | case2 s => exact h
  | case3 => cases h
  | case4 e ih =>
    obtain ⟨c,hc,rfl⟩ := Option.map_eq_some_iff.mp h
    simp [conditionTruth,ih hc]
  | case5 e ih => exact ih h
  | case6 lhs not listed rhs hnone => exact (if_pos hnone).trans h
  | case7 => cases h
  | case8 lhs rhs ihl ihr => exact (known3 (fun _ => ihl) fun _ => ihr).1 h
  | case9 lhs rhs ihl ihr => exact (known3 (fun _ => ihl) fun _ => ihr).2 h
  | case10 => cases h

theorem legible_iff : (∀ e' ∈ parts e, ∀ b, checkAlwaysTrueOrFalse parseF64 e' = some b →
      ∀ atom, (conditionTruth parseF64 atom e' = some true ↔ b = true)) ↔ Legible parseF64 e := by
  constructor
  · intro h s hs
    have hst := h _ hs _ rfl fun _ => none
    rw [conditionTruth,Option.some.injEq] at hst
    exact (Bool.eq_iff_iff.mpr hst).symm
  · intro hle e' hp b hb atom
    rw [check_eq (hle.part hp)] at hb
    rw [conditionTruth_mono hb,Option.some.injEq]

theorem selects_cons : Selects parseF64 atom (t :: terms) ↔
    (t.fromOuterJoin = none → t.consumed = false → conditionTruth parseF64 atom t.expr = some true) ∧
      Selects parseF64 atom terms :=
  forall_mem_cons

section

variable {terms : List (WhereTerm S)} (hle : ∀ t ∈ terms, Legible parseF64 t.expr)
include hle

theorem eliminate_selects (h : eliminateConstantConditions parseF64 terms = some terms') :
    Selects parseF64 atom terms' ↔ Selects parseF64 atom terms := by
  induction terms generalizing terms' with
  | nil =>
    cases h
    rfl
  | cons t terms ih =>
    obtain ⟨hlt,hle⟩ := forall_mem_cons.mp hle
    rw [eliminateConstantConditions] at h
    have hke : (eliminateConstantConditions parseF64 terms).map (t :: ·) = some terms' →
        (Selects parseF64 atom terms' ↔ Selects parseF64 atom (t :: terms)) := by
      intro h
      obtain ⟨rest,hre,rfl⟩ := Option.map_eq_some_iff.mp h
      rw [selects_cons,selects_cons,ih hle hre]
    split at h
    next hc =>
      obtain ⟨rest,hre,rfl⟩ := Option.map_eq_some_iff.mp h
      rw [check_eq hlt] at hc
      simp [selects_cons,ih hle hre,conditionTruth_mono hc]
    next hc =>
      split at h
      · exact hke h
      · cases h
    next => exact hke h

theorem eliminate_eq_none : eliminateConstantConditions parseF64 terms = none ↔
    ∃ t ∈ terms, t.fromOuterJoin = none ∧ conditionTruth parseF64 (fun _ => none) t.expr = some false := by
  induction terms with
  | nil => simp [eliminateConstantConditions]
  | cons t terms ih =>
    obtain ⟨hlt,hle⟩ := forall_mem_cons.mp hle
    rw [eliminateConstantConditions,exists_mem_cons_iff,← ih hle,← check_eq hlt]
    split
    next hc => simp [hc]
    next hc => cases t.fromOuterJoin <;> simp [hc]
    next hc => simp [hc]

end

/-- What is classified is so on every row, and the terms that are left select the same rows, exactly if the strings
are legible and no term that stands for nothing any more is FALSE by its literals. -/
theorem constant_conditions_right (terms : List (WhereTerm S)) :
    ((∀ t ∈ terms, ∀ e ∈ parts t.expr, ∀ b, checkAlwaysTrueOrFalse parseF64 e = some b →
        ∀ atom, (conditionTruth parseF64 atom e = some true ↔ b = true)) ∧
      ∀ atom, (Selects parseF64 atom terms ↔
        ∃ terms', eliminateConstantConditions parseF64 terms = some terms' ∧ Selects parseF64 atom terms')) ↔
    (∀ t ∈ terms, Legible parseF64 t.expr) ∧ ∀ t ∈ terms, t.consumed = true → t.fromOuterJoin = none →
      conditionTruth parseF64 (fun _ => none) t.expr = some false → ∀ atom, ¬Selects parseF64 atom terms := by
  simp only [legible_iff]
  refine and_congr_right fun hle => ⟨fun h t ht _ hou hfa atom hsel => ?_,fun h atom => ?_⟩
  · obtain ⟨terms',hel,-⟩ := (h atom).mp hsel
    rw [(eliminate_eq_none hle).mpr ⟨t,ht,hou,hfa⟩] at hel
    cases hel
  · cases hel : eliminateConstantConditions parseF64 terms with
    | some terms' => simp [eliminate_selects hle hel]
    | none =>
      obtain ⟨t,ht,hou,hfa⟩ := (eliminate_eq_none hle).mp hel
      refine iff_of_false (fun hsel => ?_) (by simp)
      cases hco : t.consumed with
      | true => exact h t ht hco hou hfa atom hsel
      | false =>
        have htr := hsel t ht hou hco
        rw [conditionTruth_mono hfa] at htr
        cases htr

end

def oneAbc : Token := ⟨"'1abc'", by decide⟩

/-- `WHERE '1abc'` is impossible, though the text begins with a number that is true. -/
theorem text_condition_wrong : Selects (fun _ => none) (fun _ => none)
      [.fresh (.literal (.string oneAbc) : Expr Unit) none] ∧
    eliminateConstantConditions (fun _ => none) [.fresh (.literal (.string oneAbc) : Expr Unit) none] = none := by
  constructor
  · simp [Selects]
    decide
  · decide

end OxiSql.Ast
