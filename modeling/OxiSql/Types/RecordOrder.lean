import OxiSql.Lib.Consistent
import OxiSql.Types.FloatOrder

namespace OxiSql.Types
open Lib List F64

/-- The values in play are in a total preorder under every collation. -/
def Comparable (p : Value → Prop) : Prop :=
  ∀ collation, Consistent (Value.compareWith collation) p

/-- No float in play stands for two integers in play. -/
def Separated (p : Value → Prop) : Prop :=
  ∀ i j x, p (.integer i) → p (.integer j) → p (.float x) →
    (F64.ofInt i).cmp x = .eq → (F64.ofInt j).cmp x = .eq → i = j

/-- Numbers compare as their doubles do, except that integers compare exactly with each other; so
only a float between two integers can hide their order. -/
theorem Separated.numbers_trans (h : Separated p) (ha : (∃ i, a = .integer i) ∨ ∃ x, a = .float x)
    (hb : (∃ i, b = .integer i) ∨ ∃ x, b = .float x)
    (hc : (∃ i, c = .integer i) ∨ ∃ x, c = .float x) (pa : p a) (pb : p b) (pc : p c)
    (hab : a.compareWith collation b ≠ .gt) (hbc : b.compareWith collation c ≠ .gt) :
    a.compareWith collation c ≠ .gt := by
  obtain ⟨i,rfl⟩ | ⟨x,rfl⟩ := ha <;> obtain ⟨j,rfl⟩ | ⟨y,rfl⟩ := hb <;>
    obtain ⟨k,rfl⟩ | ⟨z,rfl⟩ := hc <;>
    simp only [Value.compareWith,cmp_eq_compare_rank,Int.compare_ne_gt] at hab hbc ⊢
  · exact hab.trans hbc
  · exact (rank_ofInt_mono hab).trans hbc
  · -- Integers in the wrong order on both sides of a float are both equal to it.
    by_contra hgt
    have hki := rank_ofInt_mono (not_le.mp hgt).le
    have hi : (ofInt i).cmp y = .eq := by
      rw [cmp_eq_compare_rank,compare_eq_iff_eq]
      exact le_antisymm hab (hbc.trans hki)
    have hk : (ofInt k).cmp y = .eq := by
      rw [cmp_eq_compare_rank,compare_eq_iff_eq]
      exact le_antisymm (hki.trans hab) hbc
    exact hgt (h i k y pa pc pb hi hk).le
  · exact hab.trans hbc
  · exact hab.trans (rank_ofInt_mono hbc)
  · exact hab.trans hbc
  · exact hab.trans hbc
  · exact hab.trans hbc

/-- Where the kinds of two values differ they decide; the rest is one kind. -/
theorem Separated.comparable (h : Separated p) : Comparable p := by
  refine fun collation => ⟨fun v w => v.compareWith_swap w,fun a b c ha hb hc hab hbc => ?_⟩
  cases a with
  | null => cases c <;> nofun
  | integer i | float x =>
    cases b with
    | null => exact absurd rfl hab
    | integer j | float y =>
      cases c with
      | null => exact absurd rfl hbc
      | integer k | float z =>
        exact h.numbers_trans (by simp) (by simp) (by simp) ha hb hc hab hbc
      | _ => nofun
    | _ => cases c <;> first | exact absurd rfl hbc | nofun
  | text s =>
    cases b with
    | text t =>
      cases c with
      | text u => exact @Std.TransCmp.le_trans _ collation.compareStrings _ _ _ _ hab hbc
      | blob u => nofun
      | _ => exact absurd rfl hbc
    | blob t => cases c <;> first | exact absurd rfl hbc | nofun
    | _ => exact absurd rfl hab
  | blob s =>
    cases b with
    | blob t =>
      cases c with
      | blob u => exact @Std.TransCmp.le_trans _ compare _ _ _ _ hab hbc
      | _ => exact absurd rfl hbc
    | _ => exact absurd rfl hab

def RowsOf (p : Value → Prop) (n : Nat) (row : Record) : Prop :=
  row.length = n ∧ ∀ v ∈ row, p v

theorem compareFrom_cons :
    compareFrom order collations i (l :: ls) (r :: rs) = (match order.getSortOrderForCol i with
        | .asc => l.compareWith (collations.getD i .binary) r
        | .desc => (l.compareWith (collations.getD i .binary) r).swap).then
      (compareFrom order collations (i + 1) ls rs) := by
  rw [compareFrom]
  cases l.compareWith (collations.getD i .binary) r <;> cases order.getSortOrderForCol i <;> rfl

theorem compareFrom_swap (l r : Record) :
    (compareFrom order collations i l r).swap = compareFrom order collations i r l := by
  induction l generalizing i r with
  | nil => cases r <;> rfl
  | cons v l ih =>
    cases r with
    | nil => rfl
    | cons w r =>
      rw [compareFrom_cons,compareFrom_cons,Ordering.swap_then,ih]
      cases order.getSortOrderForCol i with
      | asc | desc => rw [v.compareWith_swap]

theorem Comparable.compareFrom (h : Comparable p) (order : IndexKeySortOrder)
    (collations : List CollationSeq) (n i : Nat) :
    Consistent (compareFrom order collations i) (RowsOf p n) := by
  induction n generalizing i with
  | zero =>
    refine ⟨compareFrom_swap,fun a b c ha _ hc _ _ => ?_⟩
    rw [eq_nil_of_length_eq_zero ha.1]
    nofun
  | succ n ih =>
    have hhe : Consistent (fun v w : Value => match order.getSortOrderForCol i with
        | .asc => v.compareWith (collations.getD i .binary) w
        | .desc => (v.compareWith (collations.getD i .binary) w).swap) p := by
      cases order.getSortOrderForCol i with
      | asc => exact h _
      | desc => exact (h _).reverse
    have hpa : Consistent (fun a b : Value × Record => _) fun a => p a.1 ∧ RowsOf p n a.2 :=
      ((hhe.comap Prod.fst).mono fun _ => And.left).lex
        (((ih (i + 1)).comap Prod.snd).mono fun _ => And.right)
    refine ⟨compareFrom_swap,fun a b c ha hb hc hab hbc => ?_⟩
    have hsp : ∀ {r : Record}, RowsOf p (n + 1) r → ∃ v rest, r = v :: rest ∧ p v ∧ RowsOf p n rest := by
      rintro (_ | ⟨v,rest⟩) ⟨hlen,hmem⟩
      · cases hlen
      · exact ⟨v,rest,rfl,hmem v (mem_cons_self ..),Nat.succ.inj hlen,
          fun w hw => hmem w (mem_cons_of_mem v hw)⟩
    obtain ⟨u,us,rfl,hu⟩ := hsp ha
    obtain ⟨v,vs,rfl,hv⟩ := hsp hb
    obtain ⟨w,ws,rfl,hw⟩ := hsp hc
    rw [compareFrom_cons] at hab hbc ⊢
    exact hpa.trans (u, us) (v, vs) (w, ws) hu hv hw hab hbc

/-- What the search of an index, the sorter and the check of a unique index take for granted. -/
structure TotalPreorder {α : Type} (cmp : α → α → Ordering) (p : α → Prop) : Prop where
  refl : ∀ a, p a → cmp a a = .eq
  swap : ∀ a b, p a → p b → (cmp a b).swap = cmp b a
  lt_trans : ∀ a b c, p a → p b → p c → cmp a b = .lt → cmp b c = .lt → cmp a c = .lt
  eq_trans : ∀ a b c, p a → p b → p c → cmp a b = .eq → cmp b c = .eq → cmp a c = .eq

/-- Keys are in a total preorder exactly where no float among their values stands for two of the
integers. -/
theorem compareImmutable_total_preorder (p : Value → Prop) :
    (∀ n order collations, TotalPreorder (compareImmutable · · order collations) (RowsOf p n)) ↔
      Separated p := by
  constructor
  · intro h i j x hi hj hx hix hjx
    -- Keys of one column carry the comparison of values over.
    have hrow : ∀ v, p v → RowsOf p 1 [v] := fun v hv => ⟨rfl,by simpa using hv⟩
    have hkey : ∀ v w : Value, compareImmutable [v] [w] .default [] = v.compareWith .binary w := by
      intro v w
      rw [compareImmutable,compareFrom_cons]
      simp [IndexKeySortOrder.getSortOrderForCol,IndexKeySortOrder.default,compareFrom]
    have hxj : Value.compareWith .binary (.float x) (.integer j) = .eq := by
      rw [← Value.compareWith_swap]
      exact congrArg Ordering.swap hjx
    have hij := (h 1 .default []).eq_trans [.integer i] [.float x] [.integer j] (hrow _ hi) (hrow _ hx)
      (hrow _ hj) ((hkey _ _).trans hix) ((hkey _ _).trans hxj)
    exact compare_eq_iff_eq.mp ((hkey _ _).symm.trans hij)
  · intro h n order collations
    have hco := h.comparable.compareFrom order collations n 0
    exact {
      refl := fun a _ => hco.refl a
      swap := fun a b _ _ => hco.swap a b
      lt_trans := fun a b c => hco.lt_trans
      eq_trans := fun a b c ha hb hc hab hbc => (hco.congr ha hb hc hab).trans hbc }

/-- Two neighbours above the mantissa's range equal one float, and so not each other. -/
theorem compareImmutable_equal_not_transitive : let float : F64 := .finite (2 ^ 53) 1074 (by decide) (by decide)
    let cmp := fun l r => compareImmutable l r .default []
    cmp [.integer (2 ^ 53 + 1)] [.float float] = .eq ∧ cmp [.float float] [.integer (2 ^ 53)] = .eq ∧
      cmp [.integer (2 ^ 53 + 1)] [.integer (2 ^ 53)] = .gt := by
  decide

end OxiSql.Types
