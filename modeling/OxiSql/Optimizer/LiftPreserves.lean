import OxiSql.Optimizer.LiftCommon

namespace OxiSql.Ast
open Lib List OxiSql.Ast.Expr WhereTerm

/-- AND of three truth values, `none` for NULL. -/
def and3 : Option Bool → Option Bool → Option Bool
  | some false, _ | _, some false => some false
  | some true, some true => some true
  | _, _ => none

def or3 : Option Bool → Option Bool → Option Bool
  | some true, _ | _, some true => some true
  | some false, some false => some false
  | _, _ => none

section
variable {S : Type}

/-- The truth of an expression at a row and with values for the parameters, where `atom` says it of
those that are no AND, OR or parentheses. -/
def truth (atom : Expr S → Option Bool) : Expr S → Option Bool
  | .binary lhs .and rhs => and3 (truth atom lhs) (truth atom rhs)
  | .binary lhs .or rhs => or3 (truth atom lhs) (truth atom rhs)
  | .parenthesized [e] => truth atom e
  | e => atom e

def Holds (atom : Expr S → Option Bool) (e : Expr S) : Prop :=
  truth atom e = some true

/-- The conjunction of the terms that are not consumed is TRUE. -/
def WhereHolds (atom : Expr S → Option Bool) (terms : List (WhereTerm S)) : Prop :=
  ∀ t ∈ terms, t.consumed = false → Holds atom t.expr

variable {e : Expr S} {es : List (Expr S)}

theorem holds_and : Holds atom (.binary lhs .and rhs) ↔ Holds atom lhs ∧ Holds atom rhs := by
  unfold Holds
  rw [truth]
  rcases truth atom lhs with _ | _ | _ <;> rcases truth atom rhs with _ | _ | _ <;> decide

theorem holds_or : Holds atom (.binary lhs .or rhs) ↔ Holds atom lhs ∨ Holds atom rhs := by
  unfold Holds
  rw [truth]
  rcases truth atom lhs with _ | _ | _ <;> rcases truth atom rhs with _ | _ | _ <;> decide

theorem holds_parenthesized : Holds atom (.parenthesized [e]) ↔ Holds atom e := by
  unfold Holds
  rw [truth]

theorem holds_wrapParens : Holds atom (wrapParens n e) ↔ Holds atom e := by
  induction n generalizing e with
  | zero => exact Iff.rfl
  | succ n ih =>
    rw [wrapParens,ih,holds_parenthesized]

theorem holds_flattenOr : Holds atom e ↔ ∃ o ∈ e.flattenOr, Holds atom o := by
  fun_induction flattenOr e with
  | case1 lhs rhs ihl ihr =>
    rw [holds_or,ihl,ihr]
    simp [or_and_right,exists_or]
  | case2 e _ => simp

theorem holds_flattenAnd : Holds atom e ↔ ∀ c ∈ e.flattenAnd, Holds atom c := by
  fun_induction flattenAnd e with
  | case1 lhs rhs ihl ihr =>
    rw [holds_and,ihl,ihr]
    simp [or_imp,forall_and]
  | case2 e _ => simp

theorem holds_unwrapParens {inner : Expr S}
    (h : e.unwrapParensOwned = .ok (inner,n)) : Holds atom e ↔ Holds atom inner := by
  fun_induction unwrapParensOwned e generalizing n with
  | case1 e ih =>
    obtain ⟨⟨e',count⟩,he,h⟩ := bind_ok h
    cases h
    exact ih he
  | case2 es _ => cases h
  | case3 e _ _ =>
    cases h
    exact Iff.rfl

theorem holds_branches (h : e.branches = .ok bs) : Holds atom e ↔ ∃ b ∈ bs, ∀ c ∈ b.1, Holds atom c := by
  have hma : List.Forall₂ (fun o b => Holds atom o ↔ ∀ c ∈ b.1, Holds atom c) e.flattenOr bs := by
    refine (mapM_ok h).imp fun o b hb => ?_
    obtain ⟨⟨inner,parens⟩,hin,hb⟩ := bind_ok hb
    cases hb
    rw [holds_unwrapParens hin,holds_flattenAnd]
  rw [holds_flattenOr]
  constructor
  · rintro ⟨o,ho,holds⟩
    obtain ⟨b,hb,hiff⟩ := forall₂_left hma ho
    exact ⟨b,hb,hiff.mp holds⟩
  · rintro ⟨b,hb,hall⟩
    obtain ⟨o,ho,hiff⟩ := forall₂_right hma hb
    exact ⟨o,ho,hiff.mpr hall⟩

theorem holds_foldl_and : Holds atom (es.foldl (fun acc next => .binary acc .and next) acc) ↔
      Holds atom acc ∧ ∀ c ∈ es, Holds atom c := by
  induction es generalizing acc with
  | nil => simp
  | cons c es ih => rw [foldl_cons,ih,holds_and,forall_mem_cons,and_assoc]

theorem holds_foldl_or : Holds atom (es.foldl (fun acc next => .binary acc .or next) acc) ↔
      Holds atom acc ∨ ∃ c ∈ es, Holds atom c := by
  induction es generalizing acc with
  | nil => simp
  | cons c es ih => rw [foldl_cons,ih,holds_or,exists_mem_cons_iff,or_assoc]

theorem holds_rebuild_and (h : es ≠ []) : Holds atom (rebuild .and es) ↔ ∀ c ∈ es, Holds atom c := by
  cases es with
  | nil => exact absurd rfl h
  | cons c es => rw [rebuild,holds_foldl_and,forall_mem_cons]

theorem holds_rebuild_or (h : es ≠ []) : Holds atom (rebuild .or es) ↔ ∃ c ∈ es, Holds atom c := by
  cases es with
  | nil => exact absurd rfl h
  | cons c es => rw [rebuild,holds_foldl_or,exists_mem_cons_iff]

theorem flattenOr_ne_nil : e.flattenOr ≠ [] := by
  fun_induction flattenOr e with
  | case1 lhs rhs ihl ihr => simp [ihl]
  | case2 e _ => simp

theorem branches_ne_nil (h : e.branches = .ok bs) : bs ≠ [] := by
  rintro rfl
  exact flattenOr_ne_nil (List.forall₂_nil_right_iff.mp (mapM_ok h))

end

section
variable {S : Type} (sameSelect : S → S → Bool) (parseF64 : String → Option Types.F64)

/-- The conjuncts lifted out of a term: those of the first branch of an OR that have an equivalent
in each other branch. -/
def Expr.lifted (e : Expr S) : List (Expr S) :=
  if e.isOr then
    match e.branches with
    | .ok bs => commonConjuncts sameSelect parseF64 bs
    | .error _ => []
  else []

/-- Lifted conjuncts are terms themselves and may have conjuncts lifted out of them. -/
abbrev Lifts : Expr S → Expr S → Prop :=
  Relation.ReflTransGen fun e c => c ∈ e.lifted sameSelect parseF64

/-- A branch is TRUE but for conjuncts that are equal to a lifted one. -/
def HoldsWithoutLifted (atom : Expr S → Option Bool) (e : Expr S) : Prop :=
  if e.lifted sameSelect parseF64 = [] then Holds atom e
  else ∃ bs, e.branches = .ok bs ∧ ∃ b ∈ bs,
    ∀ c ∈ remaining sameSelect (e.lifted sameSelect parseF64) b.1, Holds atom c

def AllHold (atom : Expr S → Option Bool) (e : Expr S) : Prop :=
  ∀ c, Lifts sameSelect parseF64 e c → HoldsWithoutLifted sameSelect parseF64 atom c

/-- The OR has the conjunct in its first branch and an equivalent one in each other. -/
def Shares (e c : Expr S) : Prop :=
  e.isOr = true ∧ ∃ first rest, e.branches = .ok (first :: rest) ∧ c ∈ first.1 ∧
    ∀ b ∈ rest, ∃ d ∈ b.1, exprsAreEquivalent sameSelect parseF64 c d = true

/-- At a row: each branch has an equivalent of a shared conjunct that is not TRUE without it, and a
conjunct equal to a shared one is TRUE with it. -/
structure Alike (atom : Expr S → Option Bool) (e : Expr S) : Prop where
  equivalent : ∀ c bs, Shares sameSelect parseF64 e c → e.branches = .ok bs → ∀ b ∈ bs, ∃ d ∈ b.1,
    (c = d ∨ exprsAreEquivalent sameSelect parseF64 c d = true) ∧ (Holds atom d → Holds atom c)
  same : ∀ c bs, Shares sameSelect parseF64 e c → e.branches = .ok bs → ∀ b ∈ bs, ∀ d ∈ b.1,
    d.same sameSelect c = true → Holds atom c → Holds atom d

/-- A shared conjunct becomes a term and may be an OR that shares conjuncts itself. -/
def AlikeThroughout (atom : Expr S → Option Bool) (e : Expr S) : Prop :=
  ∀ c, Relation.ReflTransGen (Shares sameSelect parseF64) e c → Alike sameSelect parseF64 atom c

end

section
variable {S : Type} {sameSelect : S → S → Bool} {parseF64 : String → Option Types.F64} {e : Expr S}

theorem Holds.withoutLifted (h : Holds atom e) : HoldsWithoutLifted sameSelect parseF64 atom e := by
  unfold HoldsWithoutLifted
  split
  · exact h
  · rename_i hne
    unfold lifted at hne ⊢
    split at hne
    · cases hbs : e.branches with
      | error err =>
        rw [hbs] at hne
        exact absurd rfl hne
      | ok bs =>
        obtain ⟨b,hb,hall⟩ := (holds_branches hbs).mp h
        exact ⟨bs,rfl,b,hb,fun c hc => hall c (mem_of_mem_filter hc)⟩
    · exact absurd rfl hne

theorem withoutCommon_holds (hbs : bs ≠ []) (hfr : term.consumed = false) :
    WhereHolds atom [withoutCommon sameSelect term common bs] ↔
      ∃ b ∈ bs, ∀ c ∈ remaining sameSelect common b.1, Holds atom c := by
  unfold WhereHolds withoutCommon
  rw [forall_mem_singleton]
  split
  · rename_i hempty
    obtain ⟨b,hb,hnil⟩ := any_eq_true.mp hempty
    refine ⟨fun _ => ⟨b,hb,fun c hc => ?_⟩,fun _ => nofun⟩
    rw [List.isEmpty_iff.mp hnil] at hc
    cases hc
  · rename_i hfu
    have hfu : ∀ b ∈ bs, remaining sameSelect common b.1 ≠ [] := by
      intro b hb hnil
      exact hfu (any_eq_true.mpr ⟨b,hb,List.isEmpty_iff.mpr hnil⟩)
    rw [holds_rebuild_or (by simpa using hbs)]
    constructor
    · intro h
      obtain ⟨c,hc,holds⟩ := h hfr
      obtain ⟨b,hb,rfl⟩ := mem_map.mp hc
      rw [holds_wrapParens,holds_rebuild_and (hfu b hb)] at holds
      exact ⟨b,hb,holds⟩
    · rintro ⟨b,hb,h⟩ _
      refine ⟨_,mem_map_of_mem hb,?_⟩
      rw [holds_wrapParens,holds_rebuild_and (hfu b hb)]
      exact h

theorem whereHolds_append :
    WhereHolds atom (terms ++ terms') ↔ WhereHolds atom terms ∧ WhereHolds atom terms' :=
  forall_mem_append

theorem whereHolds_singleton (hfr : term.consumed = false) : WhereHolds atom [term] ↔ Holds atom term.expr := by
  unfold WhereHolds
  rw [forall_mem_singleton,hfr]
  simp

theorem allHold_iff : AllHold sameSelect parseF64 atom e ↔ HoldsWithoutLifted sameSelect parseF64 atom e ∧
      ∀ c ∈ e.lifted sameSelect parseF64, AllHold sameSelect parseF64 atom c := by
  constructor
  · intro h
    exact ⟨h e .refl,fun c hc d hd => h d (.head hc hd)⟩
  · rintro ⟨hhe,hth⟩ d hd
    rcases Relation.ReflTransGen.cases_head hd with rfl | ⟨c,hc,hd⟩
    · exact hhe
    · exact hth c hc d hd

theorem allHold_of_lifted_nil (h : e.lifted sameSelect parseF64 = []) :
    AllHold sameSelect parseF64 atom e ↔ Holds atom e := by
  rw [allHold_iff,h]
  unfold HoldsWithoutLifted
  rw [if_pos h]
  simp

theorem drop_of_getElem? {l : List α} (h : l[i]? = some a) : l.drop i = a :: l.drop (i + 1) := by
  obtain ⟨hlt,rfl⟩ := List.getElem?_eq_some_iff.mp h
  exact drop_eq_getElem_cons hlt

/-- The loop from a term on: those before it stay, and of each other all it leads to is to hold. -/
theorem liftLoop_spec (h : loop (liftTurn sameSelect parseF64) fuel (i,terms) = some (.ok terms'))
    (hfr : ∀ t ∈ terms.drop i, t.consumed = false) : WhereHolds atom terms' ↔ WhereHolds atom (terms.take i) ∧
      ∀ t ∈ terms.drop i, AllHold sameSelect parseF64 atom t.expr := by
  induction fuel generalizing i terms with
  | zero => cases h
  | succ fuel ih =>
    cases hte : terms[i]? with
    | none =>
      have hle := List.getElem?_eq_none_iff.mp hte
      simp only [loop,liftTurn,hte] at h
      cases h
      rw [take_of_length_le hle,drop_of_length_le hle]
      simp
    | some term =>
      have hlt := (List.getElem?_eq_some_iff.mp hte).1
      have hta : terms.take (i + 1) = terms.take i ++ [term] := by
        rw [take_add_one,hte]
        rfl
      rw [drop_of_getElem? hte] at hfr ⊢
      obtain ⟨hhe,hre⟩ := forall_mem_cons.mp hfr
      rw [forall_mem_cons]
      -- a term that is left as it is
      have hsk : term.expr.lifted sameSelect parseF64 = [] →
          loop (liftTurn sameSelect parseF64) fuel (i + 1, terms) = some (.ok terms') →
          (WhereHolds atom terms' ↔ WhereHolds atom (terms.take i) ∧
            AllHold sameSelect parseF64 atom term.expr ∧
            ∀ t ∈ terms.drop (i + 1), AllHold sameSelect parseF64 atom t.expr) := by
        intro hnil h
        rw [ih h hre,hta,whereHolds_append,whereHolds_singleton hhe,and_assoc,allHold_of_lifted_nil hnil]
      simp only [loop,liftTurn,hte] at h
      cases hor : term.expr.isOr with
      | false =>
        rw [hor] at h
        exact hsk (by simp [lifted,hor]) h
      | true =>
        rw [hor] at h
        cases hbs : term.expr.branches with
        | error err =>
          rw [hbs] at h
          cases h
        | ok bs =>
          have hli : term.expr.lifted sameSelect parseF64 =
              commonConjuncts sameSelect parseF64 bs := by simp [lifted,hor,hbs]
          rw [hbs] at h
          simp only [Bool.not_true] at h
          generalize commonConjuncts sameSelect parseF64 bs = common at h hli
          by_cases hco : common.isEmpty = true
          · rw [if_pos hco] at h
            exact hsk (hli.trans (List.isEmpty_iff.mp hco)) h
          · rw [if_neg hco] at h
            have hst : WhereHolds atom [withoutCommon sameSelect term common bs] ↔
                HoldsWithoutLifted sameSelect parseF64 atom term.expr := by
              unfold HoldsWithoutLifted
              rw [hli,if_neg fun hnil => hco (List.isEmpty_iff.mpr hnil),hbs,
                withoutCommon_holds (branches_ne_nil hbs) hhe]
              simp
            generalize withoutCommon sameSelect term common bs = term' at h hst
            have hset : terms.set i term' ++ common.map (fun c => fresh c term.fromOuterJoin) =
                (terms.take i ++ [term']) ++
                  (terms.drop (i + 1) ++ common.map fun c => fresh c term.fromOuterJoin) := by
              rw [set_eq_take_append_cons_drop,if_pos hlt]
              simp
            have hlen : (terms.take i ++ [term']).length = i + 1 := by
              rw [length_append,length_take,Nat.min_eq_left (Nat.le_of_lt hlt)]
              rfl
            rw [hset] at h
            rw [ih h,take_left' hlen,drop_left' hlen,whereHolds_append,forall_mem_append,forall_mem_map,allHold_iff,hli]
            · tauto
            · rw [drop_left' hlen,forall_mem_append,forall_mem_map]
              exact ⟨hre,fun _ _ => rfl⟩

theorem mem_commonConjuncts (h : c ∈ commonConjuncts sameSelect parseF64 (first :: rest)) :
    c ∈ first.1 ∧ ∀ b ∈ rest, ∃ e ∈ b.1, exprsAreEquivalent sameSelect parseF64 c e = true := by
  obtain ⟨conjuncts,parens⟩ := first
  induction rest generalizing conjuncts with
  | nil => exact ⟨h,nofun⟩
  | cons b rest ih =>
    obtain ⟨hmem,hre⟩ := ih _ h
    obtain ⟨hmem,hany⟩ := mem_filter.mp hmem
    exact ⟨hmem,forall_mem_cons.mpr ⟨any_eq_true.mp hany,hre⟩⟩

theorem shares_of_lifted (h : c ∈ e.lifted sameSelect parseF64) : Shares sameSelect parseF64 e c := by
  unfold lifted at h
  split at h
  · rename_i hor
    cases hbs : e.branches with
    | error err =>
      rw [hbs] at h
      cases h
    | ok bs =>
      rw [hbs] at h
      cases bs with
      | nil => cases h
      | cons first rest => exact ⟨hor,first,rest,hbs,mem_commonConjuncts h⟩
  · cases h

theorem Alike.lifted_holds (hal : Alike sameSelect parseF64 atom e)
    (hc : c ∈ e.lifted sameSelect parseF64) (h : Holds atom e) : Holds atom c := by
  have hsh := shares_of_lifted hc
  obtain ⟨-,first,rest,hbs,-⟩ := id hsh
  obtain ⟨b,hb,hall⟩ := (holds_branches hbs).mp h
  obtain ⟨d,hd,-,himp⟩ := hal.equivalent c _ hsh hbs b hb
  exact himp (hall d hd)

theorem Alike.holds_of_lifted (hal : Alike sameSelect parseF64 atom e)
    (hhe : HoldsWithoutLifted sameSelect parseF64 atom e)
    (hli : ∀ c ∈ e.lifted sameSelect parseF64, Holds atom c) : Holds atom e := by
  unfold HoldsWithoutLifted at hhe
  split at hhe
  · exact hhe
  · obtain ⟨bs,hbs,b,hb,hall⟩ := hhe
    refine (holds_branches hbs).mpr ⟨b,hb,fun d hd => ?_⟩
    by_cases hsa : ((e.lifted sameSelect parseF64).any fun c => d.same sameSelect c) = true
    · obtain ⟨c,hc,hsa⟩ := any_eq_true.mp hsa
      exact hal.same c bs (shares_of_lifted hc) hbs b hb d hd hsa (hli c hc)
    · exact hall d (mem_filter.mpr ⟨hd,by simpa using hsa⟩)

theorem sum_flattenAnd_le (e : Expr S) : (e.flattenAnd.map sizeOf).sum ≤ sizeOf e := by
  fun_induction flattenAnd e with
  | case1 lhs rhs ihl ihr =>
    rw [map_append,sum_append]
    simp only [binary.sizeOf_spec]
    omega
  | case2 e _ => simp

theorem sizeOf_unwrapParens_le {inner : Expr S} (h : e.unwrapParensOwned = .ok (inner,n)) :
    sizeOf inner ≤ sizeOf e := by
  fun_induction unwrapParensOwned e generalizing n with
  | case1 e ih =>
    obtain ⟨⟨e',count⟩,he,h⟩ := bind_ok h
    cases h
    have := ih he
    simp only [parenthesized.sizeOf_spec,List.cons.sizeOf_spec]
    omega
  | case2 es _ => cases h
  | case3 e _ _ =>
    cases h
    exact Nat.le_refl _

theorem sizeOf_flattenOr_le (h : o ∈ e.flattenOr) : sizeOf o ≤ sizeOf e := by
  fun_induction flattenOr e with
  | case1 lhs rhs ihl ihr =>
    simp only [binary.sizeOf_spec]
    rcases mem_append.mp h with h | h
    · have := ihl h
      omega
    · have := ihr h
      omega
  | case2 e _ => rw [mem_singleton.mp h]

theorem sizeOf_flattenOr_lt (hor : e.isOr = true) (h : o ∈ e.flattenOr) : sizeOf o < sizeOf e := by
  unfold isOr at hor
  split at hor
  · simp only [binary.sizeOf_spec]
    rcases mem_append.mp h with h | h
    · have := sizeOf_flattenOr_le h
      omega
    · have := sizeOf_flattenOr_le h
      omega
  · cases hor

theorem sum_commonConjuncts_le : ((commonConjuncts sameSelect parseF64 bs).map sizeOf).sum ≤
      ((bs.head?.map Prod.fst).getD [] |>.map sizeOf).sum := by
  unfold commonConjuncts
  cases bs with
  | nil => simp
  | cons first rest =>
    obtain ⟨conjuncts,parens⟩ := first
    induction rest generalizing conjuncts with
    | nil => exact Nat.le_refl _
    | cons b rest ih =>
      refine (ih _).trans ?_
      exact ((filter_sublist).map sizeOf).sum_le_sum (fun _ _ => Nat.zero_le _)

theorem sizeOf_pos (e : Expr S) : 0 < sizeOf e := by
  cases e <;> simp

theorem sum_lifted_lt : ((e.lifted sameSelect parseF64).map sizeOf).sum < sizeOf e := by
  have hpos := sizeOf_pos e
  unfold lifted
  split
  · rename_i hor
    cases hbs : e.branches with
    | error err => simpa using hpos
    | ok bs =>
      refine Nat.lt_of_le_of_lt sum_commonConjuncts_le ?_
      cases bs with
      | nil => simpa using hpos
      | cons b bs =>
        obtain ⟨o,ho,hb⟩ := forall₂_right (mapM_ok hbs) (.head _)
        obtain ⟨⟨inner,parens⟩,hin,hb⟩ := bind_ok hb
        cases hb
        have hfl := sum_flattenAnd_le inner
        have hun := sizeOf_unwrapParens_le hin
        have hlt := sizeOf_flattenOr_lt hor ho
        simp only [head?_cons,Option.map_some,Option.getD_some]
        omega
  · simpa using hpos

theorem sizeOf_lifted_lt (h : c ∈ e.lifted sameSelect parseF64) : sizeOf c < sizeOf e :=
  Nat.lt_of_le_of_lt (le_sum_of_mem (mem_map_of_mem h)) (sum_lifted_lt)

/-- By induction on the size of the term. -/
theorem allHold_iff_holds {e : Expr S} (hal : AlikeThroughout sameSelect parseF64 atom e) :
    AllHold sameSelect parseF64 atom e ↔ Holds atom e := by
  have hhe := hal e .refl
  have hth : ∀ c ∈ e.lifted sameSelect parseF64, AllHold sameSelect parseF64 atom c ↔ Holds atom c := by
    intro c hc
    have := sizeOf_lifted_lt hc
    exact allHold_iff_holds fun d hd => hal d (.head (shares_of_lifted hc) hd)
  rw [allHold_iff]
  constructor
  · rintro ⟨hwi,hli⟩
    exact hhe.holds_of_lifted hwi fun c hc => (hth c hc).mp (hli c hc)
  · intro h
    exact ⟨h.withoutLifted,fun c hc => (hth c hc).mpr (hhe.lifted_holds hc h)⟩
termination_by sizeOf e

/-- Where the function returns, the clause it returns is TRUE exactly when the given one is, at every
row at which the conjuncts taken for common are alike. -/
theorem lift_preserves {terms : List (Expr S × Option Nat)} {terms' : List (WhereTerm S)}
    (h : LiftCommonSubexpressions sameSelect parseF64 (terms.map fun t => .fresh t.1 t.2) (.ok terms'))
    (hal : ∀ e ∈ terms.map Prod.fst, AlikeThroughout sameSelect parseF64 atom e) :
    WhereHolds atom terms' ↔ ∀ e ∈ terms.map Prod.fst, Holds atom e := by
  obtain ⟨fuel,h⟩ := h
  have haf : WhereHolds atom terms' ↔ _ := liftLoop_spec h (by
    rw [drop_zero,forall_mem_map]
    exact fun _ _ => rfl)
  rw [drop_zero,forall_mem_map] at haf
  rw [haf]
  rw [forall_mem_map] at hal ⊢
  exact (and_iff_right nofun).trans (forall₂_congr fun t ht => allHold_iff_holds (hal t ht))

theorem liftTurn_again (hte : terms[i]? = some term) (h : liftTurn sameSelect parseF64 (i,terms) = .again s) :
    s.1 = i + 1 ∧ ((s.2.drop (i + 1)).map fun t => sizeOf t.expr).sum <
      sizeOf term.expr + ((terms.drop (i + 1)).map fun t => sizeOf t.expr).sum := by
  have hpos := sizeOf_pos term.expr
  have hlt := (List.getElem?_eq_some_iff.mp hte).1
  simp only [liftTurn,hte] at h
  split at h
  · cases h
    exact ⟨rfl,Nat.lt_add_of_pos_left hpos⟩
  · rename_i hor
    split at h
    · cases h
    · rename_i bs hbs
      split at h
      · cases h
        exact ⟨rfl,Nat.lt_add_of_pos_left hpos⟩
      · cases h
        have hli : term.expr.lifted sameSelect parseF64 = commonConjuncts sameSelect parseF64 bs := by
          unfold lifted
          rw [if_pos (by simpa using hor),hbs]
        have hsum : ((term.expr.lifted sameSelect parseF64).map sizeOf).sum < _ :=
          sum_lifted_lt
        rw [hli] at hsum
        rw [drop_append_of_le_length (by rwa [length_set]),drop_set_of_lt (by omega),
          map_append,sum_append,map_map]
        have hmap : (commonConjuncts sameSelect parseF64 bs).map ((fun t => sizeOf t.expr) ∘
            fun c => fresh c term.fromOuterJoin) =
            (commonConjuncts sameSelect parseF64 bs).map sizeOf := rfl
        rw [hmap]
        omega

/-- The function returns, whatever the terms. -/
theorem lift_ends : ∃ r, LiftCommonSubexpressions sameSelect parseF64 terms r := by
  suffices h : ∀ n i (terms : List (WhereTerm S)), ((terms.drop i).map fun t => sizeOf t.expr).sum ≤ n →
      ∃ r, Ends (liftTurn sameSelect parseF64) (i, terms) r from h _ 0 terms (Nat.le_refl _)
  intro n
  induction n using Nat.strong_induction_on with
  | _ n ih =>
    intro i terms hn
    cases hte : terms[i]? with
    | none => exact ⟨_,.done (by simp [liftTurn,hte]; rfl)⟩
    | some term =>
      rw [drop_of_getElem? hte] at hn
      cases htu : liftTurn sameSelect parseF64 (i, terms) with
      | done r => exact ⟨_,.done htu⟩
      | fail err => exact ⟨_,.fail htu⟩
      | again s =>
        obtain ⟨hi,hs⟩ := liftTurn_again hte htu
        obtain ⟨j,terms'⟩ := s
        obtain rfl : j = i + 1 := hi
        obtain ⟨r,hr⟩ := ih _ (Nat.lt_of_lt_of_le hs hn) (i + 1) terms' (Nat.le_refl _)
        exact ⟨r,.again htu hr⟩

end

def xEquals (quoted : Token) : Expr Unit :=
  .binary (.other (.column 0 0 false) []) .equals (.literal (.string quoted))

def lowerA : Token := ⟨"'a'", by decide⟩

def upperA : Token := ⟨"'A'", by decide⟩

/-- The truth of such a comparison where `x` has a text, which is compared byte by byte. -/
def textOfX (x : String) : Expr Unit → Option Bool
  | .binary (.other (.column _ _ _) []) .equals (.literal (.string quoted)) =>
    some (quoted.text.toList.tail.dropLast == x.toList)
  | _ => none

theorem column_equivalent : exprsAreEquivalent (fun _ _ => true) (fun _ => none)
    (.other (.column 0 0 false) [] : Expr Unit) (.other (.column 0 0 false) []) = true := by
  unfold exprsAreEquivalent
  rfl

theorem xEquals_equivalent :
    exprsAreEquivalent (fun _ _ => true) (fun _ => none) (xEquals lowerA) (xEquals upperA) = true := by
  have hli : exprsAreEquivalent (fun _ _ => true) (fun _ => none)
      (.literal (.string lowerA) : Expr Unit) (.literal (.string upperA)) = true := by
    unfold exprsAreEquivalent
    rfl
  unfold xEquals
  unfold exprsAreEquivalent
  rw [column_equivalent,hli]
  rfl

theorem lift_xEquals : LiftCommonSubexpressions (fun _ _ => true) (fun _ => none)
    [.fresh (.binary (xEquals lowerA) .or (xEquals upperA)) none]
    (.ok [⟨.binary (xEquals lowerA) .or (xEquals upperA),none,true⟩,.fresh (xEquals lowerA) none]) := by
  have hco : commonConjuncts (fun _ _ => true) (fun _ => none)
      [([xEquals lowerA], 0),([xEquals upperA], 0)] = [xEquals lowerA] := by
    unfold commonConjuncts
    simp [xEquals_equivalent]
  have htu : liftTurn (fun _ _ => true) (fun _ => none)
      (0, [.fresh (.binary (xEquals lowerA) .or (xEquals upperA)) none]) =
      .again (1, [⟨.binary (xEquals lowerA) .or (xEquals upperA),none,true⟩,
        .fresh (xEquals lowerA) none]) := by
    have hbs : (binary (xEquals lowerA) .or (xEquals upperA)).branches =
        .ok [([xEquals lowerA], 0),([xEquals upperA], 0)] := rfl
    simp only [liftTurn,getElem?_cons_zero,fresh,hbs,hco]
    rfl
  exact .again htu (.again rfl (.done rfl))

/-- `WHERE x = 'a' OR x = 'A'` loses the row where `x` is `'A'`. -/
theorem lift_loses_row : ∃ terms', LiftCommonSubexpressions (fun _ _ => true) (fun _ => none)
    [.fresh (.binary (xEquals lowerA) .or (xEquals upperA)) none] (.ok terms') ∧
    Holds (textOfX "A") (.binary (xEquals lowerA) .or (xEquals upperA)) ∧
    ¬ WhereHolds (textOfX "A") terms' := by
  refine ⟨_,lift_xEquals,holds_or.mpr (.inr rfl),fun h => ?_⟩
  have hli := h (.fresh (xEquals lowerA) none) (.tail _ (.head _)) rfl
  unfold Holds at hli
  exact absurd hli (by decide)

/-- At a row with `'a'` the conjunct that is lifted is TRUE, and so is the clause. -/
theorem xEquals_alike : AlikeThroughout (fun _ _ => true) (fun _ => none) (textOfX "a")
    (.binary (xEquals lowerA) .or (xEquals upperA)) := by
  have hbs : (binary (xEquals lowerA) .or (xEquals upperA)).branches =
      .ok [([xEquals lowerA], 0),([xEquals upperA], 0)] := rfl
  have hsh : ∀ c, Shares (fun _ _ => true) (fun _ => none) (.binary (xEquals lowerA) .or (xEquals upperA)) c →
      c = xEquals lowerA := by
    rintro c ⟨-,first,rest,hbr,hc,-⟩
    cases hbs.symm.trans hbr
    exact mem_singleton.mp hc
  have hho : Holds (textOfX "a") (xEquals lowerA) := rfl
  have hsa : (xEquals upperA).same (fun _ _ => true) (xEquals lowerA) = false := by
    simp [xEquals,Expr.same,lowerA,upperA]
  intro c hc
  rcases Relation.ReflTransGen.cases_head hc with rfl | ⟨d,hd,hc⟩
  · refine ⟨fun c bs hc hbr => ?_,fun c bs hc hbr => ?_⟩
    · obtain rfl := hsh c hc
      cases hbs.symm.trans hbr
      simp [hho,xEquals_equivalent]
    · obtain rfl := hsh c hc
      cases hbs.symm.trans hbr
      simp [hsa]
  · obtain rfl := hsh d hd
    rcases Relation.ReflTransGen.cases_head hc with rfl | ⟨d,hd,-⟩
    · exact ⟨fun c bs hc => absurd hc.1 (by simp [xEquals,isOr]),fun c bs hc => absurd hc.1 (by simp [xEquals,isOr])⟩
    · exact absurd hd.1 (by simp [xEquals,isOr])

theorem lift_keeps_row : ∃ terms', LiftCommonSubexpressions (fun _ _ => true) (fun _ => none)
    [.fresh (.binary (xEquals lowerA) .or (xEquals upperA)) none] (.ok terms') ∧
    (WhereHolds (textOfX "a") terms' ↔
      ∀ e ∈ [binary (xEquals lowerA) .or (xEquals upperA)], Holds (textOfX "a") e) :=
  ⟨_,lift_xEquals,@lift_preserves _ _ _ _ [(binary (xEquals lowerA) .or (xEquals upperA), none)] _ lift_xEquals
    (forall_mem_singleton.mpr xEquals_alike)⟩

end OxiSql.Ast
