import OxiSql.Optimizer.Join
import OxiSql.Optimizer.LiftPreserves

namespace OxiSql.Optimizer
open Ast OxiSql.Types List

inductive EliminatesSort where
  | groupBy
  | orderBy
  | groupByAndOrderBy

structure GroupBy (S : Type) where
  exprs : List (Expr S)
  sortOrder : Option (List SortOrder)

variable {S : Type}

def ColumnOrder.ofTerm : Expr S × SortOrder → Option ColumnOrder
  | (.other (.column table column _) _, order) => some ⟨table, column, order⟩
  | _ => none

def maybeFromIterator (list : List (Expr S × SortOrder)) (eliminatesSort : EliminatesSort) :
    Option (List ColumnOrder × EliminatesSort) :=
  if list.isEmpty then none
  else (list.mapM ColumnOrder.ofTerm).map (·, eliminatesSort)

section
variable (equivalent : Expr S → Expr S → Bool)

/-- The first ORDER BY term that is equivalent, or else `usize::MAX`. -/
def sortKey (orderBy : List (Expr S × SortOrder)) (expr : Expr S) : Nat :=
  (orderBy.findIdx? fun term => equivalent expr term.1).getD (2 ^ 64 - 1)

def groupByContainsAll (orderBy : List (Expr S × SortOrder)) (exprs : List (Expr S)) : Bool :=
  orderBy.all fun term => exprs.any (equivalent term.1)

/-- The target, and what is left of the two clauses; an error is the message of a panic. -/
def computeOrderTarget : Option (List (Expr S × SortOrder)) → Option (GroupBy S) → Except String
    (Option (List ColumnOrder × EliminatesSort) × Option (List (Expr S × SortOrder)) × Option (GroupBy S))
  | none, none => .ok (none, none, none)
  | some orderBy, none => .ok (maybeFromIterator orderBy .orderBy, some orderBy, none)
  | none, some groupBy => .ok (maybeFromIterator (groupBy.exprs.map (·, .asc)) .groupBy, none, some groupBy)
  | some orderBy, some groupBy =>
    if groupByContainsAll equivalent orderBy groupBy.exprs then
      let exprs := groupBy.exprs.mergeSort fun a b => sortKey equivalent orderBy a ≤ sortKey equivalent orderBy b
      if exprs.length < orderBy.length then .error "assertion failed: group_by.exprs.len() >= order_by.len()"
      else
        match groupBy.sortOrder with
        | none => .error "GROUP BY should have a sort order before optimization is run"
        | some sortOrder =>
          if sortOrder.length < orderBy.length then .error "index out of bounds"
          else
            let sortOrder := orderBy.map Prod.snd ++ sortOrder.drop orderBy.length
            .ok (maybeFromIterator (exprs.zip sortOrder) .groupByAndOrderBy, none, some ⟨exprs, some sortOrder⟩)
    else .ok (maybeFromIterator (groupBy.exprs.map (·, .asc)) .groupBy, some orderBy, some groupBy)

end

/-- In a list that is sorted by a key, the first element with a key comes after those with smaller ones. -/
theorem exists_first_key {α : Type} {key : α → Nat} {l : List α} {e : α} (hso : l.Pairwise fun a b => key a ≤ key b)
    (he : e ∈ l) (hk : key e = j) : ∃ pre e' rest, l = pre ++ e' :: rest ∧ (∀ a ∈ pre, key a < j) ∧ key e' = j ∧
      pre.length = l.countP (key · < j) := by
  induction l with
  | nil => cases he
  | cons a l ih =>
    obtain ⟨ha,hso⟩ := pairwise_cons.mp hso
    by_cases hlt : key a < j
    · have hel : e ∈ l := (mem_cons.mp he).resolve_left fun heq => by
        rw [heq] at hk
        omega
      obtain ⟨pre,e',rest,rfl,hpre,hke,hlen⟩ := ih hso hel
      refine ⟨a :: pre,e',rest,rfl,forall_mem_cons.mpr ⟨hlt,hpre⟩,hke,?_⟩
      rw [countP_cons_of_pos (by simpa using hlt),length_cons,hlen]
    · have hge : ∀ b ∈ a :: l, j ≤ key b := by
        intro b hb
        rcases mem_cons.mp hb with rfl | hb
        · omega
        · have := ha b hb
          omega
      have hka : key a = j := by
        rcases mem_cons.mp he with rfl | he
        · exact hk
        · have := ha e he
          omega
      refine ⟨[],a,l,rfl,by simp,hka,?_⟩
      rw [length_nil,eq_comm,countP_eq_zero]
      intro b hb
      simpa using hge b hb

section
variable {V G : Type} (cmp : V → V → Ordering) (val : G → Expr S → V)

def compareTerm (term : Expr S × SortOrder) (a b : G) : Ordering :=
  match term.2 with
  | .asc => cmp (val a term.1) (val b term.1)
  | .desc => cmp (val b term.1) (val a term.1)

/-- Groups compared by one expression after the other. -/
def compareBy : List (Expr S × SortOrder) → G → G → Ordering
  | [], _, _ => .eq
  | term :: terms, a, b => (compareTerm cmp val term a b).then (compareBy terms a b)

def SortedBy (terms : List (Expr S × SortOrder)) (groups : List G) : Prop :=
  groups.Pairwise fun a b => compareBy cmp val terms a b ≠ .gt

theorem compareBy_append : compareBy cmp val (terms ++ terms') a b =
    (compareBy cmp val terms a b).then (compareBy cmp val terms' a b) := by
  induction terms with
  | nil => rfl
  | cons term terms ih => rw [cons_append,compareBy,compareBy,ih,Ordering.then_assoc]

end

/-- Whatever the values of the groups are, as long as equivalent expressions of the two clauses have one value: groups
that are sorted by the one list are sorted by the other. -/
def SortsBy (equivalent : Expr S → Expr S → Bool) (exprs : List (Expr S)) (terms orderBy : List (Expr S × SortOrder)) :
    Prop :=
  ∀ (V G : Type) (cmp : V → V → Ordering) (val : G → Expr S → V), (∀ x y, cmp y x = (cmp x y).swap) →
    (∀ e ∈ orderBy.map Prod.fst ++ exprs, ∀ e' ∈ orderBy.map Prod.fst ++ exprs, equivalent e e' →
      ∀ g, val g e = val g e') →
    ∀ groups, SortedBy cmp val terms groups → SortedBy cmp val orderBy groups

section
variable (equivalent : Expr S → Expr S → Bool) (orderBy : List (Expr S × SortOrder)) (exprs : List (Expr S))
  (sortOrder : List SortOrder)

/-- The direction that a place of the GROUP BY list gets. -/
def directions : List SortOrder :=
  orderBy.map Prod.snd ++ sortOrder.drop orderBy.length

/-- The GROUP BY list in the order of its matches, with its directions. -/
def regrouped : List (Expr S × SortOrder) :=
  (exprs.mergeSort fun a b => sortKey equivalent orderBy a ≤ sortKey equivalent orderBy b).zip
    (directions orderBy sortOrder)

/-- Each ORDER BY term repeats an earlier one, or it is the first match of a GROUP BY expression, and then the number of
GROUP BY expressions with earlier matches is the place of a direction that is its own. -/
def Aligned : Prop :=
  ∀ j term, orderBy[j]? = some term →
    (∃ earlier ∈ orderBy.take j, equivalent earlier.1 term.1 = true) ∨
    (∃ e ∈ exprs, sortKey equivalent orderBy e = j) ∧
      (directions orderBy sortOrder)[exprs.countP (sortKey equivalent orderBy · < j)]? = some term.2

/-- The function returns, the GROUP BY list is a permutation of what it was, and where the ORDER BY is removed the GROUP
BY sorts by it. -/
def Merged : Prop :=
  ∃ target orderBy' exprs' sortOrder', computeOrderTarget equivalent (some orderBy) (some ⟨exprs, some sortOrder⟩) =
      .ok (target, orderBy', some ⟨exprs', some sortOrder'⟩) ∧ exprs'.Perm exprs ∧
    (orderBy' = none → SortsBy equivalent exprs (exprs'.zip sortOrder') orderBy)

end

section

variable {equivalent : Expr S → Expr S → Bool} {orderBy : List (Expr S × SortOrder)} {exprs : List (Expr S)}
  {sortOrder : List SortOrder}

theorem sortKey_match (hmax : orderBy.length < 2 ^ 63) (h : sortKey equivalent orderBy e < orderBy.length) :
    equivalent e orderBy[sortKey equivalent orderBy e].1 = true := by
  cases hfi : orderBy.findIdx? fun term => equivalent e term.1 with
  | none =>
    rw [sortKey,hfi,Option.getD_none] at h
    omega
  | some i =>
    have hk : sortKey equivalent orderBy e = i := by rw [sortKey,hfi,Option.getD_some]
    simp only [hk]
    exact (findIdx?_eq_some_iff_getElem.mp hfi).2.1

theorem sortKey_eq (hmax : orderBy.length < 2 ^ 63) (hat : orderBy[j]? = some term)
    (h : sortKey equivalent orderBy e = j) : equivalent e term.1 = true := by
  subst h
  obtain ⟨hj,rfl⟩ := List.getElem?_eq_some_iff.mp hat
  exact sortKey_match hmax hj

theorem sortKey_lt (hmax : orderBy.length < 2 ^ 63) (hj : j ≤ orderBy.length) (h : sortKey equivalent orderBy e < j) :
    ∃ term ∈ orderBy.take j, equivalent e term.1 = true :=
  ⟨_,mem_take_iff_getElem.mpr ⟨_,by omega,rfl⟩,sortKey_match hmax (h.trans_le hj)⟩

section
variable {V G : Type} {cmp : V → V → Ordering} {val : G → Expr S → V} (hsw : ∀ x y, cmp y x = (cmp x y).swap)
include hsw

/-- Whether two groups tie does not depend on the direction. -/
theorem compareTerm_eq_iff : compareTerm cmp val term a b = .eq ↔ cmp (val a term.1) (val b term.1) = .eq := by
  rw [compareTerm]
  split
  · rfl
  · rw [hsw]
    cases cmp (val a term.1) (val b term.1) <;> simp

theorem compareBy_eq (h : ∀ term ∈ terms, cmp (val a term.1) (val b term.1) = .eq) :
    compareBy cmp val terms a b = .eq := by
  induction terms with
  | nil => rfl
  | cons term terms ih =>
    obtain ⟨ht,hte⟩ := forall_mem_cons.mp h
    rw [compareBy,(compareTerm_eq_iff hsw).mpr ht,ih hte]
    rfl

end

/-- The sorted GROUP BY list with its directions, split at the first expression that matches the `j`-th term. -/
theorem split_at_match (hlen : sortOrder.length = exprs.length) (hle : orderBy.length ≤ exprs.length)
    (he : e ∈ exprs) (hk : sortKey equivalent orderBy e = j) :
    ∃ pre e' direction rest, regrouped equivalent orderBy exprs sortOrder = pre ++ (e',direction) :: rest ∧
      (∀ term ∈ pre, sortKey equivalent orderBy term.1 < j ∧ term.1 ∈ exprs) ∧ e' ∈ exprs ∧
      sortKey equivalent orderBy e' = j ∧
      (directions orderBy sortOrder)[exprs.countP (sortKey equivalent orderBy · < j)]? = some direction := by
  rw [regrouped]
  have hso := @pairwise_mergeSort _ (fun a b => sortKey equivalent orderBy a ≤ sortKey equivalent orderBy b)
    (fun a b c hab hbc => by simp at *; omega) (fun a b => by simp; omega) exprs
  have hperm := mergeSort_perm exprs fun a b => sortKey equivalent orderBy a ≤ sortKey equivalent orderBy b
  generalize exprs.mergeSort _ = sorted at hso hperm
  obtain ⟨pre,e',rest,rfl,hpre,hke,hpl⟩ :=
    exists_first_key (by simpa using hso) (hperm.mem_iff.mpr he) hk
  have hdl : pre.length < (directions orderBy sortOrder).length := by
    have := hperm.length_eq
    rw [length_append,length_cons] at this
    simp only [directions,length_append,length_map,length_drop]
    omega
  rw [hperm.countP_eq] at hpl
  refine ⟨pre.zip ((directions orderBy sortOrder).take pre.length),e',(directions orderBy sortOrder)[pre.length],
    rest.zip ((directions orderBy sortOrder).drop (pre.length + 1)),?_,fun term ht => ?_,?_,hke,?_⟩
  · conv_lhs => rw [← take_append_drop pre.length (directions orderBy sortOrder),drop_eq_getElem_cons hdl]
    rw [zip_append (by rw [length_take]; omega),zip_cons_cons]
  · have hmem := (of_mem_zip ht).1
    exact ⟨hpre _ hmem,hperm.mem_iff.mp (mem_append_left _ hmem)⟩
  · exact hperm.mem_iff.mp (by simp)
  · rw [← hpl]
    exact getElem?_eq_getElem hdl

/-- Groups that tie on the terms before are told apart by the first match of a term as by the term. -/
theorem Aligned.sortsBy (h : Aligned equivalent orderBy exprs sortOrder) (hmax : orderBy.length < 2 ^ 63)
    (hlen : sortOrder.length = exprs.length) (hle : orderBy.length ≤ exprs.length) :
    SortsBy equivalent exprs (regrouped equivalent orderBy exprs sortOrder) orderBy := by
  intro V G cmp val hsw hval groups hg
  refine hg.imp fun {a b} hab => ?_
  have hmem : ∀ term ∈ orderBy, term.1 ∈ orderBy.map Prod.fst ++ exprs :=
    fun term ht => mem_append_left _ (mem_map_of_mem ht)
  have hpart : ∀ before todo, orderBy = before ++ todo → (∀ term ∈ before, cmp (val a term.1) (val b term.1) = .eq) →
      compareBy cmp val todo a b ≠ .gt := by
    intro before todo hor hbe
    induction todo generalizing before with
    | nil => simp [compareBy]
    | cons term todo ih =>
      have hat : orderBy[before.length]? = some term := by rw [hor]; simp
      have hta : orderBy.take before.length = before := by rw [hor,take_left]
      have hin : term ∈ orderBy := mem_of_getElem? hat
      have hnext : cmp (val a term.1) (val b term.1) = .eq → compareBy cmp val todo a b ≠ .gt := fun heq =>
        ih (before ++ [term]) (by simpa using hor) (by
          simpa [or_imp,forall_and] using ⟨fun e d h => hbe (e,d) h,heq⟩)
      rw [compareBy]
      rcases h _ term hat with ⟨earlier,hea,heq⟩ | ⟨⟨e,he,hk⟩,hdi⟩
      · rw [hta] at hea
        have hsame := hval _ (hmem earlier (hor ▸ mem_append_left _ hea)) _ (hmem term hin) heq
        have htie := hbe earlier hea
        rw [hsame,hsame] at htie
        rw [(compareTerm_eq_iff hsw).mpr htie]
        exact hnext htie
      · obtain ⟨pre,e',direction,rest,hsp,hpre,he',hk',hdi'⟩ := split_at_match hlen hle he hk
        obtain rfl : direction = term.2 := Option.some.inj (hdi'.symm.trans hdi)
        have htie : compareBy cmp val pre a b = .eq := by
          refine compareBy_eq hsw fun t ht => ?_
          obtain ⟨earlier,hea,heq⟩ := sortKey_lt hmax (List.getElem?_eq_some_iff.mp hat).1.le (hpre t ht).1
          rw [hta] at hea
          have hsame := hval _ (mem_append_right _ (hpre t ht).2) _
            (hmem earlier (hor ▸ mem_append_left _ hea)) heq
          rw [hsame,hsame]
          exact hbe earlier hea
        have hsame := hval _ (mem_append_right _ he') _ (hmem term hin) (sortKey_eq hmax hat hk')
        have hfirst : compareTerm cmp val (e',term.2) a b = compareTerm cmp val term a b := by
          simp only [compareTerm,hsame]
        rw [hsp,compareBy_append,htie,compareBy,hfirst] at hab
        cases hc : compareTerm cmp val term a b with
        | lt => simp
        | eq => exact hnext ((compareTerm_eq_iff hsw).mp hc)
        | gt => simp [hc] at hab
  exact hpart [] orderBy rfl (by simp)

/-- On the expressions of the two clauses the equivalence is symmetric and transitive. -/
structure EquivalenceOn (equivalent : Expr S → Expr S → Bool) (clause : List (Expr S)) : Prop where
  symm : ∀ e ∈ clause, ∀ e' ∈ clause, equivalent e e' = true → equivalent e' e = true
  trans : ∀ e ∈ clause, ∀ e' ∈ clause, ∀ e'' ∈ clause, equivalent e e' = true → equivalent e' e'' = true →
    equivalent e e'' = true

theorem exists_opposed {v : Int → Expr S → Int} (hv : ∀ g, v g x = g) (hd : d ≠ d') :
    ∃ a b, compareTerm compare v (x,d) a b = .lt ∧ compareTerm compare v (x,d') a b = .gt := by
  cases d with
  | asc =>
    cases d' with
    | asc => cases hd rfl
    | desc => exact ⟨0,1,by simp only [compareTerm,hv]; decide,by simp only [compareTerm,hv]; decide⟩
  | desc =>
    cases d' with
    | asc => exact ⟨1,0,by simp only [compareTerm,hv]; decide,by simp only [compareTerm,hv]; decide⟩
    | desc => cases hd rfl

/-- A direction that is not the term's sorts some two groups the other way. -/
theorem EquivalenceOn.aligned (hco : EquivalenceOn equivalent (orderBy.map Prod.fst ++ exprs))
    (hmax : orderBy.length < 2 ^ 63) (hlen : sortOrder.length = exprs.length) (hle : orderBy.length ≤ exprs.length)
    (hall : groupByContainsAll equivalent orderBy exprs = true)
    (h : SortsBy equivalent exprs (regrouped equivalent orderBy exprs sortOrder) orderBy) :
    Aligned equivalent orderBy exprs sortOrder := by
  intro j term hat
  by_cases hnew : ∃ earlier ∈ orderBy.take j, equivalent earlier.1 term.1 = true
  · exact .inl hnew
  have hin : ∀ {t : Expr S × SortOrder}, t ∈ orderBy → t.1 ∈ orderBy.map Prod.fst ++ exprs :=
    fun ht => mem_append_left _ (mem_map_of_mem ht)
  have hex : ∀ {e}, e ∈ exprs → e ∈ orderBy.map Prod.fst ++ exprs := fun he => mem_append_right _ he
  have hte := mem_of_getElem? hat
  obtain ⟨e,he,heq⟩ : ∃ e ∈ exprs, equivalent term.1 e = true := by
    simpa using all_eq_true.mp hall term hte
  have hsy := hco.symm _ (hin hte) _ (hex he) heq
  -- what matches an earlier term does not match this one
  have hdiff : ∀ e' ∈ exprs, ∀ earlier ∈ orderBy.take j, equivalent e' earlier.1 = true →
      equivalent e' term.1 = false := by
    intro e' he' earlier hea hear
    by_contra hbad
    have hmem := hin (mem_of_mem_take hea)
    exact hnew ⟨earlier,hea,hco.trans _ hmem _ (hex he') _ (hin hte) (hco.symm _ (hex he') _ hmem hear)
      (by simpa using hbad)⟩
  have hkey : sortKey equivalent orderBy e = j := by
    obtain ⟨hj,hterm⟩ := List.getElem?_eq_some_iff.mp hat
    have hfi : orderBy.findIdx? (fun term => equivalent e term.1) = some j := by
      refine findIdx?_eq_some_iff_getElem.mpr ⟨hj,by rw [hterm]; exact hsy,fun i hi hbad => ?_⟩
      have := hdiff e he _ (mem_take_iff_getElem.mpr ⟨i,by omega,rfl⟩) hbad
      rw [hsy] at this
      cases this
    rw [sortKey,hfi,Option.getD_some]
  obtain ⟨pre,e',direction,rest,hsp,hpre,he',hk',hdi⟩ := split_at_match hlen hle he hkey
  refine .inr ⟨⟨e,he,hkey⟩,hdi.trans (congrArg some ?_)⟩
  by_contra hne
  -- two groups that differ in what is equivalent to this term
  let val : Int → Expr S → Int := fun g x => if equivalent x term.1 then g else 0
  have hself : equivalent term.1 term.1 = true := hco.trans _ (hin hte) _ (hex he) _ (hin hte) heq hsy
  have hval : ∀ e ∈ orderBy.map Prod.fst ++ exprs, ∀ e' ∈ orderBy.map Prod.fst ++ exprs, equivalent e e' = true →
      ∀ g, val g e = val g e' := by
    intro e he e' he' heq g
    have hiff : equivalent e term.1 = true ↔ equivalent e' term.1 = true :=
      ⟨fun h => hco.trans _ he' _ he _ (hin hte) (hco.symm _ he _ he' heq) h,
        fun h => hco.trans _ he _ he' _ (hin hte) heq h⟩
    simp only [val,hiff]
  have hsw : ∀ x y : Int, compare y x = (compare x y).swap := fun x y => Std.OrientedCmp.eq_swap
  have hconst : ∀ {x a b}, equivalent x term.1 = false → compare (val a x) (val b x) = .eq := by
    intro x a b hx
    simp [val,hx]
  obtain ⟨a,b,hdir,hterm⟩ := exists_opposed (v := val) (x := term.1) (fun g => by simp [val,hself]) hne
  have hgroups : SortedBy compare val orderBy [a,b] := by
    refine h Int Int compare val hsw hval [a,b] (pairwise_pair.mpr ?_)
    have htie : compareBy compare val pre a b = .eq := by
      refine compareBy_eq hsw fun t ht => hconst ?_
      obtain ⟨earlier,hea,hear⟩ := sortKey_lt hmax (List.getElem?_eq_some_iff.mp hat).1.le (hpre t ht).1
      exact hdiff _ (hpre t ht).2 earlier hea hear
    have hfirst : compareTerm compare val (e',direction) a b = .lt := by
      rw [← hdir]
      simp [compareTerm,val,hself,sortKey_eq hmax hat hk']
    rw [hsp,compareBy_append,htie,compareBy,hfirst]
    simp
  obtain ⟨hj,hterm'⟩ := List.getElem?_eq_some_iff.mp hat
  have hor : orderBy = orderBy.take j ++ term :: orderBy.drop (j + 1) := by
    rw [← hterm',← drop_eq_getElem_cons hj,take_append_drop]
  have hbefore : compareBy compare val (orderBy.take j) a b = .eq := by
    refine compareBy_eq hsw fun t ht => hconst ?_
    by_contra hbad
    exact hnew ⟨t,ht,by simpa using hbad⟩
  refine (pairwise_pair.mp hgroups) ?_
  rw [hor,compareBy_append,hbefore,compareBy,hterm]
  rfl

theorem merged_iff (hlen : sortOrder.length = exprs.length) : Merged equivalent orderBy exprs sortOrder ↔
    (groupByContainsAll equivalent orderBy exprs = true → orderBy.length ≤ exprs.length ∧
      SortsBy equivalent exprs (regrouped equivalent orderBy exprs sortOrder) orderBy) := by
  rw [Merged,computeOrderTarget]
  split
  next hall =>
    rw [forall_prop_of_true hall]
    by_cases hle : orderBy.length ≤ exprs.length
    · simp only [length_mergeSort,hlen,if_neg (Nat.not_lt.mpr hle),hle,true_and]
      constructor
      · rintro ⟨_,_,_,_,heq,-,hso⟩
        cases heq
        exact hso rfl
      · exact fun hso => ⟨_,_,_,_,rfl,mergeSort_perm ..,fun _ => hso⟩
    · simp only [length_mergeSort,if_pos (Nat.lt_of_not_le hle)]
      exact iff_of_false (by simp) fun h => hle h.1
  next hall => exact iff_of_true ⟨_,_,_,_,rfl,.refl _,by simp⟩ fun h => absurd h hall

end

def columnA : Expr Unit := .other (.column 0 0 false) []

end OxiSql.Optimizer
