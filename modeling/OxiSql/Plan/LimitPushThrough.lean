import OxiSql.Plan.LogicalPlan

namespace OxiSql.Plan
open LogicalPlan

def canPushLimitInto : LogicalPlan → Bool
  | scan .. => true
  | filter input _ | project input _ | sort input _ | limit input _ _ => canPushLimitInto input
  | _ => false

/-- A limit that meets another one on its way to the scan is dropped. -/
def injectLimit (n : Nat) : LogicalPlan → LogicalPlan
  | scan table aliasName none => scan table aliasName (some n)
  | scan table aliasName (some e) => scan table aliasName (some (min e n))
  | filter input predicate => filter (injectLimit n input) predicate
  | project input columns => project (injectLimit n input) columns
  | sort input orderBy => sort (injectLimit n input) orderBy
  | other => other

def pushLimit : LogicalPlan → LogicalPlan
  | limit input (some n) none =>
    if canPushLimitInto (pushLimit input) then injectLimit n (pushLimit input)
    else limit (pushLimit input) (some n) none
  | limit input count offset => limit (pushLimit input) count offset
  | project input columns => project (pushLimit input) columns
  | filter input predicate => filter (pushLimit input) predicate
  | sort input orderBy => sort (pushLimit input) orderBy
  | other => other

/-- A database, and what the texts of a plan mean over its rows. The nodes the pass leaves alone
have any rows. -/
structure Meaning (Row : Type) where
  rows : String → List Row
  holds : String → Row → Bool
  project : List String → Row → Row
  le : List SortExpr → Row → Row → Bool
  other : LogicalPlan → List Row

section Rows

variable {Row : Type}

def takeAtMost (bound : Option Nat) (rows : List Row) : List Row :=
  match bound with
  | some n => rows.take n
  | none => rows

/-- The limit of a scan is on the rows that it reads. -/
def Meaning.eval (M : Meaning Row) : LogicalPlan → List Row
  | scan table _ most => takeAtMost most (M.rows table)
  | filter input predicate => (M.eval input).filter (M.holds predicate)
  | .project input columns => (M.eval input).map (M.project columns)
  | sort input orderBy => (M.eval input).mergeSort (M.le orderBy)
  | limit input count offset => takeAtMost count ((M.eval input).drop (offset.getD 0))
  | other => M.other other

end Rows

def RowsKept (p : LogicalPlan) : Prop :=
  ∀ (Row : Type) (M : Meaning Row), M.eval (pushLimit p) = M.eval p

/-- Every limit down to the scan is moved into it. -/
def Direct : LogicalPlan → Prop
  | scan .. => True
  | filter input _ | project input _ | sort input _ | limit input (some _) none => Direct input
  | _ => False

/-- Nothing but columns is dropped, and nothing reordered, from the limits down to the scan. -/
def Plain : LogicalPlan → Prop
  | scan .. => True
  | project input _ | limit input (some _) none => Plain input
  | _ => False

def tighter (n : Nat) : Option Nat → Nat
  | none => n
  | some e => min e n

def bound : LogicalPlan → Option Nat
  | scan _ _ most => most
  | filter input _ | project input _ | sort input _ => bound input
  | limit input (some n) none => some (tighter n (bound input))
  | limit _ (some n) (some _) => some n
  | limit input none _ => bound input
  | _ => none

/-- Each limit that is moved has only projections between it and the scan, or is no smaller than
what is below it, or is above or below a limit of no rows. -/
def Safe : LogicalPlan → Prop
  | limit input (some n) none =>
    (Direct input ∧ tighter n (bound input) = 0) ∨
      ((canPushLimitInto input = true → Plain input ∨ ∃ b, bound input = some b ∧ b ≤ n) ∧
        Safe input)
  | limit input count _ => count = some 0 ∨ Safe input
  | filter input _ | project input _ | sort input _ => Safe input
  | _ => True

def NoLimit : LogicalPlan → Prop
  | scan .. => True
  | filter input _ | project input _ | sort input _ => NoLimit input
  | _ => False

theorem Plain.direct (h : Plain p) : Direct p := by
  fun_induction Plain p with
  | case1 => trivial
  | case2 _ _ ih | case3 _ _ ih => exact ih h
  | case4 => exact h.elim

theorem NoLimit.canPush (h : NoLimit p) : canPushLimitInto p = true := by
  fun_induction NoLimit p with
  | case1 => rfl
  | case2 _ _ ih | case3 _ _ ih | case4 _ _ ih => exact ih h
  | case5 => exact h.elim

theorem NoLimit.inject (n : Nat) (h : NoLimit p) :
    NoLimit (injectLimit n p) ∧ bound (injectLimit n p) = some (tighter n (bound p)) := by
  fun_induction NoLimit p with
  | case1 table aliasName most => cases most <;> exact ⟨trivial,rfl⟩
  | case2 _ _ ih | case3 _ _ ih | case4 _ _ ih => exact ih h
  | case5 => exact h.elim

theorem canPush_inject : canPushLimitInto (injectLimit n p) = canPushLimitInto p := by
  fun_induction injectLimit n p <;> simp_all [canPushLimitInto]

theorem canPush_pushLimit : canPushLimitInto (pushLimit p) = canPushLimitInto p := by
  fun_induction pushLimit p <;> simp_all [canPushLimitInto,canPush_inject]

theorem Direct.pushLimit (h : Direct p) : NoLimit (pushLimit p) ∧ bound (pushLimit p) = bound p := by
  fun_induction Direct p with
  | case1 => exact ⟨trivial,rfl⟩
  | case2 _ _ ih | case3 _ _ ih | case4 _ _ ih => exact ih h
  | case5 input n ih =>
    obtain ⟨hno,hbo⟩ := ih h
    simp only [Plan.pushLimit,hno.canPush,bound,← hbo]
    exact hno.inject n
  | case6 => exact h.elim

theorem inject_of_bound (hb : bound p = some b) (hn : b ≤ n) : injectLimit n p = p := by
  fun_induction injectLimit n p <;> simp_all [bound]

theorem tighter_of_le (h : b ≤ n) : tighter n (some b) = b :=
  min_eq_left h

theorem Safe.bound_pushLimit (h : Safe p) : bound (pushLimit p) = bound p := by
  fun_induction pushLimit p with
  | case1 input n hcan ih =>
    have direct (hd : Direct input) :
        bound (injectLimit n (pushLimit input)) = bound (limit input (some n) none) := by
      simp only [bound,← hd.pushLimit.2]
      exact (hd.pushLimit.1.inject n).2
    rcases h with ⟨hd,-⟩ | ⟨hmo,hsa⟩
    · exact direct hd
    · rcases hmo (canPush_pushLimit ▸ hcan) with hpl | ⟨b,hb,hle⟩
      · exact direct hpl.direct
      · rw [inject_of_bound ((ih hsa).trans hb) hle,ih hsa]
        simp [bound,hb,tighter_of_le hle]
  | case2 input n hcan ih =>
    rcases h with ⟨hd,-⟩ | ⟨-,hsa⟩
    · exact absurd hd.pushLimit.1.canPush hcan
    · simp [bound,ih hsa]
  | case3 input count offset hot ih =>
    cases count with
    | none => exact ih (h.resolve_left (by simp))
    | some n => cases offset with
      | none => exact absurd rfl (hot n rfl)
      | some o => rfl
  | case4 _ _ ih | case5 _ _ ih | case6 _ _ ih => exact ih h
  | case7 => rfl

section Kept

variable {Row : Type} (M : Meaning Row)

theorem length_takeAtMost (h : most = some b) (rows : List Row) : (takeAtMost most rows).length ≤ b := by
  subst h
  exact List.length_take_le b rows

theorem length_eval (h : bound p = some b) : (M.eval p).length ≤ b := by
  fun_induction bound p generalizing b with
  | case1 table aliasName most => exact length_takeAtMost h _
  | case2 input predicate ih => exact (List.length_filter_le _ _).trans (ih h)
  | case3 input columns ih | case4 input orderBy ih => simpa [Meaning.eval] using ih h
  | case5 input n ih =>
    obtain rfl := Option.some.inj h
    simp only [Meaning.eval,takeAtMost,Option.getD_none,List.drop_zero,List.length_take]
    cases hb : bound input with
    | none => exact min_le_left _ _
    | some e =>
      have := ih hb
      simp only [tighter]
      omega
  | case6 input n offset => exact length_takeAtMost h _
  | case7 input offset ih =>
    have := ih h
    simp only [Meaning.eval,takeAtMost,List.length_drop]
    omega
  | case8 => cases h

/-- Above projections only, the rows that are read are the rows that are returned. -/
theorem Plain.eval_inject (h : Plain p) (hno : NoLimit p) : M.eval (injectLimit n p) = (M.eval p).take n := by
  fun_induction Plain p with
  | case1 table aliasName most =>
    cases most with
    | none => rfl
    | some e => simp [injectLimit,Meaning.eval,takeAtMost,List.take_take,min_comm]
  | case2 input columns ih =>
    simp [injectLimit,Meaning.eval,ih h hno]
  | case3 => exact hno.elim
  | case4 => exact h.elim

theorem Plain.inject (n : Nat) (h : Plain p) : Plain (injectLimit n p) := by
  fun_induction Plain p with
  | case1 table aliasName most => cases most <;> trivial
  | case2 input columns ih => exact ih h
  | case3 input m ih => exact h
  | case4 => exact h.elim

theorem Plain.pushLimit (h : Plain p) : Plain (pushLimit p) := by
  fun_induction Plain p with
  | case1 => trivial
  | case2 input columns ih => exact ih h
  | case3 input n ih =>
    simp only [Plan.pushLimit,(Plain.direct h).pushLimit.1.canPush]
    exact (ih h).inject n
  | case4 => exact h.elim

theorem eval_nil_of_bound (h : bound p = some 0) : M.eval p = [] :=
  List.eq_nil_of_length_eq_zero (Nat.le_zero.mp (length_eval M h))

theorem Safe.eval_pushLimit (h : Safe p) : M.eval (pushLimit p) = M.eval p := by
  fun_induction pushLimit p with
  | case1 input n hcan ih =>
    rcases h with ⟨hd,hze⟩ | ⟨hmo,hsa⟩
    · have hin := (hd.pushLimit.1.inject n).2
      rw [hd.pushLimit.2,hze] at hin
      rw [eval_nil_of_bound M hin,eval_nil_of_bound M (by simp [bound,hze])]
    · rcases hmo (canPush_pushLimit ▸ hcan) with hpl | ⟨b,hb,hle⟩
      · rw [hpl.pushLimit.eval_inject M hpl.direct.pushLimit.1,ih hsa]
        rfl
      · rw [inject_of_bound (hsa.bound_pushLimit.trans hb) hle,ih hsa]
        exact (List.take_of_length_le ((length_eval M hb).trans hle)).symm
  | case2 input n hcan ih =>
    rcases h with ⟨hd,-⟩ | ⟨-,hsa⟩
    · exact absurd hd.pushLimit.1.canPush hcan
    · simp [Meaning.eval,ih hsa]
  | case3 input count offset hot ih =>
    have hsa : count = some 0 ∨ Safe input := by
      cases count with
      | none => exact h
      | some n => cases offset with
        | none => exact absurd rfl (hot n rfl)
        | some o => exact h
    rcases hsa with rfl | hsa
    · rfl
    · simp [Meaning.eval,ih hsa]
  | case4 _ _ ih | case5 _ _ ih | case6 _ _ ih => simp [Meaning.eval,ih h]
  | case7 => rfl

end Kept

/-- The rows of every table are `0`, ..., `m`, every predicate is true of `m` only, and every order is
the falling one. -/
def countdown (m : Nat) : Meaning Nat where
  rows _ := List.range (m + 1)
  holds _ row := m ≤ row
  project _ := id
  le _ a b := b ≤ a
  other _ := []

def LastFirst (m : Nat) (rows : List Nat) : Prop :=
  rows.head? = some m ∧ ∀ row ∈ rows, row ≤ m

variable {rows : List Nat}

theorem LastFirst.take (h : LastFirst m rows) (hn : 1 ≤ n) : LastFirst m (rows.take n) := by
  refine ⟨?_,fun row hrow => h.2 row (List.mem_of_mem_take hrow)⟩
  rw [List.head?_take,if_neg (by omega),h.1]

theorem LastFirst.filter (hm : m ∈ rows) (hle : ∀ row ∈ rows, row ≤ m) :
    LastFirst m (rows.filter fun row => m ≤ row) := by
  have hall : ∀ row ∈ rows.filter (fun row => m ≤ row), row = m := by
    intro row hrow
    obtain ⟨hin,hge⟩ := List.mem_filter.mp hrow
    exact le_antisymm (hle row hin) (of_decide_eq_true hge)
  have hmem : m ∈ rows.filter (fun row => m ≤ row) :=
    List.mem_filter.mpr ⟨hm,decide_eq_true (le_refl m)⟩
  cases hr : rows.filter (fun row => m ≤ row) with
  | nil => simp [hr] at hmem
  | cons row rest =>
    rw [hr] at hall
    exact ⟨congrArg some (hall row (by simp)),fun x hx => (hall x hx).le⟩

theorem LastFirst.sort (hm : m ∈ rows) (hle : ∀ row ∈ rows, row ≤ m) :
    LastFirst m (rows.mergeSort fun a b => b ≤ a) := by
  have hso : (rows.mergeSort fun a b => b ≤ a).Pairwise fun a b => decide (b ≤ a) = true :=
    List.pairwise_mergeSort (by simp; omega) (by simp; omega) rows
  have hin : ∀ row ∈ rows.mergeSort (fun a b => b ≤ a), row ≤ m :=
    fun row hrow => hle row (List.mem_mergeSort.mp hrow)
  refine ⟨?_,hin⟩
  cases hr : rows.mergeSort (fun a b => decide (b ≤ a)) with
  | nil => exact absurd (List.mem_mergeSort.mpr hm) (by rw [hr]; simp)
  | cons row rest =>
    rw [hr] at hso hin
    have hmem : m ∈ row :: rest := hr ▸ List.mem_mergeSort.mpr hm
    rcases List.mem_cons.mp hmem with rfl | hre
    · rfl
    · have := List.rel_of_pairwise_cons hso hre
      exact congrArg some (le_antisymm (hin row (by simp)) (of_decide_eq_true this))

theorem LastFirst.mem (h : LastFirst m rows) : m ∈ rows :=
  List.mem_of_mem_head? h.1

def Leaves (m : Nat) (b : Option Nat) : Prop :=
  ∀ e, b = some e → m ≤ e

theorem Leaves.of_tighter (h : Leaves m (some (tighter n b))) : m ≤ n ∧ Leaves m b := by
  have hm := h _ rfl
  cases b with
  | none => exact ⟨hm,by simp [Leaves]⟩
  | some e =>
    simp only [tighter] at hm
    refine ⟨by omega,?_⟩
    rintro e' he
    obtain rfl := Option.some.inj he
    omega

theorem countdown_uncut (hd : Direct p) (hb : Leaves (m + 1) (bound p)) :
    (Plain p → (countdown m).eval p = List.range (m + 1)) ∧
      (¬ Plain p → LastFirst m ((countdown m).eval p)) := by
  fun_induction Direct p with
  | case1 table aliasName most =>
    refine ⟨fun _ => ?_,fun h => absurd trivial h⟩
    cases most with
    | none => rfl
    | some e =>
      have := hb e rfl
      exact List.take_of_length_le (by simpa [countdown] using this)
  | case2 input predicate ih =>
    obtain ⟨hpl,hlast⟩ := ih hd hb
    refine ⟨False.elim,fun _ => ?_⟩
    by_cases hp : Plain input
    · exact LastFirst.filter (by simp [hpl hp]) (by simp [hpl hp])
    · exact LastFirst.filter (hlast hp).mem (hlast hp).2
  | case3 input columns ih =>
    obtain ⟨hpl,hlast⟩ := ih hd hb
    have hid : (countdown m).eval (project input columns) = (countdown m).eval input :=
      List.map_id _
    rw [hid]
    exact ⟨hpl,hlast⟩
  | case4 input orderBy ih =>
    obtain ⟨hpl,hlast⟩ := ih hd hb
    refine ⟨False.elim,fun _ => ?_⟩
    by_cases hp : Plain input
    · exact LastFirst.sort (by simp [hpl hp]) (by simp [hpl hp])
    · exact LastFirst.sort (hlast hp).mem (hlast hp).2
  | case5 input n ih =>
    obtain ⟨hn,hb⟩ := Leaves.of_tighter hb
    obtain ⟨hpl,hlast⟩ := ih hd hb
    refine ⟨fun hp => ?_,fun hp => (hlast hp).take (by omega)⟩
    have hev : (countdown m).eval (limit input (some n) none) = ((countdown m).eval input).take n := rfl
    rw [hev,hpl hp]
    exact List.take_of_length_le (by simpa using hn)
  | case6 => exact hd.elim

theorem countdown_kept (hd : Direct p) (hm : 1 ≤ m)
    (hb : Leaves m (bound p)) (h : ¬ Safe p) : LastFirst m ((countdown m).eval p) := by
  fun_induction Direct p with
  | case1 => exact absurd trivial h
  | case2 input predicate ih =>
    have := ih hd hb h
    exact LastFirst.filter this.mem this.2
  | case3 input columns ih =>
    have hid : (countdown m).eval (project input columns) = (countdown m).eval input :=
      List.map_id _
    rw [hid]
    exact ih hd hb h
  | case4 input orderBy ih =>
    have := ih hd hb h
    exact LastFirst.sort this.mem this.2
  | case5 input n ih =>
    obtain ⟨hn,hb⟩ := Leaves.of_tighter hb
    refine LastFirst.take ?_ (by omega)
    by_cases hsa : Safe input
    · -- this is the limit that cuts too much
      have hcut : ¬ (Plain input ∨ ∃ b, bound input = some b ∧ b ≤ n) :=
        fun hke => h (.inr ⟨fun _ => hke,hsa⟩)
      obtain ⟨hpl,hfew⟩ := not_or.mp hcut
      refine (countdown_uncut hd fun e he => ?_).2 hpl
      have : ¬ e ≤ n := fun hle => hfew ⟨e,he,hle⟩
      omega
    · exact ih hd hb hsa
  | case6 => exact hd.elim

theorem NoLimit.countdown_eval (h : NoLimit p) (hb : bound p = some m) :
    ∀ row ∈ (countdown m).eval p, row < m := by
  fun_induction NoLimit p with
  | case1 table aliasName most =>
    intro row hrow
    obtain rfl : most = some m := hb
    have : row ∈ (List.range (m + 1)).take m := hrow
    simpa using this
  | case2 input predicate ih => exact fun row hrow => ih h hb row (List.mem_filter.mp hrow).1
  | case3 input columns ih =>
    intro row hrow
    exact ih h hb row (by simpa [Meaning.eval,countdown] using hrow)
  | case4 input orderBy ih => exact fun row hrow => ih h hb row (List.mem_mergeSort.mp hrow)
  | case5 => exact h.elim

theorem Direct.safe_of_bound (hd : Direct p) (hb : ∀ m, bound p = some m → m = 0) : Safe p := by
  fun_induction Direct p with
  | case1 => trivial
  | case2 _ _ ih | case3 _ _ ih | case4 _ _ ih => exact ih hd hb
  | case5 input n => exact .inl ⟨hd,hb _ rfl⟩
  | case6 => exact hd.elim

theorem Direct.safe_of_rowsKept (hd : Direct p) (h : RowsKept p) : Safe p := by
  by_contra hun
  have hbo : ∃ m, bound p = some m ∧ 1 ≤ m := by
    by_contra hno
    refine hun (hd.safe_of_bound fun m hm => ?_)
    by_contra hne
    exact hno ⟨m,hm,Nat.one_le_iff_ne_zero.mpr hne⟩
  obtain ⟨m,hb,hm⟩ := hbo
  have hlast := countdown_kept hd hm (fun e he => by simp_all) hun
  rw [← h Nat (countdown m)] at hlast
  obtain ⟨hno,hpu⟩ := hd.pushLimit
  exact absurd (hno.countdown_eval (hpu.trans hb) m hlast.mem) (lt_irrefl m)

/-- The pass keeps the rows of every safe plan; and a plan all of whose limits are moved into the
scan has its rows kept only if it is safe. -/
theorem pushLimit_rowsKept (p : LogicalPlan) : (Safe p → RowsKept p) ∧ (Direct p → (RowsKept p ↔ Safe p)) := by
  have hke : Safe p → RowsKept p := fun h _ M => h.eval_pushLimit M
  exact ⟨hke,fun hd => ⟨hd.safe_of_rowsKept,hke⟩⟩

/-- A limit above a projection is moved, and the larger one above a filter disappears. -/
theorem pushLimit_rowsKept_twoLimits :
    let p := limit (filter (limit (project (scan "t" none none) ["a"]) (some 1) none) "a > 1") (some 2) none
    pushLimit p = filter (project (scan "t" none (some 1)) ["a"]) "a > 1" ∧ RowsKept p :=
  ⟨by decide,(pushLimit_rowsKept _).1 (.inr ⟨fun _ => .inr ⟨1,rfl,by decide⟩,
    .inr ⟨fun _ => .inl trivial,trivial⟩⟩)⟩

/-- `SELECT ... FROM t WHERE a = 1 LIMIT 1` over the rows `0` and `1` returns no row. -/
theorem pushLimit_loses_row : let p := limit (filter (scan "t" none none) "a = 1") (some 1) none
    (countdown 1).eval p = [1] ∧ (countdown 1).eval (pushLimit p) = [] := by
  decide

end OxiSql.Plan
