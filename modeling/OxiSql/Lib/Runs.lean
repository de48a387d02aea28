namespace OxiSql.Lib
open List Option

section
variable {σ α : Type}

/-- The state after a list of actions; a refused action leaves no run. -/
def run (step : σ → α → Option σ) : σ → List α → Option σ
  | s, [] => some s
  | s, a :: as => (step s a).bind fun s' => run step s' as

def Meets (step : σ → α → Option σ) (ok : σ → α → Prop) : σ → List α → Prop
  | _, [] => True
  | s, a :: as => ok s a ∧ ∀ s' ∈ step s a, Meets step ok s' as

instance decidableMeets (step : σ → α → Option σ) (ok : σ → α → Prop)
    [∀ s a, Decidable (ok s a)] : ∀ s as, Decidable (Meets step ok s as)
  | _, [] => isTrue trivial
  | s, a :: as =>
    have := fun s' => decidableMeets step ok s' as
    inferInstanceAs (Decidable (ok s a ∧ ∀ s' ∈ step s a, Meets step ok s' as))

variable {step : σ → α → Option σ} {ok : σ → α → Prop} {I : σ → Prop} {as : List α}

theorem run_invariant (hst : ∀ s a s', I s → ok s a → step s a = some s' → I s')
    (hs : I s) (hok : Meets step ok s as) (hrun : run step s as = some s') : I s' := by
  induction as generalizing s with
  | nil =>
    cases hrun
    exact hs
  | cons a as ih =>
    simp only [run,bind_eq_some_iff] at hrun
    obtain ⟨t,ht,hre⟩ := hrun
    exact ih (hst s a t hs hok.1 ht) (hok.2 t ht) hre

theorem meets_of_invariant (hgo : ∀ s a, I s → ok s a → good s a)
    (hst : ∀ s a s', I s → ok s a → step s a = some s' → I s') (hs : I s) (hok : Meets step ok s as) :
    Meets step good s as := by
  induction as generalizing s with
  | nil => trivial
  | cons a as ih =>
    exact ⟨hgo s a hs hok.1,fun t ht => ih (hst s a t hs hok.1 ht) (hok.2 t ht)⟩

theorem meets_of_forall_mem {good : α → Prop} (h : ∀ a ∈ as, good a) (s : σ) :
    Meets step (fun _ a => good a) s as := by
  induction as generalizing s with
  | nil => trivial
  | cons a as ih => exact ⟨h a mem_cons_self,fun t _ => ih (fun b hb => h b (mem_cons_of_mem a hb)) t⟩

theorem run_invariant_of_step (hst : ∀ s a s', I s → step s a = some s' → I s')
    (hs : I s) (hrun : run step s as = some s') : I s' :=
  @run_invariant _ _ _ (fun _ _ => True) _ _ _ _ (fun s a s' hs _ h => hst s a s' hs h) hs
    (meets_of_forall_mem (fun _ _ => trivial) s) hrun

/-- Where the condition says exactly that a step keeps the property, it holds in every state
of a run exactly when every step of the run meets the condition. -/
theorem reached_iff_meets {P : σ → Prop} (hI : ∀ s, I s → P s) (hok : ∀ s a, I s → (ok s a ↔ ∀ s' ∈ step s a, P s'))
    (hst : ∀ s a s', I s → ok s a → step s a = some s' → I s') (hs : I s) :
    (∀ k s', run step s (as.take k) = some s' → P s') ↔ Meets step ok s as := by
  induction as generalizing s with
  | nil =>
    refine ⟨fun _ => trivial,fun _ k s' hrun => ?_⟩
    simp only [take_nil,run,some.injEq] at hrun
    exact hrun ▸ hI s hs
  | cons a as ih =>
    constructor
    · intro h
      have ha : ok s a := (hok s a hs).mpr fun t ht => h 1 t (by simp [run,mem_def.mp ht])
      refine ⟨ha,fun t ht => (ih (hst s a t hs ha ht)).mp fun k s' hrun => ?_⟩
      exact h (k + 1) s' (by simp [run,mem_def.mp ht,hrun])
    · intro h k s' hrun
      cases k with
      | zero =>
        cases hrun
        exact hI s hs
      | succ k =>
        simp only [take_succ_cons,run,bind_eq_some_iff] at hrun
        obtain ⟨t,ht,hre⟩ := hrun
        exact (ih (hst s a t hs h.1 ht)).mpr (h.2 t ht) k s' hre

theorem not_meets_of_run (hrun : run step s as = some s') (hbad : ¬ ok s' a) :
    ¬ Meets step ok s (as ++ [a]) := by
  induction as generalizing s with
  | nil =>
    cases hrun
    exact fun h => hbad h.1
  | cons b as ih =>
    simp only [run,bind_eq_some_iff] at hrun
    obtain ⟨t,ht,hre⟩ := hrun
    exact fun h => ih hre (h.2 t ht)

theorem exists_of_run_any {check : σ → Bool} {s : σ} {as : List α} (h : (run step s as).any check = true) :
    ∃ s', run step s as = some s' ∧ check s' = true := by
  cases hr : run step s as with
  | none => simp [hr] at h
  | some s' => exact ⟨s',rfl,by simpa [hr] using h⟩

end

end OxiSql.Lib
