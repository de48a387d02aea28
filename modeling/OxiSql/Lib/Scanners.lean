import Mathlib

namespace OxiSql.Lib
open List

section
variable {σ α β : Type}

def scan (step : σ → α → List β × σ) : σ → List α → List β × σ
  | s, [] => ([], s)
  | s, a :: as => ((step s a).1 ++ (scan step (step s a).2 as).1, (scan step (step s a).2 as).2)

variable {step : σ → α → List β × σ}

theorem scan_append : scan step s (as ++ bs) =
      ((scan step s as).1 ++ (scan step (scan step s as).2 bs).1,(scan step (scan step s as).2 bs).2) := by
  induction as generalizing s with
  | nil => rfl
  | cons a as ih => simp only [cons_append,scan,ih,append_assoc]

theorem scan_seq (h : scan step s as = (out,t)) (h' : scan step t bs = (rest,u)) :
    scan step s (as ++ bs) = (out ++ rest,u) := by
  rw [scan_append,h,h']

/-- Symbols that only add to what the state holds. -/
theorem scan_collect {hold : List α → σ}
    (h : ∀ acc, ∀ a ∈ as, step (hold acc) a = ([],hold (acc ++ [a]))) (acc : List α) :
    scan step (hold acc) as = ([],hold (acc ++ as)) := by
  induction as generalizing acc with
  | nil => simp [scan]
  | cons a as ih =>
    have hre := ih (fun acc b hb => h acc b (mem_cons_of_mem a hb)) (acc ++ [a])
    simp [scan,h acc a mem_cons_self,hre]

/-- Where no step weighs more than the symbol it takes, no scan weighs more than its text. -/
theorem scan_weight_le {held : σ → Nat}
    (h : ∀ s a, ((step s a).1.map token).sum + held (step s a).2 ≤ held s + symbol a) (s : σ)
    (as : List α) :
    ((scan step s as).1.map token).sum + held (scan step s as).2 ≤ held s + (as.map symbol).sum := by
  induction as generalizing s with
  | nil => simp [scan]
  | cons a as ih =>
    have hst := h s a
    have hre := ih (step s a).2
    simp only [scan,map_append,sum_append,map_cons,sum_cons]
    omega

end

end OxiSql.Lib
