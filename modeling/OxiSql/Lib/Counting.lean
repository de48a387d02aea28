import Mathlib

namespace OxiSql.Lib
open Function

def countWhere {n : Nat} {α : Type} (f : Fin n → α) (P : α → Prop) [DecidablePred P] : Nat :=
  (Finset.univ.filter fun j => P (f j)).card

variable {α : Type} [DecidablePred P]

theorem countWhere_update (f : Fin n → α) (P : α → Prop) [DecidablePred P] (c : Fin n) (x : α) :
    countWhere (update f c x) P + (if P (f c) then 1 else 0) =
      countWhere f P + (if P x then 1 else 0) := by
  have hre : ∑ j ∈ Finset.univ.erase c, (if P (update f c x j) then 1 else 0) =
      ∑ j ∈ Finset.univ.erase c, (if P (f j) then 1 else 0) := by
    refine Finset.sum_congr rfl ?_
    intro j hj
    rw [update_of_ne (Finset.ne_of_mem_erase hj)]
  have hnew := Finset.add_sum_erase Finset.univ
    (fun j => if P (update f c x j) then 1 else 0) (Finset.mem_univ c)
  have hold := Finset.add_sum_erase Finset.univ (fun j => if P (f j) then 1 else 0) (Finset.mem_univ c)
  simp only [update_self] at hnew
  simp only [countWhere,Finset.card_filter]
  omega

theorem countWhere_pos (h : P (f c)) : 0 < countWhere f P :=
  Finset.card_pos.mpr ⟨c,Finset.mem_filter.mpr ⟨Finset.mem_univ c,h⟩⟩

theorem countWhere_congr (h : ∀ j, P (f j) ↔ P (g j)) : countWhere f P = countWhere g P :=
  congrArg Finset.card (Finset.filter_congr fun j _ => h j)

end OxiSql.Lib
