import Mathlib

namespace OxiSql.Lib
open List
variable {α : Type}

theorem filter_append_filter_not {l : List α} (h : l.Pairwise fun a b => p b = true → p a = true) :
    l.filter p ++ l.filter (fun a => !p a) = l := by
  induction h with
  | nil => rfl
  | @cons a l ha _ ih =>
    cases hp : p a with
    | true => simp [hp,ih]
    | false =>
      have hnone : l.filter p = [] := by
        rw [filter_eq_nil_iff]
        intro b hb hpb
        rw [ha b hb hpb] at hp
        cases hp
      rw [hnone] at ih
      rw [filter_cons_of_neg (by simp [hp]),filter_cons_of_pos (by simp [hp]),hnone]
      simpa using ih

/-- Sorted by their places in `rank`, which counts as its length for what is not in it, the elements
begin with `rank`. -/
theorem rank_initial [DecidableEq α] {rank l : List α} (hra : rank.Nodup) (hl : l.Nodup)
    (hsub : ∀ a ∈ rank, a ∈ l) : rank <+: l.insertionSort fun a b => rank.idxOf a ≤ rank.idxOf b := by
  have hpe := perm_insertionSort (fun a b => rank.idxOf a ≤ rank.idxOf b) l
  have hso : (l.insertionSort fun a b => rank.idxOf a ≤ rank.idxOf b).Pairwise
      fun a b => rank.idxOf a ≤ rank.idxOf b := by
    exact List.pairwise_insertionSort _ l
  generalize l.insertionSort (fun a b => rank.idxOf a ≤ rank.idxOf b) = s at hpe hso
  have hsp : s.filter (fun a => decide (a ∈ rank)) ++ s.filter (fun a => !decide (a ∈ rank)) = s := by
    refine filter_append_filter_not (hso.imp fun {a b} hab hb => ?_)
    rw [decide_eq_true_iff] at hb ⊢
    exact idxOf_lt_length_iff.mp (Nat.lt_of_le_of_lt hab (idxOf_lt_length_iff.mpr hb))
  have hran : s.filter (fun a => decide (a ∈ rank)) = rank := by
    have hmem : (s.filter fun a => decide (a ∈ rank)).Perm rank := by
      rw [perm_ext_iff_of_nodup ((hpe.nodup_iff.mpr hl).filter _) hra]
      intro a
      rw [mem_filter,decide_eq_true_iff,hpe.mem_iff]
      exact ⟨fun h => h.2,fun h => ⟨hsub a h,h⟩⟩
    have hse : rank.Pairwise fun a b => rank.idxOf a ≤ rank.idxOf b := by
      rw [pairwise_iff_getElem]
      intro i j hi hj hij
      rw [hra.idxOf_getElem,hra.idxOf_getElem]
      exact Nat.le_of_lt hij
    refine hmem.eq_of_pairwise (fun a b ha hb hab hba => ?_) (hso.filter _) hse
    exact (idxOf_inj (decide_eq_true_iff.mp (mem_filter.mp ha).2)).mp (Nat.le_antisymm hab hba)
  rw [hran] at hsp
  exact ⟨_,hsp⟩

end OxiSql.Lib
