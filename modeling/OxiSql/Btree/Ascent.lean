import OxiSql.Btree.Backwards
import OxiSql.Btree.Descent

namespace OxiSql.Btree
open Lib List PageContent

variable {κ : Type} {pages : Pages κ} {onLeft isEq : κ → Bool} {leaf : Nat} {before after : List (Item κ)}

namespace Cursor
variable {c : Cursor} {stack : List (Nat × Int)}

theorem parentCell_divider (hp : pages page = .ok (.interior .index (pre ++ cell :: post) right)) :
    (c.moved ((page,pre.length) :: parents) g).parentCell pages = some cell.2 := by
  simp [parentCell,hp,cellGet]

theorem current_of_parentCell (hk : c.parentCell pages = some k) : c.current pages = some k := by
  unfold parentCell at hk
  unfold current
  split at hk
  · cases hk
  · split at hk
    · cases hk
    · split at hk
      · cases hk
      · split at hk
        · simp_all
        · cases hk

/-- Everything above `parents` is left: the loop goes on there, or ends. -/
structure LeavesTo (body : Cursor → Turn Cursor (Bool × Cursor) Fault) (c s : Cursor)
    (parents : List (Nat × Int)) : Prop where
  ends : parents = [] → ∃ c', Ends body s (.ok (false, c'))
  turns : parents ≠ [] → Turns body s (c.moved parents true)

theorem LeavesTo.of_turns (ht : Turns body s s') (hl : LeavesTo body c s' parents) :
    LeavesTo body c s parents :=
  ⟨fun h => (hl.ends h).imp fun _ he => he.of_turns ht,fun h => ht.trans (hl.turns h)⟩

theorem LeavesTo.of_goUp (hm : getNextRecord pages s = (c.moved stack g).goUp parents) :
    LeavesTo (getNextRecord pages) c s parents := by
  unfold goUp at hm
  refine ⟨fun h => ?_,fun h => ?_⟩
  · rw [if_pos (by simp [h])] at hm
    exact ⟨_,.done hm⟩
  · rw [if_neg (by simp [h])] at hm
    exact .one hm

theorem LeavesTo.of_climb (hi : idx < 0)
    (hm : getPrevRecord pages s = (c.moved stack g).climb ((page,idx) :: parents)) :
    LeavesTo (getPrevRecord pages) c s (above parents) := by
  refine ⟨fun h => ?_,fun h => ?_⟩
  · obtain ⟨c',hc'⟩ := (climb_neg hi).1 h
    exact ⟨c',.done (hm.trans hc')⟩
  · exact .one (hm.trans ((climb_neg hi).2 h))

def StopsOn (pages : Pages κ) (body : Cursor → Turn Cursor (Bool × Cursor) Fault) (s : Cursor)
    (k : κ) : Prop :=
  ∃ c', Ends body s (.ok (true, c')) ∧ c'.parentCell pages = some k

end Cursor

open Cursor

section

variable (hpath : Path pages .index onLeft isEq slot eqSeen h page frames leaf before after)
include hpath

/-- From a leaf that is done, `next` goes up to the cell right after it. -/
theorem Path.next {stack : List (Nat × Int)} (hsl : ∀ i, slot i = i) (parents : List (Nat × Int))
    (hm : getNextRecord pages s = (c.moved stack g).goUp (frames ++ parents)) :
    (∀ d, after.head? = some (.key d) → StopsOn pages (getNextRecord pages) s d) ∧
      (after = [] → LeavesTo (getNextRecord pages) c s parents) := by
  induction hpath generalizing parents with
  | leaf hp => exact ⟨nofun,fun _ => .of_goUp hm⟩
  | @left _ page pre cell _ _ _ _ _ after hp hsearch hcell hpre hdown ih =>
    rw [hsl,append_assoc] at hm
    obtain ⟨hst,hle⟩ := ih ((page, pre.length) :: parents) hm
    refine ⟨fun d hd => ?_,fun he => by simp at he⟩
    cases after with
    | cons item rest => exact hst d hd
    | nil =>
      cases hd
      have htu := (hle rfl).turns (by simp)
      exact ⟨_,.of_turns htu (.done (getNextRecord_divider hp (by simp))),parentCell_divider hp⟩
  | @right _ page cells _ _ _ _ _ hp hsearch hcells hlast hdown ih =>
    rw [append_assoc] at hm
    obtain ⟨hst,hle⟩ := ih ((page, (cells.length : Int) + 1) :: parents) hm
    refine ⟨hst,fun he => ?_⟩
    exact .of_turns ((hle he).turns (by simp)) (.of_goUp (getNextRecord_interior_end hp))

theorem Path.prev {stack : List (Nat × Int)} (hsl : ∀ i, slot i = i - 1) (parents : List (Nat × Int))
    (hm : getPrevRecord pages s = (c.moved stack g).climb ((leaf,-1) :: (frames ++ parents))) :
    (∀ d, before.getLast? = some (.key d) → StopsOn pages (getPrevRecord pages) s d) ∧
      (before = [] → LeavesTo (getPrevRecord pages) c s (above parents)) := by
  induction hpath generalizing parents with
  | leaf hp => exact ⟨nofun,fun _ => .of_climb (by decide) hm⟩
  | @left _ page pre cell post right _ _ before _ hp hsearch hcell hpre hdown ih =>
    rw [hsl,append_assoc] at hm
    obtain ⟨hst,hle⟩ := ih ((page, (pre.length : Int) - 1) :: parents) hm
    rcases eq_nil_or_concat' pre with rfl | ⟨init,last,rfl⟩
    · refine ⟨fun d hd => hst d (by simpa using hd),fun he => ?_⟩
      have := hle (by simpa using he)
      rwa [above_cons_neg (by simp)] at this
    · have hidx : (((init ++ [last]).length : Nat) : Int) - 1 = init.length := by simp
      rw [hidx] at hle
      refine ⟨fun d hd => ?_,fun he => by simp at he⟩
      rw [getLast?_append,Option.or_eq_some_iff] at hd
      rcases hd with hd | ⟨hnone,hd⟩
      · exact hst d hd
      · have hp' : pages page = .ok (.interior .index (init ++ last :: cell :: post) right) := by
          simpa using hp
        have hkey : last.2 = d := by simpa using hd
        have htu := (hle (by simpa using hnone)).turns (by simp [above_cons])
        subst hkey
        exact ⟨_,.of_turns htu (.done (getPrevRecord_divider hp' (by simp))),parentCell_divider hp'⟩
  | @right _ page cells right _ _ before _ hp hsearch hcells hlast hdown ih =>
    rw [append_assoc] at hm
    obtain ⟨hst,hle⟩ := ih ((page, (cells.length : Int) + 1) :: parents) hm
    have hback : getPrevRecord pages (c.moved ((page, (cells.length : Int) + 1) :: parents) true) =
        (c.moved ((page, (cells.length : Int) + 1) :: parents) true).landOn
          (.interior .index cells right) page (cells.length - 1) parents :=
      getPrevRecord_back hp (.inr ⟨by simp only [cellCount]; omega,rfl⟩) (.inr (.inr rfl)) (.inl rfl)
    have htu := fun he => (hle he).turns (by rw [above_cons (by omega)]; simp)
    rcases eq_nil_or_concat' cells with rfl | ⟨init,last,rfl⟩
    · refine ⟨fun d hd => hst d (by simpa using hd),fun he => ?_⟩
      exact .of_turns (htu (by simpa using he)) (.of_climb (by decide) (hback.trans landOn_neg))
    · refine ⟨fun d hd => ?_,fun he => by simp at he⟩
      rw [getLast?_append,Option.or_eq_some_iff] at hd
      rcases hd with hd | ⟨hnone,hd⟩
      · exact hst d hd
      · have hkey : last.2 = d := by simpa using hd
        have hget : (interior .index (init ++ [last]) right).cellGet init.length =
            some (.indexInteriorCell last.1 last.2) := by
          simp [cellGet]
        have hla : getPrevRecord pages
            (c.moved ((page, ((init ++ [last]).length : Int) + 1) :: parents) true) =
            .done (true, c.moved ((page, init.length) :: parents) false) := by
          rw [hback,length_append,length_singleton,landOn_cell hget]
          rfl
        subst hkey
        exact ⟨_,.of_turns (htu (by simpa using hnone)) (.done hla),parentCell_divider hp⟩

end

/-- Descents that turn alike come to the same leaf. -/
theorem Path.unique (hpath : Path pages kind onLeft isEq slot eqSeen h page frames leaf before after)
    (hpath' : Path pages kind onLeft isEq' slot' eqSeen' h page frames' leaf' before' after') :
    leaf = leaf' ∧ before = before' ∧ after = after' := by
  induction hpath generalizing frames' leaf' before' after' with
  | leaf hp =>
    cases hpath' with
    | leaf => exact ⟨rfl,rfl,rfl⟩
  | left hp hsearch hcell hpre hdown ih =>
    cases hpath' with
    | left hp' hsearch' hcell' hpre' hdown' =>
      rw [hp] at hp'
      simp only [Except.ok.injEq,interior.injEq,true_and] at hp'
      obtain ⟨hcells,rfl⟩ := hp'
      rw [← hcells,hsearch,Option.some.injEq] at hsearch'
      obtain ⟨rfl,hre⟩ := append_inj hcells hsearch'
      cases hre
      obtain ⟨rfl,rfl,rfl⟩ := ih hdown'
      exact ⟨rfl,rfl,rfl⟩
    | right hp' hsearch' hcells' hlast' hdown' =>
      cases hp.symm.trans hp'
      rw [hsearch] at hsearch'
      cases hsearch'
  | right hp hsearch hcells hlast hdown ih =>
    cases hpath' with
    | left hp' hsearch' hcell' hpre' hdown' =>
      cases hp.symm.trans hp'
      rw [hsearch] at hsearch'
      cases hsearch'
    | right hp' hsearch' hcells' hlast' hdown' =>
      cases hp.symm.trans hp'
      obtain ⟨rfl,rfl,rfl⟩ := ih hdown'
      exact ⟨rfl,rfl,rfl⟩

end OxiSql.Btree
