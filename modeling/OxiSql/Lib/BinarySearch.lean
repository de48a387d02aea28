namespace OxiSql.Lib
open List

inductive Probe where
  | stop
  | hit (left : Bool)
  | miss (left : Bool)

def Probe.TurnsLeft : Probe → Prop
  | .stop => False
  | .hit left | .miss left => left = true

def Probe.TurnsRight : Probe → Prop
  | .stop => False
  | .hit left | .miss left => left = false

/-- Searches the elements from `min` up to `bound`; the last match is the result. -/
def binarySearch (probe : Nat → Probe) : Nat → Nat → Nat → Option Nat → Option Nat
  | 0, _, _, nearest => nearest
  | fuel + 1, min, bound, nearest =>
    if bound ≤ min then nearest
    else
      let cur := (min + (bound - 1)) / 2
      match probe cur with
      | .stop => some cur
      | .hit true => binarySearch probe fuel min cur (some cur)
      | .hit false => binarySearch probe fuel (cur + 1) bound (some cur)
      | .miss true => binarySearch probe fuel min cur nearest
      | .miss false => binarySearch probe fuel (cur + 1) bound nearest

def probedFrom (probe : Nat → Probe) : Nat → Nat → Nat → List Nat
  | 0, _, _ => []
  | fuel + 1, min, bound =>
    if bound ≤ min then []
    else
      let cur := (min + (bound - 1)) / 2
      match probe cur with
      | .stop => [cur]
      | .hit true | .miss true => cur :: probedFrom probe fuel min cur
      | .hit false | .miss false => cur :: probedFrom probe fuel (cur + 1) bound

def landing (probe : Nat → Probe) : Nat → Nat → Nat → Nat
  | 0, min, _ => min
  | fuel + 1, min, bound =>
    if bound ≤ min then min
    else
      let cur := (min + (bound - 1)) / 2
      match probe cur with
      | .stop => cur
      | .hit true | .miss true => landing probe fuel min cur
      | .hit false | .miss false => landing probe fuel (cur + 1) bound

def searchAll (probe : Nat → Probe) (n : Nat) : Option Nat :=
  binarySearch probe n 0 n none

def probed (probe : Nat → Probe) (n : Nat) : List Nat :=
  probedFrom probe n 0 n

def boundaryOf (probe : Nat → Probe) (n : Nat) : Nat :=
  landing probe n 0 n

section
variable {probe : Nat → Probe} {min : Nat} {nearest : Option Nat}

/-- What a search without a stop comes down to: a boundary, with everything it looked at turning
towards it. -/
structure Boundary (probe : Nat → Probe) (min bound : Nat) (nearest result : Option Nat)
    (looked : List Nat) (b : Nat) : Prop where
  lower : min ≤ b
  upper : b ≤ bound
  before : min < b → b - 1 ∈ looked
  after : b < bound → b ∈ looked
  inside : ∀ i ∈ looked, min ≤ i ∧ i < bound
  right : ∀ i ∈ looked, i < b → (probe i).TurnsRight
  left : ∀ i ∈ looked, b ≤ i → (probe i).TurnsLeft
  found : ∀ i, result = some i → nearest = some i ∨ i ∈ looked ∧ ∃ left, probe i = .hit left
  /-- Where matches turn left only, the one at the boundary is the last one found. -/
  forwards : (∀ i, probe i ≠ .hit false) →
    (b = bound → result = nearest) ∧ (b < bound → probe b = .hit true → result = some b)
  backwards : (∀ i, probe i ≠ .hit true) →
    (b = min → result = nearest) ∧ (min < b → probe (b - 1) = .hit false → result = some (b - 1))
  /-- The last element is looked at after the one before it. -/
  last : min + 2 ≤ bound → b = bound → bound - 2 ∈ looked

variable {nearest' : Option Nat}

theorem Boundary.empty (probe : Nat → Probe) (min : Nat) (nearest : Option Nat) :
    Boundary probe min min nearest nearest [] min :=
  ⟨Nat.le_refl _,Nat.le_refl _,by omega,by omega,nofun,nofun,nofun,fun _ hi => .inl hi,
    fun _ => ⟨fun _ => rfl,by omega⟩,fun _ => ⟨fun _ => rfl,by omega⟩,by omega⟩

theorem found_cons (hp : probe cur = .hit left ∧ nearest' = some cur ∨
      probe cur = .miss left ∧ nearest' = nearest)
    (h : ∀ i, result = some i → nearest' = some i ∨ i ∈ looked ∧ ∃ left, probe i = .hit left) :
    ∀ i, result = some i → nearest = some i ∨ i ∈ cur :: looked ∧ ∃ left, probe i = .hit left := by
  intro i hi
  rcases h i hi with hn | ⟨hmem,hit⟩
  · rcases hp with ⟨hp,rfl⟩ | ⟨-,rfl⟩
    · cases hn
      exact .inr ⟨mem_cons_self,left,hp⟩
    · exact .inl hn
  · exact .inr ⟨mem_cons_of_mem _ hmem,hit⟩

theorem Boundary.turnLeft (hlo : min ≤ cur) (hhi : cur < bound)
    (hp : probe cur = .hit true ∧ nearest' = some cur ∨ probe cur = .miss true ∧ nearest' = nearest)
    (h : Boundary probe min cur nearest' result looked b) :
    Boundary probe min bound nearest result (cur :: looked) b := by
  have htu : (probe cur).TurnsLeft := by
    rcases hp with ⟨hp,-⟩ | ⟨hp,-⟩ <;> rw [hp] <;> rfl
  have hub := h.upper
  refine ⟨h.lower,by omega,fun hb => mem_cons_of_mem _ (h.before hb),fun _ => ?_,
    forall_mem_cons.mpr ⟨⟨hlo,hhi⟩,fun i hi => ⟨(h.inside i hi).1,Nat.lt_trans (h.inside i hi).2 hhi⟩⟩,
    forall_mem_cons.mpr ⟨by omega,h.right⟩,forall_mem_cons.mpr ⟨fun _ => htu,h.left⟩,
    found_cons hp h.found,fun hno => ⟨by omega,fun _ hb => ?_⟩,fun hno => ⟨fun he => ?_,(h.backwards hno).2⟩,
    by omega⟩
  · rcases Nat.lt_or_eq_of_le hub with hlt | rfl
    · exact mem_cons_of_mem _ (h.after hlt)
    · exact mem_cons_self
  · rcases Nat.lt_or_eq_of_le hub with hlt | rfl
    · exact (h.forwards hno).2 hlt hb
    · rcases hp with ⟨-,rfl⟩ | ⟨hp,-⟩
      · exact (h.forwards hno).1 rfl
      · rw [hp] at hb
        cases hb
  · rcases hp with ⟨hp,-⟩ | ⟨-,rfl⟩
    · exact absurd hp (hno cur)
    · exact (h.backwards hno).1 he

theorem Boundary.turnRight (hlo : min ≤ cur) (hhi : cur < bound) (hmid : min + 2 ≤ bound → cur ≤ bound - 2)
    (hp : probe cur = .hit false ∧ nearest' = some cur ∨ probe cur = .miss false ∧ nearest' = nearest)
    (h : Boundary probe (cur + 1) bound nearest' result looked b) :
    Boundary probe min bound nearest result (cur :: looked) b := by
  have htu : (probe cur).TurnsRight := by
    rcases hp with ⟨hp,-⟩ | ⟨hp,-⟩ <;> rw [hp] <;> rfl
  have hlb := h.lower
  refine ⟨by omega,h.upper,fun _ => ?_,fun hb => mem_cons_of_mem _ (h.after hb),
    forall_mem_cons.mpr ⟨⟨hlo,hhi⟩,fun i hi => ⟨by have := (h.inside i hi).1; omega,(h.inside i hi).2⟩⟩,
    forall_mem_cons.mpr ⟨fun _ => htu,h.right⟩,forall_mem_cons.mpr ⟨by omega,h.left⟩,
    found_cons hp h.found,fun hno => ⟨fun he => ?_,(h.forwards hno).2⟩,fun hno => ⟨by omega,fun _ hb => ?_⟩,
    fun htwo he => ?_⟩
  · rcases Nat.lt_or_eq_of_le hlb with hlt | rfl
    · exact mem_cons_of_mem _ (h.before hlt)
    · exact mem_cons_self
  · rcases hp with ⟨hp,-⟩ | ⟨-,rfl⟩
    · exact absurd hp (hno cur)
    · exact (h.forwards hno).1 he
  · rcases Nat.lt_or_eq_of_le hlb with hlt | rfl
    · exact (h.backwards hno).2 hlt hb
    · rcases hp with ⟨-,rfl⟩ | ⟨hp,-⟩
      · exact (h.backwards hno).1 rfl
      · rw [Nat.add_sub_cancel,hp] at hb
        cases hb
  · by_cases hroom : cur + 1 + 2 ≤ bound
    · exact mem_cons_of_mem _ (h.last hroom he)
    · have hcur : cur = bound - 2 := by
        omega
      exact hcur ▸ mem_cons_self

theorem binarySearch_spec (min bound : Nat) (nearest : Option Nat) (hf : bound - min ≤ fuel)
    (hle : min ≤ bound) : (∃ i, min ≤ i ∧ i < bound ∧ probe i = .stop ∧
      binarySearch probe fuel min bound nearest = some i) ∨
    Boundary probe min bound nearest (binarySearch probe fuel min bound nearest)
      (probedFrom probe fuel min bound) (landing probe fuel min bound) := by
  induction fuel generalizing min bound nearest with
  | zero =>
    have he : bound = min := by omega
    subst he
    exact .inr (.empty probe bound nearest)
  | succ fuel ih =>
    by_cases hempty : bound ≤ min
    · have he : bound = min := by omega
      subst he
      simp only [binarySearch,probedFrom,landing,Nat.le_refl]
      exact .inr (.empty probe bound nearest)
    · simp only [binarySearch,probedFrom,landing,hempty]
      generalize hcur : (min + (bound - 1)) / 2 = cur
      have hlo : min ≤ cur := by omega
      have hhi : cur < bound := by omega
      have hmid : min + 2 ≤ bound → cur ≤ bound - 2 := by omega
      have hlef : ∀ nearest', (probe cur = .hit true ∧ nearest' = some cur ∨
          probe cur = .miss true ∧ nearest' = nearest) →
          (∃ i, min ≤ i ∧ i < bound ∧ probe i = .stop ∧ binarySearch probe fuel min cur nearest' = some i) ∨
          Boundary probe min bound nearest (binarySearch probe fuel min cur nearest')
            (cur :: probedFrom probe fuel min cur) (landing probe fuel min cur) := by
        intro nearest' hp
        rcases ih min cur nearest' (by omega) hlo with ⟨i,hi1,hi2,hst,hr⟩ | hb
        · exact .inl ⟨i,hi1,by omega,hst,hr⟩
        · exact .inr (hb.turnLeft hlo hhi hp)
      have hri : ∀ nearest', (probe cur = .hit false ∧ nearest' = some cur ∨
          probe cur = .miss false ∧ nearest' = nearest) →
          (∃ i, min ≤ i ∧ i < bound ∧ probe i = .stop ∧
            binarySearch probe fuel (cur + 1) bound nearest' = some i) ∨
          Boundary probe min bound nearest (binarySearch probe fuel (cur + 1) bound nearest')
            (cur :: probedFrom probe fuel (cur + 1) bound) (landing probe fuel (cur + 1) bound) := by
        intro nearest' hp
        rcases ih (cur + 1) bound nearest' (by omega) hhi with ⟨i,hi1,hi2,hst,hr⟩ | hb
        · exact .inl ⟨i,by omega,hi2,hst,hr⟩
        · exact .inr (hb.turnRight hlo hhi hmid hp)
      cases hp : probe cur with
      | stop => exact .inl ⟨cur,hlo,hhi,hp,rfl⟩
      | hit goLeft =>
        cases goLeft with
        | true => exact hlef _ (.inl ⟨hp,rfl⟩)
        | false => exact hri _ (.inl ⟨hp,rfl⟩)
      | miss goLeft =>
        cases goLeft with
        | true => exact hlef _ (.inr ⟨hp,rfl⟩)
        | false => exact hri _ (.inr ⟨hp,rfl⟩)

theorem searchAll_spec : (∃ i, i < n ∧ probe i = .stop ∧ searchAll probe n = some i) ∨
      Boundary probe 0 n none (searchAll probe n) (probed probe n) (boundaryOf probe n) := by
  rcases binarySearch_spec 0 n none (Nat.le_of_eq (Nat.sub_zero n)) (Nat.zero_le n) with
    ⟨i,-,hi,hst,hr⟩ | hb
  · exact .inl ⟨i,hi,hst,hr⟩
  · exact .inr hb

/-- Without a stop, where a search ends depends on its turns only. -/
theorem landing_congr (hst : ∀ i, probe i ≠ .stop) (htu : ∀ i, (probe i).TurnsLeft ↔ (probe' i).TurnsLeft)
    (htu' : ∀ i, (probe i).TurnsRight ↔ (probe' i).TurnsRight) :
    landing probe fuel min bound = landing probe' fuel min bound := by
  induction fuel generalizing min bound with
  | zero => rfl
  | succ fuel ih =>
    simp only [landing]
    split
    · rfl
    · have hs := hst ((min + (bound - 1)) / 2)
      have hl := htu ((min + (bound - 1)) / 2)
      have hr := htu' ((min + (bound - 1)) / 2)
      revert hs hl hr
      generalize probe ((min + (bound - 1)) / 2) = p
      generalize probe' ((min + (bound - 1)) / 2) = p'
      rcases p with _ | (_ | _) | (_ | _) <;> rcases p' with _ | (_ | _) | (_ | _) <;>
        simp_all [Probe.TurnsLeft,Probe.TurnsRight]

end

end OxiSql.Lib
