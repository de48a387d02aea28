import Mathlib

namespace OxiSql.Lib
open List Function Prod

/-! A doubly linked list in a heap. Following a pointer that points to nothing is a fault, `none`. -/

structure Node (α : Type) where
  data : α
  prev : Option Nat
  next : Option Nat
deriving DecidableEq

abbrev Heap (α : Type) := Nat → Option (Node α)

structure LinkedList (α : Type) where
  heap : Heap α
  head : Option Nat
  tail : Option Nat

section
variable {α : Type}

def Heap.setPrev (heap : Heap α) (p : Nat) (prev : Option Nat) : Option (Heap α) :=
  (heap p).map fun node => update heap p (some { node with prev })

def Heap.setNext (heap : Heap α) (p : Nat) (next : Option Nat) : Option (Heap α) :=
  (heap p).map fun node => update heap p (some { node with next })

namespace LinkedList

def empty : LinkedList α :=
  ⟨fun _ => none, none, none⟩

/-- Taking a node out of the list. It stays in the heap. -/
def unlink (l : LinkedList α) (p : Nat) : Option (LinkedList α) :=
  (l.heap p).bind fun node =>
    let heap : Heap α := update l.heap p (some { node with prev := none, next := none })
    match node.prev, node.next with
    | none, none => some ⟨heap, none, none⟩
    | none, some n => (heap.setPrev n none).map fun heap => ⟨heap, some n, l.tail⟩
    | some q, none => (heap.setNext q none).map fun heap => ⟨heap, l.head, some q⟩
    | some q, some n => (heap.setNext q (some n)).bind fun heap =>
        (heap.setPrev n (some q)).map fun heap => ⟨heap, l.head, l.tail⟩

/-- Putting a node that is in no list in front. -/
def pushFront (l : LinkedList α) (p : Nat) : Option (LinkedList α) :=
  let tail := l.tail.or (some p)
  match l.head with
  | none => some ⟨l.heap, some p, tail⟩
  | some h => (l.heap.setNext p (some h)).bind fun heap =>
      (heap.setPrev h (some p)).map fun heap => ⟨heap, some p, tail⟩

def free (l : LinkedList α) (p : Nat) : LinkedList α :=
  { l with heap := update l.heap p none }

end LinkedList

/-- A stretch of a list: each node points back to the one before and on to the one after it. -/
def Segment (heap : Heap α) : Option Nat → List (Nat × α) → Option Nat → Prop
  | _, [], _ => True
  | prev, (p, a) :: es, next =>
    heap p = some ⟨a, prev, (es.head?.map Prod.fst).or next⟩ ∧ Segment heap (some p) es next

section
variable {fs : List (Nat × α)} {prev next : Option Nat}

def firstOr (es : List (Nat × α)) (next : Option Nat) : Option Nat :=
  (es.head?.map Prod.fst).or next

def lastOr (prev : Option Nat) (es : List (Nat × α)) : Option Nat :=
  (es.getLast?.map Prod.fst).or prev

@[simp] theorem firstOr_nil : firstOr ([] : List (Nat × α)) next = next := rfl

@[simp] theorem firstOr_cons : firstOr (e :: es) next = some e.1 := rfl

@[simp] theorem lastOr_nil : lastOr prev ([] : List (Nat × α)) = prev := rfl

theorem lastOr_cons : lastOr prev (e :: es) = lastOr (some e.1) es := by
  cases es with
  | nil => rfl
  | cons f es =>
    cases hl : (f :: es).getLast? with
    | none => simp at hl
    | some g => rfl

theorem firstOr_append : firstOr (es ++ fs) next = firstOr es (firstOr fs next) := by
  cases es <;> rfl

theorem segment_cons : Segment heap prev (e :: es) next ↔
    heap e.1 = some ⟨e.2,prev,firstOr es next⟩ ∧ Segment heap (some e.1) es next := Iff.rfl

theorem segment_append : Segment heap prev (es ++ fs) next ↔
    Segment heap prev es (firstOr fs next) ∧ Segment heap (lastOr prev es) fs next := by
  induction es generalizing prev with
  | nil => simp [Segment]
  | cons e es ih =>
    rw [cons_append,segment_cons,segment_cons,ih,firstOr_append,lastOr_cons,and_assoc]

theorem Segment.congr (h : Segment heap prev es next) (hsa : ∀ p ∈ es.map fst, heap' p = heap p) :
    Segment heap' prev es next := by
  induction es generalizing prev with
  | nil => trivial
  | cons e es ih =>
    exact ⟨(hsa _ (by simp)).trans h.1,ih h.2 fun p hp => hsa p (by simp [hp])⟩

theorem Segment.node (h : Segment heap prev es next) (he : e ∈ es) :
    ∃ prev next, heap e.1 = some ⟨e.2,prev,next⟩ := by
  obtain ⟨as,bs,rfl⟩ := append_of_mem he
  exact ⟨_,_,(segment_append.mp h).2.1⟩

theorem Segment.setNext (h : Segment heap prev (es ++ [e]) next) (next' : Option Nat)
    (hno : ((es ++ [e]).map fst).Nodup) :
    ∃ heap', heap.setNext e.1 next' = some heap' ∧ Segment heap' prev (es ++ [e]) next' ∧
      ∀ p, p ≠ e.1 → heap' p = heap p := by
  obtain ⟨hfr,hlast,-⟩ := segment_append.mp h
  refine ⟨update heap e.1 (some ⟨e.2,lastOr prev es,next'⟩),?_,?_,fun p hp => ?_⟩
  · rw [Heap.setNext,hlast]
    rfl
  · refine segment_append.mpr ⟨?_,by simp,trivial⟩
    refine hfr.congr fun p hp => update_of_ne ?_ _ _
    rintro rfl
    rw [map_append,nodup_append] at hno
    exact hno.2.2 _ hp _ (by simp) rfl
  · exact update_of_ne hp _ _

theorem Segment.setPrev (h : Segment heap prev (e :: es) next) (prev' : Option Nat)
    (hno : ((e :: es).map fst).Nodup) :
    ∃ heap', heap.setPrev e.1 prev' = some heap' ∧ Segment heap' prev' (e :: es) next ∧
      ∀ p, p ≠ e.1 → heap' p = heap p := by
  obtain ⟨hfirst,hre⟩ := h
  refine ⟨update heap e.1 (some ⟨e.2,prev',firstOr es next⟩),?_,?_,fun p hp => ?_⟩
  · rw [Heap.setPrev,hfirst]
    rfl
  · refine ⟨by simp [firstOr],hre.congr fun p hp => update_of_ne ?_ _ _⟩
    rintro rfl
    exact (nodup_cons.mp hno).1 hp
  · exact update_of_ne hp _ _

end

structure Lists (l : LinkedList α) (es : List (Nat × α)) : Prop where
  head : l.head = firstOr es none
  tail : l.tail = lastOr none es
  linked : Segment l.heap none es none
  nodup : (es.map Prod.fst).Nodup

theorem Lists.empty : Lists (LinkedList.empty : LinkedList α) [] :=
  ⟨rfl,rfl,trivial,nodup_nil⟩

section
variable {e : Nat × α}

/-- A node out of every list, and the rest of the heap as it was. -/
structure Apart (heap heap' : Heap α) (e : Nat × α) (es : List (Nat × α)) : Prop where
  node : heap' e.1 = some ⟨e.2, none, none⟩
  outside : ∀ p, p ≠ e.1 → p ∉ es.map Prod.fst → heap' p = heap p

theorem Lists.free (h : Lists l es) (hp : p ∉ es.map fst) : Lists (l.free p) es := by
  refine ⟨h.head,h.tail,h.linked.congr fun q hq => update_of_ne ?_ _ _,h.nodup⟩
  rintro rfl
  exact hp hq

def walk (heap : Heap α) : Nat → Option Nat → List (Nat × α)
  | fuel + 1, some p =>
    match heap p with
    | none => []
    | some node => (p, node.data) :: walk heap fuel node.next
  | _, _ => []

theorem Segment.walk {prev : Option Nat} (h : Segment heap prev es none) (hfu : es.length ≤ fuel) :
    walk heap fuel (firstOr es none) = es := by
  induction es generalizing prev fuel with
  | nil => cases fuel <;> rfl
  | cons e es ih =>
    cases fuel with
    | zero => simp at hfu
    | succ fuel =>
      obtain ⟨hno,hre⟩ := segment_cons.mp h
      rw [firstOr_cons,Lib.walk,hno]
      simp [ih hre (by simpa using hfu)]

theorem Lists.unlink (h : Lists l (as ++ e :: bs)) :
    ∃ l', l.unlink e.1 = some l' ∧ Lists l' (as ++ bs) ∧ Apart l.heap l'.heap e (as ++ bs) := by
  obtain ⟨hfr,hno,hback⟩ := segment_append.mp h.linked
  have hnod := h.nodup
  rw [map_append,map_cons,nodup_middle,nodup_cons,← map_append] at hnod
  obtain ⟨hnot,hre⟩ := hnod
  have hne : ∀ p ∈ (as ++ bs).map fst, p ≠ e.1 := fun p hp hpe => hnot (hpe ▸ hp)
  generalize hhe : update l.heap e.1 (some ⟨e.2,none,none⟩) = heap
  have hsa : ∀ p, p ≠ e.1 → heap p = l.heap p := fun p hp => by
    rw [← hhe,update_of_ne hp]
  have hse : heap e.1 = some ⟨e.2,none,none⟩ := by rw [← hhe,update_self]
  have hfr' : Segment heap none as (some e.1) :=
    hfr.congr fun p hp => hsa p (hne p (by simp [hp]))
  have hback' : Segment heap (some e.1) bs none :=
    hback.congr fun p hp => hsa p (hne p (by simp [hp]))
  rw [LinkedList.unlink,hno]
  simp only [Option.bind_some,hhe]
  have hap : ∀ heap' : Heap α, (∀ p, p ∉ (as ++ bs).map fst → heap' p = heap p) →
      Apart l.heap heap' e (as ++ bs) := fun heap' hout =>
    ⟨(hout e.1 hnot).trans hse,fun p hp hp' => (hout p hp').trans (hsa p hp)⟩
  have hhea := h.head
  have hta := h.tail
  rcases as.eq_nil_or_concat with rfl | ⟨as,q,rfl⟩
  · cases bs with
    | nil => exact ⟨_,rfl,⟨rfl,rfl,trivial,hre⟩,hap heap fun _ _ => rfl⟩
    | cons n bs =>
      obtain ⟨heap',hset,hseg,hout⟩ := hback'.setPrev none hre
      refine ⟨⟨heap',some n.1,l.tail⟩,by simp [hset],⟨rfl,?_,hseg,hre⟩,hap heap' ?_⟩
      · rw [hta,nil_append,nil_append,lastOr_cons,lastOr_cons,lastOr_cons]
      · exact fun p hp => hout p fun hpn => hp (by simp [hpn])
  · rw [concat_eq_append] at *
    have hq : lastOr none (as ++ [q]) = some q.1 := by simp [lastOr]
    cases bs with
    | nil =>
      rw [append_nil] at hre hap ⊢
      obtain ⟨heap',hset,hseg,hout⟩ := hfr'.setNext none hre
      refine ⟨⟨heap',l.head,some q.1⟩,by simp [hq,hset],⟨?_,hq.symm,hseg,hre⟩,hap heap' ?_⟩
      · rw [hhea]
        cases as <;> rfl
      · exact fun p hp => hout p fun hpq => hp (by simp [hpq])
    | cons n bs =>
      have hsp := hre
      rw [map_append,nodup_append] at hsp
      obtain ⟨hfro,hba,hdi⟩ := hsp
      obtain ⟨heap1,hset1,hseg1,hout1⟩ := hfr'.setNext (some n.1) hfro
      have hback1 : Segment heap1 (some e.1) (n :: bs) none :=
        hback'.congr fun p hp => hout1 p fun hpq => hdi q.1 (by simp) p hp hpq.symm
      obtain ⟨heap2,hset2,hseg2,hout2⟩ := hback1.setPrev (some q.1) hba
      have hfr2 : Segment heap2 none (as ++ [q]) (some n.1) :=
        hseg1.congr fun p hp => hout2 p fun hpn => hdi p hp n.1 (by simp) hpn
      refine ⟨⟨heap2,l.head,l.tail⟩,by simp [hq,hset1,hset2],⟨?_,?_,?_,hre⟩,hap heap2 ?_⟩
      · rw [hhea]
        cases as <;> rfl
      · rw [hta]
        simp [lastOr]
      · exact segment_append.mpr ⟨hfr2,by rw [hq]; exact hseg2⟩
      · exact fun p hp =>
          (hout2 p fun hpn => hp (by simp [hpn])).trans (hout1 p fun hpq => hp (by simp [hpq]))

theorem Lists.pushFront (h : Lists l es) (hno : l.heap e.1 = some ⟨e.2,none,none⟩)
    (hnot : e.1 ∉ es.map fst) : ∃ l', l.pushFront e.1 = some l' ∧ Lists l' (e :: es) ∧
      ∀ p, p ∉ (e :: es).map fst → l'.heap p = l.heap p := by
  have hnod : ((e :: es).map fst).Nodup := nodup_cons.mpr ⟨hnot,h.nodup⟩
  cases es with
  | nil =>
    refine ⟨⟨l.heap,some e.1,some e.1⟩,?_,⟨rfl,rfl,⟨hno,trivial⟩,hnod⟩,fun _ _ => rfl⟩
    simp [LinkedList.pushFront,h.head,h.tail]
  | cons f es =>
    have hsi : Segment l.heap none ([] ++ [e]) none := ⟨hno,trivial⟩
    obtain ⟨heap1,hset1,hseg1,hout1⟩ := hsi.setNext (some f.1) (by simp)
    have hre1 : Segment heap1 none (f :: es) none :=
      h.linked.congr fun p hp => hout1 p fun hpe => hnot (hpe ▸ hp)
    obtain ⟨heap2,hset2,hseg2,hout2⟩ := hre1.setPrev (some e.1) h.nodup
    refine ⟨⟨heap2,some e.1,l.tail⟩,?_,⟨rfl,?_,⟨?_,hseg2⟩,hnod⟩,fun p hp => ?_⟩
    · have hta : l.tail.or (some e.1) = l.tail := by
        rw [h.tail,lastOr_cons]
        cases hl : es.getLast? <;> simp [lastOr]
      simp [LinkedList.pushFront,h.head,hset1,hset2,hta]
    · rw [h.tail,lastOr_cons,lastOr_cons,lastOr_cons]
    · exact (hout2 e.1 fun hef => hnot (by simp [hef])).trans hseg1.1
    · exact (hout2 p fun hpf => hp (by simp [hpf])).trans (hout1 p fun hpe => hp (by simp [hpe]))

end

end

end OxiSql.Lib
