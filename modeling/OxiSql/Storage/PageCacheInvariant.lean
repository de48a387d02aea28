import OxiSql.Storage.PageCache

namespace OxiSql.Storage
open Lib List Function DumbLruPageCache

namespace DumbLruPageCache

def node (e : Nat × PageCacheEntry) : HashMapNode :=
  ⟨e.2.key, e.1⟩

/-- The entries from head to tail; the map has one node for each. -/
structure Rep (c : DumbLruPageCache) (es : List (Nat × PageCacheEntry)) : Prop where
  list : Lists c.list es
  wf : c.map.Wf
  mapped : c.map.nodes.Perm (es.map node)
  fresh : ∀ p, c.allocs ≤ p → c.list.heap p = none
  buckets : 0 < c.map.capacity

def canGo (c : DumbLruPageCache) (e : Nat × PageCacheEntry) : Bool :=
  !(c.pages e.2.page).locked && !(c.pages e.2.page).dirty

structure Near (c c' : DumbLruPageCache) : Prop where
  capacity : c'.capacity = c.capacity
  allocs : c'.allocs = c.allocs
  canGo : c'.canGo = c.canGo

theorem Near.refl (c : DumbLruPageCache) : c.Near c :=
  ⟨rfl,rfl,rfl⟩

theorem Near.trans {c c' c'' : DumbLruPageCache} (h : c.Near c') (h' : c'.Near c'') : c.Near c'' :=
  ⟨h'.capacity.trans h.capacity,h'.allocs.trans h.allocs,h'.canGo.trans h.canGo⟩

theorem new_rep {capacity : Nat} (hcap : 0 < capacity) (pages : Nat → PageFlags) :
    (new capacity pages).Rep [] where
  list := .empty
  wf := PageHashMap.new_wf capacity
  mapped := by simp [new,PageHashMap.new,PageHashMap.nodes]
  fresh _ _ := rfl
  buckets := hcap

section
variable {c : DumbLruPageCache}

section

variable (h : c.Rep es)
include h

theorem Rep.len : c.len = es.length := by
  rw [DumbLruPageCache.len,h.wf.size,h.mapped.length_eq,length_map]

theorem Rep.keys : (es.map (·.2.key)).Nodup := by
  have hke := (h.mapped.map HashMapNode.key).nodup_iff.mp h.wf.once
  rwa [map_map] at hke

theorem Rep.get (he : e ∈ es) : c.map.get e.2.key = some e.1 :=
  (h.wf.get_eq_some h.buckets).mpr (h.mapped.mem_iff.mpr (mem_map.mpr ⟨e,he,rfl⟩))

theorem Rep.get_none (hkey : key ∉ es.map (·.2.key)) : c.map.get key = none := by
  rw [h.wf.get_eq_none h.buckets,(h.mapped.map HashMapNode.key).mem_iff,map_map]
  exact hkey

theorem Rep.lookup (key : Nat) : c.lookup key = some (c.map.get key) :=
  if_neg (Nat.ne_of_gt h.buckets)

theorem Rep.lt_allocs (he : e ∈ es) : e.1 < c.allocs := by
  obtain ⟨prev,next,hno⟩ := h.list.linked.node he
  refine Nat.lt_of_not_le fun hle => ?_
  rw [h.fresh e.1 hle] at hno
  cases hno

/-- There are no more entries than addresses. -/
theorem Rep.length_le : es.length ≤ c.allocs := by
  have hsub : es.map Prod.fst ⊆ List.range c.allocs := by
    intro p hp
    obtain ⟨e,he,rfl⟩ := mem_map.mp hp
    exact mem_range.mpr (h.lt_allocs he)
  simpa using h.list.nodup.length_le_of_subset hsub

end

theorem cleanPage_near : c.Near (c.cleanPage page) := by
  refine ⟨rfl,rfl,funext fun e => ?_⟩
  by_cases hp : e.2.page = page
  · subst hp
    simp [canGo,cleanPage]
  · simp [canGo,cleanPage,hp]

structure Removed (c c' : DumbLruPageCache) (e : Nat × PageCacheEntry)
    (es : List (Nat × PageCacheEntry)) : Prop where
  near : c.Near c'
  map : c'.map = c.map
  list : Lists c'.list es
  apart : Apart c.list.heap c'.list.heap e es

section

variable (h : c.Rep (as ++ e :: bs))
include h

theorem Rep.unlink : ∃ c', c.unlink e.1 = some c' ∧ c.Removed c' e (as ++ bs) := by
  obtain ⟨l,hl,hlist,hap⟩ := h.list.unlink
  exact ⟨{ c with list := l },by rw [DumbLruPageCache.unlink,hl]; rfl,⟨rfl,rfl,rfl⟩,rfl,hlist,hap⟩

theorem Rep.node : c.list.heap e.1 = some ⟨e.2,lastOr none as,firstOr bs none⟩ :=
  (segment_append.mp h.list.linked).2.1

theorem Rep.detach (hgo : c.canGo e) :
    ∃ c', c.detach e.1 true = some (.ok (),c') ∧ c.Removed c' e (as ++ bs) := by
  obtain ⟨hlo,hdi⟩ : (c.pages e.2.page).locked = false ∧ (c.pages e.2.page).dirty = false := by
    simpa [canGo] using hgo
  have hcl : (c.cleanPage e.2.page).Rep (as ++ e :: bs) :=
    ⟨h.list,h.wf,h.mapped,h.fresh,h.buckets⟩
  obtain ⟨c',hc',hre⟩ := hcl.unlink
  refine ⟨c',?_,((cleanPage_near).trans hre.near),hre.map,hre.list,hre.apart⟩
  simp [DumbLruPageCache.detach,h.node,hlo,hdi,hc']

theorem Rep.detach_error (hgo : ¬ c.canGo e) (clean : Bool) :
    ∃ err, c.detach e.1 clean = some (.error err,c) := by
  cases hlo : (c.pages e.2.page).locked with
  | true => exact ⟨.locked,by simp [DumbLruPageCache.detach,h.node,hlo]⟩
  | false =>
    have hdi : (c.pages e.2.page).dirty = true := by simpa [canGo,hlo] using hgo
    exact ⟨.dirty,by simp [DumbLruPageCache.detach,h.node,hlo,hdi]⟩

theorem Rep.notMem : e.1 ∉ (as ++ bs).map Prod.fst := by
  have hno := h.list.nodup
  rw [map_append,map_cons,nodup_middle,nodup_cons,← map_append] at hno
  exact hno.1

end

/-- Freeing an entry that is out of the list and out of the map. -/
theorem Removed.free {map : PageHashMap} (hr : c.Removed c' e (as ++ bs))
    (h : c.Rep (as ++ e :: bs)) (hwf : map.Wf) (hcap : map.capacity = c.map.capacity)
    (hmap : c.map.nodes.Perm (node e :: map.nodes)) :
    ({ c' with map }.freeEntry e.1).Rep (as ++ bs) where
  list := hr.list.free h.notMem
  wf := hwf
  mapped := by
    have hall := hmap.symm.trans h.mapped
    rw [map_append] at hall
    have := (hall.trans perm_middle).cons_inv
    rwa [← map_append] at this
  fresh p hp := by
    have hp' : c.allocs ≤ p := by rw [← hr.near.allocs]; exact hp
    by_cases hpe : p = e.1
    · subst hpe
      exact update_self ..
    · have hout : c'.list.heap p = c.list.heap p := by
        refine hr.apart.outside p hpe fun hmem => ?_
        obtain ⟨f,hf,rfl⟩ := mem_map.mp hmem
        have hlt : f.1 < c.allocs := h.lt_allocs (by
          rcases mem_append.mp hf with hf | hf <;> simp [hf])
        omega
      exact (update_of_ne hpe _ _).trans (hout.trans (h.fresh p hp'))
  buckets := hcap ▸ h.buckets

theorem Rep.delete (h : c.Rep (as ++ e :: bs)) (hgo : c.canGo e) :
    ∃ c', c.delete e.2.key = some (.ok (),c') ∧ c'.Rep (as ++ bs) ∧ c.Near c' := by
  have hget := h.get (e := e) (by simp)
  obtain ⟨c',hc',hre⟩ := h.detach hgo
  obtain ⟨map,hmap,hwf,hcap,hpe⟩ := h.wf.remove h.buckets hget
  refine ⟨{ c' with map }.freeEntry e.1,?_,hre.free h hwf hcap hpe,?_⟩
  · simp [DumbLruPageCache.delete,h.lookup,hget,hc',hre.map,hmap]
  · exact ⟨hre.near.capacity,hre.near.allocs,hre.near.canGo⟩

theorem Rep.delete_error (h : c.Rep (as ++ e :: bs)) (hgo : ¬ c.canGo e) :
    ∃ err, c.delete e.2.key = some (.error err,c) := by
  obtain ⟨err,herr⟩ := h.detach_error hgo true
  have hget := h.get (e := e) (by simp)
  exact ⟨err,by simp [DumbLruPageCache.delete,h.lookup,hget,herr]⟩

def evicted (go : Nat × PageCacheEntry → Bool) :
    Nat → List (Nat × PageCacheEntry) → List (Nat × PageCacheEntry)
  | 0, as => as
  | _, [] => []
  | need + 1, a :: as => if go a then evicted go need as else a :: evicted go (need + 1) as

variable (go : Nat × PageCacheEntry → Bool)

theorem evicted_nil : evicted go need [] = [] := by
  cases need <;> rfl

theorem evicted_sublist : (evicted go need as).Sublist as := by
  fun_induction evicted go need as with
  | case1 => exact .refl _
  | case2 => exact .slnil
  | case3 need a as hgo ih => exact ih.cons a
  | case4 need a as hgo ih => exact ih.cons_cons a

theorem canGo_of_evicted {go : Nat × PageCacheEntry → Bool} (he : e ∈ as)
    (hout : e ∉ evicted go need as) : go e := by
  fun_induction evicted go need as with
  | case1 | case2 => exact absurd he hout
  | case3 need a as hgo ih =>
    rcases mem_cons.mp he with rfl | he
    · exact hgo
    · exact ih he hout
  | case4 need a as hgo ih =>
    rcases mem_cons.mp he with rfl | he
    · exact absurd (by simp) hout
    · exact ih he fun h => hout (by simp [h])

theorem evicted_of_none {go : Nat × PageCacheEntry → Bool} (hgo : as.countP go = 0) :
    evicted go need as = as := by
  rw [countP_eq_zero] at hgo
  fun_induction evicted go need as with
  | case1 | case2 => rfl
  | case3 need a as ha ih => exact absurd ha (hgo a (by simp))
  | case4 need a as ha ih => simp [ih fun b hb => hgo b (by simp [hb])]

theorem lastOr_reverse : lastOr none as.reverse = firstOr as none := by
  simp [lastOr,firstOr]

/-- The loop of eviction has the part of the list before its entry still to look at. -/
theorem Rep.evictFrom (h : c.Rep (as.reverse ++ bs)) (hfu : as.length ≤ fuel) (need : Nat) :
    ∃ c', evictFrom fuel need (firstOr as none) c = some (need - as.countP c.canGo,c') ∧
      c'.Rep ((evicted c.canGo need as).reverse ++ bs) ∧ c.Near c' := by
  induction as generalizing c bs fuel need with
  | nil =>
    refine ⟨c,?_,by rwa [evicted_nil],.refl c⟩
    cases need <;> simp [evictFrom]
  | cons a as ih =>
    cases need with
    | zero => exact ⟨c,by simp [evictFrom],h,.refl c⟩
    | succ need =>
      cases fuel with
      | zero => simp at hfu
      | succ fuel =>
        have hfu' : as.length ≤ fuel := by simpa using hfu
        rw [reverse_cons,append_assoc] at h
        have hno := h.node
        rw [lastOr_reverse] at hno
        by_cases hgo : c.canGo a
        · obtain ⟨c1,hde,hrep,hne⟩ := h.delete hgo
          obtain ⟨c2,hlo,hrep2,hne2⟩ := ih hrep hfu' need
          rw [hne.canGo] at hlo hrep2
          refine ⟨c2,?_,by simpa [evicted,hgo] using hrep2,hne.trans hne2⟩
          simp [evictFrom,hno,hde,hlo,hgo]
        · obtain ⟨err,hde⟩ := h.delete_error hgo
          obtain ⟨c2,hlo,hrep2,hne2⟩ := ih h hfu' (need + 1)
          refine ⟨c2,?_,by simpa [evicted,hgo] using hrep2,hne2⟩
          simp [evictFrom,hno,hde,hlo,hgo]

def left (c : DumbLruPageCache) (n : Nat) (es : List (Nat × PageCacheEntry)) : List (Nat × PageCacheEntry) :=
  if c.capacity < n then es else (evicted c.canGo (c.needToEvict n) es.reverse).reverse

def HasRoom (c : DumbLruPageCache) (n : Nat) (es : List (Nat × PageCacheEntry)) : Prop :=
  n ≤ c.capacity ∧ c.needToEvict n ≤ es.countP c.canGo

theorem left_subset (c : DumbLruPageCache) : (c.left n es).Sublist es := by
  unfold left
  split
  · exact .refl _
  · exact reverse_sublist.mp (by simpa using evicted_sublist c.canGo)

theorem canGo_of_left (he : e ∈ es) (hout : e ∉ c.left n es) : c.canGo e := by
  unfold left at hout
  split at hout
  · exact absurd he hout
  · exact canGo_of_evicted (mem_reverse.mpr he) fun h => hout (mem_reverse.mpr h)

variable (h : c.Rep es)
include h

theorem Rep.makeRoomFor (n : Nat) :
    ∃ r c', c.makeRoomFor n = some (r,c') ∧ (r = .ok () ↔ c.HasRoom n es) ∧ c'.Rep (c.left n es) ∧
      c.Near c' := by
  unfold DumbLruPageCache.makeRoomFor HasRoom left
  split
  next hcap => exact ⟨_,c,rfl,by simp; omega,h,.refl c⟩
  next hcap =>
    split
    next hroom =>
      have hne : c.needToEvict n = 0 := by
        unfold needToEvict
        omega
      exact ⟨_,c,rfl,by simp; omega,by simpa [hne,evicted] using h,.refl c⟩
    next hroom =>
      have hlen := h.len
      have hta := h.list.tail
      rw [← es.reverse_reverse,lastOr_reverse] at hta
      cases hes : es.reverse with
      | nil =>
        obtain rfl : es = [] := by simpa using hes
        exact absurd ⟨by simp [hlen]; omega,by simp [hlen]⟩ hroom
      | cons a as =>
        have hrep : c.Rep (es.reverse.reverse ++ []) := by simpa using h
        obtain ⟨c',hlo,hrep',hnea⟩ :=
          hrep.evictFrom (by simpa using h.length_le) (c.needToEvict n)
        rw [hes] at hta
        rw [hes,firstOr_cons,← hes] at hlo
        rw [append_nil,hes] at hrep'
        rw [hta]
        refine ⟨_,c',by simp [hlo]; rfl,?_,hrep',hnea⟩
        split <;> simp <;> omega

omit h in
/-- The first entry found is taken to the front. -/
theorem Rep.peek (h : c.Rep (as ++ e :: bs)) (touched : Bool) :
    ∃ c', c.peek e.2.key touched = some (some e.2.page,c') ∧
      c'.Rep (if touched then e :: (as ++ bs) else as ++ e :: bs) ∧ c.Near c' := by
  have hget := h.get (e := e) (by simp)
  cases touched with
  | false => exact ⟨c,by simp [DumbLruPageCache.peek,h.lookup,hget,h.node],h,.refl c⟩
  | true =>
    obtain ⟨c1,hun,hre⟩ := h.unlink
    obtain ⟨l,hl,hlist,hout⟩ := hre.list.pushFront hre.apart.node h.notMem
    refine ⟨{ c1 with list := l },?_,?_,hre.near.capacity,hre.near.allocs,hre.near.canGo⟩
    · simp [DumbLruPageCache.peek,h.lookup,hget,h.node,hun,touch,hl]
    · refine ⟨hlist,hre.map ▸ h.wf,?_,fun p hp => ?_,hre.map ▸ h.buckets⟩
      · have hper := h.mapped.trans (perm_middle.map DumbLruPageCache.node)
        simpa [hre.map] using hper
      · have hp' : c.allocs ≤ p := by rw [← hre.near.allocs]; exact hp
        have hnot : ∀ f ∈ as ++ e :: bs, f.1 ≠ p := fun f hf => by
          have := h.lt_allocs hf
          omega
        have hpe : p ≠ e.1 := (hnot e (by simp)).symm
        have hpo : p ∉ (as ++ bs).map Prod.fst := by
          intro hmem
          obtain ⟨f,hf,rfl⟩ := mem_map.mp hmem
          refine hnot f ?_ rfl
          rcases mem_append.mp hf with hf | hf <;> simp [hf]
        exact (hout p (by simpa [hpe] using hpo)).trans ((hre.apart.outside p hpe hpo).trans (h.fresh p hp'))

theorem Rep.peek_none (hkey : key ∉ es.map (·.2.key)) : c.peek key touched = some (none,c) := by
  simp [DumbLruPageCache.peek,h.lookup,h.get_none hkey]

theorem Rep.addEntry (hkey : key ∉ es.map (·.2.key)) (page : Nat) :
    ∃ c', c.addEntry key page = some c' ∧ c'.Rep ((c.allocs,⟨key,page⟩) :: es) := by
  let e : Nat × PageCacheEntry := (c.allocs, ⟨key,page⟩)
  let l : LinkedList PageCacheEntry :=
    { c.list with heap := Function.update c.list.heap c.allocs (some ⟨⟨key,page⟩,none,none⟩) }
  have hne : ∀ p ∈ es.map Prod.fst, p ≠ c.allocs := by
    intro p hp
    obtain ⟨f,hf,rfl⟩ := mem_map.mp hp
    exact Nat.ne_of_lt (h.lt_allocs hf)
  have hli : Lists l es :=
    ⟨h.list.head,h.list.tail,h.list.linked.congr fun p hp => update_of_ne (hne p hp) _ _,h.list.nodup⟩
  obtain ⟨l',hl',hlist,hout⟩ :=
    hli.pushFront (e := e) (update_self ..) fun hmem => hne _ hmem rfl
  obtain ⟨hwf,hcap,hper⟩ := h.wf.insert h.buckets (h.get_none hkey) c.allocs
  refine ⟨⟨c.capacity,(c.map.insert key c.allocs).2,l',c.pages,c.allocs + 1⟩,?_,hlist,hwf,
    hper.trans (h.mapped.cons _),fun p hp => ?_,hcap ▸ h.buckets⟩
  · simp [DumbLruPageCache.addEntry,touch,show ({ c.list with heap := _ } : LinkedList _) = l from rfl,
      show l.pushFront c.allocs = some l' from hl',Nat.ne_of_gt h.buckets]
  · have hp' : c.allocs + 1 ≤ p := hp
    have hpe : p ≠ c.allocs := by omega
    refine (hout p ?_).trans ((update_of_ne hpe _ _).trans (h.fresh p (by omega)))
    intro hmem
    rcases mem_cons.mp hmem with heq | hmem
    · exact hpe heq
    · obtain ⟨f,hf,rfl⟩ := mem_map.mp hmem
      have := h.lt_allocs hf
      omega

theorem Rep.resize {capacity : Nat} (hcap : 0 < capacity) : ∃ r c', c.resize capacity = some (r,c') ∧
      c'.Rep ({ c with map := c.map.rehash capacity, capacity }.left 0 es) := by
  obtain ⟨hwf,hbu,hpe⟩ := h.wf.rehash hcap
  have hrep : { c with map := c.map.rehash capacity, capacity }.Rep es :=
    ⟨h.list,hwf,hpe.trans h.mapped,h.fresh,Nat.lt_of_lt_of_eq hcap hbu.symm⟩
  obtain ⟨r,c',hroom,-,hrep',-⟩ := hrep.makeRoomFor 0
  have hguard : ¬ (capacity = 0 ∧ c.map.nodes ≠ []) := fun h0 => Nat.ne_of_gt hcap h0.1
  cases r with
  | ok u => exact ⟨.done,c',by simp [DumbLruPageCache.resize,hguard,hroom],hrep'⟩
  | error e => exact ⟨.pendingEvictions,c',by simp [DumbLruPageCache.resize,hguard,hroom],hrep'⟩

omit h in
theorem detach_map (map : PageHashMap) :
    { c with map }.detach entry clean = (c.detach entry clean).map fun (r,c) => (r,{ c with map }) := by
  cases hno : c.list.heap entry with
  | none => simp [detach,hno]
  | some node =>
    simp only [detach,hno,Option.bind_eq_bind,Option.bind_some]
    split
    · rfl
    · split
      · rfl
      · cases clean <;> cases hl : c.list.unlink entry <;>
          simp [unlink,cleanPage,hl]

theorem Rep.clearFrom (hgo : ∀ e ∈ es, c.canGo e) (hfu : es.length ≤ fuel) :
    ∃ c', clearFrom fuel (firstOr es none) c = some (.ok (),c') ∧ c'.Rep [] := by
  induction es generalizing c fuel with
  | nil => exact ⟨c,by simp [clearFrom],h⟩
  | cons e es ih =>
    cases fuel with
    | zero => simp at hfu
    | succ fuel =>
      have hsp : c.Rep ([] ++ e :: es) := h
      obtain ⟨c1,hde,hre⟩ := hsp.detach (hgo e (by simp))
      obtain ⟨map,hmap,hwf,hcap,hpe⟩ := h.wf.remove h.buckets (h.get (e := e) (by simp))
      have hrep := hre.free hsp hwf hcap hpe
      have hne : ({ c1 with map }.freeEntry e.1).canGo = c.canGo := hre.near.canGo
      obtain ⟨c',hlo,hrep'⟩ := ih hrep
        (fun f hf => by rw [hne]; exact hgo f (by simp [hf])) (by simpa using hfu)
      refine ⟨c',?_,hrep'⟩
      have hno : c.list.heap e.1 = some ⟨e.2,none,firstOr es none⟩ := hsp.node
      simp [clearFrom,hno,Nat.ne_of_gt h.buckets,hmap,detach_map,hde,hlo]

theorem Rep.clear (hgo : ∀ e ∈ es, c.canGo e) : ∃ c', c.clear = some (.ok (),c') ∧ c'.Rep [] := by
  obtain ⟨c',hlo,hrep⟩ := h.clearFrom hgo h.length_le
  refine ⟨{ c' with list := { c'.list with head := none, tail := none } },?_,
    ⟨rfl,rfl,trivial,nodup_nil⟩,hrep.wf,hrep.mapped,hrep.fresh,hrep.buckets⟩
  have hsi : c'.map.size = 0 := hrep.len
  simp [DumbLruPageCache.clear,h.list.head,hlo,hsi]

def AllOrNothing (c : DumbLruPageCache) (n : Nat) (es : List (Nat × PageCacheEntry)) : Prop :=
  c.HasRoom n es ∨ c.capacity < n ∨ es.countP c.canGo = 0

omit h in
theorem AllOrNothing.left {n : Nat} (h : c.AllOrNothing n es) (hroom : ¬ c.HasRoom n es) :
    c.left n es = es := by
  unfold DumbLruPageCache.left
  rcases h with h | h | h
  · exact absurd h hroom
  · rw [if_pos h]
  · split
    · rfl
    · rw [evicted_of_none (by rwa [countP_reverse]),reverse_reverse]

structure Outcome (c : DumbLruPageCache) (es : List (Nat × PageCacheEntry)) (failed : Prop)
    (es' : List (Nat × PageCacheEntry)) : Prop where
  removed : ∀ e ∈ es, e ∉ es' → c.canGo e
  failed : failed → es'.Perm es

omit h in
theorem Outcome.same (c : DumbLruPageCache) {failed : Prop} (h : es.Perm as) : c.Outcome es failed as :=
  ⟨fun _ he hout => absurd (h.mem_iff.mp he) hout,fun _ => h.symm⟩

def failed (r : Except CacheError Unit) : Prop :=
  r ≠ .ok ()

theorem Rep.insertNew (ignoreExists : Bool)
    (hfo : ignoreExists = false → c.peek key true = some (none,c)) (hall : c.AllOrNothing 1 es)
    (hkey : c.HasRoom 1 es → key ∉ (c.left 1 es).map (·.2.key)) :
    ∃ r c' es', c.insertWith key page ignoreExists = some (r,c') ∧ c'.Rep es' ∧
      c.Outcome es (failed r) es' := by
  obtain ⟨r,c1,hroom,hok,hrep,-⟩ := h.makeRoomFor 1
  cases r with
  | error err =>
    have hno : ¬ c.HasRoom 1 es := fun hr => by cases hok.mpr hr
    rw [hall.left hno] at hrep
    refine ⟨.error err,c1,es,?_,hrep,.same c (.refl _)⟩
    cases ignoreExists <;> simp [insertWith,hfo,hroom]
  | ok u =>
    obtain ⟨c2,hadd,hrep2⟩ := hrep.addEntry (hkey (hok.mp rfl)) page
    refine ⟨.ok (),c2,_,?_,hrep2,
      fun e he hout => canGo_of_left (n := 1) he fun hin => hout (by simp [hin]),fun hf => absurd rfl hf⟩
    cases ignoreExists <;> simp [insertWith,hfo,hroom,hadd]

theorem Rep.insertExisting (he : e ∈ es) :
    ∃ r c' es', c.insertWith e.2.key page false = some (r,c') ∧ c'.Rep es' ∧ c.Outcome es (failed r) es' := by
  obtain ⟨as,bs,rfl⟩ := append_of_mem he
  obtain ⟨c',hpe,hrep,-⟩ := h.peek true
  exact ⟨_,c',_,by simp [insertWith,hpe]; rfl,hrep,.same c perm_middle⟩

theorem Rep.deleteKey : ∃ r c' es', c.delete key = some (r,c') ∧ c'.Rep es' ∧ c.Outcome es (failed r) es' := by
  by_cases hkey : key ∈ es.map (·.2.key)
  · obtain ⟨e,he,rfl⟩ := mem_map.mp hkey
    obtain ⟨as,bs,rfl⟩ := append_of_mem he
    by_cases hgo : c.canGo e
    · obtain ⟨c',hde,hrep,-⟩ := h.delete hgo
      refine ⟨_,c',_,hde,hrep,fun f hf hout => ?_,fun hf => absurd rfl hf⟩
      rcases mem_append.mp hf with hf | hf
      · exact absurd (mem_append_left _ hf) hout
      · rcases mem_cons.mp hf with rfl | hf
        · exact hgo
        · exact absurd (mem_append_right _ hf) hout
    · obtain ⟨err,hde⟩ := h.delete_error hgo
      exact ⟨_,c,_,hde,h,.same c (.refl _)⟩
  · exact ⟨.ok (),c,es,by simp [DumbLruPageCache.delete,h.lookup,h.get_none hkey],h,.same c (.refl _)⟩

theorem Rep.peekKey : ∃ r c' es', c.peek key touched = some (r,c') ∧ c'.Rep es' ∧ es.Perm es' := by
  by_cases hkey : key ∈ es.map (·.2.key)
  · obtain ⟨e,he,rfl⟩ := mem_map.mp hkey
    obtain ⟨as,bs,rfl⟩ := append_of_mem he
    obtain ⟨c',hpe,hrep,-⟩ := h.peek touched
    refine ⟨_,c',_,hpe,hrep,?_⟩
    cases touched with
    | false => exact .refl _
    | true => exact perm_middle
  · exact ⟨none,c,es,h.peek_none hkey,h,.refl _⟩

def entries (c : DumbLruPageCache) : List (Nat × PageCacheEntry) :=
  walk c.list.heap c.allocs c.list.head

theorem Rep.entries : c.entries = es := by
  rw [DumbLruPageCache.entries,h.list.head]
  exact h.list.linked.walk h.length_le

end

/-- A call that does not reach one of the cases that fail half-way, nor puts in a key twice. -/
def Ready (c : DumbLruPageCache) : Call → Prop
  | .insert key _ => key ∈ c.entries.map (·.2.key) ∨ c.AllOrNothing 1 c.entries
  | .insertIgnoreExisting key _ => c.AllOrNothing 1 c.entries ∧
      (c.HasRoom 1 c.entries → key ∉ (c.left 1 c.entries).map (·.2.key))
  | .makeRoomFor n => c.AllOrNothing n c.entries
  | .resize capacity => 0 < capacity
  | .clear => ∀ e ∈ c.entries, c.canGo e
  | .peek _ _ | .delete _ | .setFlags _ => True

def Reply.failed : Reply → Prop
  | .result r => DumbLruPageCache.failed r
  | .found _ | .resized _ => False

variable {c : DumbLruPageCache}

theorem Rep.step (h : c.Rep es) (hre : c.Ready call) :
    ∃ r c' es', c.step call = some (r,c') ∧ c'.Rep es' ∧ c.Outcome es r.failed es' := by
  have hen := h.entries
  cases call with
  | insert key page =>
    rw [Ready,hen] at hre
    by_cases hkey : key ∈ es.map (·.2.key)
    · obtain ⟨e,he,rfl⟩ := mem_map.mp hkey
      obtain ⟨r,c',es',hca,hrep,hout⟩ := h.insertExisting he
      exact ⟨.result r,c',es',by rw [DumbLruPageCache.step,hca]; rfl,hrep,hout⟩
    · obtain ⟨r,c',es',hca,hrep,hout⟩ := h.insertNew false (fun _ => h.peek_none hkey)
        (hre.resolve_left hkey) fun _ hin => hkey ((c.left_subset).map _ |>.subset hin)
      exact ⟨.result r,c',es',by rw [DumbLruPageCache.step,hca]; rfl,hrep,hout⟩
  | insertIgnoreExisting key page =>
    rw [Ready,hen] at hre
    obtain ⟨r,c',es',hca,hrep,hout⟩ := h.insertNew true nofun hre.1 hre.2
    exact ⟨.result r,c',es',by rw [DumbLruPageCache.step,hca]; rfl,hrep,hout⟩
  | peek key touched =>
    obtain ⟨r,c',es',hca,hrep,hpe⟩ := h.peekKey
    exact ⟨_,c',es',by rw [DumbLruPageCache.step,hca]; rfl,hrep,.same c hpe⟩
  | delete key =>
    obtain ⟨r,c',es',hca,hrep,hout⟩ := h.deleteKey
    exact ⟨.result r,c',es',by rw [DumbLruPageCache.step,hca]; rfl,hrep,hout⟩
  | makeRoomFor n =>
    rw [Ready,hen] at hre
    obtain ⟨r,c',hca,hok,hrep,-⟩ := h.makeRoomFor n
    refine ⟨_,c',_,by rw [DumbLruPageCache.step,hca]; rfl,hrep,
      fun e he hout => canGo_of_left he hout,fun hf => ?_⟩
    rw [hre.left fun hr => hf (hok.mpr hr)]
  | resize capacity =>
    obtain ⟨r,c',hca,hrep⟩ := h.resize hre
    exact ⟨.resized r,c',_,by rw [DumbLruPageCache.step,hca]; rfl,hrep,
      fun e he hout => canGo_of_left (c := { c with map := _, capacity }) he hout,False.elim⟩
  | clear =>
    rw [Ready,hen] at hre
    obtain ⟨c',hca,hrep⟩ := h.clear hre
    exact ⟨.result (.ok ()),c',[],by rw [DumbLruPageCache.step,hca]; rfl,hrep,fun e he _ => hre e he,
      fun hf => absurd rfl hf⟩
  | setFlags pages =>
    exact ⟨_,_,es,rfl,⟨h.list,h.wf,h.mapped,h.fresh,h.buckets⟩,.same c (.refl _)⟩

inductive Run (capacity : Nat) : DumbLruPageCache → Prop
  | new (pages : Nat → PageFlags) : Run capacity (new capacity pages)
  | call {c c' : DumbLruPageCache} {call : Call} {r : Reply} :
      Run capacity c → c.Ready call → c.step call = some (r, c') → Run capacity c'

theorem Run.rep {capacity : Nat} (hcap : 0 < capacity) (h : Run capacity c) : ∃ es, c.Rep es := by
  induction h with
  | new pages => exact ⟨[],new_rep hcap pages⟩
  | call _ hre hst ih =>
    obtain ⟨es,hrep⟩ := ih
    obtain ⟨r,c',es',hst',hrep',-⟩ := hrep.step hre
    rw [hst] at hst'
    cases hst'
    exact ⟨es',hrep'⟩

/-- List and map hold the same entries. -/
structure Bijective (c : DumbLruPageCache) (es : List (Nat × PageCacheEntry)) : Prop where
  list : Lists c.list es
  keys : (es.map (·.2.key)).Nodup
  points : ∀ e ∈ es, c.map.get e.2.key = some e.1
  only : ∀ key, key ∉ es.map (·.2.key) → c.map.get key = none
  len : c.len = es.length

theorem Rep.bijective (h : c.Rep es) : c.Bijective es :=
  ⟨h.list,h.keys,fun _ he => h.get he,fun _ hkey => h.get_none hkey,h.len⟩

/-- In every cache that such calls lead to, list and map hold the same entries, and the next call of
the kind returns, takes out unlocked clean pages only, and none when it fails. -/
theorem calls_keep_bijective {capacity : Nat} (hcap : 0 < capacity) (h : Run capacity c) :
    c.Bijective c.entries ∧ ∀ call, c.Ready call →
      ∃ r c', c.step call = some (r, c') ∧ c'.Bijective c'.entries ∧
        c.Outcome c.entries r.failed c'.entries := by
  obtain ⟨es,hrep⟩ := h.rep hcap
  rw [hrep.entries]
  refine ⟨hrep.bijective,fun call hre => ?_⟩
  obtain ⟨r,c',es',hst,hrep',hout⟩ := hrep.step hre
  refine ⟨r,c',hst,?_⟩
  rw [hrep'.entries]
  exact ⟨hrep'.bijective,hout⟩

def cleanPages : Nat → PageFlags :=
  fun _ => ⟨false, false, true, true⟩

/-- The third insert takes the first page out; with all pages locked a fourth one fails. -/
theorem lockedCache_bijective : ∃ c c' : DumbLruPageCache, c.entries.map (·.2.key) = [7,6] ∧
    c.step (.insert 8 3) = some (.result (.error .full),c') ∧ c'.Bijective c'.entries := by
  have h5 := @Run.call 2 _ _ (.insert 5 0) _ (.new cleanPages) (.inr (.inl ⟨by decide,by decide⟩)) rfl
  have h6 := @Run.call 2 _ _ (.insert 6 1) _ h5 (.inr (.inl ⟨by decide,by decide⟩)) rfl
  have h7 := @Run.call 2 _ _ (.insert 7 2) _ h6 (.inr (.inl ⟨by decide,by decide⟩)) rfl
  have hlocked := @Run.call 2 _ _ (.setFlags fun _ => ⟨true,false,true,true⟩) _ h7 trivial rfl
  obtain ⟨r,c',hst,hbij,-⟩ := (calls_keep_bijective (by decide) hlocked).2 (.insert 8 3)
    (.inr (.inr (.inr rfl)))
  have hfull : r = .result (.error .full) := (congrArg Prod.fst (Option.some.inj hst)).symm
  exact ⟨_,c',rfl,hfull ▸ hst,hbij⟩

def stepAll (c : DumbLruPageCache) : List Call → Option (List Reply × DumbLruPageCache)
  | [] => some ([], c)
  | call :: calls => do
    let (r, c) ← c.step call
    let (rs, c) ← c.stepAll calls
    some (r :: rs, c)

/-- A key that is put in again has two nodes in the list and one in the map. A `clear` that meets a
dirty page has taken its key out of the map. Making room for two with one page that can go takes it
out and fails. -/
theorem bijection_broken : ((new 2 cleanPages).stepAll [.insert 5 0, .insertIgnoreExisting 5 1]).map
        (fun (_, c) => (c.entries.map (·.2.key), c.len)) = some ([5, 5], 1) ∧
    ((new 2 cleanPages).stepAll [.insert 5 0, .setFlags fun _ => ⟨false, true, true, true⟩, .clear]).map
        (fun (rs, c) => (rs.getLast?, c.entries.map (·.2.key), c.map.get 5)) =
      some (some (.result (.error .dirty)), [5], none) ∧
    ((new 2 cleanPages).stepAll [.insert 5 0, .insert 6 1,
        .setFlags fun page => ⟨page = 1, false, true, true⟩, .makeRoomFor 2]).map
        (fun (rs, c) => (rs.getLast?, c.entries.map (·.2.key))) =
      some (some (.result (.error .full)), [6]) :=
  ⟨rfl,rfl,rfl⟩

end DumbLruPageCache

end OxiSql.Storage
