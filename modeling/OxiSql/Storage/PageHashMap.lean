import Mathlib

namespace OxiSql.Storage
open List

structure HashMapNode where
  key : Nat
  value : Nat
deriving DecidableEq

structure PageHashMap where
  buckets : List (List HashMapNode)
  capacity : Nat
  size : Nat
deriving DecidableEq

namespace PageHashMap

def new (capacity : Nat) : PageHashMap :=
  ⟨.replicate capacity [], capacity, 0⟩

/-- A remainder; with capacity 0 the source panics here. -/
def hash (m : PageHashMap) (key : Nat) : Nat :=
  key % m.capacity

def bucket (m : PageHashMap) (key : Nat) : List HashMapNode :=
  m.buckets.getD (m.hash key) []

/-- The loop of `insert`: the value found for the key, and the bucket with the new one. -/
def insertIn (key value : Nat) : List HashMapNode → Option Nat × List HashMapNode
  | [] => (none, [⟨key, value⟩])
  | node :: bucket =>
    if node.key = key then (some node.value, { node with value } :: bucket)
    else
      let (prev, bucket) := insertIn key value bucket
      (prev, node :: bucket)

def insert (m : PageHashMap) (key value : Nat) : Option Nat × PageHashMap :=
  let (prev, bucket) := insertIn key value (m.bucket key)
  (prev, { m with
    buckets := m.buckets.set (m.hash key) bucket
    size := if prev.isNone then m.size + 1 else m.size })

def get (m : PageHashMap) (key : Nat) : Option Nat :=
  ((m.bucket key).find? (·.key = key)).map HashMapNode.value

def remove (m : PageHashMap) (key : Nat) : Option Nat × PageHashMap :=
  match (m.bucket key).find? (·.key = key) with
  | none => (none, m)
  | some node => (some node.value, { m with
      buckets := m.buckets.set (m.hash key) ((m.bucket key).eraseP (·.key = key))
      size := m.size - 1 })

def nodes (m : PageHashMap) : List HashMapNode :=
  m.buckets.flatten

def rehash (m : PageHashMap) (capacity : Nat) : PageHashMap :=
  m.nodes.foldl (fun m node => (m.insert node.key node.value).2) (new capacity)

structure Wf (m : PageHashMap) : Prop where
  length : m.buckets.length = m.capacity
  placed : ∀ {i bucket}, m.buckets[i]? = some bucket → ∀ node ∈ bucket, node.key % m.capacity = i
  once : (m.nodes.map HashMapNode.key).Nodup
  size : m.size = m.nodes.length

theorem flatten_set_perm {α : Type} {ls : List (List α)} {b b' : List α} (h : ls[i]? = some b)
    (x : List α) (hb : b'.Perm (x ++ b)) : (ls.set i b').flatten.Perm (x ++ ls.flatten) := by
  induction ls generalizing i with
  | nil => simp at h
  | cons l ls ih =>
    cases i with
    | zero =>
      obtain rfl : l = b := by simpa using h
      simpa using hb.append_right ls.flatten
    | succ i =>
      have hre := (ih (by simpa using h)).append_left l
      refine List.Perm.trans (by simpa using hre) ?_
      simpa using perm_append_comm_assoc l x ls.flatten

section
variable {m : PageHashMap}

theorem new_wf (capacity : Nat) : (new capacity).Wf := by
  have hno : (new capacity).nodes = [] := by simp [new,nodes]
  refine ⟨by simp [new],fun {i bucket} h => ?_,by simp [hno],by rw [hno]; rfl⟩
  have hmem := mem_of_getElem? h
  obtain rfl := (mem_replicate.mp hmem).2
  simp

variable (hm : m.Wf)
include hm

section

variable (hcap : 0 < m.capacity)
include hcap

theorem Wf.bucket (key : Nat) : m.buckets[m.hash key]? = some (m.bucket key) := by
  have hlt : m.hash key < m.buckets.length := by
    rw [hm.length]
    exact Nat.mod_lt _ hcap
  rw [PageHashMap.bucket,getD_eq_getElem?_getD,getElem?_eq_getElem hlt]
  rfl

theorem Wf.mem_bucket : node ∈ m.bucket node.key ↔ node ∈ m.nodes := by
  constructor
  · exact fun h => mem_flatten_of_mem (mem_of_getElem? (hm.bucket hcap node.key)) h
  · intro h
    obtain ⟨b,hb,hno⟩ := mem_flatten.mp h
    obtain ⟨i,hi⟩ := getElem?_of_mem hb
    have hha : m.hash node.key = i := hm.placed hi node hno
    have hbu := hm.bucket hcap node.key
    rw [hha,hi] at hbu
    rwa [← Option.some.inj hbu]

theorem Wf.get_eq_some : m.get key = some value ↔ ⟨key,value⟩ ∈ m.nodes := by
  have hfi : m.get key = some value ↔
      ∃ node, (m.bucket key).find? (·.key = key) = some node ∧ node.value = value := by
    simp [PageHashMap.get]
  rw [hfi]
  constructor
  · rintro ⟨node,hno,rfl⟩
    have hkey : node.key = key := by simpa using find?_some hno
    subst hkey
    exact (hm.mem_bucket hcap).mp (mem_of_find?_eq_some hno)
  · intro hmem
    have hbu := (hm.mem_bucket hcap).mpr hmem
    cases hf : (m.bucket key).find? (·.key = key) with
    | none => exact absurd (find?_eq_none.mp hf _ hbu) (by simp)
    | some node =>
      have hkey : node.key = key := by simpa using find?_some hf
      have hno : node ∈ m.nodes := by
        refine (hm.mem_bucket hcap).mp ?_
        rw [hkey]
        exact mem_of_find?_eq_some hf
      have heq := inj_on_of_nodup_map hm.once hno hmem hkey
      exact ⟨node,rfl,by rw [heq]⟩

theorem Wf.get_eq_none : m.get key = none ↔ key ∉ m.nodes.map HashMapNode.key := by
  rw [Option.eq_none_iff_forall_ne_some]
  constructor
  · intro h hmem
    obtain ⟨node,hno,rfl⟩ := mem_map.mp hmem
    exact h node.value ((hm.get_eq_some hcap).mpr hno)
  · intro h value hv
    exact h (mem_map.mpr ⟨_,(hm.get_eq_some hcap).mp hv,rfl⟩)

omit hcap in
omit hm in
theorem insertIn_new {bucket : List HashMapNode} (h : bucket.find? (·.key = key) = none) :
    insertIn key value bucket = (none,bucket ++ [⟨key,value⟩]) := by
  induction bucket with
  | nil => rfl
  | cons node bucket ih =>
    rw [find?_cons] at h
    cases hk : decide (node.key = key) with
    | true => simp [hk] at h
    | false =>
      rw [hk] at h
      rw [insertIn,if_neg (by simpa using hk),ih h]
      rfl

omit hcap in
/-- A change of one bucket that keeps its hash. -/
theorem Wf.set_placed {bucket : List HashMapNode}
    (hb : ∀ node ∈ bucket, node.key % m.capacity = m.hash key) {i : Nat} {b : List HashMapNode}
    (h : (m.buckets.set (m.hash key) bucket)[i]? = some b) : ∀ node ∈ b, node.key % m.capacity = i := by
  rw [getElem?_set] at h
  split at h
  · rename_i hi
    split at h
    · cases h
      exact hi ▸ hb
    · cases h
  · exact hm.placed h

theorem Wf.insert (hnew : m.get key = none) (value : Nat) :
    (m.insert key value).2.Wf ∧ (m.insert key value).2.capacity = m.capacity ∧
      (m.insert key value).2.nodes.Perm (⟨key,value⟩ :: m.nodes) := by
  have hfi : (m.bucket key).find? (·.key = key) = none := by
    simpa [PageHashMap.get] using hnew
  have heq : m.insert key value = (none, { m with
      buckets := m.buckets.set (m.hash key) (m.bucket key ++ [⟨key,value⟩])
      size := m.size + 1 }) := by
    simp [PageHashMap.insert,insertIn_new hfi]
  have hbu := hm.bucket hcap key
  have hpe : ((m.buckets.set (m.hash key) (m.bucket key ++ [⟨key,value⟩])).flatten).Perm
      ([⟨key,value⟩] ++ m.nodes) := flatten_set_perm hbu _ perm_append_comm
  rw [heq]
  refine ⟨⟨?_,?_,?_,?_⟩,rfl,hpe⟩
  · simpa using hm.length
  · refine fun h => hm.set_placed (fun node hno => ?_) h
    rcases mem_append.mp hno with hno | hno
    · exact hm.placed hbu node hno
    · rw [mem_singleton.mp hno]
      rfl
  · exact (hpe.map HashMapNode.key).nodup_iff.mpr (nodup_cons.mpr ⟨(hm.get_eq_none hcap).mp hnew,hm.once⟩)
  · rw [hm.size]
    exact hpe.length_eq.symm

theorem Wf.remove (hget : m.get key = some value) :
    ∃ m', m.remove key = (some value,m') ∧ m'.Wf ∧ m'.capacity = m.capacity ∧
      m.nodes.Perm (⟨key,value⟩ :: m'.nodes) := by
  obtain ⟨node,hfi,hva⟩ : ∃ node, (m.bucket key).find? (·.key = key) = some node ∧
      node.value = value := by simpa [PageHashMap.get] using hget
  obtain rfl : node = ⟨key,value⟩ := by
    have hkey : node.key = key := by simpa using find?_some hfi
    cases node
    simp_all
  have hbu := hm.bucket hcap key
  obtain ⟨l1,l2,hbe,hsp⟩ := find?_eq_some_iff_append.mp hfi |>.2
  have her : (m.bucket key).eraseP (·.key = key) = l1 ++ l2 := by
    rw [hbe,eraseP_append_right _ (fun a ha => by simpa using hsp a ha)]
    simp
  have hlt : m.hash key < m.buckets.length := (List.getElem?_eq_some_iff.mp hbu).1
  have hset : (m.buckets.set (m.hash key) (l1 ++ l2)).set (m.hash key) (m.bucket key) = m.buckets := by
    rw [set_set,← (List.getElem?_eq_some_iff.mp hbu).2,set_getElem_self]
  have hpe : m.nodes.Perm ([⟨key,value⟩] ++ (m.buckets.set (m.hash key) (l1 ++ l2)).flatten) := by
    have hmid : (m.bucket key).Perm ([⟨key,value⟩] ++ (l1 ++ l2)) := by
      rw [hbe]
      exact perm_middle
    have hback := flatten_set_perm (getElem?_set_self hlt) _ hmid
    rwa [hset] at hback
  refine ⟨{ m with buckets := m.buckets.set (m.hash key) (l1 ++ l2), size := m.size - 1 },
    by rw [PageHashMap.remove,hfi,her],⟨?_,?_,?_,?_⟩,rfl,hpe⟩
  · simpa using hm.length
  · refine fun h => hm.set_placed (fun node hno => hm.placed hbu node ?_) h
    rw [hbe]
    rcases mem_append.mp hno with hno | hno <;> simp [hno]
  · exact (nodup_cons.mp ((hpe.map HashMapNode.key).nodup_iff.mp hm.once)).2
  · rw [hm.size,hpe.length_eq]
    rfl

end

theorem Wf.rehash {capacity : Nat} (hcap : 0 < capacity) :
    (m.rehash capacity).Wf ∧ (m.rehash capacity).capacity = capacity ∧
      (m.rehash capacity).nodes.Perm m.nodes := by
  have hfo : ∀ (nodes : List HashMapNode) (r : PageHashMap), r.Wf → r.capacity = capacity →
      ((r.nodes ++ nodes).map HashMapNode.key).Nodup →
      let r' := nodes.foldl (fun m node => (m.insert node.key node.value).2) r
      r'.Wf ∧ r'.capacity = capacity ∧ r'.nodes.Perm (r.nodes ++ nodes) := by
    intro nodes
    induction nodes with
    | nil => exact fun r hr hc _ => ⟨hr,hc,by simp⟩
    | cons node nodes ih =>
      intro r hr hc hno
      have hpos : 0 < r.capacity := hc ▸ hcap
      have hmid := perm_middle.map HashMapNode.key |>.nodup_iff.mp hno
      have hnew : r.get node.key = none := by
        rw [hr.get_eq_none hpos]
        intro hmem
        refine (nodup_cons.mp hmid).1 ?_
        rw [map_append]
        exact mem_append_left _ hmem
      obtain ⟨hr',hc',hpe⟩ := hr.insert hpos hnew node.value
      have hre : (r.insert node.key node.value).2.nodes ++ nodes |>.Perm (r.nodes ++ node :: nodes) :=
        (hpe.append_right nodes).trans perm_middle.symm
      obtain ⟨hw,hcap',hall⟩ := ih _ hr' (hc'.trans hc) ((hre.map HashMapNode.key).nodup_iff.mpr hno)
      exact ⟨hw,hcap',hall.trans hre⟩
  have hnone : (new capacity).nodes = [] := by simp [new,nodes]
  have hall := hfo m.nodes (new capacity) (new_wf capacity) rfl (by rw [hnone]; exact hm.once)
  rw [hnone] at hall
  exact hall

end

end PageHashMap

end OxiSql.Storage
