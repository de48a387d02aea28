import OxiSql.Types.Value

namespace OxiSql.Cache.Json
open OxiSql.Types List Function

/-- A float is its bits; the subtype of a text says whether it is JSON. -/
inductive Key where
  | null
  | integer (i : Int)
  | float (bits : UInt64)
  | text (value : String) (json : Bool)
  | blob (bytes : List UInt8)
deriving DecidableEq

/-- The number that the bits of a double stand for, if they do for one. -/
def ofBits (bits : UInt64) : Option F64 :=
  let negative := 2 ^ 63 ≤ bits.toNat
  let sign (n : Nat) : Int := if negative then -n else n
  let exponent := bits.toNat / 2 ^ 52 % 2 ^ 11
  let fraction := bits.toNat % 2 ^ 52
  have hs (n : Nat) (h : n ≤ 2 ^ 53) : (sign n).natAbs ≤ 2 ^ 53 := by
    dsimp only [sign]
    split <;> omega
  if exponent = 0 then some (.finite (sign fraction) 0 (hs _ (by omega)) (by decide))
  else if h : exponent < 2047 then
    some (.finite (sign (2 ^ 52 + fraction)) (exponent - 1) (hs _ (by omega)) (by omega))
  else if fraction = 0 then some (.infinite negative) else none

namespace Key

def float? : Key → Option F64
  | .integer i => F64.ofInt i
  | .float bits => ofBits bits
  | _ => none

/-- `==` of two SQL values. -/
def eq : Key → Key → Bool
  | .null, .null => true
  | .integer l, .integer r => l = r
  | .text l _, .text r _ => l = r
  | .blob l, .blob r => l = r
  | l, r => l.float?.any fun x => r.float?.any fun y => x.cmp y = .eq

end Key

structure JsonCache (J : Type) where
  entries : Nat → Option (Key × J)
  age : Nat → Nat
  used : Nat
  counter : Nat

namespace JsonCache
variable {J E : Type} (c : JsonCache J) (f : Key → Except E J)

def new : JsonCache J :=
  ⟨fun _ => none, fun _ => 0, 0, 0⟩

def findOldestEntry : Nat :=
  (range c.used).tail.foldl (fun oldest i => if c.age i < c.age oldest then i else oldest) 0

def insert (key : Key) (value : J) : JsonCache J :=
  let id := if c.used < 4 then c.used else c.findOldestEntry
  ⟨update c.entries id (some (key, value)), update c.age id c.counter, if c.used < 4 then c.used + 1 else c.used,
    c.counter + 1⟩

/-- The last entry with an equal key, which becomes the youngest. -/
def lookup (key : Key) : Option (J × JsonCache J) := do
  let (i, json) ← (range c.used).reverse.findSome? fun i => do
    let (stored, value) ← c.entries i
    if key.eq stored then some (i, value) else none
  return (json, { c with age := update c.age i c.counter, counter := c.counter + 1 })

/-- The entries stay where they are. -/
def clear : JsonCache J :=
  { c with counter := 0, used := 0 }

def getOrInsertWith (key : Key) : Except E J × JsonCache J :=
  match c.lookup key with
  | some (json, c') => (.ok json, c')
  | none =>
    match f key with
    | .ok json => (.ok json, c.insert key json)
    | .error e => (.error e, c)

/-- A call with a key, or `clear`. -/
def step : Option Key → JsonCache J
  | some key => (c.getOrInsertWith f key).2
  | none => c.clear

/-- The entries are of the keys given, also those that a `clear` has left behind. -/
def Genuine (given : Key → Prop) : Prop :=
  ∀ i key json, c.entries i = some (key, json) → given key ∧ f key = .ok json

variable {c f}

theorem lookup_some (h : c.lookup key = some (json, c')) :
    c'.entries = c.entries ∧ ∃ i stored, c.entries i = some (stored, json) ∧ key.eq stored := by
  simp only [lookup,Option.bind_eq_bind,Option.bind_eq_some_iff] at h
  obtain ⟨⟨i,value⟩,hfi,rfl,rfl⟩ := h
  obtain ⟨k,-,hk⟩ := exists_of_findSome?_eq_some hfi
  obtain ⟨⟨stored,v⟩,hen,hif⟩ := Option.bind_eq_some_iff.mp hk
  split at hif
  · cases hif
    exact ⟨rfl,i,stored,hen,by assumption⟩
  · cases hif

theorem Genuine.step (hc : c.Genuine f given) (hg : ∀ key, call = some key → given key) :
    (c.step f call).Genuine f given := by
  cases call with
  | none => exact hc
  | some key =>
    simp only [JsonCache.step,getOrInsertWith]
    split
    · rename_i json c' hl
      intro i
      rw [(lookup_some hl).1]
      exact hc i
    · split
      · rename_i json hf
        intro i k j h
        by_cases hi : i = if c.used < 4 then c.used else c.findOldestEntry
        · subst hi
          simp only [insert,update_self,Option.some.injEq,Prod.mk.injEq] at h
          rw [← h.1,← h.2]
          exact ⟨hg key rfl,hf⟩
        · exact hc i k j (by simpa only [insert,update_of_ne hi] using h)
      · exact hc

/-- In one run, if no key before it is equal and converts to something else. -/
theorem getOrInsertWith_run {calls : List (Option Key)} (h : ∀ stored json, some stored ∈ calls →
    key.eq stored → f stored = .ok json → f key = .ok json) :
    ((calls.foldl (step · f) new).getOrInsertWith f key).1 = f key := by
  have hc : (calls.foldl (step · f) new).Genuine f (some · ∈ calls) :=
    foldlRecOn calls _ (motive := (Genuine · f (some · ∈ calls))) (fun i key json hi => by cases hi)
      fun c hc call hmem => hc.step fun key hkey => hkey ▸ hmem
  simp only [getOrInsertWith]
  split
  · rename_i json c' hl
    obtain ⟨-,i,stored,hen,heq⟩ := lookup_some hl
    obtain ⟨hin,hf⟩ := hc i stored json hen
    exact (h stored json hin heq hf).symm
  · split <;> rename_i hf <;> exact hf.symm

/-- Exactly for conversions that give equal keys what they give one of them, unless that is an error. -/
theorem getOrInsertWith_transparent_iff (f : Key → Except E J) :
    (∀ (calls : List (Option Key)) (key : Key), ((calls.foldl (step · f) new).getOrInsertWith f key).1 = f key) ↔
      ∀ key stored json, key.eq stored → f stored = .ok json → f key = .ok json := by
  constructor
  · intro h key stored json heq hf
    have hkey := h [some stored] key
    rw [← hkey]
    simp [step,getOrInsertWith,lookup,new,insert,hf,heq]
  · exact fun h calls key => getOrInsertWith_run fun stored json _ => h key stored json

/-- The number 1.0 is answered with what the integer 1 was converted to. -/
theorem getOrInsertWith_one_float :
    let f : Key → Except Unit Key := .ok
    ((new.step f (some (.integer 1))).getOrInsertWith f (.float 0x3FF0000000000000)).1 = .ok (.integer 1) := by
  decide +kernel

end JsonCache

end OxiSql.Cache.Json
