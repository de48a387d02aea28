import OxiSql.Plan.LogicalPlan
import OxiSql.Params.Parameterize

namespace OxiSql.Plan
open List
open Templates (parameterize)

/-- What makes a plan of a text. -/
structure FrontEnd (Stmt Err : Type) where
  parseOne : String → Except Err Stmt
  planStatementWithOpts : Stmt → PlannerOptions → Except Err LogicalPlan
  optimize : LogicalPlan → LogicalPlan

def FrontEnd.compile {Stmt Err : Type} (F : FrontEnd Stmt Err) (sql : String) (opts : PlannerOptions) :
    Except Err LogicalPlan := do
  let stmt ← F.parseOne sql
  let raw ← F.planStatementWithOpts stmt opts
  return F.optimize raw

structure PlanCacheKey where
  template : String
  generation : UInt64
deriving DecidableEq

/-- A plan in the cache. The text and the options it was made from are not in the source: they say
which call it is from. -/
structure Entry where
  key : PlanCacheKey
  plan : LogicalPlan
  sql : String
  opts : PlannerOptions

/-- The entry used last is in front. -/
structure PlanCache where
  capacity : Nat
  entries : List Entry
  generation : UInt64

namespace PlanCache

def new (capacity : Nat) : PlanCache :=
  ⟨max capacity 1, [], 0⟩

def find (c : PlanCache) (key : PlanCacheKey) : Option Entry :=
  c.entries.find? fun e => e.key = key

def promote (c : PlanCache) (e : Entry) : PlanCache :=
  { c with entries := e :: c.entries.filter fun e' => e'.key ≠ e.key }

def get (c : PlanCache) (key : PlanCacheKey) : Option LogicalPlan × PlanCache :=
  match c.find key with
  | some e => (some e.plan, c.promote e)
  | none => (none, c)

/-- The entry that was not used for longest goes if the cache is full. -/
def getOrInsert (c : PlanCache) (e : Entry) : LogicalPlan × PlanCache :=
  match c.find e.key with
  | some e' => (e'.plan, c.promote e')
  | none => (e.plan, { c with entries := e :: c.entries.take (c.capacity - 1) })

def keyOf (c : PlanCache) (sql : String) : PlanCacheKey :=
  ⟨(parameterize sql).template, c.generation⟩

def invalidateSchema (c : PlanCache) : PlanCache :=
  { c with generation := c.generation + 1 }

def clear (c : PlanCache) : PlanCache :=
  { c with entries := [] }

section
variable {Stmt Err : Type} (F : FrontEnd Stmt Err)

def planWith (c : PlanCache) (sql : String) (opts : PlannerOptions) : Except Err LogicalPlan × PlanCache :=
  match c.get (c.keyOf sql) with
  | (some plan, c') => (.ok plan, c')
  | (none, c') =>
    match F.compile sql opts with
    | .error e => (.error e, c')
    | .ok plan =>
      let (stored, c'') := c'.getOrInsert ⟨c.keyOf sql, plan, sql, opts⟩
      (.ok stored, c'')

def plan (c : PlanCache) (sql : String) : Except Err LogicalPlan × PlanCache :=
  c.planWith F sql {}

inductive Call where
  | plan (sql : String)
  | planWith (sql : String) (opts : PlannerOptions)
  | invalidateSchema
  | clear
deriving DecidableEq

def step (c : PlanCache) : Call → PlanCache
  | .plan sql => (c.plan F sql).2
  | .planWith sql opts => (c.planWith F sql opts).2
  | .invalidateSchema => c.invalidateSchema
  | .clear => c.clear

def run (c : PlanCache) (calls : List Call) : PlanCache :=
  calls.foldl (step F) c

/-- The calls for a plan since the cache was last emptied or the schema changed. -/
def record (log : List (String × PlannerOptions)) : Call → List (String × PlannerOptions)
  | .plan sql => log ++ [(sql, {})]
  | .planWith sql opts => log ++ [(sql, opts)]
  | .invalidateSchema | .clear => []

def sinceReset (calls : List Call) : List (String × PlannerOptions) :=
  calls.foldl record []

def sameTemplate (sql : String) (call : String × PlannerOptions) : Bool :=
  (parameterize call.1).template = (parameterize sql).template

/-- The first of the calls with the template that the front end has a plan for. -/
def firstPlanned (log : List (String × PlannerOptions)) (sql : String) : Option (String × PlannerOptions) :=
  log.find? fun call => sameTemplate sql call && (F.compile call.1 call.2).isOk

variable {F} {c : PlanCache}

theorem find_some (h : c.find key = some e) : e ∈ c.entries ∧ e.key = key :=
  ⟨mem_of_find?_eq_some h,by simpa using find?_some h⟩

theorem find_promote (h : c.find key = some e) (key' : PlanCacheKey) : (c.promote e).find key' = c.find key' := by
  obtain ⟨-,rfl⟩ := find_some h
  by_cases hkey : e.key = key'
  · subst hkey
    exact (find?_cons_of_pos (by simp)).trans h.symm
  · refine (find?_cons_of_neg (by simpa using hkey)).trans ?_
    rw [find?_filter]
    refine congrArg (fun p => c.entries.find? p) (funext fun e' => ?_)
    by_cases he : e'.key = key'
    · simp [he,Ne.symm hkey]
    · simp [he]

theorem planWith_cases :
    (∃ e, c.find (c.keyOf sql) = some e ∧ c.planWith F sql opts = (.ok e.plan,c.promote e)) ∨
      (c.find (c.keyOf sql) = none ∧ (c.planWith F sql opts).1 = F.compile sql opts ∧
        ((F.compile sql opts).isOk = false ∧ (c.planWith F sql opts).2 = c ∨
          ∃ plan, F.compile sql opts = .ok plan ∧ (c.planWith F sql opts).2 =
            { c with entries := ⟨c.keyOf sql,plan,sql,opts⟩ :: c.entries.take (c.capacity - 1) })) := by
  cases hfi : c.find (c.keyOf sql) with
  | some e => exact .inl ⟨e,rfl,by simp [planWith,get,hfi]⟩
  | none =>
    cases hco : F.compile sql opts with
    | error e => simp [planWith,get,hfi,hco,Except.toBool]
    | ok plan => simp [planWith,get,getOrInsert,hfi,hco]

/-- The entries of the generation are of calls since the reset, those of other generations older. -/
structure Logged (F : FrontEnd Stmt Err) (c : PlanCache) (log : List (String × PlannerOptions)) : Prop where
  plan : ∀ e ∈ c.entries, F.compile e.sql e.opts = .ok e.plan
  template : ∀ e ∈ c.entries, e.key.template = (parameterize e.sql).template
  recent : ∀ e ∈ c.entries, e.key.generation = c.generation → (e.sql, e.opts) ∈ log
  older : ∀ e ∈ c.entries, e.key.generation.toNat ≤ c.generation.toNat

theorem Logged.planWith (h : Logged F c log) : Logged F (c.planWith F sql opts).2 (log ++ [(sql,opts)]) := by
  have hmore : Logged F c (log ++ [(sql,opts)]) :=
    ⟨h.plan,h.template,fun e he hge => mem_append_left _ (h.recent e he hge),h.older⟩
  obtain ⟨e,hfi,heq⟩ | ⟨-,-,⟨-,hsa⟩ | ⟨plan,hco,hnew⟩⟩ := @planWith_cases _ _ F c sql opts
  · rw [heq]
    have hsub : ∀ e' ∈ (c.promote e).entries, e' ∈ c.entries :=
      forall_mem_cons.mpr ⟨(find_some hfi).1,fun e' he' => mem_of_mem_filter he'⟩
    exact ⟨fun e' he' => hmore.plan e' (hsub e' he'),fun e' he' => hmore.template e' (hsub e' he'),
      fun e' he' => hmore.recent e' (hsub e' he'),fun e' he' => hmore.older e' (hsub e' he')⟩
  · rwa [hsa]
  · rw [hnew]
    refine ⟨forall_mem_cons.mpr ⟨hco,fun e he => hmore.plan e (mem_of_mem_take he)⟩,
      forall_mem_cons.mpr ⟨rfl,fun e he => hmore.template e (mem_of_mem_take he)⟩,
      forall_mem_cons.mpr ⟨fun _ => by simp,fun e he => hmore.recent e (mem_of_mem_take he)⟩,
      forall_mem_cons.mpr ⟨Nat.le_refl _,fun e he => hmore.older e (mem_of_mem_take he)⟩⟩

theorem planWith_kept : (c.planWith F sql opts).2.generation = c.generation ∧
    (c.planWith F sql opts).2.capacity = c.capacity := by
  obtain ⟨e,-,heq⟩ | ⟨-,-,⟨-,hsa⟩ | ⟨plan,-,hnew⟩⟩ := @planWith_cases _ _ F c sql opts
  · rw [heq]
    exact ⟨rfl,rfl⟩
  · rw [hsa]
    exact ⟨rfl,rfl⟩
  · rw [hnew]
    exact ⟨rfl,rfl⟩

theorem run_append (calls : List Call) (call : Call) : c.run F (calls ++ [call]) = (c.run F calls).step F call := by
  simp [run]

theorem sinceReset_append (calls : List Call) (call : Call) :
    sinceReset (calls ++ [call]) = record (sinceReset calls) call := by
  simp [sinceReset]

/-- No generation comes twice unless the counter wraps around. -/
theorem run_logged {calls : List Call} (capacity : Nat) (h : calls.count .invalidateSchema < 2 ^ 64) :
    Logged F ((new capacity).run F calls) (sinceReset calls) ∧
      ((new capacity).run F calls).generation.toNat = calls.count .invalidateSchema := by
  induction calls using List.reverseRecOn with
  | nil => exact ⟨⟨nofun,nofun,nofun,nofun⟩,rfl⟩
  | append_singleton calls call ih =>
    rw [count_append] at h
    obtain ⟨hlog,hge⟩ := ih (by omega)
    rw [run_append,sinceReset_append,count_append]
    cases call with
    | plan sql => exact ⟨hlog.planWith,(congrArg _ planWith_kept.1).trans hge⟩
    | planWith sql opts => exact ⟨hlog.planWith,(congrArg _ planWith_kept.1).trans hge⟩
    | invalidateSchema =>
      have hnext : (((new capacity).run F calls).generation + 1).toNat =
          calls.count .invalidateSchema + 1 := by
        rw [UInt64.toNat_add,hge]
        exact Nat.mod_eq_of_lt h
      have hlt : ∀ e ∈ ((new capacity).run F calls).entries,
          e.key.generation.toNat < (((new capacity).run F calls).generation + 1).toNat := by
        intro e he
        have hold := hlog.older e he
        omega
      exact ⟨⟨hlog.plan,hlog.template,fun e he heq => absurd (congrArg UInt64.toNat heq) (hlt e he).ne,
        fun e he => (hlt e he).le⟩,hnext⟩
    | clear => exact ⟨⟨nofun,nofun,nofun,nofun⟩,hge⟩

/-- As long as nothing is evicted, the entry under a template is of the first call that made one. -/
structure Complete (F : FrontEnd Stmt Err) (c : PlanCache) (log : List (String × PlannerOptions)) (n : Nat) :
    Prop where
  size : c.entries.length ≤ n
  first : ∀ sql, (c.find (c.keyOf sql)).map (fun e => (e.sql, e.opts)) = firstPlanned F log sql

theorem keyOf_eq_iff : c.keyOf sql = c.keyOf sql' ↔ sameTemplate sql' (sql,opts) = true := by
  simp [keyOf,sameTemplate]

theorem Complete.planWith (h : Complete F c log n) (hn : n < c.capacity) :
    Complete F (c.planWith F sql opts).2 (log ++ [(sql,opts)]) (n + 1) := by
  have hfirst : ∀ sql', firstPlanned F (log ++ [(sql,opts)]) sql' =
      (firstPlanned F log sql').or (firstPlanned F [(sql,opts)] sql') := fun sql' => find?_append
  obtain ⟨e,hfi,heq⟩ | ⟨hfi,-,⟨hno,hsa⟩ | ⟨plan,hco,hnew⟩⟩ := @planWith_cases _ _ F c sql opts
  · rw [heq]
    refine ⟨Nat.succ_le_succ ((length_filter_le ..).trans h.size),fun sql' => ?_⟩
    refine (congrArg _ (find_promote hfi (c.keyOf sql'))).trans ?_
    rw [h.first,hfirst]
    cases hte : sameTemplate sql' (sql,opts) with
    | true => simp [← h.first,← (@keyOf_eq_iff c _ _ opts).mpr hte,hfi]
    | false => simp [firstPlanned,hte]
  · rw [hsa]
    refine ⟨h.size.trans n.le_succ,fun sql' => ?_⟩
    rw [h.first]
    simp [firstPlanned,hno]
  · have hroom : c.entries.take (c.capacity - 1) = c.entries := take_of_length_le (by have := h.size; omega)
    rw [hnew,hroom]
    refine ⟨Nat.succ_le_succ h.size,fun sql' => ?_⟩
    rw [hfirst]
    cases hte : sameTemplate sql' (sql,opts) with
    | true =>
      have hkey := (@keyOf_eq_iff c _ _ opts).mpr hte
      have hfind : ((⟨c.keyOf sql,plan,sql,opts⟩ : Entry) :: c.entries).find? (fun e => e.key = c.keyOf sql') =
          some ⟨c.keyOf sql,plan,sql,opts⟩ := find?_cons_of_pos (by simpa using hkey)
      refine (congrArg _ hfind).trans ?_
      rw [← h.first,← hkey,hfi]
      simp [firstPlanned,hte,hco,Except.toBool]
    | false =>
      have hkey : c.keyOf sql ≠ c.keyOf sql' := fun hke => by simp [(@keyOf_eq_iff c _ _ opts).mp hke] at hte
      have hfind : ((⟨c.keyOf sql,plan,sql,opts⟩ : Entry) :: c.entries).find? (fun e => e.key = c.keyOf sql') =
          c.find (c.keyOf sql') := find?_cons_of_neg (by simpa using hkey)
      refine (congrArg _ hfind).trans ?_
      rw [h.first]
      simp [firstPlanned,hte]

theorem run_complete {calls : List Call} {capacity : Nat} (h : calls.count .invalidateSchema < 2 ^ 64)
    (hlen : calls.length ≤ capacity) :
    Complete F ((new capacity).run F calls) (sinceReset calls) calls.length ∧
      ((new capacity).run F calls).capacity = max capacity 1 := by
  induction calls using List.reverseRecOn with
  | nil => exact ⟨⟨Nat.le_refl _,fun sql => rfl⟩,rfl⟩
  | append_singleton calls call ih =>
    obtain ⟨hlog,-⟩ := @run_logged _ _ F _ capacity h
    rw [count_append] at h
    rw [length_append,length_singleton] at hlen ⊢
    obtain ⟨hcom,hca⟩ := ih (by omega) (by omega)
    rw [run_append,sinceReset_append] at hlog ⊢
    cases call with
    | plan sql => exact ⟨hcom.planWith (by omega),planWith_kept.2.trans hca⟩
    | planWith sql opts => exact ⟨hcom.planWith (by omega),planWith_kept.2.trans hca⟩
    | invalidateSchema =>
      refine ⟨⟨hcom.size.trans (Nat.le_succ _),fun sql => ?_⟩,hca⟩
      have hnone : (((new capacity).run F calls).step F .invalidateSchema).find
          ((((new capacity).run F calls).step F .invalidateSchema).keyOf sql) = none := by
        refine find?_eq_none.mpr fun e he hkey => ?_
        have hge := congrArg PlanCacheKey.generation (of_decide_eq_true hkey)
        exact absurd (hlog.recent e he hge) not_mem_nil
      rw [hnone]
      rfl
    | clear => exact ⟨⟨Nat.zero_le _,fun sql => rfl⟩,hca⟩

/-- After any calls the answer is the one without the cache if the calls for the template since the
last reset that gave a plan gave the same one. As long as nothing is evicted it is so exactly if the
first of them did. -/
theorem planWith_transparent {calls : List Call} (hcalls : calls.count .invalidateSchema < 2 ^ 64) (capacity : Nat)
    (sql : String) (opts : PlannerOptions) :
    ((∀ call ∈ sinceReset calls, sameTemplate sql call → (F.compile call.1 call.2).isOk →
        F.compile call.1 call.2 = F.compile sql opts) →
      (((new capacity).run F calls).planWith F sql opts).1 = F.compile sql opts) ∧
    (calls.length ≤ capacity →
      ((((new capacity).run F calls).planWith F sql opts).1 = F.compile sql opts ↔
        ∀ call, firstPlanned F (sinceReset calls) sql = some call →
          F.compile call.1 call.2 = F.compile sql opts)) := by
  obtain ⟨hlog,-⟩ := @run_logged _ _ F _ capacity hcalls
  have hcom := fun hlen => (@run_complete _ _ F _ capacity hcalls hlen).1
  obtain ⟨e,hfi,heq⟩ | ⟨hfi,han,-⟩ := @planWith_cases _ _ F ((new capacity).run F calls) sql opts
  · obtain ⟨he,hkey⟩ := find_some hfi
    have hpl := hlog.plan e he
    have hte : sameTemplate sql (e.sql,e.opts) = true :=
      decide_eq_true ((hlog.template e he).symm.trans (congrArg PlanCacheKey.template hkey))
    rw [heq,← hpl]
    have hre := hlog.recent e he (congrArg PlanCacheKey.generation hkey)
    refine ⟨fun hall => hall (e.sql,e.opts) hre hte ?_,fun hlen => ?_⟩
    · rw [hpl]
      rfl
    · rw [← (hcom hlen).first,hfi]
      simp
  · refine ⟨fun _ => han,fun hlen => ?_⟩
    rw [← (hcom hlen).first,hfi]
    simp [han]

end

/-- The front end on the texts `SELECT * FROM t WHERE p`: the predicate stays as it is written. -/
def selectFrom : FrontEnd String String where
  parseOne sql :=
    if sql.toList.take 22 = "SELECT * FROM t WHERE ".toList then .ok (String.ofList (sql.toList.drop 22))
    else .error "not of this form"
  planStatementWithOpts predicate _ := .ok (.filter (.scan "t" none none) predicate)
  optimize raw := raw

/-- The plan of the first text is of an older schema, that of the second has another template. -/
theorem planWith_new_schema : ((new 2).run selectFrom [.plan "SELECT * FROM t WHERE id = 1", .invalidateSchema,
      .plan "SELECT * FROM t WHERE x < 3"] |>.planWith selectFrom "SELECT * FROM t WHERE id = 2" {}).1 =
    .ok (.filter (.scan "t" none none) "id = 2") := by
  refine ((planWith_transparent (by decide) 2 "SELECT * FROM t WHERE id = 2" {}).1 ?_).trans (by decide +kernel)
  have hte : sameTemplate "SELECT * FROM t WHERE id = 2" ("SELECT * FROM t WHERE x < 3",{}) = false := by
    decide +kernel
  exact forall_mem_singleton.mpr fun h => absurd h (by simp [hte])

/-- The second text is answered with the predicate of the first. -/
theorem planWith_wrong_literal : let c := (new 64).run selectFrom [.plan "SELECT * FROM t WHERE id = 1"]
    (c.plan selectFrom "SELECT * FROM t WHERE id = 2").1 = .ok (.filter (.scan "t" none none) "id = 1") ∧
      selectFrom.compile "SELECT * FROM t WHERE id = 2" {} = .ok (.filter (.scan "t" none none) "id = 2") := by
  decide +kernel

end PlanCache

end OxiSql.Plan
