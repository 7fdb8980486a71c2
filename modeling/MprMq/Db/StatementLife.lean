import Mathlib.Logic.Function.Basic
import MprMq.Db.StatementCache
import MprMq.Lib.Run
set_option autoImplicit false

/-! The life of the statements of one connection: `DBConnection::GetPreparedStatement`,
the references clients hold, and `DBStatement::Dispose` at the last of them. -/

namespace MprMq.Db
open MprMq.Lib

/-- What `DBStatement` keeps about itself. `cache` says that `cache_` points to the
cache of the connection; `resets` counts the calls of `Reset`. -/
structure StatementObject where
  refCount : Int
  cache : Bool
  resets : Nat
  destroyed : Bool
  deriving DecidableEq, Repr

/-- A connection with its `cache_`, every statement made through it, and the
number of references clients hold to each. -/
structure StatementHeap where
  cache : DBStatementCache
  created : List DBStatement
  object : DBStatement → StatementObject
  clients : DBStatement → Nat

def StatementHeap.init : StatementHeap :=
  ⟨DBStatementCache.new,[],fun _ => ⟨0,false,0,false⟩,fun _ => 0⟩

def StatementHeap.modify (s : StatementHeap) (statement : DBStatement)
    (f : StatementObject → StatementObject) : StatementHeap :=
  { s with object := Function.update s.object statement (f (s.object statement)) }

def StatementHeap.addRef (s : StatementHeap) (statement : DBStatement) : StatementHeap :=
  s.modify statement (fun o => { o with refCount := o.refCount+1 })

def StatementHeap.setCache (s : StatementHeap) (statement : DBStatement) (cache : Bool) :
    StatementHeap := s.modify statement (fun o => { o with cache := cache })

def StatementHeap.reset (s : StatementHeap) (statement : DBStatement) : StatementHeap :=
  s.modify statement (fun o => { o with resets := o.resets+1 })

def StatementHeap.delete (s : StatementHeap) (statement : DBStatement) : StatementHeap :=
  s.modify statement (fun o => { o with destroyed := true })

/-- `Release`, which hands the object to `destruct` when the count reaches zero. -/
def StatementHeap.release (destruct : StatementHeap → Option DBStatement → Option StatementHeap)
    (s : StatementHeap) (statement : DBStatement) : Option StatementHeap :=
  let s := s.modify statement (fun o => { o with refCount := o.refCount-1 })
  if (s.object statement).refCount = 0 then destruct s (some statement) else some s

/-- `DBStatement::Dispose`. The fuel bounds how deep `Dispose`, `Put` and `Release`
call each other; `none` is also the use of a null pointer. -/
def StatementHeap.dispose : Nat → StatementHeap → Option DBStatement → Option StatementHeap
  | 0, _, _ => none
  | fuel+1, s, self =>
    if self.isSome then some s
    else do
      let self ← self
      let cache := (s.object self).cache
      let s := s.setCache self false
      if cache then
        -- the parameter of `Put` and the new entry hold one reference each
        let s := (s.addRef self).reset self
        let (c,dropped) ← s.cache.put (some self)
        let s := { s with cache := c }.addRef self
        let s ← dropped.foldlM (StatementHeap.release (dispose fuel)) s
        s.release (dispose fuel) self
      else some (s.delete self)

def StatementHeap.newPreparedStatement (s : StatementHeap) (query : Query) :
    StatementHeap × DBStatement :=
  let statement : DBStatement := ⟨s.created.length,query⟩
  ({ s with
      created := s.created ++ [statement]
      object := Function.update s.object statement ⟨1,false,0,false⟩ },statement)

/-- `DBConnection::GetPreparedStatement`; on a hit the reference of the cache's
entry becomes the caller's. -/
def StatementHeap.getPreparedStatement (s : StatementHeap) (query : Query) :
    Option (StatementHeap × DBStatement) :=
  if ¬ s.cache.isActive then some (s.newPreparedStatement query)
  else do
    let (c,result) ← s.cache.fetch query
    let s := { s with cache := c }
    let (s,result) := match result.head? with
      | some statement => (s,statement)
      | none => s.newPreparedStatement query
    pure (s.setCache result true,result)

def StatementHeap.hold (s : StatementHeap) (statement : DBStatement) : StatementHeap :=
  { s with clients := Function.update s.clients statement (s.clients statement+1) }

def StatementHeap.drop (s : StatementHeap) (statement : DBStatement) : StatementHeap :=
  { s with clients := Function.update s.clients statement (s.clients statement-1) }

inductive StatementAct where
  | getPreparedStatement : Query → StatementAct
  | getPreparedUncachedStatement : Query → StatementAct
  | addRef : DBStatement → StatementAct
  | use : DBStatement → StatementAct
  | reset : DBStatement → StatementAct
  | release : DBStatement → StatementAct
  deriving DecidableEq, Repr

/-- How deep `Dispose` can nest: an entry `Put` lets go has no cache of its own. -/
def disposeDepth : Nat := 3

/-- A client copies, uses and drops only references it holds. -/
def StatementHeap.step (s : StatementHeap) : StatementAct → Option StatementHeap
  | .getPreparedStatement query =>
    (s.getPreparedStatement query).map (fun r => r.1.hold r.2)
  | .getPreparedUncachedStatement query =>
    let r := s.newPreparedStatement query
    some (r.1.hold r.2)
  | .addRef statement =>
    if s.clients statement = 0 then none else some ((s.addRef statement).hold statement)
  | .use statement => if s.clients statement = 0 then none else some s
  | .reset statement => if s.clients statement = 0 then none else some (s.reset statement)
  | .release statement =>
    if s.clients statement = 0 then none
    else (s.drop statement).release (StatementHeap.dispose disposeDepth) statement

def statementSystem : System StatementHeap StatementAct := ⟨.init,StatementHeap.step⟩

def StatementHeap.cached (s : StatementHeap) (statement : DBStatement) : Prop :=
  (statement.sqlQuery,statement) ∈ s.cache.kept

/-- Every statement ever created is in exactly one of its three places. -/
def StatementHeap.Partitioned (s : StatementHeap) : Prop :=
  ∀ statement, statement ∈ s.created →
    (0 < s.clients statement ∧ ¬ s.cached statement ∧ (s.object statement).destroyed = false) ∨
    (s.clients statement = 0 ∧ s.cached statement ∧ (s.object statement).destroyed = false) ∨
    (s.clients statement = 0 ∧ ¬ s.cached statement ∧ (s.object statement).destroyed = true)

def LastDrop (s : StatementHeap) (a : StatementAct) : Prop :=
  ∃ statement, a = .release statement ∧ s.clients statement = 1

/-- A statement that was given a cache is reset and cached when its last reference
goes, and one without a cache is destroyed. -/
def Released (s : StatementHeap) (a : StatementAct) (t : StatementHeap) : Prop :=
  ∀ statement, a = .release statement → s.clients statement = 1 →
    if (s.object statement).cache then
      (t.object statement).resets = (s.object statement).resets+1 ∧ t.cached statement
    else (t.object statement).destroyed = true

def Served (s : StatementHeap) (a : StatementAct) (t : StatementHeap) : Prop :=
  ∀ statement, a = .getPreparedStatement statement.sqlQuery → s.cached statement →
    t.created = s.created ∧ t.clients statement = s.clients statement+1

/-- What holds in every run of the code as it is: nothing reaches the cache or is
destroyed, and the count of a statement is the number of references clients hold. -/
structure StatementHeap.Inert (s : StatementHeap) : Prop where
  cache : s.cache = DBStatementCache.new
  alive : ∀ statement, (s.object statement).destroyed = false
  refCount : ∀ statement, (s.object statement).refCount = s.clients statement
  fresh : ∀ statement, statement ∉ s.created → s.clients statement = 0
  handle : ∀ statement ∈ s.created, statement.id < s.created.length

@[simp] theorem dispose_some (fuel : Nat) (s : StatementHeap) (statement : DBStatement) :
    StatementHeap.dispose (fuel+1) s (some statement) = some s := rfl

@[simp] theorem isActive_new : DBStatementCache.new.isActive = true := rfl

@[simp] theorem fetch_new (query : Query) :
    DBStatementCache.new.fetch query = some (DBStatementCache.new,[]) := rfl

@[simp] theorem kept_new : DBStatementCache.new.kept = [] := rfl

theorem release_dispose (s : StatementHeap) (statement : DBStatement) :
    s.release (StatementHeap.dispose disposeDepth) statement =
      some (s.modify statement (fun o => { o with refCount := o.refCount-1 })) := by
  simp [StatementHeap.release,disposeDepth]

def StatementHeap.made (s : StatementHeap) (query : Query) (cache : Bool) : StatementHeap :=
  let statement : DBStatement := ⟨s.created.length,query⟩
  { s with
    created := s.created ++ [statement]
    object := Function.update s.object statement ⟨1,cache,0,false⟩
    clients := Function.update s.clients statement (s.clients statement+1) }

/-- Everything a step can do while the cache is as the constructor left it. -/
theorem step_cases {s t : StatementHeap} {a : StatementAct}
    (hc : s.cache = DBStatementCache.new) (h : s.step a = some t) :
    (∃ query, a = .getPreparedStatement query ∧ t = s.made query true) ∨
    (∃ query, a = .getPreparedUncachedStatement query ∧ t = s.made query false) ∨
    (∃ statement, a = .addRef statement ∧ s.clients statement ≠ 0 ∧
      t = (s.addRef statement).hold statement) ∨
    (∃ statement, a = .use statement ∧ s.clients statement ≠ 0 ∧ t = s) ∨
    (∃ statement, a = .reset statement ∧ s.clients statement ≠ 0 ∧ t = s.reset statement) ∨
    (∃ statement, a = .release statement ∧ s.clients statement ≠ 0 ∧
      t = (s.drop statement).modify statement
        (fun o => { o with refCount := o.refCount-1 })) := by
  cases a with
  | getPreparedStatement query =>
    have hsame : { s with cache := DBStatementCache.new } = s := by rw [← hc]
    left
    refine ⟨query,rfl,?_⟩
    simp only [StatementHeap.step,StatementHeap.getPreparedStatement,hc] at h
    simpa [hsame,StatementHeap.newPreparedStatement,StatementHeap.setCache,
      StatementHeap.modify,StatementHeap.hold,StatementHeap.made,hc] using h.symm
  | getPreparedUncachedStatement query =>
    right; left
    refine ⟨query,rfl,?_⟩
    simpa [StatementHeap.step,StatementHeap.newPreparedStatement,StatementHeap.hold,
      StatementHeap.made] using h.symm
  | addRef statement =>
    simp only [StatementHeap.step,Option.ite_none_left_eq_some,Option.some.injEq] at h
    exact Or.inr (Or.inr (Or.inl ⟨statement,rfl,h.1,h.2.symm⟩))
  | use statement =>
    simp only [StatementHeap.step,Option.ite_none_left_eq_some,Option.some.injEq] at h
    exact Or.inr (Or.inr (Or.inr (Or.inl ⟨statement,rfl,h.1,h.2.symm⟩)))
  | reset statement =>
    simp only [StatementHeap.step,Option.ite_none_left_eq_some,Option.some.injEq] at h
    exact Or.inr (Or.inr (Or.inr (Or.inr (Or.inl ⟨statement,rfl,h.1,h.2.symm⟩))))
  | release statement =>
    simp only [StatementHeap.step,release_dispose,Option.ite_none_left_eq_some,
      Option.some.injEq] at h
    exact Or.inr (Or.inr (Or.inr (Or.inr (Or.inr ⟨statement,rfl,h.1,h.2.symm⟩))))

theorem StatementHeap.Inert.init : StatementHeap.init.Inert := by
  constructor <;> simp [StatementHeap.init]

theorem StatementHeap.Inert.made {s : StatementHeap} (h : s.Inert) (query : Query) (cache : Bool) :
    (s.made query cache).Inert := by
  have hnew : (⟨s.created.length,query⟩ : DBStatement) ∉ s.created := by
    intro hm
    exact Nat.lt_irrefl _ (h.handle _ hm)
  constructor
  · exact h.cache
  · intro statement
    by_cases hst : statement = ⟨s.created.length,query⟩ <;>
      simp [StatementHeap.made,hst,h.alive]
  · intro statement
    by_cases hst : statement = ⟨s.created.length,query⟩
    · simp [StatementHeap.made,hst,h.fresh _ hnew]
    · simpa [StatementHeap.made,hst,Function.update_apply] using h.refCount statement
  · intro statement hst
    simp only [StatementHeap.made,List.mem_append,List.mem_singleton,not_or] at hst
    simpa [StatementHeap.made,hst.2,Function.update_apply] using h.fresh statement hst.1
  · intro statement hst
    simp only [StatementHeap.made,List.mem_append,List.mem_singleton] at hst
    simp only [StatementHeap.made,List.length_append,List.length_singleton]
    rcases hst with hst | rfl
    · have := h.handle statement hst
      omega
    · exact Nat.lt_succ_self _

/-- A change to one statement and to the references held to it, by the same amount. -/
theorem StatementHeap.Inert.counted {s t : StatementHeap} {statement : DBStatement} (h : s.Inert)
    (hheld : s.clients statement ≠ 0) (hcache : t.cache = s.cache)
    (hcreated : t.created = s.created)
    (hother : ∀ other, other ≠ statement →
      t.object other = s.object other ∧ t.clients other = s.clients other)
    (halive : (t.object statement).destroyed = false)
    (hcount : (t.object statement).refCount = t.clients statement) : t.Inert := by
  constructor
  · rw [hcache,h.cache]
  · intro other
    by_cases ho : other = statement
    · rw [ho,halive]
    · rw [(hother other ho).1,h.alive]
  · intro other
    by_cases ho : other = statement
    · rw [ho,hcount]
    · rw [(hother other ho).1,(hother other ho).2,h.refCount]
  · intro other ho
    rw [hcreated] at ho
    have hne : other ≠ statement := by
      rintro rfl
      exact hheld (h.fresh _ ho)
    rw [(hother other hne).2,h.fresh other ho]
  · rw [hcreated]
    exact h.handle

theorem inert_inductive : statementSystem.Inductive StatementHeap.Inert where
  init := StatementHeap.Inert.init
  step := by
    intro s a t h hs
    rcases step_cases h.cache hs with ⟨query,-,rfl⟩ | ⟨query,-,rfl⟩ | ⟨statement,-,hheld,rfl⟩ |
      ⟨statement,-,hheld,rfl⟩ | ⟨statement,-,hheld,rfl⟩ | ⟨statement,-,hheld,rfl⟩
    · exact h.made query true
    · exact h.made query false
    · refine h.counted hheld rfl rfl ?_ ?_ ?_
      · intro other ho
        simp [StatementHeap.addRef,StatementHeap.modify,StatementHeap.hold,
          Function.update_of_ne ho]
      · simp [StatementHeap.addRef,StatementHeap.modify,StatementHeap.hold,h.alive]
      · simp [StatementHeap.addRef,StatementHeap.modify,StatementHeap.hold,h.refCount]
    · exact h
    · refine h.counted hheld rfl rfl ?_ ?_ ?_
      · intro other ho
        simp [StatementHeap.reset,StatementHeap.modify,Function.update_of_ne ho]
      · simp [StatementHeap.reset,StatementHeap.modify,h.alive]
      · simp [StatementHeap.reset,StatementHeap.modify,h.refCount]
    · refine h.counted hheld rfl rfl ?_ ?_ ?_
      · intro other ho
        simp [StatementHeap.drop,StatementHeap.modify,Function.update_of_ne ho]
      · simp [StatementHeap.drop,StatementHeap.modify,h.alive]
      · have := Nat.pos_of_ne_zero hheld
        simp only [StatementHeap.drop,StatementHeap.modify,Function.update_self,h.refCount]
        omega

theorem not_cached {s : StatementHeap} (h : s.Inert) (statement : DBStatement) :
    ¬ s.cached statement := by
  simp [StatementHeap.cached,h.cache]

def StatementHeap.AllHeld (s : StatementHeap) : Prop :=
  ∀ statement ∈ s.created, 0 < s.clients statement

theorem partitioned_of_allHeld {s : StatementHeap} (h : s.Inert) (hall : s.AllHeld) :
    s.Partitioned :=
  fun statement hst => Or.inl ⟨hall statement hst,not_cached h statement,h.alive statement⟩

theorem AllHeld.made {s : StatementHeap} (h : s.AllHeld) (query : Query) (cache : Bool) :
    (s.made query cache).AllHeld := by
  intro statement hst
  simp only [StatementHeap.made,List.mem_append,List.mem_singleton] at hst ⊢
  by_cases hnew : statement = ⟨s.created.length,query⟩
  · simp [hnew]
  · rw [Function.update_of_ne hnew]
    exact h statement (hst.resolve_right hnew)

theorem allHeld_step {s t : StatementHeap} {a : StatementAct} (h : s.Inert)
    (hall : s.AllHeld) (hs : s.step a = some t) (hdrop : ¬ LastDrop s a) : t.AllHeld := by
  rcases step_cases h.cache hs with ⟨query,-,rfl⟩ | ⟨query,-,rfl⟩ | ⟨statement,-,hheld,rfl⟩ |
    ⟨statement,-,hheld,rfl⟩ | ⟨statement,-,hheld,rfl⟩ | ⟨statement,rfl,hheld,rfl⟩
  · exact AllHeld.made hall query true
  · exact AllHeld.made hall query false
  · intro other ho
    by_cases heq : other = statement
    · simp [StatementHeap.hold,heq]
    · simpa [StatementHeap.hold,StatementHeap.addRef,StatementHeap.modify,
        Function.update_of_ne heq] using hall other ho
  · exact hall
  · exact hall
  · intro other ho
    by_cases heq : other = statement
    · have hne : s.clients statement ≠ 1 := fun h1 => hdrop ⟨statement,rfl,h1⟩
      simp only [StatementHeap.drop,StatementHeap.modify,heq,Function.update_self]
      omega
    · simpa [StatementHeap.drop,StatementHeap.modify,Function.update_of_ne heq] using hall other ho

theorem not_released_of_lastDrop {s t : StatementHeap} {a : StatementAct} (h : s.Inert)
    (hs : s.step a = some t) (hdrop : LastDrop s a) : ¬ Released s a t := by
  obtain ⟨statement,ha,hlast⟩ := hdrop
  have ht : t.Inert := inert_inductive.step s a t h hs
  intro hr
  have hst := hr statement ha hlast
  by_cases hcache : (s.object statement).cache
  · rw [if_pos hcache] at hst
    exact not_cached ht statement hst.2
  · rw [if_neg hcache,ht.alive] at hst
    cases hst

/-- Statements stay in exactly one place, and are cached or destroyed at their
last drop, in the runs that never drop a last reference, and in no others. -/
theorem statement_places_iff (as : List StatementAct) :
    statementSystem.Along (fun s a t => t.Partitioned ∧ Released s a t ∧ Served s a t) as ↔
      statementSystem.Along (fun s a _ => ¬ LastDrop s a) as := by
  constructor
  · intro hr
    exact hr.guarded (I := StatementHeap.Inert)
      (fun s a t h hs hra => ⟨inert_inductive.step s a t h hs,
        fun hdrop => not_released_of_lastDrop h hs hdrop hra.2.1⟩) StatementHeap.Inert.init
  · intro hc
    refine hc.guarded (I := fun s => s.Inert ∧ s.AllHeld) ?_
      ⟨StatementHeap.Inert.init,by simp [StatementHeap.AllHeld,statementSystem,StatementHeap.init]⟩
    rintro s a t ⟨h,hall⟩ hs hdrop
    have ht : t.Inert := inert_inductive.step s a t h hs
    have hallt := allHeld_step h hall hs hdrop
    refine ⟨⟨ht,hallt⟩,partitioned_of_allHeld ht hallt,?_,?_⟩
    · intro statement ha hlast
      exact absurd ⟨statement,ha,hlast⟩ hdrop
    · intro statement _ hcached
      exact absurd hcached (not_cached h statement)

/-- Preparing a statement and dropping it leaks it: it is in none of the places. -/
theorem dropped_statement_leaks :
    ¬ statementSystem.Along (fun s a t => t.Partitioned ∧ Released s a t ∧ Served s a t)
      [.getPreparedStatement "q".toList,.release ⟨0,"q".toList⟩] := by
  intro h
  obtain ⟨-,h1⟩ := h _ rfl
  obtain ⟨⟨hp,-⟩,-⟩ := h1 _ rfl
  have hst := hp ⟨0,"q".toList⟩ (by decide)
  simp only [StatementHeap.cached] at hst
  revert hst
  decide

end MprMq.Db
