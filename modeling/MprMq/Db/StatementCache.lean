import MprMq.Db.StatementCacheData
set_option autoImplicit false

/-! `DBStatementCache`: the data behind a pointer that is meant to stay null
until a positive size is set. -/

namespace MprMq.Db
open MprMq.Lib

/-- `data_` is a `unique_ptr`; `none` is the null pointer. -/
structure DBStatementCache where
  data : Option Data
  deriving DecidableEq, Repr

def DBStatementCache.new : DBStatementCache := ⟨some (Data.new 0)⟩

def DBStatementCache.isActive (c : DBStatementCache) : Bool := c.data.isSome

def DBStatementCache.setSize (c : DBStatementCache) (n : Nat) : DBStatementCache :=
  if n ≠ 0 ∧ ¬ c.isActive then ⟨some (Data.new n)⟩ else c

/-- `Put`, with the statements the cache lets go. On an inactive cache the
pointer is cleared and then used, since no `return` follows; `none` is that use. -/
def DBStatementCache.put (c : DBStatementCache) (statement : Option DBStatement) :
    Option (DBStatementCache × List DBStatement) := do
  let statement := if ¬ c.isActive then none else statement
  let statement ← statement
  let d ← c.data
  let (d,dropped) ← d.insert statement
  pure (⟨some d⟩,dropped)

/-- `Fetch`, with the statement it returns; the empty list is `nullptr`. -/
def DBStatementCache.fetch (c : DBStatementCache) (query : Query) :
    Option (DBStatementCache × List DBStatement) :=
  if ¬ c.isActive then some (c,[])
  else do
    let d ← c.data
    let (d,result) ← d.fetch query
    pure (⟨some d⟩,result)

def DBStatementCache.clear (c : DBStatementCache) : Option DBStatementCache :=
  c.data.map (fun d => ⟨some d.clear⟩)

/-- The part of `DBConnection::DBConnection` that sizes the connection's cache. -/
def DBStatementCache.ofConnection (cacheSize : Int) : DBStatementCache :=
  if cacheSize > 0 then DBStatementCache.new.setSize (SizeT.ofInt cacheSize)
  else DBStatementCache.new

def DBStatementCache.kept (c : DBStatementCache) : List (Query × DBStatement) :=
  match c.data with
  | some d => d.recency
  | none => []

inductive CacheOp where
  | put : DBStatement → CacheOp
  | fetch : Query → CacheOp
  deriving DecidableEq, Repr

def DBStatementCache.step (c : DBStatementCache) :
    CacheOp → Option (DBStatementCache × List DBStatement)
  | .put statement => c.put (some statement)
  | .fetch query => c.fetch query

def DBStatementCache.exec (c : DBStatementCache) : List CacheOp → Option DBStatementCache
  | [] => some c
  | op :: ops => (c.step op).bind (fun r => r.1.exec ops)

def CacheOp.toData : CacheOp → DataOp
  | .put statement => .insert statement
  | .fetch query => .fetch query

def CacheOp.abstract (op : CacheOp) : Recency.Op Query DBStatement := op.toData.abstract

def waiting (ops : List CacheOp) : List (Query × DBStatement) :=
  Recency.recent [] (ops.map CacheOp.abstract)

/-- The `n` most recently put of the queries not fetched since. A query that `n`
more recent ones have pushed out is gone and does not come back by itself. -/
def mostRecent (n : Nat) (ops : List CacheOp) : List (Query × DBStatement) :=
  (Recency.exec n [] (ops.map CacheOp.abstract)).1

/-- `Fetch` finds nothing, and `Put` keeps nothing and uses no null pointer. -/
structure DBStatementCache.Inactive (c : DBStatementCache) : Prop where
  inactive : c.isActive = false
  fetch : ∀ query, c.fetch query = some (c,[])
  put : ∀ statement, ∃ c', c.put (some statement) = some (c',[]) ∧ c'.kept = []

/-- What a cache is meant to hold once `SetSize(n)` was called, `n = 0` standing
for the cache no positive size was set for. -/
def DBStatementCache.Meets (n : Nat) (ops : List CacheOp) (c : DBStatementCache) : Prop :=
  if n = 0 then c.Inactive else c.kept = mostRecent n ops

@[simp] theorem setSize_new (n : Nat) :
    DBStatementCache.new.setSize n = DBStatementCache.new := by
  simp [DBStatementCache.setSize,DBStatementCache.new,DBStatementCache.isActive]

theorem step_active (d : Data) (op : CacheOp) :
    (⟨some d⟩ : DBStatementCache).step op =
      (d.step op.toData).map (fun r => (⟨some r.1⟩,r.2)) := by
  cases op with
  | put statement =>
    cases h : d.insert statement <;>
      simp [DBStatementCache.step,DBStatementCache.put,DBStatementCache.isActive,
        CacheOp.toData,Data.step,h]
  | fetch query =>
    cases h : d.fetch query <;>
      simp [DBStatementCache.step,DBStatementCache.fetch,DBStatementCache.isActive,
        CacheOp.toData,Data.step,h]

theorem exec_active (ops : List CacheOp) (d : Data) :
    (⟨some d⟩ : DBStatementCache).exec ops =
      (d.exec (ops.map CacheOp.toData)).map (fun r => ⟨some r.1⟩) := by
  induction ops generalizing d with
  | nil => rfl
  | cons op ops ih =>
    simp only [DBStatementCache.exec,step_active,List.map_cons,Data.exec]
    cases d.step op.toData with
    | none => rfl
    | some r =>
      simp only [Option.map_some,Option.bind_some,ih]
      cases hr : r.1.exec (ops.map CacheOp.toData) with
      | none => simp [hr]
      | some q => simp [hr]

/-- Whatever size is asked for, the cache is a recency list of capacity one: the
constructor has made it active, so `SetSize` never reaches its assignment. -/
theorem exec_sized (n : Nat) (ops : List CacheOp) :
    ∃ c, (DBStatementCache.new.setSize n).exec ops = some c ∧ c.isActive = true ∧
      c.kept = mostRecent 1 ops := by
  obtain ⟨d,outs,hexec,-,hrec⟩ := exec_recency 0 (ops.map CacheOp.toData)
  refine ⟨⟨some d⟩,?_,rfl,?_⟩
  · rw [setSize_new,DBStatementCache.new,exec_active,hexec]
    rfl
  · have hmap : (ops.map CacheOp.toData).map DataOp.abstract = ops.map CacheOp.abstract := by
      simp [List.map_map,Function.comp_def,CacheOp.abstract]
    rw [hmap] at hrec
    exact (congrArg Prod.fst hrec).symm

/-- So it is with the cache of every connection, with `@stmt_cache_size` at 0 too. -/
theorem exec_ofConnection (cacheSize : Int) (ops : List CacheOp) :
    ∃ c, (DBStatementCache.ofConnection cacheSize).exec ops = some c ∧ c.isActive = true ∧
      c.kept = mostRecent 1 ops := by
  rw [DBStatementCache.ofConnection]
  split
  case isTrue => exact exec_sized _ ops
  case isFalse => simpa using exec_sized 0 ops

theorem not_inactive_of_exec {n : Nat} {ops : List CacheOp} {c : DBStatementCache}
    (hc : (DBStatementCache.new.setSize n).exec ops = some c) : ¬ c.Inactive := by
  intro hin
  obtain ⟨c',hc',hactive,-⟩ := exec_sized n ops
  rw [hc,Option.some.injEq] at hc'
  subst c'
  rw [hin.inactive] at hactive
  cases hactive

theorem mostRecent_eq_waiting {n : Nat} (hn : n ≠ 0) {ops : List CacheOp}
    (h : ∀ p, p <+: ops → (waiting p).length ≤ 1) : mostRecent n ops = waiting ops := by
  refine Recency.exec_eq_recent _ (fun q hq => ?_)
  obtain ⟨p,hp,rfl⟩ := List.prefix_map_iff.mp hq
  exact Nat.le_trans (h p hp) (by omega)

/-- Capacity one keeps what another capacity keeps, after every beginning, only for
the same capacity or when no two queries wait together. -/
theorem mostRecent_one_iff {n : Nat} (hn : n ≠ 0) (ops : List CacheOp) :
    (∀ p, p <+: ops → mostRecent 1 p = mostRecent n p) ↔
      n = 1 ∨ ∀ p, p <+: ops → (waiting p).length ≤ 1 := by
  constructor
  · intro h
    by_cases h1 : n = 1
    · exact Or.inl h1
    · have hcap : 2 ≤ n := by omega
      have hw := Recency.waiting_le_one_of_exec_eq hcap (ops.map CacheOp.abstract) (l := [])
        (by simp) (by
          intro q hq
          obtain ⟨p,hp,rfl⟩ := List.prefix_map_iff.mp hq
          exact h p hp)
      exact Or.inr (fun p hp => hw _ (hp.map CacheOp.abstract))
  · rintro (rfl | h) p hp
    · rfl
    · have hw : ∀ q, q <+: p → (waiting q).length ≤ 1 := fun q hq => h q (hq.trans hp)
      rw [mostRecent_eq_waiting Nat.one_ne_zero hw,mostRecent_eq_waiting hn hw]

/-- The cache holds what its size asks for, after every beginning of a sequence
of calls, exactly for size one or when no two queries wait together; without a
positive size it is never inactive. -/
theorem sized_cache_iff (n : Nat) (ops : List CacheOp) :
    (∀ p, p <+: ops → ∃ c, (DBStatementCache.new.setSize n).exec p = some c ∧ c.Meets n p) ↔
      n ≠ 0 ∧ (n = 1 ∨ ∀ p, p <+: ops → (waiting p).length ≤ 1) := by
  by_cases hn : n = 0
  · subst n
    constructor
    · intro h
      obtain ⟨c,hc,hm⟩ := h [] List.nil_prefix
      have hin : c.Inactive := by simpa [DBStatementCache.Meets] using hm
      exact absurd hin (not_inactive_of_exec hc)
    · intro h
      exact absurd rfl h.1
  · have hsame : (∀ p, p <+: ops →
        ∃ c, (DBStatementCache.new.setSize n).exec p = some c ∧ c.Meets n p) ↔
        ∀ p, p <+: ops → mostRecent 1 p = mostRecent n p := by
      apply forall_congr'; intro p
      apply forall_congr'; intro _
      obtain ⟨c,hc,-,hk⟩ := exec_sized n p
      rw [hc]
      simp [DBStatementCache.Meets,hn,hk]
    rw [hsame,mostRecent_one_iff hn ops]
    exact (and_iff_right hn).symm

theorem sized_cache_loses_query :
    ¬ ∃ c, (DBStatementCache.new.setSize 2).exec
        [.put ⟨0,"a".toList⟩,.put ⟨1,"b".toList⟩] = some c ∧
      c.Meets 2 [.put ⟨0,"a".toList⟩,.put ⟨1,"b".toList⟩] := by
  rintro ⟨c,hc,hm⟩
  obtain ⟨c',hc',-,hk⟩ := exec_sized 2 [.put ⟨0,"a".toList⟩,.put ⟨1,"b".toList⟩]
  rw [hc] at hc'
  cases hc'
  have h2 : c.kept = mostRecent 2 [.put ⟨0,"a".toList⟩,.put ⟨1,"b".toList⟩] := by
    simpa [DBStatementCache.Meets] using hm
  rw [hk] at h2
  exact absurd h2 (by decide)

end MprMq.Db
