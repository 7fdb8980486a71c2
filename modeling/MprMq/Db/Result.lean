import MprMq.Db.MysqlDirectResult
set_option autoImplicit false

/-! The frontend's Result, over the result of whichever driver. -/

namespace MprMq.Db
open Lib

inductive DBException where
  | nullValueFetch
  | invalidColumn
  | multipleRowsQuery

/-- What moves a driver's result on. HasNext gives kNextRowExists or else kLastRowReached. -/
structure ResultDriver (σ : Type) where
  next : σ → Access (Bool × σ)
  hasNext : σ → Bool

def directResult : ResultDriver MysqlDirectResult :=
  ⟨fun r => .ok r.next,MysqlDirectResult.hasNext⟩

def preparedResult : ResultDriver MysqlPreparedResult :=
  ⟨fun p => .ok p.next,MysqlPreparedResult.hasNext⟩

def afterCalls {σ : Type} (next : σ → Access (Bool × σ)) : Nat → σ → Access σ
  | 0, s => .ok s
  | k+1, s => do
    let (_,s') ← next s
    afterCalls next k s'

section calls
variable {σ : Type} {next : σ → Access (Bool × σ)}

theorem afterCalls_ok {k : Nat} {s t : σ} (h : afterCalls next (k+1) s = .ok t) :
    ∃ u fetched, next s = .ok (fetched,u) ∧ afterCalls next k u = .ok t := by
  rw [afterCalls] at h
  cases hnext : next s with
  | error fault =>
    rw [hnext] at h
    cases h
  | ok reply =>
    rw [hnext] at h
    exact ⟨reply.2,reply.1,rfl,h⟩

theorem afterCalls_of_next {k : Nat} {s t u : σ} {fetched : Bool} (hnext : next s = .ok (fetched,u))
    (h : afterCalls next k u = .ok t) : afterCalls next (k+1) s = .ok t := by
  rw [afterCalls,hnext]
  exact h

theorem afterCalls_keeps {P : σ → Prop}
    (h : ∀ s fetched s', P s → next s = .ok (fetched,s') → P s') {k : Nat} {s t : σ} (hs : P s)
    (ht : afterCalls next k s = .ok t) : P t := by
  induction k generalizing s with
  | zero =>
    cases ht
    exact hs
  | succ k ih =>
    obtain ⟨u,fetched,hnext,ht⟩ := afterCalls_ok ht
    exact ih (h s fetched u hs hnext) ht

/-- Calls that go through, with what holds before the `j`-th of them. -/
theorem afterCalls_reaches {P : Nat → σ → Prop}
    (h : ∀ j s, P j s → ∃ fetched s', next s = .ok (fetched,s') ∧ P (j+1) s') (k : Nat)
    {j : Nat} {s : σ} (hs : P j s) : ∃ t, afterCalls next k s = .ok t ∧ P (j+k) t := by
  induction k generalizing j s with
  | zero => exact ⟨s,rfl,hs⟩
  | succ k ih =>
    obtain ⟨fetched,u,hnext,hu⟩ := h j s hs
    obtain ⟨t,ht,hat⟩ := ih hu
    refine ⟨t,afterCalls_of_next hnext ht,?_⟩
    rwa [Nat.add_assoc,Nat.add_comm 1] at hat

theorem afterCalls_succ {k : Nat} {s t : σ} (h : afterCalls next (k+1) s = .ok t) :
    ∃ u fetched, afterCalls next k s = .ok u ∧ next u = .ok (fetched,t) := by
  induction k generalizing s with
  | zero =>
    obtain ⟨u,fetched,hnext,hu⟩ := afterCalls_ok h
    cases hu
    exact ⟨s,fetched,rfl,hnext⟩
  | succ k ih =>
    obtain ⟨v,fetched,hnext,hv⟩ := afterCalls_ok h
    obtain ⟨u,last,hu,ht⟩ := ih hv
    exact ⟨u,last,afterCalls_of_next hnext hu,ht⟩

end calls

structure Result (σ : Type) where
  eof : Bool
  fetched : Bool
  currentColumn : Int
  dbResult : Option σ

namespace Result
variable {σ : Type}

def new (dbResult : σ) : Result σ := ⟨false,false,0,some dbResult⟩

def next (driver : ResultDriver σ) (r : Result σ) : Access (Bool × Result σ) :=
  if r.eof then .ok (false,r)
  else match r.dbResult with
    | none => .error .outside
    | some dbResult => do
      let (fetched,dbResult) ← driver.next dbResult
      .ok (fetched,⟨!fetched,true,0,some dbResult⟩)

def empty (r : Result σ) : Bool := r.dbResult.isNone || r.eof || !r.fetched

def row (driver : ResultDriver σ) (dbResult : σ) : Access (Except DBException (Result σ)) := do
  let (fetched,result) ← (new dbResult).next driver
  match fetched,result.dbResult with
  | true,none => .error .outside
  | true,some dbResult =>
    if driver.hasNext dbResult then .ok (.error .multipleRowsQuery) else .ok (.ok result)
  | false,_ => .ok (.ok result)

theorem next_ok {driver : ResultDriver σ} {s s' : σ} {fetched : Bool} {r : Result σ}
    (heof : r.eof = false) (hres : r.dbResult = some s) (h : driver.next s = .ok (fetched,s')) :
    r.next driver = .ok (fetched,⟨!fetched,true,0,some s'⟩) := by
  rw [next,heof,if_neg (by decide),hres]
  simp only [h]
  rfl

end Result

end MprMq.Db
