import MprMq.Lib.Access
import MprMq.Db.ConnectionInfo
import Mathlib.Data.List.Count
set_option autoImplicit false

/-! The commands that a Transaction sends. -/

namespace MprMq.Db
open Lib

/-- A connection by the commands it has received, and which of them it can do. -/
structure MysqlConnection where
  received : List Text
  succeeds : Nat → Bool

namespace MysqlConnection

/-- A command that fails is a failed check. -/
def execute (c : MysqlConnection) (str : Text) : Access MysqlConnection := do
  check (c.succeeds c.received.length)
  .ok { c with received := c.received ++ [str] }

def beginCommand : Text := "BEGIN".toList
def commitCommand : Text := "COMMIT".toList
def rollbackCommand : Text := "ROLLBACK".toList

end MysqlConnection

structure Transaction where
  session : MysqlConnection
  commited : Bool

namespace Transaction
open MysqlConnection

def new (session : MysqlConnection) : Access Transaction := do
  .ok ⟨← session.execute beginCommand,false⟩

def commit (t : Transaction) : Access Transaction := do
  .ok ⟨← t.session.execute commitCommand,true⟩

def rollback (t : Transaction) : Access Transaction :=
  if t.commited then .ok ⟨t.session,true⟩
  else do .ok ⟨← t.session.execute rollbackCommand,true⟩

def delete (t : Transaction) : Access MysqlConnection := do
  .ok (← t.rollback).session

inductive Call where
  | commit
  | rollback
  deriving DecidableEq

def call (t : Transaction) : Call → Access Transaction
  | .commit => t.commit
  | .rollback => t.rollback

def calls (t : Transaction) : List Call → Access Transaction
  | [] => .ok t
  | c :: cs => do (← t.call c).calls cs

def lifetime (cs : List Call) (session : MysqlConnection) : Access MysqlConnection := do
  (← (← new session).calls cs).delete

end Transaction

section commands
open MysqlConnection Transaction

def reliable (received : List Text) : MysqlConnection := ⟨received,fun _ => true⟩

/-- The command that is to end a transaction: COMMIT if the first call is Commit. -/
def terminator (cs : List Call) : Text :=
  if cs.head? = some .commit then commitCommand else rollbackCommand

/-- The connection receives BEGIN and the one command that ends the transaction. -/
def EndsOnce (before : List Text) (cs : List Call) : Prop :=
  ∃ c, lifetime cs (reliable before) = .ok c ∧
    c.received = before ++ [beginCommand,terminator cs]

/-- Once the flag is set, every further Commit is sent, and nothing else. -/
theorem calls_commited (cs : List Call) (received : List Text) :
    (⟨reliable received,true⟩ : Transaction).calls cs = .ok
      ⟨reliable (received ++ List.replicate (cs.count .commit) commitCommand),true⟩ := by
  induction cs generalizing received with
  | nil => simp [calls]
  | cons c cs ih =>
    cases c with
    | commit =>
      have hcount : (Call.commit :: cs).count .commit = cs.count .commit+1 :=
        List.count_cons_self
      rw [hcount,List.replicate_succ,List.append_cons]
      exact ih (received ++ [commitCommand])
    | rollback =>
      have hcount : (Call.rollback :: cs).count .commit = cs.count .commit :=
        List.count_cons_of_ne (by decide)
      rw [hcount]
      exact ih received

/-- The first call, or else the destructor, sends the terminating command. -/
theorem lifetime_eq (before : List Text) (cs : List Call) :
    lifetime cs (reliable before) = .ok (reliable (before ++ [beginCommand,terminator cs] ++
      List.replicate (cs.tail.count .commit) commitCommand)) := by
  have hfirst {c : Call} {command : Text} (cs : List Call)
      (hc : (⟨reliable (before ++ [beginCommand]),false⟩ : Transaction).call c =
        .ok ⟨reliable (before ++ [beginCommand] ++ [command]),true⟩) :
      lifetime (c :: cs) (reliable before) = .ok (reliable (before ++ [beginCommand,command] ++
        List.replicate (cs.count .commit) commitCommand)) := by
    have hcalls := calls_commited cs (before ++ [beginCommand] ++ [command])
    have hrest : (⟨reliable (before ++ [beginCommand]),false⟩ : Transaction).calls (c :: cs) =
        .ok ⟨reliable (before ++ [beginCommand] ++ [command] ++
          List.replicate (cs.count .commit) commitCommand),true⟩ := by
      rw [calls,hc]
      exact hcalls
    rw [List.append_assoc before] at hrest
    change ((⟨reliable (before ++ [beginCommand]),false⟩ : Transaction).calls (c :: cs) >>=
      Transaction.delete) = _
    rw [hrest]
    rfl
  cases cs with
  | nil =>
    have hreceived : before ++ [beginCommand] ++ [rollbackCommand] =
        before ++ [beginCommand,rollbackCommand] ++ [] := by simp
    exact congrArg (fun received => Except.ok (reliable received)) hreceived
  | cons c cs =>
    cases c with
    | commit => exact hfirst cs rfl
    | rollback => exact hfirst cs rfl

/-- One command ends the transaction unless Commit is called behind another call. -/
theorem transaction_ends_once (before : List Text) (cs : List Call) :
    EndsOnce before cs ↔ .commit ∉ cs.tail := by
  rw [← List.count_eq_zero,EndsOnce,lifetime_eq]
  constructor
  · rintro ⟨c,hc,hreceived⟩
    cases hc
    have hlength := congrArg List.length hreceived
    simp only [reliable,List.length_append,List.length_replicate] at hlength
    omega
  · intro hcount
    refine ⟨_,rfl,?_⟩
    rw [hcount]
    exact List.append_nil _

/-- After a Rollback a Commit is still sent. -/
theorem rolled_back_and_commited : ∃ c,
    lifetime [.rollback,.commit] (reliable []) = .ok c ∧
    c.received = [beginCommand,rollbackCommand,commitCommand] := ⟨_,rfl,rfl⟩

end commands

end MprMq.Db
