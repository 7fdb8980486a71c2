import MprMq.Base.Status
import Mathlib.Tactic.Common
set_option autoImplicit false

/-! A PthreadThread, whatever fails of the thread library. -/

namespace MprMq.Threading
open MprMq.Base

abbrev PthreadId := Nat

/-- What a call of `pthread_create` does: a new thread, or a failure that leaves something in
the variable for the id. -/
inductive Created where
  | created (id : PthreadId)
  | failed (left : PthreadId)

/-- A call of the thread library, and what has come of it. -/
inductive PthreadCall where
  | attrInit (ok : Bool)
  | attrSetDetachState (detached ok : Bool)
  | attrSetStackSize (bytes : Int) (ok : Bool)
  | create (result : Created)
  | setName (id : PthreadId) (name : Text)
  | join (id : PthreadId) (ok : Bool)

namespace PthreadThread

inductive State where
  | uninitialized
  | starting
  deriving DecidableEq

def megabyte : Int := 1024*1024

end PthreadThread

structure PthreadThread where
  pthread : PthreadId
  state : PthreadThread.State
  stackSize : Int
  detached : Bool
  name : Text

/-- The thread, the references to it that were allocated for a ThreadMain and given to none, the
ids that are taken for live, and the calls of the library. -/
structure ThreadWorld where
  thread : PthreadThread
  selfRefs : Nat
  liveThreadIds : List PthreadId
  calls : List PthreadCall

/-- How the library answers in one Start. -/
structure StartReply where
  attrInit : Bool
  attrSetDetachState : Bool
  attrSetStackSize : Bool
  create : Created

namespace ThreadWorld

/-- `MB * stackSize_` is what the library is given. -/
def new (stackSize : Int) (detached : Bool) (liveThreadIds : List PthreadId) : ThreadWorld :=
  ⟨⟨0,.uninitialized,stackSize,detached,[]⟩,0,liveThreadIds,[]⟩

def called (w : ThreadWorld) (c : PthreadCall) : ThreadWorld := { w with calls := w.calls ++ [c] }

def updateName (w : ThreadWorld) : ThreadWorld :=
  if w.thread.pthread = 0 ∨ w.thread.name = [] then w
  else w.called (.setName w.thread.pthread w.thread.name)

def addLiveThreadId (w : ThreadWorld) : ThreadWorld :=
  { w with liveThreadIds := w.liveThreadIds.insert w.thread.pthread }

def removeLiveThreadId (w : ThreadWorld) : ThreadWorld :=
  { w with liveThreadIds := w.liveThreadIds.filter fun id => id ≠ w.thread.pthread }

/-- Start, and the text of the exception that it throws. -/
def start (w : ThreadWorld) (reply : StartReply) : Option Text × ThreadWorld :=
  if w.thread.state ≠ .uninitialized then (none,w)
  else
    let w := w.called (.attrInit reply.attrInit)
    if !reply.attrInit then (some "pthread_attr_init failed".toList,w)
    else
      let w := w.called (.attrSetDetachState w.thread.detached reply.attrSetDetachState)
      if !reply.attrSetDetachState then (some "pthread_attr_setdetachstate failed".toList,w)
      else
        let w := w.called (.attrSetStackSize (PthreadThread.megabyte*w.thread.stackSize)
          reply.attrSetStackSize)
        if !reply.attrSetStackSize then (some "pthread_attr_setstacksize failed".toList,w)
        else
          let w := { w with selfRefs := w.selfRefs+1, thread.state := .starting }
          let w := w.called (.create reply.create)
          match reply.create with
          | .failed left =>
            (some "pthread_create failed".toList,{ w with thread.pthread := left })
          | .created id =>
            let w := { w with selfRefs := w.selfRefs-1, thread.pthread := id }
            (none,w.updateName.addLiveThreadId)

/-- Join; `ok` is the answer of `pthread_join`. -/
def join (w : ThreadWorld) (ok : Bool) : ThreadWorld :=
  if !w.thread.detached ∧ w.thread.state ≠ .uninitialized then
    { w.called (.join w.thread.pthread ok) with thread.detached := ok }
  else w

def delete (w : ThreadWorld) (ok : Bool) : ThreadWorld :=
  (if !w.thread.detached then w.join ok else w).removeLiveThreadId

end ThreadWorld

inductive ThreadCall where
  | start (reply : StartReply)
  | join (ok : Bool)

namespace ThreadWorld

def call (w : ThreadWorld) : ThreadCall → ThreadWorld
  | .start reply => (w.start reply).2
  | .join ok => w.join ok

def run : List ThreadCall → ThreadWorld → ThreadWorld
  | [], w => w
  | c :: cs, w => run cs (w.call c)

/-- A Start that throws leaves the thread and keeps no reference to it. -/
def Unharmed (w : ThreadWorld) (reply : StartReply) : Prop :=
  ∀ text, (w.start reply).1 = some text →
    (w.start reply).2.thread = w.thread ∧ (w.start reply).2.selfRefs = w.selfRefs

def StartsUnharmed : List ThreadCall → ThreadWorld → Prop
  | [], _ => True
  | .start reply :: cs, w => w.Unharmed reply ∧ StartsUnharmed cs (w.call (.start reply))
  | .join ok :: cs, w => StartsUnharmed cs (w.call (.join ok))

end ThreadWorld

/-- The calls have created a thread of that id and not joined it since. -/
def Joinable (calls : List PthreadCall) (id : PthreadId) : Prop :=
  ∃ before after, calls = before ++ .create (.created id) :: after ∧ .join id true ∉ after

def JoinsCreated (calls : List PthreadCall) : Prop :=
  ∀ before id ok after, calls = before ++ .join id ok :: after → Joinable before id

/-- What is to hold of a thread over its calls and its end. -/
structure ThreadSafe (w : ThreadWorld) (cs : List ThreadCall) (last : Bool) : Prop where
  starts : w.StartsUnharmed cs
  joins : JoinsCreated ((w.run cs).delete last).calls

namespace StartReply

def AttrsOk (reply : StartReply) : Prop :=
  reply.attrInit = true ∧ reply.attrSetDetachState = true ∧ reply.attrSetStackSize = true

instance (reply : StartReply) : Decidable reply.AttrsOk := inferInstanceAs (Decidable (_ ∧ _))

end StartReply

/-- The replies to the first Start whose attribute calls succeed. -/
def firstAttempt : List ThreadCall → Option StartReply
  | [] => none
  | .start reply :: cs => if reply.AttrsOk then some reply else firstAttempt cs
  | .join _ :: cs => firstAttempt cs

section calls
variable {calls more : List PthreadCall} {id : PthreadId}

theorem Joinable.append (h : Joinable calls id) (hmore : .join id true ∉ more) :
    Joinable (calls ++ more) id := by
  obtain ⟨before,after,rfl,hafter⟩ := h
  refine ⟨before,after ++ more,by simp,?_⟩
  rw [List.mem_append]
  exact fun hmem => hmem.elim hafter hmore

theorem JoinsCreated.append (h : JoinsCreated calls)
    (hmore : ∀ before id ok after, more = before ++ .join id ok :: after →
      Joinable (calls ++ before) id) : JoinsCreated (calls ++ more) := by
  intro before id ok after heq
  rcases List.append_eq_append_iff.mp heq with ⟨rest,rfl,hrest⟩ | ⟨rest,rfl,hrest⟩
  · exact hmore rest id ok after hrest
  · cases rest with
    | nil => simpa using hmore [] id ok after hrest.symm
    | cons c rest =>
      obtain ⟨rfl,rfl⟩ := List.cons.inj hrest
      exact h before id ok rest rfl

theorem JoinsCreated.append_others (h : JoinsCreated calls)
    (hmore : ∀ id ok, .join id ok ∉ more) : JoinsCreated (calls ++ more) := by
  refine h.append fun before id ok after heq => absurd ?_ (hmore id ok)
  rw [heq]
  exact List.mem_append_right _ List.mem_cons_self

theorem JoinsCreated.join (h : JoinsCreated calls) (hid : Joinable calls id) (ok : Bool) :
    JoinsCreated (calls ++ [.join id ok]) := by
  refine h.append fun before id' ok' after heq => ?_
  cases before with
  | nil =>
    cases heq
    rwa [List.append_nil]
  | cons c before =>
    have hlength := congrArg List.length heq
    simp at hlength

end calls

namespace ThreadWorld
variable {w : ThreadWorld} {reply : StartReply}

theorem start_started (h : w.thread.state = .starting) : w.start reply = (none,w) := by
  rw [start,if_pos (by rw [h]; decide)]

theorem start_refused (h : w.thread.state = .uninitialized) (hattrs : ¬ reply.AttrsOk) :
    ∃ text more, w.start reply = (some text,{ w with calls := w.calls ++ more }) ∧
      ∀ id ok, .join id ok ∉ more := by
  unfold StartReply.AttrsOk at hattrs
  rw [start,if_neg (by simp [h])]
  cases hinit : reply.attrInit with
  | false => exact ⟨_,[.attrInit false],rfl,by simp⟩
  | true =>
    cases hdetach : reply.attrSetDetachState with
    | false =>
      refine ⟨"pthread_attr_setdetachstate failed".toList,
        [.attrInit true,.attrSetDetachState w.thread.detached false],?_,by simp⟩
      simp [called]
    | true =>
      cases hsize : reply.attrSetStackSize with
      | false =>
        refine ⟨"pthread_attr_setstacksize failed".toList,
          [.attrInit true,.attrSetDetachState w.thread.detached true,
          .attrSetStackSize (PthreadThread.megabyte*w.thread.stackSize) false],?_,by simp⟩
        simp [called]
      | true => exact absurd ⟨hinit,hdetach,hsize⟩ hattrs

theorem start_attempt (h : w.thread.state = .uninitialized) (hattrs : reply.AttrsOk) :
    (∃ left, reply.create = .failed left ∧ (w.start reply).1.isSome ∧
      (w.start reply).2.selfRefs = w.selfRefs+1) ∨
    ∃ id more, reply.create = .created id ∧ (w.start reply).1 = none ∧
      (w.start reply).2.thread = { w.thread with state := .starting, pthread := id } ∧
      (w.start reply).2.calls = w.calls ++ more ∧ Joinable more id ∧
      ∀ id ok, .join id ok ∉ more := by
  obtain ⟨hinit,hdetach,hsize⟩ := hattrs
  unfold start
  rw [if_neg (by simp [h])]
  simp only [hinit,hdetach,hsize,Bool.not_true,Bool.false_eq_true,if_false]
  cases hcreate : reply.create with
  | failed left => exact .inl ⟨left,rfl,rfl,rfl⟩
  | created id =>
    refine .inr ⟨id,_,rfl,rfl,?_,?_,⟨[.attrInit true,.attrSetDetachState w.thread.detached true,
      .attrSetStackSize (PthreadThread.megabyte*w.thread.stackSize) true],
      if id = 0 ∨ w.thread.name = [] then [] else [.setName id w.thread.name],rfl,?_⟩,?_⟩
    · dsimp only [called,updateName]
      split <;> rfl
    · dsimp only [called,updateName]
      split <;> simp [addLiveThreadId]
    · split <;> simp
    · intro id' ok
      split <;> simp

/-- Before `pthread_create` has been called. -/
structure Waiting (w : ThreadWorld) : Prop where
  state : w.thread.state = .uninitialized
  joins : JoinsCreated w.calls

/-- Once it has created a thread. -/
structure Running (w : ThreadWorld) : Prop where
  state : w.thread.state = .starting
  joins : JoinsCreated w.calls
  joinable : w.thread.detached = false → Joinable w.calls w.thread.pthread

theorem Waiting.join (h : w.Waiting) (ok : Bool) : w.join ok = w := by
  rw [ThreadWorld.join,if_neg (by simp [h.state])]

theorem Running.join (h : w.Running) (ok : Bool) : (w.join ok).Running := by
  unfold ThreadWorld.join
  by_cases hdetached : w.thread.detached = true
  · rw [if_neg (by simp [hdetached])]
    exact h
  · have hattached := Bool.eq_false_iff.mpr hdetached
    have hjoinable := h.joinable hattached
    rw [if_pos ⟨by simp [hattached],by rw [h.state]; decide⟩]
    refine ⟨h.state,h.joins.join hjoinable ok,fun hok => ?_⟩
    dsimp only at hok
    subst hok
    exact hjoinable.append (by simp)

theorem Running.call (h : w.Running) (c : ThreadCall) : (w.call c).Running := by
  cases c with
  | start reply =>
    rw [ThreadWorld.call,start_started h.state]
    exact h
  | join ok => exact h.join ok

theorem Running.run (h : w.Running) (cs : List ThreadCall) : (w.run cs).Running := by
  induction cs generalizing w with
  | nil => exact h
  | cons c cs ih => exact ih (h.call c)

theorem Running.startsUnharmed (h : w.Running) (cs : List ThreadCall) : w.StartsUnharmed cs := by
  induction cs generalizing w with
  | nil => trivial
  | cons c cs ih =>
    cases c with
    | start reply =>
      refine ⟨fun text htext => ?_,ih (h.call (.start reply))⟩
      rw [start_started h.state] at htext
      cases htext
    | join ok => exact ih (h.call (.join ok))

theorem Running.threadSafe (h : w.Running) (cs : List ThreadCall) (last : Bool) :
    ThreadSafe w cs last := by
  refine ⟨h.startsUnharmed cs,?_⟩
  have hrun := h.run cs
  unfold delete
  split
  · exact (hrun.join last).joins
  · exact hrun.joins

theorem Waiting.refused (h : w.Waiting) {more : List PthreadCall}
    (hmore : ∀ id ok, .join id ok ∉ more) : Waiting { w with calls := w.calls ++ more } :=
  ⟨h.state,h.joins.append_others hmore⟩

theorem Waiting.threadSafe_iff (h : w.Waiting) (cs : List ThreadCall) (last : Bool) :
    ThreadSafe w cs last ↔
      ∀ reply, firstAttempt cs = some reply → ∃ id, reply.create = .created id := by
  induction cs generalizing w with
  | nil =>
    refine iff_of_true ⟨trivial,?_⟩ fun reply hreply => by cases hreply
    rw [run,delete,h.join]
    simpa [removeLiveThreadId] using h.joins
  | cons c cs ih =>
    cases c with
    | join ok =>
      have hjoin := h.join ok
      rw [firstAttempt,← ih h]
      constructor
      · rintro ⟨hstarts,hjoins⟩
        rw [StartsUnharmed,call,hjoin] at hstarts
        rw [run,call,hjoin] at hjoins
        exact ⟨hstarts,hjoins⟩
      · rintro ⟨hstarts,hjoins⟩
        refine ⟨?_,?_⟩
        · rwa [StartsUnharmed,call,hjoin]
        · rwa [run,call,hjoin]
    | start reply =>
      rw [firstAttempt]
      by_cases hattrs : reply.AttrsOk
      · rw [if_pos hattrs]
        rcases start_attempt h.state hattrs with ⟨left,hfailed,hthrown,hrefs⟩ | hcreated
        · refine iff_of_false (fun hsafe => ?_) fun hall => ?_
          · obtain ⟨text,htext⟩ := Option.isSome_iff_exists.mp hthrown
            have hkept := (hsafe.starts.1 text htext).2
            omega
          · obtain ⟨id,hid⟩ := hall reply rfl
            cases hfailed.symm.trans hid
        · obtain ⟨id,more,hid,hnone,hthread,hcalls,hjoinable,hmore⟩ := hcreated
          refine iff_of_true ?_ fun reply' hreply => by cases hreply; exact ⟨id,hid⟩
          have hrunning : Running (w.call (.start reply)) := by
            refine ⟨by rw [call,hthread],?_,fun _ => ?_⟩
            · rw [call,hcalls]
              exact h.joins.append_others hmore
            · rw [call,hcalls,hthread]
              obtain ⟨before,after,hbefore,hafter⟩ := hjoinable
              exact ⟨w.calls ++ before,after,by rw [hbefore,List.append_assoc],hafter⟩
          have hsafe := hrunning.threadSafe cs last
          refine ⟨⟨fun text htext => ?_,hsafe.starts⟩,hsafe.joins⟩
          rw [hnone] at htext
          cases htext
      · rw [if_neg hattrs]
        obtain ⟨text,more,hstart,hmore⟩ := start_refused h.state hattrs
        have hcall : w.call (.start reply) = { w with calls := w.calls ++ more } := by
          rw [call,hstart]
        have hiff := ih (h.refused hmore)
        rw [← hcall] at hiff
        rw [← hiff]
        constructor
        · exact fun hsafe => ⟨hsafe.starts.2,hsafe.joins⟩
        · refine fun hsafe => ⟨⟨fun text' _ => ?_,hsafe.starts⟩,hsafe.joins⟩
          rw [hstart]
          exact ⟨rfl,rfl⟩

end ThreadWorld

/-- A thread is safe just when the first `pthread_create` it comes to does not fail. -/
theorem thread_safe_iff (stackSize : Int) (detached : Bool) (live : List PthreadId)
    (cs : List ThreadCall) (last : Bool) :
    ThreadSafe (.new stackSize detached live) cs last ↔
      ∀ reply, firstAttempt cs = some reply → ∃ id, reply.create = .created id := by
  refine ThreadWorld.Waiting.threadSafe_iff ⟨rfl,fun before id ok after heq => ?_⟩ cs last
  cases before <;> cases heq

/-- The thread that was not created is taken for started, keeps a reference and is joined. -/
theorem join_without_thread : ∃ w, (ThreadWorld.new 1 false []).start
      ⟨true,true,true,.failed 0⟩ = (some "pthread_create failed".toList,w) ∧
    w.thread.state = .starting ∧ w.selfRefs = 1 ∧
    ∃ calls, (w.join false).calls = calls ++ [.join 0 false] ∧ ¬ Joinable calls 0 := by
  refine ⟨_,rfl,rfl,rfl,_,rfl,?_⟩
  rintro ⟨before,after,hcalls,-⟩
  have hmem : PthreadCall.create (.created 0) ∈ before ++ .create (.created 0) :: after := by simp
  rw [← hcalls] at hmem
  simp [ThreadWorld.new,ThreadWorld.called] at hmem

end MprMq.Threading
