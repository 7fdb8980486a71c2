import Mathlib.Logic.Function.Basic
import MprMq.Lib.Run
set_option autoImplicit false

/-! `OnceInit`, one atomic step at a time, for any number of threads and of OnceTypes. -/

namespace MprMq.Base
open Lib

def ONCE_STATE_UNINITIALIZED : Int := 0
def ONCE_STATE_EXECUTING_CLOSURE : Int := 1
def ONCE_STATE_DONE : Int := 2

/-- Where a call is: before the load of OnceInit, before the load, the compare-and-swap and the
closure of OnceInitImpl, in the closure, before the store, and in the loop. -/
inductive OncePc where
  | load
  | implLoad
  | compareAndSwap
  | start
  | closure
  | store
  | yield
  | reload
  deriving DecidableEq

structure OnceCall (ω : Type) where
  once : ω
  pc : OncePc
  deriving DecidableEq

/-- The words, and the calls of each thread, the innermost first. `starts` and `finishes` count
the closures for the proofs. -/
structure OnceState (θ ω : Type) where
  word : ω → Int
  calls : θ → List (OnceCall ω)
  starts : ω → Nat
  finishes : ω → Nat

/-- What a thread does: it calls OnceInit, on its own or out of a closure; it takes the next step
of its innermost call; or the closure of that call returns. -/
inductive OnceAct (ω : Type) where
  | call (once : ω)
  | step
  | finish

namespace OnceState
variable {θ ω : Type}

def init : OnceState θ ω := ⟨fun _ => ONCE_STATE_UNINITIALIZED,fun _ => [],fun _ => 0,fun _ => 0⟩

variable [DecidableEq θ]

def setCalls (s : OnceState θ ω) (t : θ) (calls : List (OnceCall ω)) : OnceState θ ω :=
  { s with calls := Function.update s.calls t calls }

@[simp] theorem setCalls_calls (s : OnceState θ ω) (t : θ) (calls : List (OnceCall ω)) :
    (s.setCalls t calls).calls = Function.update s.calls t calls := rfl

variable [DecidableEq ω]

def setWord (s : OnceState θ ω) (once : ω) (word : Int) : OnceState θ ω :=
  { s with word := Function.update s.word once word }

/-- One step of a thread's innermost call, with the calls around it. -/
def callStep (s : OnceState θ ω) (t : θ) (once : ω) (rest : List (OnceCall ω)) :
    OncePc → Option (OnceState θ ω)
  | .load =>
    if s.word once ≠ ONCE_STATE_DONE then some (s.setCalls t (⟨once,.implLoad⟩ :: rest))
    else some (s.setCalls t rest)
  | .implLoad =>
    if s.word once = ONCE_STATE_DONE then some (s.setCalls t rest)
    else some (s.setCalls t (⟨once,.compareAndSwap⟩ :: rest))
  | .compareAndSwap =>
    if s.word once = ONCE_STATE_UNINITIALIZED then
      some ((s.setWord once ONCE_STATE_EXECUTING_CLOSURE).setCalls t (⟨once,.start⟩ :: rest))
    else if s.word once = ONCE_STATE_EXECUTING_CLOSURE then
      some (s.setCalls t (⟨once,.yield⟩ :: rest))
    else some (s.setCalls t rest)
  | .start =>
    some { s.setCalls t (⟨once,.closure⟩ :: rest) with
      starts := Function.update s.starts once (s.starts once+1) }
  | .closure => none
  | .store => some ((s.setWord once ONCE_STATE_DONE).setCalls t rest)
  | .yield => some (s.setCalls t (⟨once,.reload⟩ :: rest))
  | .reload =>
    if s.word once = ONCE_STATE_EXECUTING_CLOSURE then
      some (s.setCalls t (⟨once,.yield⟩ :: rest))
    else some (s.setCalls t rest)

def canCall (calls : List (OnceCall ω)) : Bool :=
  match calls with
  | [] => true
  | call :: _ => call.pc = .closure

def step (s : OnceState θ ω) : θ × OnceAct ω → Option (OnceState θ ω)
  | (t,.call once) =>
    if canCall (s.calls t) then some (s.setCalls t (⟨once,.load⟩ :: s.calls t)) else none
  | (t,.step) =>
    match s.calls t with
    | [] => none
    | ⟨once,pc⟩ :: rest => s.callStep t once rest pc
  | (t,.finish) =>
    match s.calls t with
    | ⟨once,.closure⟩ :: rest => some { s.setCalls t (⟨once,.store⟩ :: rest) with
        finishes := Function.update s.finishes once (s.finishes once+1) }
    | _ => none

end OnceState

def onceSystem (θ ω : Type) [DecidableEq θ] [DecidableEq ω] :
    System (OnceState θ ω) (θ × OnceAct ω) :=
  ⟨OnceState.init,OnceState.step⟩

def OnceReturns {θ ω : Type} (s : OnceState θ ω) (t : θ) (once : ω) (s' : OnceState θ ω) : Prop :=
  ∃ pc, s.calls t = ⟨once,pc⟩ :: s'.calls t

def WordMoves (word word' : Int) : Prop :=
  word' = word ∨ (word = ONCE_STATE_UNINITIALIZED ∧ word' = ONCE_STATE_EXECUTING_CLOSURE) ∨
    (word = ONCE_STATE_EXECUTING_CLOSURE ∧ word' = ONCE_STATE_DONE)

/-- The life of one OnceType, with the thread that runs its closure. -/
inductive OncePhase (θ : Type) where
  | idle
  | claimed (t : θ)
  | running (t : θ)
  | finished (t : θ)
  | done

namespace OncePhase
variable {θ ω : Type}

def word : OncePhase θ → Int
  | .idle => ONCE_STATE_UNINITIALIZED
  | .claimed _ | .running _ | .finished _ => ONCE_STATE_EXECUTING_CLOSURE
  | .done => ONCE_STATE_DONE

def starts : OncePhase θ → Nat
  | .idle | .claimed _ => 0
  | .running _ | .finished _ | .done => 1

def finishes : OncePhase θ → Nat
  | .idle | .claimed _ | .running _ => 0
  | .finished _ | .done => 1

/-- The thread that has the closure to run, and where it is. -/
def owner : OncePhase θ → Option (θ × OncePc)
  | .idle | .done => none
  | .claimed t => some (t,.start)
  | .running t => some (t,.closure)
  | .finished t => some (t,.store)

def owned [DecidableEq θ] (φ : OncePhase θ) (once : ω) (t : θ) : List (OnceCall ω) :=
  match φ.owner with
  | some (t',pc) => if t = t' then [⟨once,pc⟩] else []
  | none => []

theorem owned_self [DecidableEq θ] {φ : OncePhase θ} {t : θ} {pc : OncePc}
    (h : φ.owner = some (t,pc)) (once : ω) (t' : θ) :
    φ.owned once t' = if t' = t then [⟨once,pc⟩] else [] := by
  rw [owned,h]

theorem owned_none [DecidableEq θ] {φ : OncePhase θ} (h : φ.owner = none) (once : ω) (t : θ) :
    φ.owned once t = [] := by
  rw [owned,h]

theorem eq_claimed {φ : OncePhase θ} {t : θ} (h : φ.owner = some (t,.start)) :
    φ = .claimed t := by
  cases φ <;> cases h
  rfl

theorem eq_running {φ : OncePhase θ} {t : θ} (h : φ.owner = some (t,.closure)) :
    φ = .running t := by
  cases φ <;> cases h
  rfl

theorem eq_finished {φ : OncePhase θ} {t : θ} (h : φ.owner = some (t,.store)) :
    φ = .finished t := by
  cases φ <;> cases h
  rfl

inductive Next : OncePhase θ → OncePhase θ → Prop where
  | claim (t : θ) : Next .idle (.claimed t)
  | start (t : θ) : Next (.claimed t) (.running t)
  | finish (t : θ) : Next (.running t) (.finished t)
  | store (t : θ) : Next (.finished t) .done

theorem starts_le (φ : OncePhase θ) : φ.starts ≤ 1 := by cases φ <;> simp [starts]

theorem Next.word_moves {φ φ' : OncePhase θ} (h : Next φ φ') : WordMoves φ.word φ'.word := by
  cases h with
  | claim t => exact .inr (.inl ⟨rfl,rfl⟩)
  | start t => exact .inl rfl
  | finish t => exact .inl rfl
  | store t => exact .inr (.inr ⟨rfl,rfl⟩)

end OncePhase

def OncePc.owns : OncePc → Bool
  | .start | .closure | .store => true
  | _ => false

def OncePc.waits : OncePc → Bool
  | .yield | .reload => true
  | _ => false

section phases
variable {θ ω : Type} [DecidableEq θ] [DecidableEq ω]

def owners (once : ω) (calls : List (OnceCall ω)) : List (OnceCall ω) :=
  calls.filter fun call => call.once = once && call.pc.owns

/-- A OnceType is in a phase: the word and the counts are the phase's, nobody but its owner has
anything left to do for the closure, and nobody waits before it has been claimed. -/
structure InPhase (s : OnceState θ ω) (once : ω) (φ : OncePhase θ) : Prop where
  word : s.word once = φ.word
  starts : s.starts once = φ.starts
  finishes : s.finishes once = φ.finishes
  owned : ∀ t, owners once (s.calls t) = φ.owned once t
  waits : φ = .idle → ∀ t, ∀ call ∈ s.calls t, call.once = once → call.pc.waits = false

inductive OnceEffect (s : OnceState θ ω) (t : θ) : OnceState θ ω → Prop where
  | call (once : ω) : OnceEffect s t (s.setCalls t (⟨once,.load⟩ :: s.calls t))
  | move (once : ω) (pc pc' : OncePc) (rest : List (OnceCall ω)) :
    s.calls t = ⟨once,pc⟩ :: rest → pc.owns = false → pc'.owns = false →
    (pc'.waits = true → pc.waits = true ∨ s.word once = ONCE_STATE_EXECUTING_CLOSURE) →
    OnceEffect s t (s.setCalls t (⟨once,pc'⟩ :: rest))
  | leave (once : ω) (pc : OncePc) (rest : List (OnceCall ω)) :
    s.calls t = ⟨once,pc⟩ :: rest → pc.owns = false →
    s.word once ≠ ONCE_STATE_EXECUTING_CLOSURE →
    (s.word once = ONCE_STATE_UNINITIALIZED → pc.waits = true) →
    OnceEffect s t (s.setCalls t rest)
  | claim (once : ω) (rest : List (OnceCall ω)) : s.calls t = ⟨once,.compareAndSwap⟩ :: rest →
    s.word once = ONCE_STATE_UNINITIALIZED →
    OnceEffect s t
      ((s.setWord once ONCE_STATE_EXECUTING_CLOSURE).setCalls t (⟨once,.start⟩ :: rest))
  | start (once : ω) (rest : List (OnceCall ω)) : s.calls t = ⟨once,.start⟩ :: rest →
    OnceEffect s t { s.setCalls t (⟨once,.closure⟩ :: rest) with
      starts := Function.update s.starts once (s.starts once+1) }
  | finish (once : ω) (rest : List (OnceCall ω)) : s.calls t = ⟨once,.closure⟩ :: rest →
    OnceEffect s t { s.setCalls t (⟨once,.store⟩ :: rest) with
      finishes := Function.update s.finishes once (s.finishes once+1) }
  | store (once : ω) (rest : List (OnceCall ω)) : s.calls t = ⟨once,.store⟩ :: rest →
    OnceEffect s t ((s.setWord once ONCE_STATE_DONE).setCalls t rest)

theorem callStep_effect {s s' : OnceState θ ω} {t : θ} {once : ω} {pc : OncePc}
    {rest : List (OnceCall ω)} (hcalls : s.calls t = ⟨once,pc⟩ :: rest)
    (h : s.callStep t once rest pc = some s') : OnceEffect s t s' := by
  have hne : ONCE_STATE_DONE ≠ ONCE_STATE_EXECUTING_CLOSURE := by decide
  have hne' : ONCE_STATE_DONE ≠ ONCE_STATE_UNINITIALIZED := by decide
  unfold OnceState.callStep at h
  cases pc with
  | load =>
    dsimp only at h
    split at h
    · cases h
      exact .move once .load .implLoad rest hcalls rfl rfl (by simp [OncePc.waits])
    · rename_i hdone
      rw [not_not] at hdone
      cases h
      exact .leave once .load rest hcalls rfl (by rw [hdone]; decide) (by rw [hdone]; decide)
  | implLoad =>
    dsimp only at h
    split at h
    · rename_i hdone
      cases h
      exact .leave once .implLoad rest hcalls rfl (by rw [hdone]; decide) (by rw [hdone]; decide)
    · cases h
      exact .move once .implLoad .compareAndSwap rest hcalls rfl rfl (by simp [OncePc.waits])
  | compareAndSwap =>
    dsimp only at h
    split at h
    · cases h
      exact .claim once rest hcalls ‹_›
    rename_i hclaimed
    split at h
    · rename_i hexecuting
      cases h
      exact .move once .compareAndSwap .yield rest hcalls rfl rfl fun _ => .inr hexecuting
    · cases h
      exact .leave once .compareAndSwap rest hcalls rfl ‹_› fun hidle => absurd hidle hclaimed
  | start =>
    cases h
    exact .start once rest hcalls
  | closure => cases h
  | store =>
    cases h
    exact .store once rest hcalls
  | yield =>
    cases h
    exact .move once .yield .reload rest hcalls rfl rfl fun _ => .inl rfl
  | reload =>
    dsimp only at h
    split at h
    · cases h
      exact .move once .reload .yield rest hcalls rfl rfl fun _ => .inl rfl
    · cases h
      exact .leave once .reload rest hcalls rfl ‹_› fun _ => rfl

theorem step_effect {s s' : OnceState θ ω} {a : θ × OnceAct ω} (h : s.step a = some s') :
    OnceEffect s a.1 s' := by
  obtain ⟨t,act⟩ := a
  cases act with
  | call once =>
    simp only [OnceState.step] at h
    split at h
    · cases h
      exact .call once
    · cases h
  | step =>
    simp only [OnceState.step] at h
    split at h
    · cases h
    · exact callStep_effect ‹_› h
  | finish =>
    simp only [OnceState.step] at h
    split at h
    · cases h
      exact .finish _ _ ‹_›
    · cases h

@[simp] theorem owners_cons (once : ω) (call : OnceCall ω) (calls : List (OnceCall ω)) :
    owners once (call :: calls) =
      if call.once = once ∧ call.pc.owns = true then call :: owners once calls
      else owners once calls := by
  simp [owners,List.filter_cons]

namespace InPhase
variable {s : OnceState θ ω} {once : ω} {φ : OncePhase θ} {t : θ}

theorem change (h : InPhase s once φ) {s' : OnceState θ ω} {calls : List (OnceCall ω)}
    (hcalls : s'.calls = Function.update s.calls t calls)
    (hsame : s'.word once = s.word once ∧ s'.starts once = s.starts once ∧
      s'.finishes once = s.finishes once)
    (howners : owners once calls = owners once (s.calls t))
    (hwaits : φ = .idle → ∀ call ∈ calls, call.once = once → call.pc.waits = false) :
    InPhase s' once φ := by
  refine ⟨hsame.1.trans h.word,hsame.2.1.trans h.starts,hsame.2.2.trans h.finishes,
    fun t' => ?_,fun hidle t' call hcall => ?_⟩
  · rw [← h.owned t',hcalls]
    by_cases ht : t' = t
    · subst ht
      rw [Function.update_self,howners]
    · rw [Function.update_of_ne ht]
  · rw [hcalls] at hcall
    by_cases ht : t' = t
    · subst ht
      rw [Function.update_self] at hcall
      exact hwaits hidle call hcall
    · rw [Function.update_of_ne ht] at hcall
      exact h.waits hidle t' call hcall

theorem owner (h : InPhase s once φ) {pc : OncePc} {rest : List (OnceCall ω)}
    (hcalls : s.calls t = ⟨once,pc⟩ :: rest) (hpc : pc.owns = true) :
    φ.owner = some (t,pc) ∧ owners once rest = [] := by
  have howned := h.owned t
  rw [hcalls,owners_cons,if_pos ⟨rfl,hpc⟩,OncePhase.owned] at howned
  split at howned
  · rename_i t' pc' howner
    split at howned
    · rename_i ht
      obtain ⟨hhead,hrest⟩ := List.cons.inj howned
      cases ht
      cases hhead
      exact ⟨howner,hrest⟩
    · cases howned
  · cases howned

theorem advance (h : InPhase s once φ) {φ' : OncePhase θ} {pc' : OncePc}
    {rest : List (OnceCall ω)} {s' : OnceState θ ω}
    (hcalls : s'.calls = Function.update s.calls t (⟨once,pc'⟩ :: rest))
    (hpc : pc'.owns = true) (hrest : owners once rest = [])
    (hothers : ∀ t', t' ≠ t → φ.owned once t' = []) (howner : φ'.owner = some (t,pc'))
    (hword : s'.word once = φ'.word) (hstarts : s'.starts once = φ'.starts)
    (hfinishes : s'.finishes once = φ'.finishes) (hclaimed : φ' ≠ .idle) :
    InPhase s' once φ' := by
  refine ⟨hword,hstarts,hfinishes,fun t' => ?_,fun hidle => absurd hidle hclaimed⟩
  rw [hcalls,OncePhase.owned_self howner]
  by_cases ht : t' = t
  · subst ht
    rw [Function.update_self,owners_cons,if_pos ⟨rfl,hpc⟩,hrest,if_pos rfl]
  · rw [Function.update_of_ne ht,h.owned,hothers t' ht,if_neg ht]

theorem idle_of_word (h : InPhase s once φ) (hword : s.word once = ONCE_STATE_UNINITIALIZED) :
    φ = .idle := by
  have hne : ONCE_STATE_EXECUTING_CLOSURE ≠ ONCE_STATE_UNINITIALIZED := by decide
  have hne' : ONCE_STATE_DONE ≠ ONCE_STATE_UNINITIALIZED := by decide
  rw [h.word] at hword
  cases φ with
  | idle => rfl
  | claimed t => exact absurd hword hne
  | running t => exact absurd hword hne
  | finished t => exact absurd hword hne
  | done => exact absurd hword hne'

theorem waits_tail (h : InPhase s once φ) {call : OnceCall ω} {rest : List (OnceCall ω)}
    (hcalls : s.calls t = call :: rest) (hidle : φ = .idle) :
    ∀ c ∈ rest, c.once = once → c.pc.waits = false := fun c hc =>
  h.waits hidle t c (by rw [hcalls]; exact List.mem_cons_of_mem call hc)

theorem away (h : InPhase s once φ) {once' : ω} (hne : once' ≠ once) {pc : OncePc}
    {rest calls : List (OnceCall ω)} (hcalls : s.calls t = ⟨once',pc⟩ :: rest)
    (hnew : calls = rest ∨ ∃ pc', calls = ⟨once',pc'⟩ :: rest) {s' : OnceState θ ω}
    (hcalls' : s'.calls = Function.update s.calls t calls)
    (hsame : s'.word once = s.word once ∧ s'.starts once = s.starts once ∧
      s'.finishes once = s.finishes once) : InPhase s' once φ := by
  refine h.change hcalls' hsame ?_ fun hidle c hc honce => ?_
  · rcases hnew with rfl | ⟨pc',rfl⟩ <;> simp [hcalls,hne]
  · refine h.waits_tail hcalls hidle c ?_ honce
    rcases hnew with rfl | ⟨pc',rfl⟩
    · exact hc
    · rcases List.mem_cons.mp hc with rfl | hc
      · exact absurd honce hne
      · exact hc

theorem proceed (h : InPhase s once φ) {φ' : OncePhase θ} {pc pc' : OncePc}
    {rest : List (OnceCall ω)} {s' : OnceState θ ω} (hold : s.calls t = ⟨once,pc⟩ :: rest)
    (hpc : pc.owns = true) (hcalls : s'.calls = Function.update s.calls t (⟨once,pc'⟩ :: rest))
    (hpc' : pc'.owns = true) (howner : φ'.owner = some (t,pc'))
    (hword : s'.word once = φ'.word) (hstarts : s'.starts once = φ'.starts)
    (hfinishes : s'.finishes once = φ'.finishes) (hclaimed : φ' ≠ .idle) :
    InPhase s' once φ' := by
  obtain ⟨hφ,hrest⟩ := h.owner hold hpc
  refine h.advance hcalls hpc' hrest (fun t' ht => ?_) howner hword hstarts hfinishes hclaimed
  rw [OncePhase.owned_self hφ,if_neg ht]

theorem step (h : InPhase s once φ) {s' : OnceState θ ω} (he : OnceEffect s t s') :
    ∃ φ', InPhase s' once φ' ∧ (φ' = φ ∨ OncePhase.Next φ φ') := by
  cases he with
  | call once' =>
    refine ⟨φ,h.change rfl ⟨rfl,rfl,rfl⟩ (by simp [OncePc.owns]) fun hidle c hc honce => ?_,
      .inl rfl⟩
    rcases List.mem_cons.mp hc with rfl | hc
    · rfl
    · exact h.waits hidle t c hc honce
  | move once' pc pc' rest hcalls hpc hpc' hwaits =>
    refine ⟨φ,h.change rfl ⟨rfl,rfl,rfl⟩ (by simp [hcalls,hpc,hpc']) fun hidle c hc honce => ?_,
      .inl rfl⟩
    rcases List.mem_cons.mp hc with rfl | hc
    · have hold := h.waits hidle t ⟨once',pc⟩ (by rw [hcalls]; exact List.mem_cons_self) honce
      have hne : ONCE_STATE_EXECUTING_CLOSURE ≠ ONCE_STATE_UNINITIALIZED := by decide
      rw [Bool.eq_false_iff]
      intro hnew
      rcases hwaits hnew with hwait | hword
      · exact absurd (hold.symm.trans hwait) (by decide)
      · have hidleWord := h.word
        rw [hidle,← honce,hword] at hidleWord
        exact hne hidleWord
    · exact h.waits_tail hcalls hidle c hc honce
  | leave once' pc rest hcalls hpc hword hwaits =>
    exact ⟨φ,h.change rfl ⟨rfl,rfl,rfl⟩ (by simp [hcalls,hpc]) fun hidle =>
      h.waits_tail hcalls hidle,.inl rfl⟩
  | claim once' rest hcalls hword =>
    by_cases honce : once' = once
    · subst honce
      obtain rfl := h.idle_of_word hword
      have hrest : owners once' rest = [] := by
        have howned := h.owned t
        rwa [hcalls,owners_cons,if_neg (by simp [OncePc.owns])] at howned
      refine ⟨.claimed t,h.advance rfl rfl hrest (fun _ _ => rfl) rfl ?_ h.starts h.finishes ?_,
        .inr (.claim t)⟩
      · exact Function.update_self once' _ s.word
      · simp
    · refine ⟨φ,h.away honce hcalls (.inr ⟨.start,rfl⟩) rfl ⟨?_,rfl,rfl⟩,.inl rfl⟩
      exact Function.update_of_ne (Ne.symm honce) _ s.word
  | start once' rest hcalls =>
    by_cases honce : once' = once
    · subst honce
      obtain rfl := OncePhase.eq_claimed (h.owner hcalls rfl).1
      refine ⟨.running t,h.proceed hcalls rfl rfl rfl rfl h.word ?_ h.finishes (by simp),
        .inr (.start t)⟩
      dsimp only
      rw [Function.update_self,h.starts]
      rfl
    · refine ⟨φ,h.away honce hcalls (.inr ⟨.closure,rfl⟩) rfl ⟨rfl,?_,rfl⟩,.inl rfl⟩
      exact Function.update_of_ne (Ne.symm honce) _ s.starts
  | finish once' rest hcalls =>
    by_cases honce : once' = once
    · subst honce
      obtain rfl := OncePhase.eq_running (h.owner hcalls rfl).1
      refine ⟨.finished t,h.proceed hcalls rfl rfl rfl rfl h.word h.starts ?_ (by simp),
        .inr (.finish t)⟩
      dsimp only
      rw [Function.update_self,h.finishes]
      rfl
    · refine ⟨φ,h.away honce hcalls (.inr ⟨.store,rfl⟩) rfl ⟨rfl,rfl,?_⟩,.inl rfl⟩
      exact Function.update_of_ne (Ne.symm honce) _ s.finishes
  | store once' rest hcalls =>
    by_cases honce : once' = once
    · subst honce
      obtain ⟨hφ,hrest⟩ := h.owner hcalls rfl
      obtain rfl := OncePhase.eq_finished hφ
      refine ⟨.done,⟨Function.update_self once' _ s.word,h.starts,h.finishes,fun t' => ?_,
        fun hidle => by cases hidle⟩,.inr (.store t)⟩
      rw [OncePhase.owned_none rfl,OnceState.setCalls_calls]
      by_cases ht : t' = t
      · rw [ht,Function.update_self,hrest]
      · rw [Function.update_of_ne ht]
        exact (h.owned t').trans (if_neg ht)
    · refine ⟨φ,h.away honce hcalls (.inl rfl) rfl ⟨?_,rfl,rfl⟩,.inl rfl⟩
      exact Function.update_of_ne (Ne.symm honce) _ s.word

theorem leave_done (h : InPhase s once φ) {pc : OncePc} {rest : List (OnceCall ω)}
    (hcalls : s.calls t = ⟨once,pc⟩ :: rest) (hword : s.word once ≠ ONCE_STATE_EXECUTING_CLOSURE)
    (hwaits : s.word once = ONCE_STATE_UNINITIALIZED → pc.waits = true) : φ = .done := by
  rw [h.word] at hword hwaits
  cases φ with
  | idle =>
    have hwait := h.waits rfl t ⟨once,pc⟩ (by rw [hcalls]; exact List.mem_cons_self) rfl
    exact absurd (hwait.symm.trans (hwaits rfl)) (by decide)
  | claimed t' => exact absurd rfl hword
  | running t' => exact absurd rfl hword
  | finished t' => exact absurd rfl hword
  | done => rfl

/-- No call returns before the closure has finished. -/
theorem returns (h : InPhase s once φ) {s' : OnceState θ ω} (he : OnceEffect s t s') {t' : θ}
    (hreturn : OnceReturns s t' once s') : 0 < s'.finishes once := by
  obtain ⟨pc₀,hreturn⟩ := hreturn
  have hlength := congrArg List.length hreturn
  have hself : t' = t := by
    by_contra ht
    have hcalls' : s'.calls t' = s.calls t' := by
      cases he <;> exact Function.update_of_ne ht _ _
    rw [hcalls',List.length_cons] at hlength
    omega
  subst hself
  cases he with
  | call once' =>
    simp only [OnceState.setCalls_calls,Function.update_self,List.length_cons] at hlength
    omega
  | move once' pc pc' rest hcalls => simp [hcalls] at hlength
  | claim once' rest hcalls => simp [hcalls] at hlength
  | start once' rest hcalls => simp [hcalls] at hlength
  | finish once' rest hcalls => simp [hcalls] at hlength
  | leave once' pc rest hcalls hpc hword hwaits =>
    rw [hcalls] at hreturn
    cases (List.cons.inj hreturn).1
    obtain rfl := h.leave_done hcalls hword hwaits
    exact Nat.lt_of_lt_of_eq Nat.one_pos h.finishes.symm
  | store once' rest hcalls =>
    rw [hcalls] at hreturn
    cases (List.cons.inj hreturn).1
    obtain rfl := OncePhase.eq_finished (h.owner hcalls rfl).1
    exact Nat.lt_of_lt_of_eq Nat.one_pos h.finishes.symm

end InPhase

theorem once_phases :
    (onceSystem θ ω).Inductive fun s => ∀ once, ∃ φ, InPhase s once φ where
  init := fun once => ⟨.idle,rfl,rfl,rfl,fun _ => rfl,fun _ _ _ hcall => by cases hcall⟩
  step := by
    intro s a s' hs hstep once
    obtain ⟨φ,hφ⟩ := hs once
    obtain ⟨φ',hφ',-⟩ := hφ.step (step_effect hstep)
    exact ⟨φ',hφ'⟩

/-- In every interleaving each closure is started at most once, no call returns before it has
finished, and the state word only moves on. -/
theorem once_init_once (run : List (θ × OnceAct ω)) :
    (onceSystem θ ω).Always (fun s => ∀ once, s.starts once ≤ 1) run ∧
    (onceSystem θ ω).Along (fun s _ s' => ∀ once,
      (∀ t, OnceReturns s t once s' → 0 < s'.finishes once) ∧
      WordMoves (s.word once) (s'.word once)) run := by
  constructor
  · refine once_phases.always (fun s hs once => ?_) run
    obtain ⟨φ,hφ⟩ := hs once
    rw [hφ.starts]
    exact φ.starts_le
  · refine once_phases.along (fun s a s' hs hstep once => ?_) run
    obtain ⟨φ,hφ⟩ := hs once
    have heffect := step_effect hstep
    refine ⟨fun t => hφ.returns heffect,?_⟩
    obtain ⟨φ',hφ',hnext⟩ := hφ.step heffect
    rw [hφ.word,hφ'.word]
    rcases hnext with rfl | hnext
    · exact .inl rfl
    · exact hnext.word_moves

end phases

example : ((onceSystem Bool Unit).run [(true,.call ()),(false,.call ()),(true,.step),(true,.step),
    (false,.step),(false,.step),(true,.step),(true,.step),(false,.step),(true,.finish),
    (false,.step),(true,.step),(false,.step)]).map
      (fun s => (s.word (),s.calls true,s.calls false,s.starts (),s.finishes ())) =
    some (ONCE_STATE_DONE,[],[],1,1) := by decide

end MprMq.Base
