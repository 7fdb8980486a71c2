import MprMq.Threading.Growth
set_option autoImplicit false

/-! How many workers leave for one call of `RemoveWorker`. -/

namespace MprMq.Threading
open MprMq.Lib

namespace Core

theorem Sound.staying_keep {c d : Core} (hs : c.Sound) {w : ThreadId} {p : WorkerPhase}
    (hw : w ∈ c.threads) (ht : d.threads = c.threads) (hp : d.phase = Function.update c.phase w p)
    (hq : (c.phase w).staying = p.staying) : d.staying = c.staying := hs.count_keep hw ht hp hq

theorem staying_le_registered (c : Core) : c.staying ≤ c.registered :=
  population_mono c.threads (fun _ => WorkerPhase.registered_of_staying)

/-- Workers that have all registered: as many stay as before, or one of them leaves. -/
theorem Crewed.staying_step {c d : Core} (hc : c.Crewed) (h : c.Step d)
    (ht : d.threads = c.threads) : d.staying = c.staying ∨
      (d.staying+1 = c.staying ∧
        ∃ w, (c.phase w).staying = true ∧ (d.phase w).staying = false) := by
  have hs := hc.sound
  have hnot : ∀ {w : ThreadId} {p : WorkerPhase}, c.phase w = p → p ≠ .absent →
      p.arrived = true := fun hw hp => hw ▸ hc.arrived _ (hs.mem_of_phase hw hp)
  cases h with
  | signal hsub hn => exact .inl rfl
  | create hn hnew =>
    obtain rfl := List.append_right_eq_self.mp ht
    exact .inl (hs.count_create hnew rfl)
  | begin hw => cases hnot hw (by simp)
  | lower hk => exact .inl rfl
  | register hw hmax hp => cases hnot hw (by simp)
  | late hw hmax => cases hnot hw (by simp)
  | told hw =>
    exact .inl (hs.staying_keep (hs.mem_of_phase hw (by simp)) rfl rfl (by rw [hw]; rfl))
  | park hw hmax =>
    exact .inl (hs.staying_keep (hs.mem_of_atLoop hw) rfl rfl (WorkerPhase.staying_of_atLoop hw))
  | go hw hp =>
    refine .inl (hs.staying_keep (hs.mem_of_atLoop hw) rfl rfl ?_)
    rw [WorkerPhase.staying_of_atLoop hw]
    obtain rfl | ⟨task,rfl⟩ := hp <;> rfl
  | @quit w hw hmax =>
    have hstay := WorkerPhase.staying_of_atLoop hw
    have hcount := hs.count_move (d := (c.awake w).move w (.leaving true))
      (hs.mem_of_atLoop hw) rfl rfl WorkerPhase.staying
    rw [hstay] at hcount
    refine .inr ⟨hcount,w,hstay,?_⟩
    simp [move,WorkerPhase.staying]
  | finish hw =>
    exact .inl (hs.staying_keep (hs.mem_of_phase hw (by simp)) rfl rfl (by rw [hw]; rfl))

theorem Crewed.staying_exited {c : Core} (hc : c.Crewed) {w : ThreadId} {b : Bool}
    (hw : c.phase w = .leaving b) : (c.exited w).staying = c.staying :=
  hc.sound.staying_keep (hc.sound.mem_of_phase hw (by simp)) rfl rfl (by rw [hw]; rfl)

/-- Enough workers stay, and while there are too many no one sleeps. -/
structure Shrinking (c : Core) : Prop where
  crewed : c.Crewed
  room : c.workerMaxCount ≤ c.staying
  awake : c.workerMaxCount < c.staying → c.monitor = []

theorem Shrinking.room_count {c : Core} (hc : c.Shrinking) :
    c.workerMaxCount ≤ c.workerCount := by
  rw [hc.crewed.accurate]
  exact Nat.le_trans hc.room c.staying_le_registered

theorem Shrinking.awake_step {c d : Core} (hc : c.Shrinking) (h : c.Step d)
    (hmax : d.workerMaxCount = c.workerMaxCount) (hstay : d.staying ≤ c.staying) :
    d.workerMaxCount < d.staying → d.monitor = [] := by
  intro hlt
  have hnil : c.monitor = [] := hc.awake (hmax ▸ Nat.lt_of_lt_of_le hlt hstay)
  cases h with
  | signal hsub hn =>
    exact List.eq_nil_iff_forall_not_mem.mpr (fun u hu => by simpa [hnil] using hsub u hu)
  | lower hk => rfl
  | park hw hle =>
    have := hc.crewed.accurate
    have := c.staying_le_registered
    have : c.workerMaxCount < c.staying := hmax ▸ Nat.lt_of_lt_of_le hlt hstay
    unfold Accurate at *
    omega
  | go hw hp => simp [move,Core.awake,hnil,Waiters.leave]
  | quit hw hmax => simp [move,Core.awake,hnil,Waiters.leave]
  | _ => exact hnil

theorem Shrinking.exited {c : Core} (hc : c.Shrinking) {w : ThreadId} {b : Bool}
    (hw : c.phase w = .leaving b) : (c.exited w).Shrinking := by
  have hstay := hc.crewed.staying_exited hw
  refine ⟨hc.crewed.exited hw,?_,fun h => ?_⟩
  · rw [hstay]
    exact hc.room
  · rw [hstay] at h
    exact hc.awake h

/-- Where someone is leaving the count is still above the limit. -/
theorem Shrinking.lt_of_leaving {c : Core} (hc : c.Shrinking) {w : ThreadId} {b : Bool}
    (hw : c.phase w = .leaving b) : c.workerMaxCount < c.workerCount := by
  have hle : c.workerMaxCount ≤ SizeT.dec c.workerCount := (hc.exited hw).room_count
  have := SizeT.dec_add_one (hc.crewed.count_pos hw)
  omega

/-- While the count is above the limit some worker is not asleep. -/
theorem Shrinking.goes_on {c : Core} (hc : c.Shrinking) (h : c.workerMaxCount < c.workerCount) :
    ∃ w, (c.phase w).registered = true ∧ w ∉ c.monitor := by
  have hacc : c.workerCount = c.registered := hc.crewed.accurate
  by_cases hstay : c.workerMaxCount < c.staying
  · obtain ⟨w,-,hw⟩ := population_pos.mp (show 0 < c.registered by omega)
    exact ⟨w,hw,by simp [hc.awake hstay]⟩
  · by_contra hno
    have hsame : c.registered = c.staying := by
      apply population_congr
      intro w hw
      cases hreg : (c.phase w).registered with
      | false =>
        cases hs : (c.phase w).staying with
        | false => rfl
        | true => rw [WorkerPhase.registered_of_staying hs] at hreg; cases hreg
      | true =>
        have hmem : w ∈ c.monitor := by
          by_contra hm
          exact hno ⟨w,hreg,hm⟩
        rw [hc.crewed.sound.parked w hmem]
        rfl
    omega

end Core

def Act.besideRemoval : Act → Bool
  | .addWorker .. | .startThread .. | .mapThread .. | .addWorkerTest .. | .removeWorker ..
  | .stopSection .. | .stopRead .. | .stopRemove .. | .stopLast .. => false
  | _ => true

def Act.onWorkerMonitor : Act → Bool
  | .addWorkerTest .. | .removeWorkerTest .. | .notifyManager .. | .exit .. => true
  | _ => false

namespace ThreadManager

theorem addTest_workerMonitor {s t : ThreadManager} {u : ThreadId} {runnable : RunnableId}
    {timeout expiration created : Int} {woken : Option ThreadId}
    (h : s.addTest u runnable timeout expiration created woken = some t) :
    t.workerMonitor = s.workerMonitor := by
  obtain ⟨-,rfl⟩ | ⟨-,hpush⟩ := addTest_cases h
  · rfl
  · obtain ⟨m,rfl,-⟩ := push_cases hpush
    rfl

theorem workerMonitor_eq {s t : ThreadManager} {a : Act} (hbeside : a.besideRemoval = true)
    (ha : a.onWorkerMonitor = false) (h : s.step a = some t) :
    t.workerMonitor = s.workerMonitor := by
  cases step_to h with
  | addWorkerTest | removeWorkerTest | notifyManager | exit => cases ha
  | addWorker | startThread | mapThread | removeWorker | stopSection | stopRead | stopRemove
  | stopLast => cases hbeside
  | setThreadFactory | setExpireCallback | expiredTaskCount | removeExpiredTasks
  | setPendingTaskCountMax | addTimeout | finish => rfl
  | start _ hstart =>
    obtain ⟨-,rfl⟩ | rfl | rfl := start_cases hstart <;> rfl
  | stop =>
    unfold stop
    split <;> rfl
  | add _ hadd =>
    obtain ⟨-,rfl⟩ | ⟨-,-,rfl⟩ | ⟨-,-,-,rfl⟩ | ⟨-,-,h⟩ := add_cases hadd
    · rfl
    · rfl
    · rfl
    · exact addTest_workerMonitor (s := s.removeExpiredTasks _) h
  | addResume _ htest => exact addTest_workerMonitor htest
  | @removeNextPending u =>
    obtain ⟨-,heq⟩ | ⟨-,heq⟩ | ⟨task,rest,-,heq⟩ := s.removeNextPending_cases u <;> rw [heq] <;> rfl
  | enter =>
    unfold enter
    split <;> rfl
  | take htake =>
    obtain ⟨-,⟨-,rfl⟩ | ⟨-,-,rfl⟩ | ⟨-,-,htask⟩⟩ := take_cases htake
    · rfl
    · rfl
    · obtain ⟨u,m,rfl,⟨-,rfl⟩ | ⟨task,rest,-,rfl⟩,-⟩ := takeTask_cases htask <;> rfl

end ThreadManager
/-- What a call of `RemoveWorker` for `k` of `n` workers has to keep. As many workers as
there are to be stay in their loop, so no more than `k` have left it; while there are more
of them none sleeps; the caller sleeps only while the counts differ, and some worker can go
on then; and it returns with exactly `k` gone. -/
structure RemovesExactly (rem : ThreadId) (k n : Nat) (s : ThreadManager) : Prop where
  limit : s.workerMaxCount+k = n
  remaining : s.workerMaxCount ≤ s.core.staying
  count : s.workerMaxCount ≤ s.workerCount
  awake : s.workerMaxCount < s.core.staying → s.monitor = []
  waits : rem ∈ s.workerMonitor → s.workerCount ≠ s.workerMaxCount ∧
    ∃ w, (s.phase w).registered = true ∧ w ∉ s.monitor
  returned : .returned rem .removeWorker ∈ s.log →
    s.workerCount = s.workerMaxCount ∧ s.core.staying = s.workerMaxCount

/-- A worker that finds too many of them and leaves is one of those that are too many in
their loop. -/
def leavesInTurn (s : ThreadManager) : Act → Bool
  | .take _ _ _ => s.isActive || s.workerMaxCount < s.core.staying
  | _ => true

/-- One thread is in `RemoveWorker`, and no other waits there. -/
structure Removal (rem : ThreadId) (k n : Nat) (s : ThreadManager) : Prop where
  core : s.core.Shrinking
  limit : s.workerMaxCount+k = n
  state : s.state ≠ .stopped
  caller : ∀ u p, p.engaged = true → s.call u = p → u = rem ∧ p = .removing none
  waiters : ∀ u ∈ s.workerMonitor, u = rem
  once : s.workerMonitor.Nodup
  unequal : rem ∈ s.workerMonitor → s.workerCount ≠ s.workerMaxCount
  returned : .returned rem .removeWorker ∈ s.log → s.workerCount = s.workerMaxCount

theorem Removal.removesExactly {rem : ThreadId} {k n : Nat} {s : ThreadManager}
    (hs : Removal rem k n s) : RemovesExactly rem k n s where
  limit := hs.limit
  remaining := hs.core.room
  count := hs.core.room_count
  awake := hs.core.awake
  waits := fun h =>
    ⟨hs.unequal h,hs.core.goes_on (Nat.lt_of_le_of_ne hs.core.room_count (hs.unequal h).symm)⟩
  returned := fun h => by
    have hcount := hs.returned h
    have hacc : s.workerCount = s.core.registered := hs.core.crewed.accurate
    have hle : s.workerMaxCount ≤ s.core.staying := hs.core.room
    have := s.core.staying_le_registered
    exact ⟨hcount,by omega⟩

namespace ThreadManager

theorem crew_beside {s t : ThreadManager} {a : Act} (ha : a.besideRemoval = true)
    (h : s.step a = some t) : CrewFrame s t := by
  by_cases hstop : a.onStop = false
  · refine crew_frame hstop ?_ h
    cases a <;> first | rfl | cases ha
  cases step_to h with
  | removeWorkerTest => exact .of_core (removeWorkerTest_core s _ _)
  | _ => first | exact absurd rfl hstop | cases ha

end ThreadManager

theorem Removal.core_step {rem : ThreadId} {k n : Nat} {s t : ThreadManager} {a : Act}
    (hs : Removal rem k n s) (ha : a.besideRemoval = true) (hc : leavesInTurn s a = true)
    (h : s.step a = some t) : t.core.Shrinking := by
  obtain ⟨-,hstep⟩ | ⟨w,woken,b,-,hw,ht⟩ := ThreadManager.core_cases hs.core.crewed.sound h
  case inr =>
    rw [ht]
    exact hs.core.exited hw
  have hcrew := ThreadManager.crew_beside ha h
  have hmax : t.core.workerMaxCount = s.core.workerMaxCount := hcrew.limit
  have hcrewed := hs.core.crewed.step hstep hcrew.threads
  obtain hsame | ⟨hless,w,hw,hw'⟩ := hs.core.crewed.staying_step hstep hcrew.threads
  · refine ⟨hcrewed,?_,hs.core.awake_step hstep hmax (Nat.le_of_eq hsame)⟩
    rw [hmax,hsame]
    exact hs.core.room
  · refine ⟨hcrewed,?_,hs.core.awake_step hstep hmax (by omega)⟩
    obtain hstay | ⟨hno,now,woken,rfl⟩ := ThreadManager.stays h hw
    · rw [show t.core.phase w = t.phase w from rfl,hstay] at hw'
      cases hw'
    · simp only [leavesInTurn,hno,Bool.false_or,decide_eq_true_eq] at hc
      rw [hmax]
      exact Nat.le_of_lt_succ (Nat.lt_of_lt_of_eq hc hless.symm)

/-- A worker that leaves out of turn leaves too few behind. -/
theorem Removal.out_of_turn {rem : ThreadId} {k n : Nat} {s t : ThreadManager} {a : Act}
    (hs : Removal rem k n s) (hc : leavesInTurn s a = false) (h : s.step a = some t) :
    t.core.staying < t.workerMaxCount := by
  cases a with
  | take w now woken =>
    simp only [leavesInTurn,Bool.or_eq_false_iff,decide_eq_false_iff_not,Nat.not_lt] at hc
    obtain ⟨hw,⟨-,rfl⟩ | ⟨hyes,-⟩ | ⟨hyes,-⟩⟩ := ThreadManager.take_cases h
    · have hcount := hs.core.crewed.sound.count_move
        (d := ((s.awake w).move w (.leaving true)).core) (hs.core.crewed.sound.mem_of_atLoop hw)
        rfl rfl WorkerPhase.staying
      have hstay : (s.core.phase w).staying = true := WorkerPhase.staying_of_atLoop hw
      rw [hstay] at hcount
      have hroom : s.core.count WorkerPhase.staying ≤ s.workerMaxCount := hc.2
      exact Nat.lt_of_lt_of_le (Nat.lt_of_succ_le (Nat.le_of_eq hcount)) hroom
    · rw [hc.1] at hyes
      cases hyes
    · rw [hc.1] at hyes
      cases hyes
  | _ => cases hc

/-- The counts stay equal once they are. -/
theorem Removal.count_step {rem : ThreadId} {k n : Nat} {s t : ThreadManager} {a : Act}
    (hs : Removal rem k n s) (ha : a.besideRemoval = true) (h : s.step a = some t)
    (heq : s.workerCount = s.workerMaxCount) : t.workerCount = t.workerMaxCount := by
  obtain ⟨-,hstep⟩ | ⟨w,woken,b,-,hw,-⟩ := ThreadManager.core_cases hs.core.crewed.sound h
  · have hcount : t.workerCount = s.workerCount := hs.core.crewed.step_count hstep
    rw [hcount,heq,(ThreadManager.crew_beside ha h).limit]
  · exact absurd heq (Nat.ne_of_gt (hs.core.lt_of_leaving hw))

/-- Who may be parked in `worker_monitor_` after a step, and when. -/
structure CallerWaits (rem : ThreadId) (s : ThreadManager) : Prop where
  waiters : ∀ u ∈ s.workerMonitor, u = rem
  once : s.workerMonitor.Nodup
  unequal : rem ∈ s.workerMonitor → s.workerCount ≠ s.workerMaxCount

theorem Removal.waits_step {rem : ThreadId} {k n : Nat} {s t : ThreadManager} {a : Act}
    (hs : Removal rem k n s) (ha : a.besideRemoval = true) (h : s.step a = some t) :
    CallerWaits rem t := by
  have hsame : (∀ w woken, a ≠ .exit w woken) →
      (rem ∈ s.workerMonitor → t.workerCount ≠ t.workerMaxCount) := by
    intro hexit hrem
    have hstep := ThreadManager.step_core hs.core.crewed.sound h hexit
    have hcount : t.workerCount = s.workerCount := hs.core.crewed.step_count hstep
    rw [hcount,(ThreadManager.crew_beside ha h).limit]
    exact hs.unequal hrem
  by_cases hmon : a.onWorkerMonitor = false
  · have heq := ThreadManager.workerMonitor_eq ha hmon h
    refine ⟨heq ▸ hs.waiters,heq ▸ hs.once,fun hrem => hsame ?_ (heq ▸ hrem)⟩
    rintro w woken rfl
    cases hmon
  cases ThreadManager.step_to h with
  | addWorkerTest => cases ha
  | notifyManager _ hm =>
    have hcount := hsame (by simp)
    have hsub := Waiters.notify_subset hm
    exact ⟨fun u hu => hs.waiters u (hsub u hu),Waiters.nodup_notify hm hs.once,
      fun hrem => hcount (hsub rem hrem)⟩
  | @removeWorkerTest u stop hu =>
    obtain ⟨rfl,hstop⟩ := hs.caller u _ rfl hu
    cases hstop
    unfold ThreadManager.removeWorkerTest
    split
    case isTrue hne =>
      refine ⟨fun v hv => ?_,Waiters.nodup_park hs.once u,fun _ => hne⟩
      obtain rfl | hv := Waiters.mem_park.mp hv
      · rfl
      · exact hs.waiters v hv
    case isFalse =>
      have hleave := fun v => Waiters.mem_leave (t := u) (u := v) hs.once
      refine ⟨fun v hv => hs.waiters v ((hleave v).mp hv).2,Waiters.nodup_leave hs.once u,
        fun hrem => absurd rfl ((hleave u).mp hrem).1⟩
  | @exit w b woken _ hw hexit =>
    simp only [ThreadManager.exit] at hexit
    split at hexit
    case isTrue =>
      obtain ⟨m,hm,rfl⟩ := Option.map_eq_some_iff.mp hexit
      have hm' : s.workerMonitor.notify woken = some m := hm
      have hsub := Waiters.notify_subset hm'
      refine ⟨fun u hu => hs.waiters u (hsub u hu),Waiters.nodup_notify hm' hs.once,
        fun hrem => ?_⟩
      obtain ⟨v,hv,hv'⟩ := Waiters.notify_wakes hm' hs.once (List.ne_nil_of_mem (hsub rem hrem))
      rw [hs.waiters v hv] at hv'
      exact absurd hrem hv'
    case isFalse hne =>
      obtain rfl := Option.some.inj hexit
      exact ⟨hs.waiters,hs.once,fun _ => hne⟩
  | _ => exact absurd rfl hmon

theorem Removal.call_step {rem : ThreadId} {k n : Nat} {s t : ThreadManager} {a : Act}
    (hs : Removal rem k n s) (ha : a.besideRemoval = true) (h : s.step a = some t) :
    t.state ≠ .stopped ∧
      (∀ u p, p.engaged = true → t.call u = p → u = rem ∧ p = .removing none) ∧
      (.returned rem .removeWorker ∈ t.log → t.workerCount = t.workerMaxCount) := by
  by_cases hstop : a.onStop = false
  · have hf := ThreadManager.control_frame hstop h
    refine ⟨?_,fun u p hp hu => hs.caller u p hp ((hf.engaged u p hp).mp hu),fun hret => ?_⟩
    · obtain hstate | ⟨-,hstate⟩ := hf.state <;> rw [hstate]
      · exact hs.state
      · simp
    · obtain ⟨es,hlog,hes⟩ := hf.log
      rw [hlog] at hret
      obtain hret | hret := List.mem_append.mp hret
      · exact hs.count_step ha h (hs.returned hret)
      · exact absurd ((hes _ hret).2.1 rfl) hs.state
  cases ThreadManager.step_to h with
  | @removeWorkerTest u stop hu =>
    obtain ⟨rfl,hstop⟩ := hs.caller u _ rfl hu
    cases hstop
    unfold ThreadManager.removeWorkerTest
    split
    case isTrue hne => exact ⟨hs.state,hs.caller,hs.returned⟩
    case isFalse heq =>
      refine ⟨hs.state,fun v p hp hv => ?_,fun _ => not_not.mp heq⟩
      obtain ⟨-,rfl⟩ | ⟨-,hv⟩ := update_cases hv
      · cases hp
      · exact hs.caller v p hp hv
  | _ => first | exact absurd rfl hstop | cases ha

theorem Removal.step {rem : ThreadId} {k n : Nat} {s t : ThreadManager} {a : Act}
    (hs : Removal rem k n s) (ha : a.besideRemoval = true) (h : s.step a = some t) :
    (RemovesExactly rem k n t ↔ leavesInTurn s a = true) ∧
      (leavesInTurn s a = true → Removal rem k n t) := by
  have hkeep : leavesInTurn s a = true → Removal rem k n t := by
    intro hc
    obtain ⟨hwaiters,honce,hunequal⟩ := hs.waits_step ha h
    obtain ⟨hstate,hcaller,hreturned⟩ := hs.call_step ha h
    refine ⟨hs.core_step ha hc h,?_,hstate,hcaller,hwaiters,honce,hunequal,hreturned⟩
    rw [(ThreadManager.crew_beside ha h).limit]
    exact hs.limit
  refine ⟨⟨fun hr => ?_,fun hc => (hkeep hc).removesExactly⟩,hkeep⟩
  by_contra hc
  exact absurd hr.remaining (Nat.not_le.mpr (hs.out_of_turn (by simpa using hc) h))

/-- Where the call of `RemoveWorker` begins: every worker has registered, and no one is in
`AddWorker`. -/
theorem Removal.begin {rem : ThreadId} {k : Nat} {s t : ThreadManager}
    {woken : List (Option ThreadId)} (hg : s.Grown)
    (hall : ∀ w ∈ s.threads, (s.phase w).staying = true) (hidle : s.workerMonitor = [])
    (hk : k ≤ s.workerCount) (h : s.step (.removeWorker rem k woken) = some t) :
    Removal rem k s.workerCount t := by
  have hwhole : s.core.Whole := ⟨hg.core.limit,hall⟩
  have hcount : s.workerCount = s.workerMaxCount :=
    (hwhole.counted hg.core.accurate).trans hg.core.limit.symm
  have hstaying : s.core.staying = s.workerMaxCount :=
    (population_eq_length.mpr hall).trans hg.core.limit.symm
  have hcrewed := hg.core.crewed hall
  obtain ⟨-,h⟩ := Option.ite_none_right_eq_some.mp h
  have hstep := ThreadManager.removeWorker_core hcrewed.sound h
  unfold ThreadManager.removeWorker at h
  split at h
  case isTrue hlt => exact absurd hlt (by omega)
  case isFalse =>
    obtain ⟨m,hm,rfl⟩ := Option.map_eq_some_iff.mp h
    obtain rfl := ThreadManager.wakeForRemoval_nil hcrewed.sound hm
    have hopen : s.state ≠ .stopped := by
      obtain hstate | hstate := hg.state <;> rw [hstate] <;> simp
    refine ⟨⟨hcrewed.step hstep rfl,?_,fun _ => rfl⟩,?_,hopen,fun u p hp hu => ?_,?_,?_,?_,
      fun hret => ?_⟩
    · exact Nat.le_trans (Nat.sub_le _ _) (Nat.le_of_eq hstaying.symm)
    · exact (Nat.sub_add_cancel (hcount ▸ hk)).trans hcount.symm
    · obtain ⟨he,hnew⟩ | ⟨-,hold⟩ := update_cases hu
      · exact ⟨he,hnew.symm⟩
      · have := hg.calls u
        rw [hold,hp] at this
        cases this
    · exact fun u hu => by simp [ThreadManager.goto,hidle] at hu
    · simp [ThreadManager.goto,hidle]
    · exact fun hrem => by simp [ThreadManager.goto,hidle] at hrem
    · cases hg.log _ hret

/-- `n` registered workers, one call of `RemoveWorker` for `k` of them, and any calls of
`Add` and steps of workers: exactly `k` workers leave if and only if each worker that
leaves does so while more workers are in their loop than there are to be. -/
theorem removes_exactly_iff {pre post : List Act} {s : ThreadManager} {rem : ThreadId} {k : Nat}
    {woken : List (Option ThreadId)} (hpre : ∀ a ∈ pre, a.onStop = false)
    (hrun : ThreadManager.system.run pre = some s)
    (hall : ∀ w ∈ s.threads, (s.phase w).staying = true) (hidle : s.workerMonitor = [])
    (hk : k ≤ s.workerCount) (hpost : ∀ a ∈ post, a.besideRemoval = true) :
    ThreadManager.system.AlongFrom (fun _ _ t => RemovesExactly rem k s.workerCount t) s
        (.removeWorker rem k woken :: post) ↔
      ThreadManager.system.AlongFrom (fun s a _ => leavesInTurn s a) s
        (.removeWorker rem k woken :: post) := by
  have hgrown := ThreadManager.grown_of_run hpre hrun
  have hrest : ∀ t, s.step (.removeWorker rem k woken) = some t →
      ((RemovesExactly rem k s.workerCount t ∧ ThreadManager.system.AlongFrom
          (fun _ _ t => RemovesExactly rem k s.workerCount t) t post) ↔
        (leavesInTurn s (.removeWorker rem k woken) = true ∧
          ThreadManager.system.AlongFrom (fun s a _ => leavesInTurn s a) t post)) := by
    intro t h
    have hbegin := Removal.begin hgrown hall hidle hk h
    refine and_congr (iff_of_true hbegin.removesExactly rfl) ?_
    exact System.alongFrom_iff (I := Removal rem k s.workerCount)
      (fun s a t ha hs h => hs.step (hpost a ha) h) hbegin
  exact forall_congr' (fun t => forall_congr' (fun h => hrest t h))

def twoIdle : List Act :=
  [.setThreadFactory true,.start 0,.addWorker 0 [1,2],.startThread 0,.mapThread 0,
    .startThread 0,.mapThread 0,.enter 1,.enter 2,.notifyManager 2 none,.addWorkerTest 0,
    .take 1 0 none,.take 2 0 none]

/-- The first worker has lowered the count before the second one tests it. -/
theorem one_of_two_removed : ThreadManager.system.AlongFrom
    (fun _ _ t => RemovesExactly 3 1 2 t) ((ThreadManager.system.run twoIdle).getD .init)
    [.removeWorker 3 1 [],.take 1 0 none,.exit 1 none,.take 2 0 none,.removeWorkerTest 3] :=
  (removes_exactly_iff (show ∀ a ∈ twoIdle, a.onStop = false by decide) rfl (by decide) rfl
    (by decide) (by decide)).mpr (System.alongFrom_of_check leavesInTurn (by decide))

/-- Both workers are woken for the removal of one, and both test before either has lowered
the count. -/
def bothWoken : List Act := [.removeWorker 3 1 [],.take 1 0 none]

theorem both_leave_for_one :
    ¬ ∀ pre post s rem k woken, (∀ a ∈ pre, a.onStop = false) →
      ThreadManager.system.run pre = some s →
      (∀ w ∈ s.threads, (s.phase w).staying = true) → s.workerMonitor = [] →
      k ≤ s.workerCount → (∀ a ∈ post, a.besideRemoval = true) →
      ThreadManager.system.AlongFrom (fun _ _ t => RemovesExactly rem k s.workerCount t) s
        (.removeWorker rem k woken :: post) := by
  intro h
  have hrem := System.AlongFrom.after bothWoken
    (h twoIdle [.take 1 0 none,.take 2 0 none] _ 3 1 [] (by decide) rfl (by decide) rfl
      (by decide) (by decide)) rfl rfl
  exact absurd hrem.remaining (by decide)

end MprMq.Threading
