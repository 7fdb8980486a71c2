import MprMq.Threading.ControlFrame
import MprMq.Threading.WorkerCount
set_option autoImplicit false

/-! The manager while no worker is removed and nothing stops, and its workers once they
have all registered. -/

namespace MprMq.Threading
open MprMq.Lib

namespace WorkerPhase

def rising : WorkerPhase → Bool
  | .created | .entering | .notifying | .looping | .waiting | .executing _ => true
  | _ => false

def arrived : WorkerPhase → Bool
  | .notifying | .looping | .waiting | .executing _ | .leaving true | .finished => true
  | _ => false

theorem arrived_of_staying {p : WorkerPhase} (h : p.staying = true) : p.arrived = true := by
  cases p <;> simp_all [staying,arrived]

end WorkerPhase

namespace Core

/-- Every thread is there to stay, and `worker_max_count_` counts them all. -/
structure Growing (c : Core) : Prop where
  sound : c.Sound
  accurate : c.Accurate
  limit : c.workerMaxCount = c.threads.length
  rising : ∀ w ∈ c.threads, (c.phase w).rising = true

structure Crewed (c : Core) : Prop where
  sound : c.Sound
  accurate : c.Accurate
  arrived : ∀ w ∈ c.threads, (c.phase w).arrived = true

/-- Every thread works and is meant to. -/
structure Whole (c : Core) : Prop where
  limit : c.workerMaxCount = c.threads.length
  staying : ∀ w ∈ c.threads, (c.phase w).staying = true

theorem Growing.count_le {c : Core} (hg : c.Growing) : c.workerCount ≤ c.workerMaxCount := by
  rw [hg.limit,hg.accurate]
  exact population_le_length _ _ _

/-- A thread that has still to register finds a place. -/
theorem Growing.count_lt {c : Core} (hg : c.Growing) {w : ThreadId} (hw : w ∈ c.threads)
    (hr : (c.phase w).registered = false) : c.workerCount < c.workerMaxCount := by
  refine Nat.lt_of_le_of_ne hg.count_le (fun heq => ?_)
  rw [hg.limit,hg.accurate] at heq
  have := population_eq_length.mp heq w hw
  rw [hr] at this
  cases this

theorem Growing.not_leaving {c : Core} (hg : c.Growing) {w : ThreadId} {b : Bool} :
    c.phase w ≠ .leaving b := by
  intro hw
  have := hg.rising w (hg.sound.mem_of_phase hw (by simp))
  rw [hw] at this
  cases this

theorem all_update {c : Core} {q : WorkerPhase → Bool} {w : ThreadId} {p : WorkerPhase}
    (h : ∀ u ∈ c.threads, q (c.phase u) = true) (hp : q p = true) :
    ∀ u ∈ c.threads, q (Function.update c.phase w p u) = true := by
  rw [Function.forall_update_iff c.phase (fun u r => u ∈ c.threads → q r = true)]
  exact ⟨fun _ => hp,fun u _ => h u⟩

theorem Growing.step {c d : Core} (hg : c.Growing) (h : c.Step d)
    (hle : c.workerMaxCount ≤ d.workerMaxCount) : d.Growing := by
  have hsound := h.sound hg.sound
  have hacc := h.accurate hg.sound hg.accurate
  cases h with
  | signal hsub hn => exact ⟨hsound,hacc,hg.limit,hg.rising⟩
  | create hn hnew =>
    refine ⟨hsound,hacc,?_,fun u hu => ?_⟩
    · simp [hg.limit]
    · by_cases he : u ∈ ‹List ThreadId›
      · simp [he,WorkerPhase.rising]
      · simpa [he] using hg.rising u ((List.mem_append.mp hu).resolve_right he)
  | begin hw => exact ⟨hsound,hacc,hg.limit,all_update hg.rising rfl⟩
  | lower hk => exact ⟨hsound,hacc,(Nat.le_antisymm (Nat.sub_le _ _) hle).trans hg.limit,hg.rising⟩
  | register hw hmax hp =>
    refine ⟨hsound,hacc,hg.limit,all_update hg.rising ?_⟩
    obtain rfl | rfl := hp <;> rfl
  | late hw hmax =>
    have := hg.count_lt (hg.sound.mem_of_phase hw (by simp)) (by rw [hw]; rfl)
    omega
  | told hw => exact ⟨hsound,hacc,hg.limit,all_update hg.rising rfl⟩
  | park hw hmax => exact ⟨hsound,hacc,hg.limit,all_update hg.rising rfl⟩
  | go hw hp =>
    refine ⟨hsound,hacc,hg.limit,all_update hg.rising ?_⟩
    obtain rfl | ⟨task,rfl⟩ := hp <;> rfl
  | quit hw hmax => exact absurd hg.count_le (Nat.not_le.mpr hmax)
  | finish hw => exact ⟨hsound,hacc,hg.limit,all_update hg.rising rfl⟩

theorem Growing.crewed {c : Core} (hg : c.Growing)
    (hall : ∀ w ∈ c.threads, (c.phase w).staying = true) : c.Crewed :=
  ⟨hg.sound,hg.accurate,fun w hw => WorkerPhase.arrived_of_staying (hall w hw)⟩

theorem Crewed.step {c d : Core} (hc : c.Crewed) (h : c.Step d) (ht : d.threads = c.threads) :
    d.Crewed := by
  have hsound := h.sound hc.sound
  have hacc := h.accurate hc.sound hc.accurate
  have hmove : ∀ {w : ThreadId} {p : WorkerPhase}, p.arrived = true →
      ∀ u ∈ c.threads, (Function.update c.phase w p u).arrived = true :=
    fun hp => all_update hc.arrived hp
  have hnot : ∀ {w : ThreadId} {p : WorkerPhase}, c.phase w = p → p ≠ .absent →
      p.arrived = true := fun hw hp => hw ▸ hc.arrived _ (hc.sound.mem_of_phase hw hp)
  cases h with
  | signal hsub hn => exact ⟨hsound,hacc,hc.arrived⟩
  | create hn hnew =>
    obtain rfl := List.append_right_eq_self.mp ht
    exact ⟨hsound,hacc,by simpa using hc.arrived⟩
  | begin hw => cases hnot hw (by simp)
  | lower hk => exact ⟨hsound,hacc,hc.arrived⟩
  | register hw hmax hp => cases hnot hw (by simp)
  | late hw hmax => cases hnot hw (by simp)
  | told hw => exact ⟨hsound,hacc,hmove rfl⟩
  | park hw hmax => exact ⟨hsound,hacc,hmove rfl⟩
  | go hw hp =>
    refine ⟨hsound,hacc,hmove ?_⟩
    obtain rfl | ⟨task,rfl⟩ := hp <;> rfl
  | quit hw hmax => exact ⟨hsound,hacc,hmove rfl⟩
  | finish hw => exact ⟨hsound,hacc,hmove rfl⟩

theorem Crewed.leaving {c : Core} (hc : c.Crewed) {w : ThreadId} {b : Bool}
    (hw : c.phase w = .leaving b) : b = true := by
  have := hc.arrived w (hc.sound.mem_of_phase hw (by simp))
  rw [hw] at this
  cases b
  · cases this
  · rfl

theorem Crewed.exited {c : Core} (hc : c.Crewed) {w : ThreadId} {b : Bool}
    (hw : c.phase w = .leaving b) : (c.exited w).Crewed :=
  ⟨hc.sound.exited hw,(exited_accurate hc.sound hc.accurate hw).mpr (hc.leaving hw),
    all_update hc.arrived rfl⟩

theorem Crewed.step_count {c d : Core} (hc : c.Crewed) (h : c.Step d) :
    d.workerCount = c.workerCount := by
  cases h with
  | register hw hmax hp =>
    have := hc.arrived _ (hc.sound.mem_of_phase hw (by simp))
    rw [hw] at this
    cases this
  | _ => rfl

theorem Crewed.count_pos {c : Core} (hc : c.Crewed) {w : ThreadId} {b : Bool}
    (hw : c.phase w = .leaving b) : 0 < c.workerCount := by
  rw [hc.accurate]
  refine population_pos.mpr ⟨w,hc.sound.mem_of_phase hw (by simp),?_⟩
  rw [hw,hc.leaving hw]
  rfl

theorem Crewed.none_registered {c : Core} (hc : c.Crewed) (h : c.workerCount = 0)
    (w : ThreadId) : (c.phase w).registered = false := by
  rw [hc.accurate] at h
  by_cases hw : w ∈ c.threads
  · exact population_eq_zero.mp h w hw
  · have : c.phase w = .absent := by
      by_contra hne
      exact hw (hc.sound.listed w hne)
    rw [this]
    rfl

theorem Whole.counted {c : Core} (hw : c.Whole) (ha : c.Accurate) :
    c.workerCount = c.threads.length :=
  ha.trans (population_eq_length.mpr
    (fun w h => WorkerPhase.registered_of_staying (hw.staying w h)))

theorem Whole.not_leaving {c : Core} (hw : c.Whole) (hs : c.Sound) {w : ThreadId} {b : Bool} :
    c.phase w ≠ .leaving b := by
  intro hb
  have := hw.staying w (hs.mem_of_phase hb (by simp))
  rw [hb] at this
  cases this

/-- As long as the limit stays no one leaves. -/
theorem Whole.step {c d : Core} (hw : c.Whole) (hc : c.Crewed) (h : c.Step d)
    (ht : d.threads = c.threads) (hm : d.workerMaxCount = c.workerMaxCount) : d.Whole := by
  have hlimit : d.workerMaxCount = d.threads.length := by rw [hm,ht]; exact hw.limit
  have hnot : ∀ {w : ThreadId} {p : WorkerPhase}, c.phase w = p → p ≠ .absent →
      p.staying = true := fun hp hne => hp ▸ hw.staying _ (hc.sound.mem_of_phase hp hne)
  cases h with
  | signal hsub hn => exact ⟨hlimit,hw.staying⟩
  | create hn hnew =>
    obtain rfl := List.append_right_eq_self.mp ht
    exact ⟨hlimit,by simpa using hw.staying⟩
  | begin hp => cases hnot hp (by simp)
  | lower hk => exact ⟨hlimit,hw.staying⟩
  | register hp hmax hq => cases hnot hp (by simp)
  | late hp hmax => cases hnot hp (by simp)
  | told hp => exact ⟨hlimit,all_update hw.staying rfl⟩
  | park hp hmax => exact ⟨hlimit,all_update hw.staying rfl⟩
  | go hp hq =>
    refine ⟨hlimit,all_update hw.staying ?_⟩
    obtain rfl | ⟨task,rfl⟩ := hq <;> rfl
  | quit hp hmax =>
    have := hw.counted hc.accurate
    have := hw.limit
    omega
  | finish hp => exact ⟨hlimit,all_update hw.staying rfl⟩

end Core

namespace ThreadManager

theorem limit_le {s t : ThreadManager} {a : Act} (ha : a.onStop = false)
    (h : s.step a = some t) : s.workerMaxCount ≤ t.workerMaxCount := by
  by_cases hgrow : a.onGrow = false
  · exact Nat.le_of_eq (crew_frame ha hgrow h).limit.symm
  cases step_to h with
  | addWorker => exact Nat.le_add_right _ _
  | _ => exact absurd rfl hgrow

/-- What holds as long as no one gets into `RemoveWorker` or through the first section of
`StopImpl`. -/
structure Grown (s : ThreadManager) : Prop where
  core : s.core.Growing
  state : s.state = .uninitialized ∨ s.state = .started
  calls : ∀ u, (s.call u).engaged = false
  log : ∀ e ∈ s.log, e.ofStop = false

theorem ControlFrame.calls {s t : ThreadManager} (hf : ControlFrame s t)
    (h : ∀ u, (s.call u).engaged = false) : ∀ u, (t.call u).engaged = false := by
  intro u
  by_contra hne
  have hp : (t.call u).engaged = true := by simpa using hne
  have := (hf.engaged u (t.call u) hp).mp rfl
  rw [← this,h u] at hp
  cases hp

theorem ControlFrame.no_failure {s t : ThreadManager} (hf : ControlFrame s t)
    (h : ∀ e ∈ s.log, e.stopFailure = false) : ∀ e ∈ t.log, e.stopFailure = false := by
  obtain ⟨es,hlog,hes⟩ := hf.log
  intro e he
  rw [hlog] at he
  obtain he | he := List.mem_append.mp he
  · exact h e he
  · exact (hes e he).1

/-- No call of `RemoveWorker` or `StopImpl` ends before the manager is stopped. -/
theorem ControlFrame.no_stop {s t : ThreadManager} (hf : ControlFrame s t)
    (hstate : s.state ≠ .stopped) (h : ∀ e ∈ s.log, e.ofStop = false) :
    ∀ e ∈ t.log, e.ofStop = false := by
  obtain ⟨es,hlog,hes⟩ := hf.log
  intro e he
  rw [hlog] at he
  obtain he | he := List.mem_append.mp he
  · exact h e he
  · exact Bool.eq_false_iff.mpr (fun hstop => hstate ((hes e he).2.1 hstop))

theorem Grown.step {s t : ThreadManager} {a : Act} (hg : s.Grown) (ha : a.onStop = false)
    (h : s.step a = some t) : t.Grown := by
  have hf := control_frame ha h
  have hopen : s.state ≠ .stopped := by
    obtain hstate | hstate := hg.state <;> rw [hstate] <;> simp
  refine ⟨?_,?_,hf.calls hg.calls,hf.no_stop hopen hg.log⟩
  · obtain ⟨-,hstep⟩ | ⟨w,woken,b,-,hw,-⟩ := core_cases hg.core.sound h
    · exact hg.core.step hstep (limit_le ha h)
    · exact absurd hw hg.core.not_leaving
  · obtain hstate | ⟨-,hstate⟩ := hf.state
    · exact hstate ▸ hg.state
    · exact .inr hstate

theorem grown_init : init.Grown where
  core := ⟨sound_init,rfl,rfl,fun w hw => by cases hw⟩
  state := .inl rfl
  calls := fun _ => rfl
  log := fun e he => by cases he

theorem grown_of_run {s : ThreadManager} {as : List Act} (has : ∀ a ∈ as, a.onStop = false)
    (hr : system.run as = some s) : s.Grown :=
  System.runFrom_keeps (S := system) (fun _ a _ ha hg h => hg.step (has a ha) h) grown_init hr

end ThreadManager
end MprMq.Threading
