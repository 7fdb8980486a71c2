import MprMq.Threading.WorkerSteps
set_option autoImplicit false

/-! `worker_count_` and the workers that have registered. -/

namespace MprMq.Threading
open MprMq.Lib

namespace Core

/-- `worker_count_` is the number of workers that have registered and not deregistered. -/
def Accurate (c : Core) : Prop := c.workerCount = c.registered

/-- Every step but a worker's last one counts exactly who registers. -/
theorem Step.accurate {c d : Core} (hs : c.Sound) (ha : c.Accurate) (h : c.Step d) :
    d.Accurate := by
  unfold Accurate at ha ⊢
  have hkeep : ∀ {e : Core} {w : ThreadId} {p : WorkerPhase}, w ∈ c.threads →
      e.workerCount = c.workerCount → e.threads = c.threads →
      e.phase = Function.update c.phase w p →
      (c.phase w).registered = p.registered → e.workerCount = e.registered := by
    intro e w p hw hcount ht hp hq
    rw [hcount,ha]
    exact (hs.count_keep hw ht hp hq).symm
  cases h with
  | signal hsub hn => exact ha
  | create hn hnew => exact ha.trans (hs.count_create hnew rfl).symm
  | lower hk => exact ha
  | begin hw => exact hkeep (hs.mem_of_phase hw (by simp)) rfl rfl rfl (by rw [hw]; rfl)
  | @register w p hw hmax hp =>
    have := hs.count_move (d := { c with workerCount := c.workerCount+1 }.move w p)
      (hs.mem_of_phase hw (by simp)) rfl rfl WorkerPhase.registered
    have hone : p.registered = true := by obtain rfl | rfl := hp <;> rfl
    rw [hw,hone] at this
    exact (congrArg (fun n => n+1) ha).trans this.symm
  | late hw hmax => exact hkeep (hs.mem_of_phase hw (by simp)) rfl rfl rfl (by rw [hw]; rfl)
  | told hw => exact hkeep (hs.mem_of_phase hw (by simp)) rfl rfl rfl (by rw [hw]; rfl)
  | park hw hmax =>
    exact hkeep (hs.mem_of_atLoop hw) rfl rfl rfl
      (WorkerPhase.registered_of_staying (WorkerPhase.staying_of_atLoop hw))
  | go hw hp =>
    refine hkeep (hs.mem_of_atLoop hw) rfl rfl rfl ?_
    rw [WorkerPhase.registered_of_staying (WorkerPhase.staying_of_atLoop hw)]
    obtain rfl | ⟨task,rfl⟩ := hp <;> rfl
  | quit hw hmax =>
    exact hkeep (hs.mem_of_atLoop hw) rfl rfl rfl
      (WorkerPhase.registered_of_staying (WorkerPhase.staying_of_atLoop hw))
  | finish hw => exact hkeep (hs.mem_of_phase hw (by simp)) rfl rfl rfl (by rw [hw]; rfl)

/-- A worker's last step uncounts it, whether it had counted itself or not. -/
theorem exited_accurate {c : Core} {w : ThreadId} {b : Bool} (hs : c.Sound) (ha : c.Accurate)
    (hw : c.phase w = .leaving b) : (c.exited w).Accurate ↔ b = true := by
  have hmem := hs.mem_of_phase hw (by simp)
  have hcount := hs.count_move (d := c.exited w) hmem rfl rfl WorkerPhase.registered
  rw [hw] at hcount
  unfold Accurate at ha ⊢
  have hdec : (c.exited w).workerCount = SizeT.dec c.workerCount := rfl
  cases b with
  | true =>
    have hpos : 0 < c.registered :=
      population_pos.mpr ⟨w,hmem,by rw [hw]; rfl⟩
    have hsub := SizeT.dec_add_one (ha ▸ hpos)
    simp only [WorkerPhase.registered,Bool.toNat_true,Bool.toNat_false] at hcount
    refine iff_of_true ?_ rfl
    rw [hdec]
    unfold registered at ha ⊢
    omega
  | false =>
    simp only [WorkerPhase.registered,Bool.toNat_false,Nat.add_zero] at hcount
    refine iff_of_false ?_ (by simp)
    rw [hdec,registered,hcount]
    unfold registered at ha
    rw [← ha]
    unfold SizeT.dec SizeT.modulus
    split <;> omega

end Core

/-- The worker that ends had registered. -/
def exitsRegistered (s : ThreadManager) : Act → Bool
  | .exit w _ => s.phase w ≠ .leaving false
  | _ => true

/-- The count is right all along a run exactly when no worker ends that had not
registered. -/
theorem worker_count_registered_iff (as : List Act) :
    ThreadManager.system.Along (fun _ _ t => t.core.workerCount = t.core.registered) as ↔
      ThreadManager.system.Along (fun s a _ => exitsRegistered s a) as := by
  refine System.alongFrom_iff (I := fun s => s.core.Sound ∧ s.core.Accurate) ?_
    ⟨ThreadManager.sound_init,rfl⟩
  intro s a t _ ⟨hs,ha⟩ h
  have hsound : t.core.Sound := ThreadManager.sound_inductive.step s a t hs h
  obtain ⟨hexit,hcore⟩ | ⟨w,woken,b,rfl,hw,ht⟩ := ThreadManager.core_cases hs h
  case inr =>
    have hiff := Core.exited_accurate hs ha hw
    have hcond : exitsRegistered s (.exit w woken) = true ↔ b = true := by
      cases b <;> simp [exitsRegistered,hw]
    rw [← ht] at hiff
    exact ⟨hiff.trans hcond.symm,fun hc => ⟨hsound,hiff.mpr (hcond.mp hc)⟩⟩
  case inl =>
    have hacc : t.core.Accurate := hcore.accurate hs ha
    have hcond : exitsRegistered s a = true := by
      cases a with
      | exit w woken => exact absurd rfl (hexit w woken)
      | _ => rfl
    exact ⟨iff_of_true hacc hcond,fun _ => ⟨hsound,hacc⟩⟩

/-- `AddWorker` has created a thread, `RemoveWorker` takes the place back before the
thread gets to its first lock. -/
def lateStart : List Act :=
  [.setThreadFactory true,.addWorker 0 [1],.removeWorker 2 1 [],.startThread 0,.enter 1]

theorem late_start_wraps_count :
    ¬ ∀ as, ThreadManager.system.Along
      (fun _ _ t => t.core.workerCount = t.core.registered) as := by
  intro h
  have hcount := System.AlongFrom.after lateStart (h (lateStart ++ [.exit 1 none])) rfl rfl
  exact absurd hcount (by decide)

end MprMq.Threading
