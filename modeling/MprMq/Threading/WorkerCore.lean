import Mathlib.Data.List.Perm.Subperm
import MprMq.Lib.Population
import MprMq.Threading.ThreadManager
set_option autoImplicit false

/-! The accounting of the workers, on its own: which threads there are, how far each is,
and the counters and waiters that go with it. `Core.Step` is all that can happen to it,
whatever the queue and the calls do, but for the end of a worker, `Core.exited`. -/

namespace MprMq.Threading
open MprMq.Lib

structure Core where
  threads : List ThreadId
  phase : ThreadId → WorkerPhase
  workerCount : Nat
  workerMaxCount : Nat
  idleCount : Nat
  monitor : Waiters ThreadId

def ThreadManager.core (s : ThreadManager) : Core :=
  ⟨s.threads,s.phase,s.workerCount,s.workerMaxCount,s.idleCount,s.monitor⟩

namespace WorkerPhase

def isWaiting (p : WorkerPhase) : Bool := p = .waiting

/-- A worker that has counted itself and is in its loop, or on the way to it. -/
def staying : WorkerPhase → Bool
  | .notifying | .looping | .waiting | .executing _ => true
  | _ => false

/-- A worker that has counted itself and not yet uncounted itself. -/
def registered : WorkerPhase → Bool
  | .notifying | .looping | .waiting | .executing _ | .leaving true => true
  | _ => false

def atLoop : WorkerPhase → Bool
  | .looping | .waiting => true
  | _ => false

theorem registered_of_staying {p : WorkerPhase} (h : p.staying = true) : p.registered = true := by
  cases p <;> simp_all [staying,registered]

theorem staying_of_atLoop {p : WorkerPhase} (h : p.atLoop = true) : p.staying = true := by
  cases p <;> simp_all [staying,atLoop]

end WorkerPhase

namespace Core

def move (c : Core) (w : ThreadId) (p : WorkerPhase) : Core :=
  { c with phase := Function.update c.phase w p }

def awake (c : Core) (w : ThreadId) : Core :=
  { c with
    idleCount := if c.phase w = .waiting then SizeT.dec c.idleCount else c.idleCount
    monitor := c.monitor.leave w }

def count (c : Core) (q : WorkerPhase → Bool) : Nat := population c.phase q c.threads

def registered (c : Core) : Nat := c.count WorkerPhase.registered

def staying (c : Core) : Nat := c.count WorkerPhase.staying

def exited (c : Core) (w : ThreadId) : Core :=
  { c with workerCount := SizeT.dec c.workerCount }.move w .finished

inductive Step (c : Core) : Core → Prop where
  | signal {m : Waiters ThreadId} (hsub : ∀ u ∈ m, u ∈ c.monitor)
      (hn : c.monitor.Nodup → m.Nodup) : Step c { c with monitor := m }
  | create {ids : List ThreadId} (hn : ids.Nodup) (hnew : ∀ w ∈ ids, c.phase w = .absent) :
      Step c { c with
        threads := c.threads ++ ids
        phase := fun w => if w ∈ ids then .created else c.phase w
        workerMaxCount := c.workerMaxCount+ids.length }
  | begin {w : ThreadId} (hw : c.phase w = .created) : Step c (c.move w .entering)
  | lower {k : Nat} (hk : k ≤ c.workerMaxCount) :
      Step c { c with workerMaxCount := c.workerMaxCount-k, monitor := [] }
  | register {w : ThreadId} {p : WorkerPhase} (hw : c.phase w = .entering)
      (hmax : c.workerCount < c.workerMaxCount) (hp : p = .notifying ∨ p = .looping) :
      Step c ({ c with workerCount := c.workerCount+1 }.move w p)
  | late {w : ThreadId} (hw : c.phase w = .entering) (hmax : c.workerMaxCount ≤ c.workerCount) :
      Step c (c.move w (.leaving false))
  | told {w : ThreadId} (hw : c.phase w = .notifying) : Step c (c.move w .looping)
  | park {w : ThreadId} (hw : (c.phase w).atLoop = true)
      (hmax : c.workerCount ≤ c.workerMaxCount) :
      Step c ({ c.awake w with
        idleCount := (c.awake w).idleCount+1
        monitor := (c.awake w).monitor.park w }.move w .waiting)
  | go {w : ThreadId} {p : WorkerPhase} (hw : (c.phase w).atLoop = true)
      (hp : p = .looping ∨ ∃ task, p = .executing task) : Step c ((c.awake w).move w p)
  | quit {w : ThreadId} (hw : (c.phase w).atLoop = true)
      (hmax : c.workerMaxCount < c.workerCount) : Step c ((c.awake w).move w (.leaving true))
  | finish {w : ThreadId} {task : Task} (hw : c.phase w = .executing task) :
      Step c (c.move w .looping)

/-- The list of threads is complete, `idle_count_` counts the waiting ones, and only
they are parked. -/
structure Sound (c : Core) : Prop where
  distinct : c.threads.Nodup
  listed : ∀ w, c.phase w ≠ .absent → w ∈ c.threads
  created : ∀ w ∈ c.threads, c.phase w ≠ .absent
  idle : c.idleCount = population c.phase WorkerPhase.isWaiting c.threads
  parked : ∀ w ∈ c.monitor, c.phase w = .waiting
  waiters : c.monitor.Nodup

theorem Sound.mem_of_phase {c : Core} (hs : c.Sound) {w : ThreadId} {p : WorkerPhase}
    (hw : c.phase w = p) (hp : p ≠ .absent) : w ∈ c.threads :=
  hs.listed w (hw ▸ hp)

theorem Sound.mem_of_atLoop {c : Core} (hs : c.Sound) {w : ThreadId}
    (hw : (c.phase w).atLoop = true) : w ∈ c.threads :=
  hs.listed w (fun h => by rw [h] at hw; cases hw)

theorem Sound.mem_of_registered {c : Core} (hs : c.Sound) {w : ThreadId}
    (hw : (c.phase w).registered = true) : w ∈ c.threads :=
  hs.listed w (fun h => by rw [h] at hw; cases hw)

theorem Sound.count_move {c d : Core} (hs : c.Sound) {w : ThreadId} {p : WorkerPhase}
    (hw : w ∈ c.threads) (ht : d.threads = c.threads) (hp : d.phase = Function.update c.phase w p)
    (q : WorkerPhase → Bool) :
    d.count q + (q (c.phase w)).toNat = c.count q + (q p).toNat := by
  unfold count
  rw [ht,hp]
  exact population_update c.phase q p hs.distinct hw

theorem Sound.count_keep {c d : Core} (hs : c.Sound) {w : ThreadId} {p : WorkerPhase}
    (hw : w ∈ c.threads) (ht : d.threads = c.threads) (hp : d.phase = Function.update c.phase w p)
    {q : WorkerPhase → Bool} (hq : q (c.phase w) = q p) : d.count q = c.count q := by
  have := hs.count_move hw ht hp q
  rw [hq] at this
  exact Nat.add_right_cancel this

theorem Sound.count_create {c : Core} (hs : c.Sound) {ids : List ThreadId}
    (hnew : ∀ w ∈ ids, c.phase w = .absent) {q : WorkerPhase → Bool} (hq : q .created = false) :
    population (fun w => if w ∈ ids then .created else c.phase w) q (c.threads ++ ids) =
      c.count q := by
  have hold : population (fun w => if w ∈ ids then .created else c.phase w) q c.threads =
      c.count q := by
    apply population_congr
    intro u hu
    have : u ∉ ids := fun he => hs.created u hu (hnew u he)
    simp [this]
  have hzero : population (fun w => if w ∈ ids then .created else c.phase w) q ids = 0 := by
    rw [population_eq_zero]
    intro u hu
    simp [hu,hq]
  rw [population_append,hold,hzero,Nat.add_zero]

/-- `idle_count_` is what a worker that comes out of the wait leaves of it. -/
theorem Sound.awake_idle {c : Core} (hs : c.Sound) {w : ThreadId} (hw : w ∈ c.threads) :
    (c.awake w).idleCount + (WorkerPhase.isWaiting (c.phase w)).toNat = c.idleCount := by
  unfold awake WorkerPhase.isWaiting
  by_cases h : c.phase w = .waiting
  · have hpos : 0 < c.idleCount := by
      rw [hs.idle]
      exact population_pos.mpr ⟨w,hw,by simp [WorkerPhase.isWaiting,h]⟩
    simp only [h,if_true,decide_true,Bool.toNat_true]
    exact SizeT.dec_add_one hpos
  · simp [h]

theorem Sound.listed_update {c : Core} (hs : c.Sound) {w : ThreadId} (hw : w ∈ c.threads)
    (p : WorkerPhase) : ∀ u, Function.update c.phase w p u ≠ .absent → u ∈ c.threads := by
  intro u hu
  by_cases he : u = w
  · exact he ▸ hw
  · rw [Function.update_of_ne he] at hu
    exact hs.listed u hu

theorem Sound.created_update {c : Core} (hs : c.Sound) (w : ThreadId) {p : WorkerPhase}
    (hp : p ≠ .absent) : ∀ u ∈ c.threads, Function.update c.phase w p u ≠ .absent := by
  intro u hu
  by_cases he : u = w
  · rwa [he,Function.update_self]
  · rw [Function.update_of_ne he]
    exact hs.created u hu

/-- A worker that is not in the wait afterwards has left it, and nothing else has moved. -/
theorem Sound.moved {c : Core} (hs : c.Sound) {w : ThreadId} {p : WorkerPhase}
    (hw : w ∈ c.threads) (hp : p ≠ .absent) (hp' : p ≠ .waiting) :
    ((c.awake w).move w p).Sound where
  distinct := hs.distinct
  listed := hs.listed_update hw p
  created := hs.created_update w hp
  idle := by
    have hidle := hs.awake_idle hw
    have hcount := hs.count_move (d := (c.awake w).move w p) hw rfl rfl WorkerPhase.isWaiting
    have hzero : WorkerPhase.isWaiting p = false := by simpa [WorkerPhase.isWaiting] using hp'
    have hold : c.count WorkerPhase.isWaiting = c.idleCount := hs.idle.symm
    rw [hzero,Bool.toNat_false,hold,← hidle] at hcount
    exact (Nat.add_right_cancel hcount).symm
  parked := fun u hu => by
    obtain ⟨hne,hmem⟩ := (Waiters.mem_leave hs.waiters).mp hu
    simpa [move,awake,Function.update_of_ne hne] using hs.parked u hmem
  waiters := Waiters.nodup_leave hs.waiters w

theorem Sound.awake_eq {c : Core} (hs : c.Sound) {w : ThreadId} (h : c.phase w ≠ .waiting) :
    c.awake w = c := by
  have hmem : w ∉ c.monitor := fun hm => h (hs.parked w hm)
  simp [awake,h,Waiters.leave_of_notMem hmem]

theorem Sound.moved_outside {c : Core} (hs : c.Sound) {w : ThreadId} {p : WorkerPhase}
    (hw : w ∈ c.threads) (hout : c.phase w ≠ .waiting) (hp : p ≠ .absent) (hp' : p ≠ .waiting) :
    (c.move w p).Sound := by
  have := hs.moved hw hp hp'
  rwa [hs.awake_eq hout] at this

theorem Sound.counted {c : Core} (hs : c.Sound) (n m : Nat) :
    { c with workerCount := n, workerMaxCount := m }.Sound :=
  ⟨hs.distinct,hs.listed,hs.created,hs.idle,hs.parked,hs.waiters⟩

theorem Sound.parks {c : Core} (hs : c.Sound) {w : ThreadId} (hw : w ∈ c.threads) :
    ({ c.awake w with
      idleCount := (c.awake w).idleCount+1
      monitor := (c.awake w).monitor.park w }.move w .waiting).Sound where
  distinct := hs.distinct
  listed := hs.listed_update hw .waiting
  created := hs.created_update w (by simp)
  idle := by
    have hidle := hs.awake_idle hw
    have hcount := hs.count_move (d := c.move w .waiting) hw rfl rfl WorkerPhase.isWaiting
    have hold : c.count WorkerPhase.isWaiting = c.idleCount := hs.idle.symm
    rw [show WorkerPhase.isWaiting .waiting = true from rfl,Bool.toNat_true,hold,
      ← hidle] at hcount
    exact (Nat.add_right_cancel (hcount.trans (Nat.add_right_comm _ _ _))).symm
  parked := fun u hu => by
    by_cases he : u = w
    · simp [move,he]
    · obtain rfl | hmem := Waiters.mem_park.mp hu
      · exact absurd rfl he
      · simpa [move,awake,Function.update_of_ne he] using
          hs.parked u ((Waiters.mem_leave hs.waiters).mp hmem).2
  waiters := Waiters.nodup_park (Waiters.nodup_leave hs.waiters w) w

theorem Sound.created_all {c : Core} (hs : c.Sound) {ids : List ThreadId} (hn : ids.Nodup)
    (hnew : ∀ w ∈ ids, c.phase w = .absent) (n : Nat) :
    Sound { c with
      threads := c.threads ++ ids
      phase := fun w => if w ∈ ids then .created else c.phase w
      workerMaxCount := n } where
  distinct := by
    rw [List.nodup_append]
    refine ⟨hs.distinct,hn,?_⟩
    rintro u hu v hv rfl
    exact hs.created u hu (hnew u hv)
  listed := fun u hu => by
    by_cases he : u ∈ ids
    · exact List.mem_append_right _ he
    · exact List.mem_append_left _ (hs.listed u (by simpa [he] using hu))
  created := fun u hu => by
    by_cases he : u ∈ ids
    · simp [he]
    · simpa [he] using hs.created u ((List.mem_append.mp hu).resolve_right he)
  idle := by
    rw [hs.count_create hnew rfl]
    exact hs.idle
  parked := fun u hu => by
    have : u ∉ ids := fun he => by
      have := hs.parked u hu
      rw [hnew u he] at this
      cases this
    simpa [this] using hs.parked u hu
  waiters := hs.waiters

theorem Sound.signalled {c : Core} (hs : c.Sound) {m : Waiters ThreadId}
    (hsub : ∀ u ∈ m, u ∈ c.monitor) (hn : m.Nodup) : Sound { c with monitor := m } :=
  ⟨hs.distinct,hs.listed,hs.created,hs.idle,fun u hu => hs.parked u (hsub u hu),hn⟩

theorem Step.sound {c d : Core} (h : c.Step d) (hs : c.Sound) : d.Sound := by
  cases h with
  | signal hsub hn => exact hs.signalled hsub (hn hs.waiters)
  | create hn hnew => exact hs.created_all hn hnew _
  | begin hw =>
    exact hs.moved_outside (hs.mem_of_phase hw (by simp)) (by simp [hw]) (by simp) (by simp)
  | @lower k hk =>
    exact (hs.counted c.workerCount (c.workerMaxCount-k)).signalled (fun u hu => by cases hu)
      List.nodup_nil
  | register hw hmax hp =>
    refine (hs.counted _ _).moved_outside (hs.mem_of_phase hw (by simp)) (by simp [hw]) ?_ ?_ <;>
      obtain rfl | rfl := hp <;> simp
  | late hw hmax =>
    exact hs.moved_outside (hs.mem_of_phase hw (by simp)) (by simp [hw]) (by simp) (by simp)
  | told hw =>
    exact hs.moved_outside (hs.mem_of_phase hw (by simp)) (by simp [hw]) (by simp) (by simp)
  | park hw hmax => exact hs.parks (hs.mem_of_atLoop hw)
  | go hw hp =>
    refine hs.moved (hs.mem_of_atLoop hw) ?_ ?_ <;> obtain rfl | ⟨task,rfl⟩ := hp <;> simp
  | quit hw hmax => exact hs.moved (hs.mem_of_atLoop hw) (by simp) (by simp)
  | finish hw =>
    exact hs.moved_outside (hs.mem_of_phase hw (by simp)) (by simp [hw]) (by simp) (by simp)

theorem Sound.exited {c : Core} (hs : c.Sound) {w : ThreadId} {b : Bool}
    (hw : c.phase w = .leaving b) : (c.exited w).Sound :=
  (hs.counted (SizeT.dec c.workerCount) c.workerMaxCount).moved_outside
    (hs.mem_of_phase hw (by simp)) (by simp [hw]) (by simp) (by simp)

/-- At most as many are parked as are counted idle. -/
theorem Sound.monitor_length {c : Core} (hs : c.Sound) : c.monitor.length ≤ c.idleCount := by
  have hsub : c.monitor ⊆ c.threads.filter (fun w => WorkerPhase.isWaiting (c.phase w)) := by
    intro u hu
    have hw := hs.parked u hu
    exact List.mem_filter.mpr ⟨hs.mem_of_phase hw (by simp),by simp [WorkerPhase.isWaiting,hw]⟩
  rw [hs.idle,population,List.countP_eq_length_filter]
  exact (hs.waiters.subperm hsub).length_le

end Core
end MprMq.Threading
