import MprMq.Db.PoolSystem
set_option autoImplicit false

/-! `size_` is kept by hand beside the list it counts; it is right whenever no
thread is inside a critical section. -/

namespace MprMq.Db
open MprMq.Lib

def ConnectionHeap.Sized (s : ConnectionHeap) : Prop :=
  ∀ p pool, s.pools p = some pool → pool.Sized

theorem sized_inductive : poolSystem.Inductive ConnectionHeap.Sized where
  init := by
    intro p pool hp
    cases hp
  step := by
    intro s a t h hs p pool' hp
    rcases step_pools hs hp with hsame | ⟨info,rawSize,rawIdle,-,rfl⟩ |
      ⟨thread,call,pool,r,-,-,hpool,hr,rfl⟩
    · exact h p pool' hsame
    · exact sized_create info rawSize rawIdle
    · exact (spec_of_locked (h p pool hpool) hr).sized

/-- Whichever thread gets a lock next, its critical section goes through and every
`size_--` in it finds a positive count: the count it leaves and the entries it
removes add up to what was there. -/
def ConnectionHeap.Counted (s : ConnectionHeap) : Prop :=
  ∀ thread p call pool, s.task thread = some (p,call) → s.pools p = some pool →
    ∃ r, pool.locked call = some r ∧
      r.pool.size + (r.garbage.length + r.taken.toList.length) =
        pool.size + call.pushed.length

/-- Every pool counts its idle list, within its limit, in every state of every run,
and no critical section counts below zero. -/
theorem pool_size_counts (as : List PoolAct) :
    poolSystem.Always
      (fun s => (∀ p pool, s.pools p = some pool →
        pool.size = pool.connectionPool.length ∧ pool.size ≤ pool.limit) ∧ s.Counted) as := by
  refine sized_inductive.always (fun s h => ⟨fun p pool hp => ?_,?_⟩) as
  · exact ⟨(h p pool hp).size,(h p pool hp).limit⟩
  · intro thread p call pool _ hpool
    obtain ⟨r,hr,hspec⟩ := locked_spec (h p pool hpool) call
    exact ⟨r,hr,hspec.counts (h p pool hpool)⟩

end MprMq.Db
