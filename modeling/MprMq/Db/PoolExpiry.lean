import MprMq.Db.PoolOwnership
set_option autoImplicit false

/-! Expiry. The scans stop at the first entry in time and `get` takes the last one,
which is right as long as the list is ordered by `last_used`. -/

namespace MprMq.Db
open MprMq.Lib

/-- `Put` of a connection enters with a time no earlier than that of the entry it
comes to stand behind, unless the pool keeps one entry at most. -/
def inOrder (p : PoolId) (s : ConnectionHeap) : PoolAct → Bool
  | .enter thread =>
    match s.task thread, s.pools p with
    | some (q,.put (some _) now), some pool =>
      q ≠ p || pool.limit ≤ 1 || pool.connectionPool.getLast?.all (fun e => e.lastUsed ≤ now)
    | _, _ => true
  | _ => true

/-- `get` takes no connection whose time was up at the time it read. -/
def TakesFresh (p : PoolId) (s : ConnectionHeap) (a : PoolAct) : Prop :=
  ∀ thread now pool e, a = .enter thread → s.task thread = some (p,.get now) →
    s.pools p = some pool → (pool.get now).taken = some e → now ≤ e.lastUsed + pool.lifeTime

def ConnectionPool.Ordered (pool : ConnectionPool) : Prop :=
  pool.connectionPool.Pairwise (fun d e => d.lastUsed ≤ e.lastUsed)

/-- In an ordered list the scan leaves no entry whose time is up. -/
theorem fresh_of_ordered {pool : ConnectionPool} (h : pool.Ordered) {now : Int} {e : Entry}
    (he : e ∈ pool.fresh pool.connectionPool now) : now ≤ e.lastUsed + pool.lifeTime := by
  have hsub := List.dropWhile_sublist (l := pool.connectionPool)
    (Entry.expired pool.lifeTime now)
  have hord := h.sublist hsub
  have hhead := List.head?_dropWhile_not (Entry.expired pool.lifeTime now) pool.connectionPool
  simp only [ConnectionPool.fresh] at he
  cases hf : pool.connectionPool.dropWhile (Entry.expired pool.lifeTime now) with
  | nil => simp [hf] at he
  | cons front rest =>
    rw [hf] at he hord hhead
    have hfront : now ≤ front.lastUsed + pool.lifeTime := by
      simpa [Entry.expired] using hhead
    rcases List.mem_cons.mp he with rfl | hrest
    · exact hfront
    · have hle := (List.pairwise_cons.mp hord).1 e hrest
      omega

theorem le_of_ordered {pool : ConnectionPool} (h : pool.Ordered) {now : Int}
    (hlast : ∀ e, pool.connectionPool.getLast? = some e → e.lastUsed ≤ now) :
    ∀ e ∈ pool.connectionPool, e.lastUsed ≤ now := by
  intro e he
  cases hl : pool.connectionPool.getLast? with
  | none =>
    rw [List.getLast?_eq_none_iff.mp hl] at he
    cases he
  | some back =>
    have hsplit := List.dropLast_append_getLast? back hl
    rw [← hsplit,List.mem_append,List.mem_singleton] at he
    have hord := h
    rw [ConnectionPool.Ordered,← hsplit,List.pairwise_append] at hord
    rcases he with he | rfl
    · exact Int.le_trans (hord.2.2 e he back (List.mem_singleton_self back)) (hlast back hl)
    · exact hlast e hl

theorem locked_ordered {pool : ConnectionPool} {call : Call} {r : Section} (hsized : pool.Sized)
    (h : pool.Ordered)
    (hput : ∀ c now, call = .put (some c) now →
      ∀ e, pool.connectionPool.getLast? = some e → e.lastUsed ≤ now)
    (hr : pool.locked call = some r) : r.pool.Ordered := by
  have hpushed : (pool.connectionPool ++ call.pushed).Pairwise
      (fun d e => d.lastUsed ≤ e.lastUsed) := by
    rcases call with now | ⟨_ | c,now⟩ | -
    · simpa [Call.pushed,ConnectionPool.Ordered] using h
    · simpa [Call.pushed,ConnectionPool.Ordered] using h
    · refine List.pairwise_append.mpr ⟨h,by simp [Call.pushed],?_⟩
      intro d hd e he
      simp only [Call.pushed,List.mem_singleton] at he
      subst e
      exact le_of_ordered h (hput c now rfl) d hd
    · simpa [Call.pushed,ConnectionPool.Ordered] using h
  cases call with
  | get now =>
    simp only [ConnectionPool.locked,get_eq hsized,Option.some.injEq] at hr
    subst r
    exact h.sublist ((List.dropLast_sublist _).trans (List.dropWhile_sublist _))
  | put connection now =>
    simp only [ConnectionPool.locked,put_eq hsized connection now rfl,Option.some.injEq] at hr
    subst r
    exact hpushed.sublist ((List.drop_sublist _ _).trans (List.dropWhile_sublist _))
  | clear =>
    simp only [ConnectionPool.locked,Option.some.injEq] at hr
    subst r
    exact List.Pairwise.nil

theorem ordered_of_short {pool : ConnectionPool} (h : pool.connectionPool.length ≤ 1) :
    pool.Ordered := by
  unfold ConnectionPool.Ordered
  match hl : pool.connectionPool with
  | [] => exact List.Pairwise.nil
  | [e] => exact List.pairwise_singleton _ e
  | _ :: _ :: _ => simp [hl] at h

def ConnectionHeap.OrderedAt (p : PoolId) (s : ConnectionHeap) : Prop :=
  s.Sized ∧ ∀ pool, s.pools p = some pool → pool.Ordered

theorem ordered_step {p : PoolId} {s t : ConnectionHeap} {a : PoolAct} (h : s.OrderedAt p)
    (hs : s.step a = some t) (hin : inOrder p s a = true) : t.OrderedAt p := by
  refine ⟨sized_inductive.step s a t h.1 hs,fun pool' hp => ?_⟩
  rcases step_pools hs hp with hsame | ⟨info,rawSize,rawIdle,-,rfl⟩ |
    ⟨thread,call,pool,r,rfl,htask,hpool,hr,rfl⟩
  · exact h.2 pool' hsame
  · exact List.Pairwise.nil
  · have hsized := h.1 p pool hpool
    have hspec := spec_of_locked hsized hr
    by_cases hone : pool.limit ≤ 1
    · have hlen := hspec.sized.length_le
      rw [hspec.limit] at hlen
      exact ordered_of_short (hlen.trans hone)
    · refine locked_ordered hsized (h.2 pool hpool) ?_ hr
      rintro c now rfl e he
      simpa [inOrder,htask,hpool,he,hone] using hin

theorem takesFresh_of_ordered {p : PoolId} {s : ConnectionHeap} (h : s.OrderedAt p)
    (a : PoolAct) : TakesFresh p s a := by
  intro thread now pool e _ _ hpool htaken
  rw [get_eq (h.1 p pool hpool)] at htaken
  exact fresh_of_ordered (h.2 pool hpool) (List.mem_of_getLast? htaken)

/-- A pool whose `Put`s all come in order, or that keeps one entry at most, never hands
out an expired connection. -/
theorem takes_fresh_of_in_order (p : PoolId) {as : List PoolAct}
    (h : poolSystem.Along (fun s a _ => inOrder p s a) as) :
    poolSystem.Along (fun s a _ => TakesFresh p s a) as :=
  h.guarded (I := ConnectionHeap.OrderedAt p)
    (fun _ a _ hs hst hin => ⟨ordered_step hs hst hin,takesFresh_of_ordered hs a⟩)
    ⟨sized_inductive.init,fun _ hp => by cases hp⟩

def tenSecondPool : ConnectionInfo :=
  ⟨[("@pool_size".toList,"2".toList),("@pool_max_idle".toList,"10".toList)],
    "mysql:@pool_size=2;@pool_max_idle=10".toList,"mysql".toList⟩

def orderlyPuts : List PoolAct :=
  [.create 0 tenSecondPool 0 0,.open 1 0 1000000,.enter 1,.open 2 0 2000000,.enter 2,
    .setRecyclable 0 true,.setRecyclable 1 true,.release 1 0 10000000,.release 2 1 20000000,
    .enter 1,.enter 2,.open 3 0 25000000,.enter 3]

theorem orderly_puts_take_fresh :
    poolSystem.Along (fun s a _ => TakesFresh 0 s a) orderlyPuts :=
  takes_fresh_of_in_order 0 (System.alongFrom_of_check (inOrder 0) (by decide))

def PoolAct.clock : PoolAct → Option Int
  | .release _ _ now | .open _ _ now | .put _ _ now | .gc _ _ now => some now
  | _ => none

/-- Two threads give their connections back, the one that read the clock first
second; a third thread opens one. -/
def racingPuts : List PoolAct :=
  [.create 0 tenSecondPool 0 0,.open 1 0 1000000,.enter 1,.open 2 0 2000000,.enter 2,
    .setRecyclable 0 true,.setRecyclable 1 true,.release 1 0 10000000,.release 2 1 20000000,
    .enter 2,.enter 1,.open 3 0 25000000]

theorem expired_connection_reused :
    ((racingPuts ++ [PoolAct.enter 3]).filterMap PoolAct.clock).Pairwise (· ≤ ·) ∧
      ¬ poolSystem.Along (fun s a _ => TakesFresh 0 s a) (racingPuts ++ [PoolAct.enter 3]) := by
  refine ⟨by decide,fun h => ?_⟩
  have hfresh := System.AlongFrom.after racingPuts h rfl rfl
  have hle := hfresh 3 25000000 _ _ rfl rfl rfl rfl
  exact absurd hle (by decide)

end MprMq.Db
