import MprMq.Db.ConnectionPlace
set_option autoImplicit false

/-! Every step of the pool system keeps every connection in one place. -/

namespace MprMq.Db
open MprMq.Lib

theorem at_of_off_list {s : ConnectionHeap} {p : PoolId} {c : ConnId} {place : Place}
    (hnext : c < s.next) (hplace : place ≠ .absent) (hheld : place = .held ↔ 0 < s.clients c)
    (hret : ∀ thread, place = .returning thread ↔ s.Returning thread c)
    (hoff : ∀ q, c ∉ s.idle q) (hidle : ∀ q, place ≠ .idle q)
    (hrefs : (s.conns c).refCount = place.refs (s.clients c))
    (hcleared : place ≠ .held → (s.conns c).connectionPool = none)
    (hdeleted : (s.conns c).deleted = if place = .destroyed then 1 else 0) :
    s.At p [] c place where
  absent := ⟨fun h => absurd h hplace,fun h => absurd h (Nat.not_le.mpr hnext)⟩
  held := hheld
  returning := hret
  idle := fun q => by
    simp [ConnectionHeap.idleCount,List.count_eq_zero_of_not_mem (hoff q),hidle q]
  refCount := hrefs
  cleared := hcleared
  deleted := hdeleted

theorem ConnectionHeap.At.off_list {s : ConnectionHeap} {p : PoolId} {c : ConnId} {place : Place}
    (h : s.At p [] c place) {q : PoolId} (hq : place ≠ .idle q) : c ∉ s.idle q := by
  have hcount := h.idle q
  simp only [ConnectionHeap.idleCount,List.count_nil,ite_self,Nat.add_zero,if_neg hq] at hcount
  exact List.count_eq_zero.mp hcount

theorem ConnectionHeap.At.eq_held {s : ConnectionHeap} {p : PoolId} {extra : List ConnId}
    {c : ConnId} {place : Place} (h : s.At p extra c place) (hc : s.clients c ≠ 0) :
    place = .held := h.held.mpr (Nat.pos_of_ne_zero hc)

theorem ConnectionHeap.At.eq_absent {s : ConnectionHeap} {p : PoolId} {extra : List ConnId}
    {place : Place} (h : s.At p extra s.next place) : place = .absent :=
  h.absent.mpr (Nat.le_refl _)

/-- A step that keeps the pools and, but for one connection, all that places depend on. -/
theorem ConnectionHeap.Owned.settle {s t : ConnectionHeap} {p : PoolId} (h : s.Owned p [])
    (c : ConnId) (hc : ∀ place, s.At p [] c place → ∃ place', t.At p [] c place')
    (hnext : ∀ other, other ≠ c → (t.next ≤ other ↔ s.next ≤ other))
    (hclients : ∀ other, other ≠ c → t.clients other = s.clients other)
    (hret : ∀ other, other ≠ c → ∀ thread, t.Returning thread other ↔ s.Returning thread other)
    (hpools : t.pools = s.pools)
    (hconns : ∀ other, other ≠ c → t.conns other = s.conns other) : t.Owned p [] := by
  refine h.change c hc (fun other ho => ⟨hnext other ho,hclients other ho,hret other ho,?_,
    by rw [hconns other ho],by rw [hconns other ho],by rw [hconns other ho]⟩)
  intro q
  simp only [ConnectionHeap.idleCount,idle_congr (s := s) (congrFun hpools q)]

theorem returning_of_task {s t : ConnectionHeap} (h : t.task = s.task) (thread : ThreadId)
    (c : ConnId) : t.Returning thread c ↔ s.Returning thread c := by
  simp [ConnectionHeap.Returning,h]

theorem returning_start {s : ConnectionHeap} {thread : ThreadId} (h : s.task thread = none)
    (p : PoolId) (call : Call) (other : ThreadId) (c : ConnId) :
    (s.start thread p call).Returning other c ↔
      (other = thread ∧ ∃ now, call = .put (some c) now) ∨ s.Returning other c := by
  by_cases ho : other = thread
  · subst other
    simp [ConnectionHeap.Returning,ConnectionHeap.start,h]
  · simp [ConnectionHeap.Returning,ConnectionHeap.start,ho]

theorem ConnectionHeap.Owned.newHeld {s t : ConnectionHeap} {p : PoolId} (h : s.Owned p [])
    (hnext : t.next = s.next+1)
    (hclients : t.clients = Function.update s.clients s.next (s.clients s.next+1))
    (hpools : t.pools = s.pools) (htask : t.task = s.task)
    (hconns : ∀ other, other ≠ s.next → t.conns other = s.conns other)
    (hrefs : (t.conns s.next).refCount = 1) (hdeleted : (t.conns s.next).deleted = 0) :
    t.Owned p [] := by
  refine h.settle s.next ?_ ?_ ?_ (fun other _ thread => returning_of_task htask thread other)
    hpools hconns
  · intro place hat
    have habs := hat.eq_absent
    subst place
    have hzero := hat.clients_eq_zero (by simp)
    refine ⟨.held,at_of_off_list (hnext ▸ Nat.lt_succ_self _) (by simp) (by simp [hclients])
      ?_ ?_ (by simp) ?_
      (by simp) (by simp [hdeleted])⟩
    · intro thread
      rw [returning_of_task htask]
      simpa using hat.returning thread
    · intro q
      rw [idle_congr (s := s) (congrFun hpools q)]
      exact hat.off_list (by simp)
    · simp [hrefs,Place.refs,hclients,hzero]
  · intro other ho
    rw [hnext]
    exact ⟨Nat.le_of_succ_le,fun hle => Nat.lt_of_le_of_ne hle (Ne.symm ho)⟩
  · intro other ho
    rw [hclients,Function.update_of_ne ho]

/-- A client takes one more reference, or drops one that is not the last. -/
theorem ConnectionHeap.Owned.stillHeld {s t : ConnectionHeap} {p : PoolId} (h : s.Owned p [])
    {c : ConnId} {n : Nat} (hheld : s.clients c ≠ 0) (hpos : n ≠ 0) (hnext : t.next = s.next)
    (hclients : t.clients = Function.update s.clients c n)
    (hpools : t.pools = s.pools) (htask : t.task = s.task)
    (hconns : ∀ other, other ≠ c → t.conns other = s.conns other)
    (hrefs : (t.conns c).refCount = (s.conns c).refCount - s.clients c + n)
    (hdeleted : (t.conns c).deleted = (s.conns c).deleted) : t.Owned p [] := by
  refine h.settle c ?_ (fun _ _ => by rw [hnext]) ?_
    (fun other _ thread => returning_of_task htask thread other) hpools hconns
  · intro place hat
    have hplace := hat.eq_held hheld
    subst place
    have hlt : c < t.next := by
      rw [hnext]
      simpa using hat.absent
    refine ⟨.held,at_of_off_list hlt (by simp) ?_ ?_ ?_ (by simp) ?_ (by simp) ?_⟩
    · simp only [hclients,Function.update_self,true_iff]
      omega
    · intro thread
      rw [returning_of_task htask]
      simpa using hat.returning thread
    · intro q
      rw [idle_congr (s := s) (congrFun hpools q)]
      exact hat.off_list (by simp)
    · have hr := hat.refCount
      simp only [Place.refs] at hr
      simp only [hrefs,hr,Place.refs,hclients,Function.update_self]
      omega
    · rw [hdeleted,hat.deleted]
  · intro other ho
    rw [hclients,Function.update_of_ne ho]

/-- A connection at its last reference, or one just made, goes on its way to a pool
or is destroyed. -/
theorem ConnectionHeap.Owned.leave {s t : ConnectionHeap} {p : PoolId} (h : s.Owned p [])
    {c : ConnId} (place' : Place) (hfrom : s.clients c ≠ 0 ∨ c = s.next)
    (hto : place' = .destroyed ∨ ∃ thread, place' = .returning thread) (hlt : c < t.next)
    (hnext : ∀ other, other ≠ c → (t.next ≤ other ↔ s.next ≤ other))
    (hclients : t.clients = Function.update s.clients c 0)
    (hret : ∀ thread other, t.Returning thread other ↔
      (place' = .returning thread ∧ other = c) ∨ s.Returning thread other)
    (hpools : t.pools = s.pools) (hconns : ∀ other, other ≠ c → t.conns other = s.conns other)
    (hrefs : (t.conns c).refCount = 0) (hcleared : (t.conns c).connectionPool = none)
    (hdeleted : (t.conns c).deleted = if place' = .destroyed then 1 else 0) : t.Owned p [] := by
  refine h.settle c ?_ hnext ?_ ?_ hpools hconns
  · intro place hat
    have hplace : place = .held ∨ place = .absent := by
      rcases hfrom with hc | rfl
      · exact Or.inl (hat.eq_held hc)
      · exact Or.inr hat.eq_absent
    have hoff : ∀ q, c ∉ t.idle q := by
      intro q
      rw [idle_congr (s := s) (congrFun hpools q)]
      rcases hplace with rfl | rfl <;> exact hat.off_list (by simp)
    have hnot : ∀ thread, ¬ s.Returning thread c := by
      intro thread
      rcases hplace with rfl | rfl <;> simpa using hat.returning thread
    refine ⟨place',at_of_off_list hlt ?_ ?_ ?_ hoff ?_ ?_ (fun _ => hcleared) hdeleted⟩
    · rcases hto with rfl | ⟨thread,rfl⟩ <;> simp
    · rcases hto with rfl | ⟨thread,rfl⟩ <;> simp [hclients]
    · intro thread
      simp [hret,hnot]
    · rcases hto with rfl | ⟨thread,rfl⟩ <;> simp
    · rcases hto with rfl | ⟨thread,rfl⟩ <;> simp [hrefs,Place.refs]
  · intro other ho
    rw [hclients,Function.update_of_ne ho]
  · intro other ho thread
    simp [hret,ho]

theorem ConnectionHeap.Owned.keep {s t : ConnectionHeap} {p : PoolId} (h : s.Owned p [])
    (hnext : t.next = s.next) (hclients : t.clients = s.clients)
    (hidle : ∀ q, t.idle q = s.idle q)
    (hret : ∀ thread c, t.Returning thread c ↔ s.Returning thread c)
    (hconns : ∀ c, (t.conns c).refCount = (s.conns c).refCount ∧
      (t.conns c).connectionPool = (s.conns c).connectionPool ∧
      (t.conns c).deleted = (s.conns c).deleted) : t.Owned p [] :=
  h.same (fun c => ⟨by rw [hnext],by rw [hclients],fun thread => hret thread c,
    fun q => by simp only [ConnectionHeap.idleCount,hidle],(hconns c).1,(hconns c).2.1,
    (hconns c).2.2⟩)

theorem ConnectionHeap.Owned.start {s : ConnectionHeap} {p q : PoolId} (h : s.Owned p [])
    {thread : ThreadId} (hfree : s.task thread = none) {call : Call}
    (hcall : ∀ c now, call ≠ .put (some c) now) : (s.start thread q call).Owned p [] := by
  refine h.keep rfl rfl (fun _ => rfl) (fun other c => ?_) (fun c => ⟨rfl,rfl,rfl⟩)
  rw [returning_start hfree]
  constructor
  · rintro (⟨-,now,hput⟩ | hret)
    · exact absurd hput (hcall c now)
    · exact hret
  · exact Or.inr

/-- `Put` of a connection whose last reference is gone, or that has had none yet. -/
theorem put_owned {s u t : ConnectionHeap} {p q : PoolId} (h : s.Owned p []) {c : ConnId}
    (hfrom : s.clients c ≠ 0 ∨ c = s.next) {thread : ThreadId} (hfree : s.task thread = none)
    (hlt : c < u.next) (hnext : ∀ other, other ≠ c → (u.next ≤ other ↔ s.next ≤ other))
    (hclients : u.clients = Function.update s.clients c 0) (htask : u.task = s.task)
    (hpools : u.pools = s.pools) (hconns : ∀ other, other ≠ c → u.conns other = s.conns other)
    (hrefs : (u.conns c).refCount = 0) (hcleared : (u.conns c).connectionPool = none)
    (hdeleted : (u.conns c).deleted = 0) {now : Int}
    (hput : u.put thread q (some c) now = some t) : t.Owned p [] := by
  obtain ⟨hnone,-⟩ | ⟨d,hd,rfl⟩ | rfl := put_cases hput
  · cases hnone
  · obtain rfl := Option.some.inj hd
    refine h.leave .destroyed hfrom (Or.inl rfl) hlt hnext hclients ?_ hpools ?_
      ?_ ?_ ?_
    · intro other c'
      simp [ConnectionHeap.delete,ConnectionHeap.Returning,htask]
    · intro other ho
      simp [ConnectionHeap.delete,ConnectionHeap.modify,Function.update_of_ne ho,hconns other ho]
    · simp [ConnectionHeap.delete,hrefs]
    · simp [ConnectionHeap.delete,hcleared]
    · simp [ConnectionHeap.delete,hdeleted]
  · have hfree' : u.task thread = none := by rw [htask,hfree]
    refine h.leave (.returning thread) hfrom (Or.inr ⟨thread,rfl⟩) hlt hnext hclients
      ?_ hpools hconns hrefs hcleared (by simp [ConnectionHeap.start,hdeleted])
    intro other c'
    rw [returning_start hfree',returning_of_task htask]
    simp only [Call.put.injEq,Option.some.injEq,exists_and_left,exists_eq',and_true,
      Place.returning.injEq]
    rw [eq_comm (a := c) (b := c'),eq_comm (a := thread) (b := other)]

theorem addRefs_conns (s : ConnectionHeap) {entries : List Entry} {c : ConnId}
    (hc : c ∉ ids entries) : (s.addRefs entries).conns c = s.conns c := by
  induction entries generalizing s with
  | nil => rfl
  | cons e entries ih =>
    have hne : c ≠ e.dbConnection := fun heq => hc (heq ▸ List.mem_cons_self)
    have hrest : c ∉ ids entries := fun hmem => hc (List.mem_cons_of_mem _ hmem)
    have hhead : (s.addRef e.dbConnection).conns c = s.conns c := by
      simp [ConnectionHeap.addRef,ConnectionHeap.modify,Function.update_of_ne hne]
    exact (ih (s.addRef e.dbConnection) hrest).trans hhead

theorem returning_of_call {s : ConnectionHeap} {thread : ThreadId} {p : PoolId} {call : Call}
    (h : s.task thread = some (p,call)) (c : ConnId) :
    s.Returning thread c ↔ ∃ now, call = .put (some c) now := by
  simp [ConnectionHeap.Returning,h]

theorem unlock_returning (s : ConnectionHeap) (thread : ThreadId) (p : PoolId)
    (pool : ConnectionPool) (entries : List Entry) (other : ThreadId) (c : ConnId) :
    ((s.unlock thread p pool).addRefs entries).Returning other c ↔
      other ≠ thread ∧ s.Returning other c := by
  rw [returning_of_task (addRefs_frame _ _).task]
  by_cases ho : other = thread
  · simp [ConnectionHeap.Returning,ConnectionHeap.unlock,ho]
  · simp [ConnectionHeap.Returning,ConnectionHeap.unlock,ho]

theorem unlock_idleCount {s : ConnectionHeap} {p : PoolId} {call : Call} {pool : ConnectionPool}
    {r : Section} (hpool : s.pools p = some pool) (hr : r.Spec pool call) (thread : ThreadId)
    (q : PoolId) (c : ConnId) :
    ((s.unlock thread p r.pool).addRefs call.pushed).idleCount p
        (ids r.garbage ++ ids r.taken.toList) q c =
      s.idleCount p [] q c + if q = p then (ids call.pushed).count c else 0 := by
  have hpools : ((s.unlock thread p r.pool).addRefs call.pushed).pools =
      Function.update s.pools p (some r.pool) := (addRefs_frame _ _).pools
  by_cases hq : q = p
  · subst q
    have hidle : ((s.unlock thread p r.pool).addRefs call.pushed).idle p =
        ids r.pool.connectionPool := idle_eq (by rw [hpools,Function.update_self])
    have hperm := (hr.perm.map Entry.dbConnection).count_eq c
    simp only [List.map_append,List.count_append] at hperm
    simp only [ConnectionHeap.idleCount,if_true,List.count_append,List.count_nil,
      idle_eq (s := s) hpool,ids,hidle]
    omega
  · simp only [ConnectionHeap.idleCount,if_neg hq]
    rw [idle_congr (s := s) (by rw [hpools,Function.update_of_ne hq])]

/-- Behind the lock all is as before for a connection that the call does not push. -/
theorem unlock_agree {s : ConnectionHeap} {thread : ThreadId} {p : PoolId} {call : Call}
    {pool : ConnectionPool} {r : Section} (htask : s.task thread = some (p,call))
    (hpool : s.pools p = some pool) (hr : r.Spec pool call) {c : ConnId}
    (hc : c ∉ ids call.pushed) :
    s.Agree ((s.unlock thread p r.pool).addRefs call.pushed) p []
      (ids r.garbage ++ ids r.taken.toList) c := by
  have hframe := addRefs_frame (s.unlock thread p r.pool) call.pushed
  have hconns := addRefs_conns (s.unlock thread p r.pool) hc
  refine ⟨by rw [hframe.next]; rfl,by rw [hframe.clients]; rfl,?_,?_,by rw [hconns]; rfl,
    by rw [hconns]; rfl,by rw [hconns]; rfl⟩
  · intro other
    rw [unlock_returning]
    constructor
    · exact And.right
    · intro hs
      refine ⟨?_,hs⟩
      rintro rfl
      obtain ⟨now,rfl⟩ := (returning_of_call htask c).mp hs
      exact hc (by simp [ids,Call.pushed])
  · intro q
    rw [unlock_idleCount hpool hr,List.count_eq_zero_of_not_mem hc]
    simp

/-- The connection that a `Put` was given is on the list behind the lock. -/
theorem unlock_put {s : ConnectionHeap} {thread : ThreadId} {p : PoolId} {c : ConnId} {now : Int}
    {pool : ConnectionPool} {r : Section} {place : Place} (hat : s.At p [] c place)
    (htask : s.task thread = some (p,.put (some c) now)) (hpool : s.pools p = some pool)
    (hr : r.Spec pool (.put (some c) now)) :
    ((s.unlock thread p r.pool).addRefs (Call.put (some c) now).pushed).At p
      (ids r.garbage ++ ids r.taken.toList) c (.idle p) := by
  have hframe := addRefs_frame (s.unlock thread p r.pool) (Call.put (some c) now).pushed
  have hplace := (hat.returning thread).mpr ((returning_of_call htask c).mpr ⟨now,rfl⟩)
  subst place
  refine ⟨?_,?_,?_,?_,?_,?_,?_⟩
  · rw [hframe.next]
    simpa [ConnectionHeap.unlock] using hat.absent
  · rw [hframe.clients]
    simpa [ConnectionHeap.unlock] using hat.held
  · intro other
    have hret := hat.returning other
    simp only [Place.returning.injEq] at hret
    rw [unlock_returning,← hret]
    simp only [reduceCtorEq,false_iff,not_and]
    exact fun hne heq => hne heq.symm
  · intro q
    rw [unlock_idleCount hpool hr,hat.idle q]
    simp [ids,Call.pushed,eq_comm]
  · have hrefs := hat.refCount
    simp only [Place.refs] at hrefs ⊢
    simp [Call.pushed,ConnectionHeap.addRefs,ConnectionHeap.addRef,ConnectionHeap.unlock,hrefs]
  · have hc := hat.cleared (by simp)
    simpa [Call.pushed,ConnectionHeap.addRefs,ConnectionHeap.addRef,ConnectionHeap.unlock]
      using hc
  · have hd := hat.deleted
    simpa [Call.pushed,ConnectionHeap.addRefs,ConnectionHeap.addRef,ConnectionHeap.unlock]
      using hd

/-- Behind the lock: the entries a critical section removes are in its hands, and
what `Put` was given is an entry. -/
theorem unlock_owned {s : ConnectionHeap} {thread : ThreadId} {p : PoolId} {call : Call}
    {pool : ConnectionPool} {r : Section} (h : s.Owned p [])
    (htask : s.task thread = some (p,call)) (hpool : s.pools p = some pool)
    (hr : r.Spec pool call) :
    ((s.unlock thread p r.pool).addRefs call.pushed).Owned p
      (ids r.garbage ++ ids r.taken.toList) := by
  have hother := fun c => unlock_agree htask hpool hr (c := c)
  rcases call with now | ⟨_ | c,now⟩ | -
  · exact h.same (fun c => hother c (by simp [ids,Call.pushed]))
  · exact h.same (fun c => hother c (by simp [ids,Call.pushed]))
  · refine h.change c ?_ (fun other ho => hother other (by simpa [ids,Call.pushed] using ho))
    exact fun place hat => ⟨.idle p,unlock_put hat htask hpool hr⟩
  · exact h.same (fun c => hother c (by simp [ids,Call.pushed]))

theorem serve_owned {s : ConnectionHeap} {p : PoolId} {taken : Option Entry}
    (h : s.Owned p (ids taken.toList)) : (s.serve p taken).Owned p [] := by
  cases taken with
  | none =>
    refine ConnectionHeap.Owned.newHeld h rfl rfl rfl rfl ?_ ?_ ?_
    · intro other ho
      simp [ConnectionHeap.serve,ConnectionHeap.construct,ConnectionHeap.addRef,
        ConnectionHeap.modify,ConnectionHeap.hold,Function.update_of_ne ho]
    · simp [ConnectionHeap.serve,ConnectionHeap.construct,ConnectionHeap.addRef,
        ConnectionHeap.modify,ConnectionHeap.hold,DBConnection.new]
    · simp [ConnectionHeap.serve,ConnectionHeap.construct,ConnectionHeap.addRef,
        ConnectionHeap.modify,ConnectionHeap.hold,DBConnection.new]
  | some e =>
    refine h.change e.dbConnection ?_ ?_
    · intro place hat
      have htail := hat.idleCount_tail
      have hidle := hat.in_hand
      subst place
      have hzero := hat.clients_eq_zero (by simp)
      refine ⟨.held,⟨?_,?_,?_,?_,?_,by simp,?_⟩⟩
      · simpa [ConnectionHeap.serve,ConnectionHeap.hold] using hat.absent
      · simp [ConnectionHeap.serve,ConnectionHeap.hold]
      · intro thread
        simpa [ConnectionHeap.serve,ConnectionHeap.hold,ConnectionHeap.Returning] using
          hat.returning thread
      · exact htail
      · have hr := hat.refCount
        simp only [Place.refs] at hr
        simp [ConnectionHeap.serve,ConnectionHeap.hold,ConnectionHeap.modify,Place.refs,hr,hzero]
      · have hd := hat.deleted
        simp only [reduceCtorEq,if_false] at hd
        simp [ConnectionHeap.serve,ConnectionHeap.hold,ConnectionHeap.modify,hd]
    · intro other ho
      refine ⟨Iff.rfl,?_,fun _ => Iff.rfl,?_,?_,?_,?_⟩
      · simp [ConnectionHeap.serve,ConnectionHeap.hold,Function.update_of_ne ho]
      · intro q
        simp only [ConnectionHeap.idleCount,ids,Option.toList_some,List.map_cons,List.map_nil,
          List.count_cons_of_ne (Ne.symm ho),List.count_nil]
        rfl
      all_goals simp [ConnectionHeap.serve,ConnectionHeap.hold,ConnectionHeap.modify,
        Function.update_of_ne ho]

theorem enter_owned {s : ConnectionHeap} {thread : ThreadId} {p : PoolId} {call : Call}
    {pool : ConnectionPool} (h : s.Owned p []) (hsized : pool.Sized)
    (htask : s.task thread = some (p,call)) (hpool : s.pools p = some pool) :
    ∃ t, s.enter thread = some t ∧ t.Owned p [] := by
  obtain ⟨r,hr,hspec⟩ := locked_spec hsized call
  obtain ⟨u,hu,howned⟩ := discard_owned (unlock_owned h htask hpool hspec)
  refine ⟨u.finish p r.taken call,?_,?_⟩
  · simp [ConnectionHeap.enter,htask,hpool,hr,hu]
  · have hnone : (∀ now, call ≠ .get now) → r.taken = none := by
      intro hc
      by_contra htaken
      obtain ⟨now,hnow⟩ := hspec.taken (Option.isSome_iff_ne_none.mpr htaken)
      exact hc now hnow
    cases call with
    | get now => exact serve_owned howned
    | put connection now =>
      rw [hnone (by simp)] at howned
      exact howned
    | clear =>
      rw [hnone (by simp)] at howned
      exact howned

theorem release_owned {s t : ConnectionHeap} {p : PoolId} (h : s.Owned p []) {thread : ThreadId}
    {c : ConnId} {now : Int} (hfree : s.task thread = none) (hheld : s.clients c ≠ 0)
    (ht : s.act (.release thread c now) = some t) : t.Owned p [] := by
  obtain ⟨place,hat⟩ := h c
  have hplace := hat.eq_held hheld
  subst place
  have hrefs : ((s.drop c).conns c).refCount = s.clients c := hat.refCount
  have hlt : c < s.next := by simpa using hat.absent
  simp only [ConnectionHeap.act] at ht
  by_cases hone : s.clients c = 1
  · have hlast : ((s.drop c).conns c).refCount = 1 := by rw [hrefs,hone]; rfl
    have hclients : Function.update s.clients c (s.clients c-1) =
        Function.update s.clients c 0 := by rw [hone]
    have hdisposed : ((s.drop c).modify c DBConnection.disposed).Owned p [] := by
      refine h.leave .destroyed (Or.inl hheld) (Or.inl rfl) hlt (fun _ _ => Iff.rfl)
        hclients (fun _ _ => by simp [ConnectionHeap.Returning,ConnectionHeap.drop]) rfl ?_ ?_ ?_ ?_
      · intro other ho
        simp [ConnectionHeap.modify,ConnectionHeap.drop,Function.update_of_ne ho]
      · simp [DBConnection.disposed,hlast]
      · simp [DBConnection.disposed]
      · have hd := hat.deleted
        simp only [reduceCtorEq,if_false] at hd
        simp [DBConnection.disposed,ConnectionHeap.drop,hd]
    rw [release_last hlast] at ht
    cases hcp : ((s.drop c).conns c).connectionPool with
    | none =>
      simp only [hcp,Option.some.injEq] at ht
      exact ht ▸ hdisposed
    | some q =>
      simp only [hcp] at ht
      by_cases hrec : ((s.drop c).conns c).recyclable = true
      · rw [if_pos hrec] at ht
        refine put_owned (u := (s.drop c).modify c DBConnection.returned) h (Or.inl hheld) hfree
          hlt (fun _ _ => Iff.rfl) hclients rfl rfl ?_ ?_ ?_ ?_ ht
        · intro other ho
          simp [ConnectionHeap.modify,ConnectionHeap.drop,Function.update_of_ne ho]
        · simp [DBConnection.returned,hlast]
        · simp [DBConnection.returned]
        · simpa [DBConnection.returned,ConnectionHeap.drop] using hat.deleted
      · rw [if_neg hrec,Option.some.injEq] at ht
        exact ht ▸ hdisposed
  · have hshared : ((s.drop c).conns c).refCount ≠ 1 := by omega
    rw [release_shared hshared,Option.some.injEq] at ht
    subst t
    refine h.stillHeld (n := s.clients c-1) hheld (by omega) rfl rfl rfl rfl ?_ ?_ ?_
    · intro other ho
      simp [ConnectionHeap.modify,ConnectionHeap.drop,Function.update_of_ne ho]
    · simp only [modify_conns_self,ConnectionHeap.drop]
      have := hat.refCount
      simp only [Place.refs] at this
      omega
    · simp [ConnectionHeap.drop]

theorem connect_owned {s : ConnectionHeap} {p : PoolId} (h : s.Owned p []) :
    s.connect.Owned p [] := by
  refine h.newHeld rfl rfl rfl rfl ?_ ?_ ?_
  · intro other ho
    simp [ConnectionHeap.connect,ConnectionHeap.construct,ConnectionHeap.addRef,
      ConnectionHeap.modify,ConnectionHeap.hold,Function.update_of_ne ho]
  · simp [ConnectionHeap.connect,ConnectionHeap.construct,ConnectionHeap.addRef,
      ConnectionHeap.modify,ConnectionHeap.hold,DBConnection.new]
  · simp [ConnectionHeap.connect,ConnectionHeap.construct,ConnectionHeap.addRef,
      ConnectionHeap.modify,ConnectionHeap.hold,DBConnection.new]

theorem destroy_owned {s t : ConnectionHeap} {p q : PoolId} {pool : ConnectionPool}
    (h : s.Owned p []) (hpool : s.pools q = some pool)
    (ht : { s with pools := Function.update s.pools q none }.discard pool.connectionPool =
      some t) : t.Owned p [] := by
  have hgone : ({ s with pools := Function.update s.pools q none } : ConnectionHeap).Owned q
      (ids pool.connectionPool ++ []) := by
    refine h.anyPool.same (fun c => ⟨Iff.rfl,rfl,fun _ => Iff.rfl,?_,rfl,rfl,rfl⟩)
    intro r
    by_cases hr : r = q
    · subst r
      simp [ConnectionHeap.idleCount,ConnectionHeap.idle,hpool]
    · simp [ConnectionHeap.idleCount,ConnectionHeap.idle,hr]
  obtain ⟨t',ht',howned⟩ := discard_owned hgone
  rw [ht] at ht'
  cases ht'
  exact howned.anyPool

theorem step_owned {s t : ConnectionHeap} {p : PoolId} {a : PoolAct} (h : s.Owned p [])
    (hsized : s.Sized) (hs : s.step a = some t) : t.Owned p [] := by
  cases pool_step_to hs with
  | @create q _ _ _ hnew =>
    refine h.keep rfl rfl (fun r => ?_) (fun _ _ => Iff.rfl) (fun _ => ⟨rfl,rfl,rfl⟩)
    by_cases hr : r = q
    · subst r
      simp [ConnectionHeap.idle,hnew,ConnectionPool.create,ids]
    · simp [ConnectionHeap.idle,hr]
  | destroy hpool hdiscard => exact destroy_owned h hpool hdiscard
  | connect | openUnpooled => exact connect_owned h
  | @addRef c hheld =>
    refine h.stillHeld (n := s.clients c+1) hheld (by omega) rfl rfl rfl rfl ?_ ?_ ?_
    · intro other ho
      simp [ConnectionHeap.addRef,ConnectionHeap.modify,ConnectionHeap.hold,
        Function.update_of_ne ho]
    · simp only [ConnectionHeap.hold,ConnectionHeap.addRef,modify_conns_self]
      omega
    · simp [ConnectionHeap.hold,ConnectionHeap.addRef]
  | @operation c o =>
    have hf := throwGuard_frame s c o
    refine h.keep hf.next hf.clients (fun q => idle_congr (congrFun hf.pools q))
      (fun thread other => returning_of_task hf.task thread other) (fun other => ?_)
    by_cases ho : other = c
    · subst other
      cases hg : o.clears <;> simp [ConnectionHeap.throwGuard,hg]
    · cases hg : o.clears <;>
        simp [ConnectionHeap.throwGuard,hg,ConnectionHeap.modify,Function.update_of_ne ho]
  | @setRecyclable c v =>
    refine h.keep rfl rfl (fun _ => rfl) (fun _ _ => Iff.rfl) (fun other => ?_)
    by_cases ho : other = c
    · subst other
      simp
    · simp [ConnectionHeap.modify,Function.update_of_ne ho]
  | release hfree hheld hrelease => exact release_owned h hfree hheld hrelease
  | openPooled _ hfree | clear hfree => exact h.start hfree (by simp)
  | put hfree hput =>
    obtain ⟨place,hat⟩ := h s.next
    have habs := hat.eq_absent
    subst place
    have hzero := hat.clients_eq_zero (by simp)
    refine put_owned (u := s.construct.1) h (Or.inr rfl) hfree (Nat.lt_succ_self _) ?_ ?_ rfl rfl
      ?_ ?_ ?_ ?_ hput
    · intro other ho
      exact ⟨Nat.le_of_succ_le,fun hle => Nat.lt_of_le_of_ne hle (Ne.symm ho)⟩
    · rw [← hzero,Function.update_eq_self]
      rfl
    · intro other ho
      simp [ConnectionHeap.construct,Function.update_of_ne ho]
    all_goals simp [ConnectionHeap.construct,DBConnection.new]
  | gc hfree hput =>
    obtain ⟨-,rfl⟩ | ⟨c,hc,-⟩ | rfl := put_cases hput
    · exact h
    · cases hc
    · exact h.start hfree (by simp)
  | enter henter =>
    obtain ⟨q,call,pool,r,u,htask,hpool,-,-,-⟩ := enter_eq_some henter
    obtain ⟨t',ht',howned⟩ := enter_owned h.anyPool (hsized q pool hpool) htask hpool
    rw [ht'] at henter
    cases henter
    exact howned.anyPool

theorem init_owned (p : PoolId) : ConnectionHeap.init.Owned p [] := by
  intro c
  refine ⟨.absent,?_,?_,?_,?_,?_,?_,?_⟩ <;>
    simp [ConnectionHeap.init,ConnectionHeap.Returning,ConnectionHeap.idleCount,
      ConnectionHeap.idle,Place.refs]

structure ConnectionHeap.Inv (s : ConnectionHeap) : Prop where
  sized : s.Sized
  owned : s.Owned 0 []

theorem inv_inductive : poolSystem.Inductive ConnectionHeap.Inv where
  init := ⟨sized_inductive.init,init_owned 0⟩
  step := fun s a t h hs => ⟨sized_inductive.step s a t h.sized hs,step_owned h.owned h.sized hs⟩

@[simp] theorem hold_clients (s : ConnectionHeap) (c : ConnId) :
    (s.hold c).clients = Function.update s.clients c (s.clients c+1) := rfl

theorem clients_update_le {s : ConnectionHeap} {c : ConnId} {n : Nat} (h : n ≤ s.clients c+1)
    (other : ConnId) : Function.update s.clients c n other ≤ s.clients other+1 := by
  by_cases ho : other = c
  · subst other
    simpa using h
  · rw [Function.update_of_ne ho]
    exact Nat.le_succ _

theorem step_clients {s t : ConnectionHeap} {a : PoolAct} (hs : s.step a = some t)
    (c : ConnId) : t.clients c ≤ s.clients c+1 := by
  cases pool_step_to hs with
  | create | setRecyclable | openPooled | clear => exact Nat.le_succ _
  | destroy _ hdiscard =>
    rw [(discard_frame hdiscard).clients]
    exact Nat.le_succ _
  | connect | addRef | openUnpooled => exact clients_update_le (Nat.le_refl _) c
  | operation o =>
    rw [(throwGuard_frame s _ o).clients]
    exact Nat.le_succ _
  | release _ _ hrelease =>
    rw [(release_approach hrelease).clients]
    exact clients_update_le (by omega) c
  | put _ hput | gc _ hput =>
    rw [(put_approach hput).clients]
    exact Nat.le_succ _
  | enter henter =>
    obtain ⟨q,call,pool,r,u,-,-,-,hu,rfl⟩ := enter_eq_some henter
    have hclients : u.clients = s.clients :=
      ((addRefs_frame _ _).trans (discard_frame hu)).clients
    cases call with
    | get now =>
      rw [ConnectionHeap.finish]
      cases r.taken with
      | none => exact hclients ▸ clients_update_le (s := u) (Nat.le_refl _) c
      | some e => exact hclients ▸ clients_update_le (s := u) (Nat.le_refl _) c
    | put connection now =>
      rw [ConnectionHeap.finish,hclients]
      · exact Nat.le_succ _
      · simp
    | clear =>
      rw [ConnectionHeap.finish,hclients]
      · exact Nat.le_succ _
      · simp

/-- A connection is out on a checkout: clients hold it, or the thread that dropped
it last is giving it back. -/
def ConnectionHeap.CheckedOut (s : ConnectionHeap) (c : ConnId) : Prop :=
  0 < s.clients c ∨ ∃ thread, s.Returning thread c

/-- Every connection made is checked out, idle, or destroyed; it is idle once, in one
pool, and detached from pools then; it is given back by one thread, after its clients
are done; and no thread at a lock is held up by what it has to do behind it. -/
structure ConnectionHeap.Exclusive (s : ConnectionHeap) : Prop where
  place : ∀ c, c < s.next →
    (s.CheckedOut c ∧ (∀ p, c ∉ s.idle p) ∧ (s.conns c).deleted = 0) ∨
    (¬ s.CheckedOut c ∧ (∃ p, c ∈ s.idle p) ∧ (s.conns c).deleted = 0) ∨
    (¬ s.CheckedOut c ∧ (∀ p, c ∉ s.idle p) ∧ (s.conns c).deleted = 1)
  once : ∀ c p, c ∈ s.idle p → (s.idle p).count c = 1 ∧ ∀ q, c ∈ s.idle q → q = p
  cleared : ∀ c p, c ∈ s.idle p → (s.conns c).connectionPool = none
  checkout : ∀ c thread, s.Returning thread c →
    s.clients c = 0 ∧ ∀ other, s.Returning other c → other = thread
  goesOn : ∀ thread p call pool, s.task thread = some (p,call) → s.pools p = some pool →
    ∃ t, s.step (.enter thread) = some t

/-- A connection that no client held goes to one caller, and is idle no longer. -/
def HandedOut (s t : ConnectionHeap) : Prop :=
  ∀ c, s.clients c = 0 → t.clients c ≠ 0 → t.clients c = 1 ∧ ∀ p, c ∉ t.idle p

theorem ConnectionHeap.At.mem_idle {s : ConnectionHeap} {p q : PoolId} {c : ConnId}
    {place : Place} (h : s.At p [] c place) : c ∈ s.idle q ↔ place = .idle q := by
  have hcount := h.idle q
  simp only [ConnectionHeap.idleCount,List.count_nil,ite_self,Nat.add_zero] at hcount
  rw [← List.count_pos_iff,hcount]
  by_cases hq : place = .idle q <;> simp [hq]

theorem ConnectionHeap.At.checkedOut {s : ConnectionHeap} {p : PoolId} {c : ConnId}
    {place : Place} (h : s.At p [] c place) :
    s.CheckedOut c ↔ place = .held ∨ ∃ thread, place = .returning thread := by
  simp only [ConnectionHeap.CheckedOut,h.held,h.returning]

theorem exclusive_of_inv {s : ConnectionHeap} (h : s.Inv) : s.Exclusive where
  place := by
    intro c hc
    obtain ⟨place,hat⟩ := h.owned c
    have hdeleted := hat.deleted
    simp only [hat.checkedOut,hat.mem_idle]
    cases place with
    | absent => exact absurd (hat.absent.mp rfl) (Nat.not_le.mpr hc)
    | held => exact Or.inl (by simpa using hdeleted)
    | returning thread => exact Or.inl (by simpa using hdeleted)
    | idle p => exact Or.inr (Or.inl (by simpa using hdeleted))
    | destroyed => exact Or.inr (Or.inr (by simpa using hdeleted))
  once := by
    intro c p hc
    obtain ⟨place,hat⟩ := h.owned c
    have hplace := hat.mem_idle.mp hc
    subst place
    refine ⟨?_,fun q hq => (Place.idle.inj (hat.mem_idle.mp hq)).symm⟩
    simpa [ConnectionHeap.idleCount] using hat.idle p
  cleared := by
    intro c p hc
    obtain ⟨place,hat⟩ := h.owned c
    exact hat.cleared (by simp [hat.mem_idle.mp hc])
  checkout := by
    intro c thread hret
    obtain ⟨place,hat⟩ := h.owned c
    have hplace := (hat.returning thread).mpr hret
    subst place
    exact ⟨hat.clients_eq_zero (by simp),
      fun other ho => (Place.returning.inj ((hat.returning other).mpr ho)).symm⟩
  goesOn := by
    intro thread p call pool htask hpool
    obtain ⟨t,ht,-⟩ := enter_owned h.owned.anyPool (h.sized p pool hpool) htask hpool
    exact ⟨t,by simpa [ConnectionHeap.step,ConnectionHeap.allows,PoolAct.caller,
      PoolAct.subject,ConnectionHeap.act] using ht⟩

/-- In every state of every run each connection is in exactly one place, and a
connection handed out is handed to one caller. -/
theorem connections_exclusive (as : List PoolAct) :
    poolSystem.Always ConnectionHeap.Exclusive as ∧
      poolSystem.Along (fun s _ t => HandedOut s t) as := by
  refine ⟨inv_inductive.always (fun _ => exclusive_of_inv) as,
    inv_inductive.along (fun s a t h hs c hzero hc => ?_) as⟩
  have hle := step_clients hs c
  obtain ⟨place,hat⟩ := (inv_inductive.step s a t h hs).owned c
  have hplace := hat.eq_held hc
  subst place
  refine ⟨by omega,fun p hp => ?_⟩
  have := hat.mem_idle.mp hp
  cases this

end MprMq.Db
