import MprMq.Db.ConnectionPlace
set_option autoImplicit false

/-! What counting references leaves alone: the flag that recycling looks at, and the
native handle of a connection. -/

namespace MprMq.Db
open MprMq.Lib

structure ConnectionHeap.Keeps (s t : ConnectionHeap) : Prop where
  recyclable : ∀ c, (t.conns c).recyclable = (s.conns c).recyclable
  nativeOpen : ∀ c, (t.conns c).nativeOpen = (s.conns c).nativeOpen

theorem ConnectionHeap.Keeps.refl (s : ConnectionHeap) : s.Keeps s :=
  ⟨fun _ => rfl,fun _ => rfl⟩

theorem ConnectionHeap.Keeps.trans {s t u : ConnectionHeap} (h : s.Keeps t) (h' : t.Keeps u) :
    s.Keeps u where
  recyclable := fun c => (h'.recyclable c).trans (h.recyclable c)
  nativeOpen := fun c => (h'.nativeOpen c).trans (h.nativeOpen c)

theorem ConnectionHeap.Keeps.of_conns {s t u : ConnectionHeap} (h : s.Keeps t)
    (hc : u.conns = t.conns) : s.Keeps u where
  recyclable := fun c => by rw [hc,h.recyclable]
  nativeOpen := fun c => by rw [hc,h.nativeOpen]

theorem modify_keeps (s : ConnectionHeap) (c : ConnId) {f : DBConnection → DBConnection}
    (hr : ∀ o, (f o).recyclable = o.recyclable) (hn : ∀ o, (f o).nativeOpen = o.nativeOpen) :
    s.Keeps (s.modify c f) := by
  constructor <;> intro d <;> by_cases hd : d = c
  · subst d
    simp [hr]
  · simp [ConnectionHeap.modify,Function.update_of_ne hd]
  · subst d
    simp [hn]
  · simp [ConnectionHeap.modify,Function.update_of_ne hd]

theorem addRef_keeps (s : ConnectionHeap) (c : ConnId) : s.Keeps (s.addRef c) :=
  modify_keeps s c (fun _ => rfl) (fun _ => rfl)

theorem release_keeps (s : ConnectionHeap) (c : ConnId) : s.Keeps (s.release c).1 := by
  have hdisposed : s.Keeps (s.modify c DBConnection.disposed) :=
    modify_keeps s c (fun _ => rfl) (fun _ => rfl)
  by_cases hlast : (s.conns c).refCount = 1
  · rw [release_last hlast]
    cases (s.conns c).connectionPool with
    | none => exact hdisposed
    | some p =>
      by_cases hr : (s.conns c).recyclable = true
      · simp only [hr,if_true]
        exact modify_keeps s c (fun _ => rfl) (fun _ => rfl)
      · simp only [hr]
        exact hdisposed
  · rw [release_shared hlast]
    exact modify_keeps s c (f := fun o => { o with refCount := o.refCount-1 })
      (fun _ => rfl) (fun _ => rfl)

theorem discard_keeps {s t : ConnectionHeap} {garbage : List Entry}
    (h : s.discard garbage = some t) : s.Keeps t := by
  induction garbage generalizing s with
  | nil =>
    simp only [ConnectionHeap.discard,Option.some.injEq] at h
    subst t
    exact .refl s
  | cons e garbage ih =>
    have hk := release_keeps s e.dbConnection
    simp only [ConnectionHeap.discard] at h
    cases hr : s.release e.dbConnection with
    | mk u pool =>
      rw [hr] at h hk
      cases pool with
      | none => exact hk.trans (ih h)
      | some p => cases h

theorem addRefs_keeps (s : ConnectionHeap) (entries : List Entry) :
    s.Keeps (s.addRefs entries) := by
  induction entries generalizing s with
  | nil => exact .refl s
  | cons e entries ih => exact (addRef_keeps s _).trans (ih _)

theorem put_keeps_fields {s t : ConnectionHeap} {thread : ThreadId} {p : PoolId}
    {connection : Option ConnId} {now : Int} (h : s.put thread p connection now = some t) :
    s.Keeps t := by
  obtain ⟨-,rfl⟩ | ⟨c,-,rfl⟩ | rfl := put_cases h
  · exact .refl t
  · exact modify_keeps s c (fun _ => rfl) (fun _ => rfl)
  · exact (ConnectionHeap.Keeps.refl s).of_conns rfl

def PoolAct.flag (c : ConnId) (old : Bool) : PoolAct → Bool
  | .operation d o => if d = c ∧ o.clears then false else old
  | .setRecyclable d v => if d = c then v else old
  | _ => old

/-- Only the two kinds of steps meant for it change the flag, none changes a handle,
and at most one connection is made, with its handle open. -/
structure PoolAct.Keeps (s : ConnectionHeap) (a : PoolAct) (t : ConnectionHeap) : Prop where
  recyclable : ∀ c, c ≠ s.next → (t.conns c).recyclable = a.flag c (s.conns c).recyclable
  nativeOpen : ∀ c, c ≠ s.next → (t.conns c).nativeOpen = (s.conns c).nativeOpen
  made : t.next = s.next ∨ t.next = s.next+1 ∧ (t.conns s.next).nativeOpen = true

theorem PoolAct.Keeps.of_keeps {s t : ConnectionHeap} {a : PoolAct} (h : s.Keeps t)
    (hnext : t.next = s.next) (ha : ∀ c old, a.flag c old = old) : a.Keeps s t where
  recyclable := fun c _ => (h.recyclable c).trans (ha c _).symm
  nativeOpen := fun c _ => h.nativeOpen c
  made := Or.inl hnext

theorem PoolAct.Keeps.of_construct {s t : ConnectionHeap} {a : PoolAct}
    (h : s.construct.1.Keeps t) (hnext : t.next = s.next+1)
    (ha : ∀ c old, a.flag c old = old) : a.Keeps s t where
  recyclable := fun c hc => by
    rw [h.recyclable,ha]
    simp [ConnectionHeap.construct,Function.update_of_ne hc]
  nativeOpen := fun c hc => by
    rw [h.nativeOpen]
    simp [ConnectionHeap.construct,Function.update_of_ne hc]
  made := Or.inr ⟨hnext,by
    rw [h.nativeOpen]
    simp [ConnectionHeap.construct,DBConnection.new]⟩

theorem connect_keeps (s : ConnectionHeap) : s.construct.1.Keeps s.connect :=
  (addRef_keeps s.construct.1 s.next).of_conns rfl

theorem serve_keeps (s : ConnectionHeap) (p : PoolId) (e : Entry) :
    s.Keeps (s.serve p (some e)) :=
  (modify_keeps s e.dbConnection (f := fun o => { o with connectionPool := some p })
    (fun _ => rfl) (fun _ => rfl)).of_conns rfl

theorem serve_new_keeps (s : ConnectionHeap) (p : PoolId) :
    s.construct.1.Keeps (s.serve p none) :=
  ((addRef_keeps s.construct.1 s.next).trans
    (modify_keeps (s.construct.1.addRef s.next) s.next
      (f := fun o => { o with connectionPool := some p }) (fun _ => rfl) (fun _ => rfl))).of_conns
    rfl

theorem step_keeps {s t : ConnectionHeap} {a : PoolAct} (hs : s.step a = some t) :
    a.Keeps s t := by
  cases pool_step_to hs with
  | create | openPooled | clear =>
    exact .of_keeps ⟨fun _ => rfl,fun _ => rfl⟩ rfl (fun _ _ => rfl)
  | destroy _ hdiscard =>
    have hk := discard_keeps hdiscard
    exact .of_keeps ⟨hk.recyclable,hk.nativeOpen⟩ (discard_frame hdiscard).next (fun _ _ => rfl)
  | connect | openUnpooled => exact .of_construct (connect_keeps s) rfl (fun _ _ => rfl)
  | @addRef d =>
    have hk := addRef_keeps s d
    exact .of_keeps ⟨hk.recyclable,hk.nativeOpen⟩ rfl (fun _ _ => rfl)
  | @operation d o =>
    refine ⟨fun c _ => ?_,fun c _ => ?_,Or.inl (throwGuard_frame s d o).next⟩
    · by_cases hd : d = c
      · subst d
        cases hg : o.clears <;> simp [ConnectionHeap.throwGuard,PoolAct.flag,hg]
      · cases hg : o.clears <;>
          simp [ConnectionHeap.throwGuard,hg,ConnectionHeap.modify,PoolAct.flag,
            Function.update_of_ne (Ne.symm hd),hd]
    · by_cases hd : d = c
      · subst d
        cases hg : o.clears <;> simp [ConnectionHeap.throwGuard,hg]
      · cases hg : o.clears <;>
          simp [ConnectionHeap.throwGuard,hg,ConnectionHeap.modify,
            Function.update_of_ne (Ne.symm hd)]
  | @setRecyclable d v =>
    refine ⟨fun c _ => ?_,fun c _ => ?_,Or.inl rfl⟩ <;> by_cases hd : d = c
    · subst d
      simp [PoolAct.flag]
    · simp [ConnectionHeap.modify,PoolAct.flag,Function.update_of_ne (Ne.symm hd),hd]
    · subst d
      simp
    · simp [ConnectionHeap.modify,Function.update_of_ne (Ne.symm hd)]
  | @release thread d now _ _ _ hrelease =>
    have hnext := (release_approach hrelease).next
    have hk := release_keeps (s.drop d) d
    simp only [ConnectionHeap.act] at hrelease
    cases hr : (s.drop d).release d with
    | mk u pool =>
      rw [hr] at hrelease hk
      have ht : u.Keeps t := by
        cases pool with
        | none =>
          simp only [Option.some.injEq] at hrelease
          subst t
          exact .refl u
        | some q => exact put_keeps_fields hrelease
      have hall := hk.trans ht
      exact .of_keeps ⟨hall.recyclable,hall.nativeOpen⟩ hnext (fun _ _ => rfl)
  | put _ hput =>
    exact .of_construct (put_keeps_fields hput) (put_approach hput).next (fun _ _ => rfl)
  | gc _ hput => exact .of_keeps (put_keeps_fields hput) (put_approach hput).next (fun _ _ => rfl)
  | @enter thread _ henter =>
    obtain ⟨q,call,pool,r,u,-,-,-,hu,rfl⟩ := enter_eq_some henter
    have hk := (addRefs_keeps _ _).trans (discard_keeps hu)
    have hnext : u.next = s.next := ((addRefs_frame _ _).trans (discard_frame hu)).next
    have hkept : s.Keeps u := ⟨hk.recyclable,hk.nativeOpen⟩
    cases call with
    | get now =>
      cases htaken : r.taken with
      | none =>
        have hserve := serve_new_keeps u q
        have hmade : PoolAct.Keeps u (.enter thread) (u.serve q none) :=
          .of_construct hserve rfl (fun _ _ => rfl)
        refine ⟨fun c hc => ?_,fun c hc => ?_,Or.inr ?_⟩
        · exact (hmade.recyclable c (by rw [hnext]; exact hc)).trans (hkept.recyclable c)
        · exact (hmade.nativeOpen c (by rw [hnext]; exact hc)).trans (hkept.nativeOpen c)
        · rw [← hnext]
          exact ⟨rfl,(hmade.made.resolve_left (by simp [ConnectionHeap.serve,
            ConnectionHeap.construct,ConnectionHeap.hold,ConnectionHeap.addRef])).2⟩
      | some e => exact .of_keeps (hkept.trans (serve_keeps u q e)) hnext (fun _ _ => rfl)
    | put connection now => exact .of_keeps hkept hnext (fun _ _ => rfl)
    | clear => exact .of_keeps hkept hnext (fun _ _ => rfl)

end MprMq.Db
