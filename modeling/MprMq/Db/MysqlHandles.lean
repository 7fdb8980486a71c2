import MprMq.Db.ConnectionFlags
import MprMq.Db.ConnectionManager
set_option autoImplicit false

/-! The native handles of `MysqlConnection`: opened by the constructor, and left open
by `~MysqlConnection() {}`. -/

namespace MprMq.Db
open MprMq.Lib

def ConnectionHeap.openHandles (s : ConnectionHeap) : List ConnId :=
  (List.range s.next).filter (fun c => (s.conns c).nativeOpen)

def ConnectionHeap.alive (s : ConnectionHeap) : List ConnId :=
  (List.range s.next).filter (fun c => (s.conns c).deleted = 0)

def Destroys (s t : ConnectionHeap) : Prop :=
  ∃ c, (s.conns c).deleted < (t.conns c).deleted

def ConnectionHeap.HandlesOpen (s : ConnectionHeap) : Prop :=
  ∀ c, c < s.next → (s.conns c).nativeOpen = true

theorem handles_inductive : poolSystem.Inductive ConnectionHeap.HandlesOpen where
  init := fun c hc => absurd hc (Nat.not_lt_zero c)
  step := by
    intro s a t h hs c hc
    have hk := step_keeps hs
    by_cases hnew : c = s.next
    · subst c
      rcases hk.made with hsame | ⟨-,hopen⟩
      · rw [hsame] at hc
        exact absurd hc (Nat.lt_irrefl _)
      · exact hopen
    · rw [hk.nativeOpen c hnew]
      apply h c
      rcases hk.made with hsame | ⟨hmade,-⟩
      · rw [hsame] at hc
        exact hc
      · rw [hmade] at hc
        exact Nat.lt_of_le_of_ne (Nat.le_of_lt_succ hc) hnew

theorem openHandles_length {s : ConnectionHeap} (h : s.HandlesOpen) :
    s.openHandles.length = s.next := by
  have hall : s.openHandles = List.range s.next := by
    apply List.filter_eq_self.mpr
    intro c hc
    exact h c (List.mem_range.mp hc)
  rw [hall,List.length_range]

theorem alive_length_lt {s : ConnectionHeap} {c : ConnId} (hc : c < s.next)
    (hd : (s.conns c).deleted ≠ 0) : s.alive.length < s.next := by
  have hlt := List.length_filter_lt_length_iff_exists
    (p := fun c => decide ((s.conns c).deleted = 0)) (l := List.range s.next)
  rw [List.length_range] at hlt
  exact hlt.mpr ⟨c,List.mem_range.mpr hc,by simpa using hd⟩

def ConnectionHeap.NoneDeleted (s : ConnectionHeap) : Prop :=
  ∀ c, (s.conns c).deleted = 0

theorem alive_length {s : ConnectionHeap} (h : s.NoneDeleted) : s.alive.length = s.next := by
  have hall : s.alive = List.range s.next := by
    apply List.filter_eq_self.mpr
    intro c _
    simpa using h c
  rw [hall,List.length_range]

/-- An object that is destroyed takes no handle with it. -/
theorem handles_exceed_of_destroys {s t : ConnectionHeap} (h : t.Inv) (hopen : t.HandlesOpen)
    (hd : Destroys s t) : t.alive.length < t.openHandles.length := by
  obtain ⟨c,hc⟩ := hd
  have hne : (t.conns c).deleted ≠ 0 := by omega
  have hlt : c < t.next := by
    obtain ⟨place,hat⟩ := h.owned c
    apply Nat.lt_of_not_le
    intro hle
    have hplace := hat.absent.mpr hle
    subst place
    exact hne hat.deleted
  rw [openHandles_length hopen]
  exact alive_length_lt hlt hne

/-- There are never more open handles than connection objects in the runs that
destroy no connection object, and in no others. -/
theorem handles_bounded_iff (as : List ManagerAct) :
    managerSystem.Along (fun _ _ t => t.heap.openHandles.length ≤ t.heap.alive.length) as ↔
      managerSystem.Along (fun m _ t => ¬ Destroys m.heap t.heap) as := by
  have hinv := heap_inductive inv_inductive
  have hopen := heap_inductive handles_inductive
  constructor
  · intro h
    refine h.guarded (I := fun m => m.heap.Inv ∧ m.heap.HandlesOpen) ?_
      ⟨hinv.init,hopen.init⟩
    rintro m a t ⟨hi,ho⟩ hs hle
    have ht := hinv.step m a t hi hs
    have hto := hopen.step m a t ho hs
    refine ⟨⟨ht,hto⟩,fun hd => ?_⟩
    have := handles_exceed_of_destroys ht hto hd
    omega
  · intro h
    refine h.guarded (I := fun m => m.heap.HandlesOpen ∧ m.heap.NoneDeleted) ?_
      ⟨hopen.init,fun _ => rfl⟩
    rintro m a t ⟨ho,hnone⟩ hs hd
    have hto := hopen.step m a t ho hs
    have htnone : t.heap.NoneDeleted := by
      intro c
      by_contra hne
      exact hd ⟨c,by rw [hnone c]; exact Nat.pos_of_ne_zero hne⟩
    refine ⟨⟨hto,htnone⟩,?_⟩
    rw [openHandles_length hto,alive_length htnone]

theorem closed_session_leaves_handle :
    ¬ managerSystem.Along (fun _ _ t => t.heap.openHandles.length ≤ t.heap.alive.length)
      ([.openString 1 "mysql:user=root".toList 0] ++ [ManagerAct.client (.release 1 0 0)]) := by
  intro h
  have hr := System.AlongFrom.after _ h rfl rfl
  revert hr
  decide

end MprMq.Db
