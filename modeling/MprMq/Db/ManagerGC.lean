import Mathlib.Data.List.Induction
import MprMq.Db.PoolSystem
set_option autoImplicit false

/-! The second loop of `ConnectionManager::GC`, which drops the pools that nothing
but the map refers to. -/

namespace MprMq.Db

abbrev Connection := Text × PoolId

/-- What the loop leaves: the map, the local `pools`, and the entries it looked at. -/
structure Sweep where
  connections : List Connection
  pools : List PoolId
  visited : List Connection
  deriving DecidableEq, Repr

/-- `HasOneRef` of a pool that `outside` refers to so often, besides the map and the
local `pools`. -/
def hasOneRef (outside : PoolId → Nat) (connections : List Connection) (pools : List PoolId)
    (pool : PoolId) : Bool :=
  outside pool + (connections.map Prod.snd).count pool + pools.count pool = 1

/-- The loop, with the iterator between the entries it has passed and the rest. Both
branches of the body advance it, and so does the header of the loop; `none` is the
advance from `end()`. -/
def sweepLoop (outside : PoolId → Nat) :
    List Connection → List PoolId → List Connection → List Connection → Option Sweep
  | passed, pools, visited, [] => some ⟨passed,pools,visited⟩
  | passed, pools, visited, it :: rest =>
    let one := hasOneRef outside (passed ++ it :: rest) pools it.2
    let passed' := if one then passed else passed ++ [it]
    let pools' := if one then pools ++ [it.2] else pools
    match rest with
    | [] => none
    | skipped :: rest => sweepLoop outside (passed' ++ [skipped]) pools' (visited ++ [it]) rest

def sweep (outside : PoolId → Nat) (connections : List Connection) : Option Sweep :=
  sweepLoop outside [] [] [] connections

/-- Every entry is visited once, no iterator passes the end, and the entries left are
those whose pool something else refers to. -/
def SweepsAll (outside : PoolId → Nat) (connections : List Connection) : Prop :=
  ∃ r, sweep outside connections = some r ∧ r.visited.Perm connections ∧
    r.connections = connections.filter (fun e => ¬ hasOneRef outside connections [] e.2)

/-- A loop that comes to its end has looked at every second entry. -/
theorem sweepLoop_visited (outside : PoolId → Nat) {passed visited rest : List Connection}
    {pools : List PoolId} {r : Sweep}
    (h : sweepLoop outside passed pools visited rest = some r) :
    r.visited.length * 2 = visited.length * 2 + rest.length := by
  induction rest using List.twoStepInduction generalizing passed pools visited with
  | nil =>
    simp only [sweepLoop,Option.some.injEq] at h
    subst r
    rfl
  | singleton it => simp [sweepLoop] at h
  | cons_cons it skipped rest ih _ =>
    simp only [sweepLoop] at h
    have hlen := ih h
    simp only [List.length_append,List.length_cons,List.length_nil] at hlen ⊢
    omega

theorem sweeps_all_iff (outside : PoolId → Nat) (connections : List Connection) :
    SweepsAll outside connections ↔ connections = [] := by
  constructor
  · rintro ⟨r,hr,hvisited,-⟩
    have hlen := sweepLoop_visited outside hr
    rw [hvisited.length_eq,List.length_nil] at hlen
    exact List.length_eq_zero_iff.mp (by omega)
  · rintro rfl
    exact ⟨⟨[],[],[]⟩,rfl,List.Perm.refl _,rfl⟩

theorem one_pool_not_swept : ¬ SweepsAll (fun _ => 0) [("a".toList,0)] := by
  rintro ⟨r,hr,-⟩
  cases hr

end MprMq.Db
