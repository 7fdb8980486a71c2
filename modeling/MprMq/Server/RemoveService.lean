import MprMq.Lib.NodeList
import MprMq.Server.AmqpServer
set_option autoImplicit false

/-! `RemoveAsyncService` on the nodes of the list it erases from. -/

namespace MprMq.Server
open MprMq.Lib

def removeTurn (service : ServiceId) (list : NodeList ServiceExecutor) (totalTasks : Int)
    (it : Nat) : Access (NodeList ServiceExecutor × Int × Iterator) := do
  let executor ← list.get it
  if executor.service = service then
    let list ← list.erase it
    .ok (list,totalTasks-1,← list.next it)
  else .ok (list,totalTasks,← list.next it)

/-- The loop of RemoveAsyncService; `none` is a loop that has not ended in `n` turns. -/
def removeNodes (service : ServiceId) : Nat → NodeList ServiceExecutor → Int → Iterator →
    Option (Access (NodeList ServiceExecutor × Int))
  | _, list, totalTasks, none => some (.ok (list,totalTasks))
  | 0, _, _, some _ => none
  | n+1, list, totalTasks, some it =>
    match removeTurn service list totalTasks it with
    | .error fault => some (.error fault)
    | .ok (list,totalTasks,it) => removeNodes service n list totalTasks it

/-- RemoveAsyncService, with a turn of the loop for every node. -/
def removeAsyncNodes (service : ServiceId) (list : NodeList ServiceExecutor) (totalTasks : Int) :
    Option (Access (NodeList ServiceExecutor × Int)) :=
  removeNodes service list.nodes.length list totalTasks (NodeList.first list.nodes)

/-- The loop ends, follows no iterator to an erased node, leaves the executors of the other
services and has counted the removed ones. -/
def Removes (service : ServiceId) (list : NodeList ServiceExecutor) (totalTasks : Int) : Prop :=
  ∃ list' totalTasks',
    removeAsyncNodes service list totalTasks = some (.ok (list',totalTasks')) ∧
    list'.values = list.values.filter (fun e => e.service ≠ service) ∧
    totalTasks' = totalTasks-list.values.countP (fun e => e.service = service)

section loop
variable {service : ServiceId} {list : NodeList ServiceExecutor}
  {pre post : List (Node ServiceExecutor)} {node : Node ServiceExecutor}

theorem removeTurn_other (h : list.nodes = pre ++ node :: post)
    (hother : node.value.service ≠ service) (totalTasks : Int) :
    removeTurn service list totalTasks node.address =
      .ok (list,totalTasks,NodeList.first post) := by
  rw [removeTurn,NodeList.get_eq h]
  change (if node.value.service = service then _ else _) = _
  rw [if_neg hother,NodeList.next_eq h]
  rfl

theorem removeTurn_found (h : list.nodes = pre ++ node :: post)
    (hfound : node.value.service = service) (totalTasks : Int) :
    removeTurn service list totalTasks node.address = .error .outside := by
  obtain ⟨list',herase,-,hnext⟩ := NodeList.erase_eq h
  rw [removeTurn,NodeList.get_eq h]
  change (if node.value.service = service then _ else _) = _
  rw [if_pos hfound,herase]
  change (list'.next node.address >>= _) = _
  rw [hnext]
  rfl

/-- The loop passes the nodes of other services, and faults at the first of the service. -/
theorem removeNodes_eq (totalTasks : Int) {rest : List (Node ServiceExecutor)}
    (h : list.nodes = pre ++ rest) {n : Nat} (hn : rest.length ≤ n) :
    removeNodes service n list totalTasks (NodeList.first rest) =
      some (if ∃ node ∈ rest, node.value.service = service then .error .outside
        else .ok (list,totalTasks)) := by
  induction rest generalizing pre n with
  | nil => cases n <;> simp [removeNodes,NodeList.first]
  | cons node rest ih =>
    obtain ⟨n,rfl⟩ : ∃ m, n = m+1 := ⟨n-1,by simp at hn; omega⟩
    change (match removeTurn service list totalTasks node.address with
      | Except.error fault => some (Except.error fault)
      | Except.ok (list,totalTasks,it) => removeNodes service n list totalTasks it) = _
    by_cases hfound : node.value.service = service
    · rw [removeTurn_found h hfound,if_pos ⟨node,List.mem_cons_self,hfound⟩]
    · have hrest : list.nodes = (pre ++ [node]) ++ rest := by rw [h,List.append_cons]
      rw [removeTurn_other h hfound]
      dsimp only
      rw [ih hrest (by simpa using hn)]
      simp [hfound]

theorem removeAsyncNodes_eq (service : ServiceId) (list : NodeList ServiceExecutor)
    (totalTasks : Int) : removeAsyncNodes service list totalTasks =
      some (if ∃ e ∈ list.values, e.service = service then .error .outside
        else .ok (list,totalTasks)) := by
  have hvalues : (∃ node ∈ list.nodes, node.value.service = service) ↔
      ∃ e ∈ list.values, e.service = service := by simp [NodeList.values]
  rw [removeAsyncNodes,removeNodes_eq totalTasks (List.nil_append _).symm (Nat.le_refl _)]
  simp only [hvalues]

end loop

/-- The loop works where it has nothing to remove. -/
theorem removes_iff_absent (service : ServiceId) (list : NodeList ServiceExecutor)
    (totalTasks : Int) :
    Removes service list totalTasks ↔ ∀ e ∈ list.values, e.service ≠ service := by
  unfold Removes
  rw [removeAsyncNodes_eq]
  constructor
  · rintro ⟨list',totalTasks',hloop,-⟩ e he hservice
    rw [if_pos ⟨e,he,hservice⟩] at hloop
    cases hloop
  · intro habsent
    have hnone : ¬ ∃ e ∈ list.values, e.service = service := by
      rintro ⟨e,he,hservice⟩
      exact habsent e he hservice
    refine ⟨list,totalTasks,by rw [if_neg hnone],?_,?_⟩
    · exact (List.filter_eq_self.mpr fun e he => decide_eq_true (habsent e he)).symm
    · rw [List.countP_eq_zero.mpr fun e he => by simpa using habsent e he]
      simp

theorem removeLoop_absent {service : ServiceId} {list : List ServiceExecutor}
    (h : ∀ e ∈ list, e.service ≠ service) (totalTasks : Int) :
    removeLoop service list totalTasks = (list,totalTasks) := by
  induction list with
  | nil => rfl
  | cons e list ih =>
    rw [removeLoop,if_neg (h e List.mem_cons_self),
      ih fun e' he' => h e' (List.mem_cons_of_mem e he')]

/-- Where RemoveAsyncService ends, it does what it does to the list of values. -/
theorem removeAsyncNodes_refines {service : ServiceId} {list list' : NodeList ServiceExecutor}
    {s : AmqpServer} {totalTasks' : Int} (hlist : s.serviceExecutorList = list.values)
    (h : removeAsyncNodes service list s.totalTasks = some (.ok (list',totalTasks'))) :
    (s.removeAsyncService service).1.serviceExecutorList = list'.values ∧
      (s.removeAsyncService service).1.totalTasks = totalTasks' := by
  rw [removeAsyncNodes_eq] at h
  split at h
  · cases h
  · rename_i hnone
    cases h
    have habsent : ∀ e ∈ list.values, e.service ≠ service :=
      fun e he hservice => hnone ⟨e,he,hservice⟩
    simp [AmqpServer.removeAsyncService,hlist,removeLoop_absent habsent]

/-- To remove the only service is to step off an erased node. -/
theorem only_service_faults : removeAsyncNodes 7 ⟨[⟨0,⟨1,7⟩⟩],by decide⟩ 1 =
    some (.error .outside) := rfl

end MprMq.Server
