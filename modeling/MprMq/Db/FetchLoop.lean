import MprMq.Db.PreparedBuffers
import MprMq.Db.Result
set_option autoImplicit false

/-! The loop over the rows of a prepared result, by what `mysql_stmt_fetch` returns. -/

namespace MprMq.Db
open Lib

def fetchingResult (leftover : Nat → Leftover) (replies : Nat → FetchReply) :
    ResultDriver (Nat × PreparedBuffers) where
  next := fun (k,p) => do
    let (fetched,p') ← p.next (leftover k) (replies k)
    .ok (fetched,(k+1,p'))
  hasNext := fun (_,p) => p.hasNext

def Result.returned {σ : Type} (driver : ResultDriver σ) (r : Result σ) (k : Nat) :
    Access Bool := do
  let r ← afterCalls (Result.next driver) k r
  .ok (← r.next driver).1

def FetchReply.Delivers : FetchReply → Prop
  | .row _ => True
  | .truncated _ => True
  | .noData => False
  | .error => False

def FetchReply.fetched : FetchReply → Bool
  | .noData => false
  | _ => true

/-- A loop `while (result.Next())` handles the rows that have been delivered, and ends. -/
structure HandlesRows (replies : Nat → FetchReply) (returned : Nat → Access Bool) : Prop where
  only : ∀ k, returned k = .ok true → (replies k).Delivers
  all : ∀ k, (∀ j, j < k → returned j = .ok true) → (replies k).Delivers → returned k = .ok true
  error : ∀ e k, e ≤ k → replies e = .error → returned k ≠ .ok true
  ends : ∀ k, ¬ (replies k).Delivers → ∃ j, j ≤ k ∧ returned j = .ok false

section total

theorem fill_buf_ok (data : BoundData) (field : Field) :
    ∃ data', data.fill ⟨.buf,kBindDataBufferLength⟩ field = .ok data' := by
  cases field with
  | none => exact ⟨_,rfl⟩
  | some value =>
    obtain ⟨buf,hput,-⟩ := data.put_buf (List.length_take_le kBindDataBufferLength value)
    exact ⟨_,by simp only [BoundData.fill,hput]; rfl⟩

theorem refetch_ok (b : Bound) (field : Field) : ∃ b', b.refetch field = .ok b' := by
  unfold Bound.refetch
  split
  · cases field with
    | none => exact ⟨_,rfl⟩
    | some value =>
      have hlength : (value.take b.data.length).length ≤
          (b.data.resizeVbuf b.data.length).vbuf.length := by
        rw [b.data.resizeVbuf_length]
        exact List.length_take_le _ _
      have hput := Buffer.put_at_start hlength
      exact ⟨_,by simp only [BoundData.fill,BoundData.put,hput]; rfl⟩
  · exact ⟨b,rfl⟩

theorem overRow_total {f : Bound → Field → Access Bound} {P : Bound → Prop}
    (h : ∀ b field, P b → ∃ b', f b field = .ok b') {bounds : List Bound}
    (hP : ∀ b ∈ bounds, P b) (fields : List Field) :
    ∃ bounds', overRow f bounds fields = .ok bounds' := by
  induction bounds generalizing fields with
  | nil => exact ⟨[],by cases fields <;> rfl⟩
  | cons b bounds ih =>
    cases fields with
    | nil => exact ⟨_,rfl⟩
    | cons field fields =>
      obtain ⟨b',hf⟩ := h b field (hP b List.mem_cons_self)
      obtain ⟨bounds',hrest⟩ := ih (fun c hc => hP c (List.mem_cons_of_mem b hc)) fields
      refine ⟨b' :: bounds',?_⟩
      simp only [overRow,hf,hrest]
      rfl

/-- Next never writes beside its buffers, and all it returns is whether there was no data. -/
theorem next_total (leftover : Leftover) (reply : FetchReply) (p : PreparedBuffers) :
    ∃ p', p.next leftover reply = .ok (reply.fetched,p') := by
  have hfresh : ∀ b ∈ (p.reset leftover).bounds, b.bind = ⟨.buf,kBindDataBufferLength⟩ := by
    simp only [PreparedBuffers.reset,List.mem_map]
    rintro b ⟨i,-,rfl⟩
    rfl
  have hfill (b : Bound) (field : Field) (hb : b.bind = ⟨.buf,kBindDataBufferLength⟩) :
      ∃ b', (do .ok ⟨b.bind,← b.data.fill b.bind field⟩ : Access Bound) = .ok b' := by
    obtain ⟨data,hdata⟩ := fill_buf_ok b.data field
    exact ⟨_,by rw [hb,hdata]; rfl⟩
  obtain ⟨bounds,hbounds⟩ := overRow_total hfill hfresh reply.fields
  simp only [PreparedBuffers.next]
  rw [hbounds]
  cases reply with
  | row fields => exact ⟨_,rfl⟩
  | truncated fields =>
    obtain ⟨bounds',hbounds'⟩ :=
      overRow_total (P := fun _ => True) (fun b field _ => refetch_ok b field)
        (fun b _ => trivial) fields
    refine ⟨{ p.reset leftover with currentRow := p.currentRow+1, bounds := bounds' },?_⟩
    change (overRow Bound.refetch bounds fields >>= _) = _
    rw [hbounds']
    rfl
  | noData => exact ⟨_,rfl⟩
  | error => exact ⟨_,rfl⟩

end total

section loop
variable {leftover : Nat → Leftover} {replies : Nat → FetchReply}

/-- Before the `i`-th call of Next, where the end of the data has or has not been reached. -/
def LoopAt (replies : Nat → FetchReply) (i : Nat) (r : Result (Nat × PreparedBuffers)) : Prop :=
  (r.eof = false ∧ (∃ p, r.dbResult = some (i,p)) ∧ ∀ j, j < i → (replies j).fetched = true) ∨
    (r.eof = true ∧ ∃ j, j < i ∧ (replies j).fetched = false)

theorem LoopAt.next {i : Nat} {r : Result (Nat × PreparedBuffers)} (h : LoopAt replies i r)
    (leftover : Nat → Leftover) :
    ∃ b r', r.next (fetchingResult leftover replies) = .ok (b,r') ∧ LoopAt replies (i+1) r' ∧
      (b = true ↔ ∀ j, j ≤ i → (replies j).fetched = true) := by
  rcases h with ⟨heof,⟨p,hp⟩,hrows⟩ | ⟨heof,j,hj,hend⟩
  · obtain ⟨p',hp'⟩ := next_total (leftover i) (replies i) p
    have hnext : (fetchingResult leftover replies).next (i,p) =
        .ok ((replies i).fetched,(i+1,p')) := by
      simp only [fetchingResult,hp']
      rfl
    refine ⟨_,_,Result.next_ok heof hp hnext,?_,?_⟩
    · cases hfetched : (replies i).fetched with
      | true =>
        refine .inl ⟨rfl,⟨p',rfl⟩,fun j hj => ?_⟩
        rcases Nat.lt_succ_iff_lt_or_eq.mp hj with hj | rfl
        · exact hrows j hj
        · exact hfetched
      | false => exact .inr ⟨rfl,i,Nat.lt_succ_self i,hfetched⟩
    · constructor
      · intro hfetched j hj
        rcases Nat.lt_or_eq_of_le hj with hj | rfl
        · exact hrows j hj
        · exact hfetched
      · exact fun hall => hall i (Nat.le_refl i)
  · refine ⟨false,r,by rw [Result.next,if_pos heof],.inr ⟨heof,j,by omega,hend⟩,?_⟩
    refine iff_of_false (by decide) fun hall => ?_
    exact absurd (hall j (by omega)) (by simp [hend])

theorem LoopAt.afterCalls {i : Nat} {r : Result (Nat × PreparedBuffers)} (h : LoopAt replies i r)
    (leftover : Nat → Leftover) (k : Nat) :
    ∃ r', afterCalls (Result.next (fetchingResult leftover replies)) k r = .ok r' ∧
      LoopAt replies (i+k) r' := by
  refine afterCalls_reaches (fun i r h => ?_) k h
  obtain ⟨b,r',hnext,hr',-⟩ := h.next leftover
  exact ⟨b,r',hnext,hr'⟩

def UntilNoData (replies : Nat → FetchReply) (returned : Nat → Access Bool) : Prop :=
  ∀ k, ∃ b, returned k = .ok b ∧ (b = true ↔ ∀ j, j ≤ k → (replies j).fetched = true)

/-- Next returns true until there is no data. -/
theorem returned_eq (p : PreparedBuffers) : UntilNoData replies
    ((Result.new (0,p)).returned (fetchingResult leftover replies)) := by
  intro k
  have hstart : LoopAt replies 0 (Result.new (0,p)) :=
    .inl ⟨rfl,⟨p,rfl⟩,fun j hj => absurd hj (Nat.not_lt_zero j)⟩
  obtain ⟨r,hr,hat⟩ := hstart.afterCalls leftover k
  rw [Nat.zero_add] at hat
  obtain ⟨b,r',hnext,-,hb⟩ := hat.next leftover
  refine ⟨b,?_,hb⟩
  rw [Result.returned,hr]
  change (r.next _ >>= _) = _
  rw [hnext]
  rfl

theorem FetchReply.Delivers.fetched {reply : FetchReply} (h : reply.Delivers) :
    reply.fetched = true := by
  cases reply with
  | row => rfl
  | truncated => rfl
  | noData => exact h.elim
  | error => exact h.elim

theorem FetchReply.fetched_false {reply : FetchReply} (h : reply.fetched = false) :
    reply = .noData := by
  cases reply with
  | noData => rfl
  | row | truncated | error => cases h

theorem FetchReply.not_delivers {reply : FetchReply} (h : ¬ reply.Delivers) :
    reply = .noData ∨ reply = .error := by
  cases reply with
  | row | truncated => exact absurd trivial h
  | noData => exact .inl rfl
  | error => exact .inr rfl

namespace UntilNoData
variable {returned : Nat → Access Bool}

theorem returned_true (h : UntilNoData replies returned) (k : Nat) :
    returned k = .ok true ↔ ∀ j, j ≤ k → (replies j).fetched = true := by
  obtain ⟨b,hb,hiff⟩ := h k
  rw [hb,← hiff,Except.ok.injEq]

theorem not_returned (h : UntilNoData replies returned) {d k : Nat} (hdk : d ≤ k)
    (hd : replies d = .noData) : returned k ≠ .ok true := by
  intro hk
  have hfetched := (h.returned_true k).mp hk d hdk
  rw [hd] at hfetched
  cases hfetched

theorem returned_false (h : UntilNoData replies returned) {d : Nat} (hd : replies d = .noData) :
    returned d = .ok false := by
  obtain ⟨b,hb,-⟩ := h d
  cases b with
  | false => exact hb
  | true => exact absurd hb (h.not_returned (Nat.le_refl d) hd)

theorem handlesRows (h : UntilNoData replies returned)
    (herror : ∀ e, replies e = .error → ∃ d, d < e ∧ replies d = .noData) :
    HandlesRows replies returned := by
  have hbehind (e k : Nat) (hek : e ≤ k) (he : replies e = .error) : returned k ≠ .ok true := by
    obtain ⟨d,hd,hdata⟩ := herror e he
    exact h.not_returned (by omega) hdata
  constructor
  case only =>
    intro k hk
    by_contra hdelivers
    rcases FetchReply.not_delivers hdelivers with hdata | he
    · exact h.not_returned (Nat.le_refl k) hdata hk
    · exact hbehind k k (Nat.le_refl k) he hk
  case all =>
    intro k hbefore hdelivers
    refine (h.returned_true k).mpr fun j hj => ?_
    rcases Nat.lt_or_eq_of_le hj with hlt | rfl
    · exact (h.returned_true j).mp (hbefore j hlt) j (Nat.le_refl j)
    · exact hdelivers.fetched
  case error => exact hbehind
  case ends =>
    intro k hdelivers
    rcases FetchReply.not_delivers hdelivers with hdata | he
    · exact ⟨k,Nat.le_refl k,h.returned_false hdata⟩
    · obtain ⟨d,hd,hdata⟩ := herror k he
      exact ⟨d,by omega,h.returned_false hdata⟩

theorem handlesRows_iff (h : UntilNoData replies returned) : HandlesRows replies returned ↔
    ∀ e, replies e = .error → ∃ d, d < e ∧ replies d = .noData := by
  refine ⟨fun hhandles e herror => ?_,h.handlesRows⟩
  by_contra hnone
  refine hhandles.error e e (Nat.le_refl e) herror ((h.returned_true e).mpr fun j hj => ?_)
  by_contra hend
  have hj' := FetchReply.fetched_false (Bool.eq_false_iff.mpr hend)
  rcases Nat.lt_or_eq_of_le hj with hlt | rfl
  · exact hnone ⟨j,hlt,hj'⟩
  · cases herror.symm.trans hj'

end UntilNoData

end loop

/-- The loop handles the rows delivered just when it meets no error before the end of the data. -/
theorem fetch_loop_rows (res : MysqlRes) (leftover : Nat → Leftover)
    (replies : Nat → FetchReply) :
    HandlesRows replies ((Result.new (0,PreparedBuffers.new res)).returned
        (fetchingResult leftover replies)) ↔
      ∀ e, replies e = .error → ∃ d, d < e ∧ replies d = .noData :=
  (returned_eq (PreparedBuffers.new res)).handlesRows_iff

/-- After an error Next goes on to return true, without end. -/
theorem errors_taken_for_rows : ∃ (res : MysqlRes) (leftover : Nat → Leftover), ∀ k,
    (Result.new (0,PreparedBuffers.new res)).returned
      (fetchingResult leftover fun _ => .error) k = .ok true := by
  refine ⟨⟨[],[],fun _ h => absurd h List.not_mem_nil⟩,
    fun _ _ => ⟨List.replicate kBindDataBufferLength '\x00',rfl⟩,fun k => ?_⟩
  obtain ⟨b,hb,hiff⟩ := returned_eq _ k
  rw [hb,hiff.mpr fun _ _ => rfl]

end MprMq.Db
