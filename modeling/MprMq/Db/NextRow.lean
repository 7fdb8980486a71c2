import MprMq.Db.Result
import Mathlib.Algebra.Group.Nat.Defs
set_option autoImplicit false

/-! HasNext against Next. -/

namespace MprMq.Db
open Lib

section positions
variable {σ : Type}

/-- After `k` calls of Next, HasNext tells whether the following one delivers a row. -/
def ResultDriver.Foretells (driver : ResultDriver σ) (k : Nat) (start : σ) : Prop :=
  ∃ s fetched s', afterCalls driver.next k start = .ok s ∧ driver.next s = .ok (fetched,s') ∧
    driver.hasNext s = fetched

/-- Row refuses a second row, and is else empty where there is none. -/
def ResultDriver.RowOf (driver : ResultDriver σ) (n : Nat) (start : σ) : Prop :=
  (2 ≤ n ∧ Result.row driver start = .ok (.error .multipleRowsQuery)) ∨
    (n < 2 ∧ ∃ result, Result.row driver start = .ok (.ok result) ∧
      (result.empty = false ↔ n = 1))

structure Counts (driver : ResultDriver σ) (n : Nat) (At : Nat → σ → Prop) : Prop where
  next : ∀ k s, At k s → ∃ s', driver.next s = .ok (decide (k < n),s') ∧ At (k+1) s'
  hasNext : ∀ k s, At k s → driver.hasNext s = decide (k%2^32 < n)

namespace Counts
variable {driver : ResultDriver σ} {n : Nat} {At : Nat → σ → Prop} {start : σ}

theorem after (h : Counts driver n At) (hstart : At 0 start) (k : Nat) :
    ∃ s, afterCalls driver.next k start = .ok s ∧ At k s := by
  have hstep : ∀ j s, At j s → ∃ fetched s', driver.next s = .ok (fetched,s') ∧ At (j+1) s' := by
    intro j s hs
    obtain ⟨s',hnext,hs'⟩ := h.next j s hs
    exact ⟨_,s',hnext,hs'⟩
  obtain ⟨s,hs,hat⟩ := afterCalls_reaches hstep k hstart
  rw [Nat.zero_add] at hat
  exact ⟨s,hs,hat⟩

theorem foretells_iff (h : Counts driver n At) (hstart : At 0 start) (k : Nat) :
    driver.Foretells k start ↔ k < n ∨ n ≤ k%2^32 := by
  obtain ⟨s,hs,hat⟩ := h.after hstart k
  obtain ⟨s',hnext,-⟩ := h.next k s hat
  have hmod := Nat.mod_le k (2^32)
  have hagree : driver.hasNext s = decide (k < n) ↔ k < n ∨ n ≤ k%2^32 := by
    rw [h.hasNext k s hat,decide_eq_decide]
    omega
  rw [← hagree]
  constructor
  · rintro ⟨t,fetched,t',ht,htnext,hfetched⟩
    cases hs.symm.trans ht
    cases hnext.symm.trans htnext
    exact hfetched
  · exact fun hfetched => ⟨s,_,s',hs,hnext,hfetched⟩

theorem rowOf (h : Counts driver n At) (hstart : At 0 start) : driver.RowOf n start := by
  obtain ⟨s,hnext,hs⟩ := h.next 0 start hstart
  have hmore : driver.hasNext s = decide (1 < n) := h.hasNext 1 s hs
  have hrow := Result.next_ok (r := Result.new start) rfl rfl hnext
  unfold ResultDriver.RowOf Result.row
  rw [hrow]
  rcases Nat.lt_trichotomy n 1 with hn | rfl | hn
  · cases Nat.lt_one_iff.mp hn
    exact .inr ⟨by decide,_,rfl,by simp [Result.empty]⟩
  · refine .inr ⟨by decide,⟨false,true,0,some s⟩,?_,iff_of_true rfl rfl⟩
    exact if_neg (by simp [hmore])
  · have hpos : decide (0 < n) = true := decide_eq_true (by omega)
    rw [hpos]
    exact .inl ⟨hn,if_pos (hmore.trans (decide_eq_true hn))⟩

end Counts

end positions

def StoreReply.rowCount : StoreReply → Nat
  | .stored res => res.rows.length
  | .nothing _ => 0

theorem toNat_succ {c : UInt32} {k : Nat} (h : c.toNat = k%2^32) :
    (c+1).toNat = (k+1)%2^32 := by
  rw [UInt32.toNat_add,h]
  simp

structure DirectAt (res : MysqlRes) (k : Nat) (r : MysqlDirectResult) : Prop where
  nativeResult : r.nativeResult = some res
  currentRow : r.currentRow.toNat = k%2^32
  ahead : r.ahead = res.rows.drop k

structure PreparedAt (res : MysqlRes) (k : Nat) (p : MysqlPreparedResult) : Prop where
  numRows : p.numRows = res.rows.length
  currentRow : p.currentRow.toNat = k%2^32
  ahead : p.ahead = res.rows.drop k

theorem direct_counts (res : MysqlRes) :
    Counts directResult res.rows.length (DirectAt res) where
  next k r h := by
    have hfetched : decide (r.ahead ≠ []) = decide (k < res.rows.length) := by simp [h.ahead]
    refine ⟨r.next.2,?_,?_⟩
    · simp only [directResult,MysqlDirectResult.next,h.nativeResult,hfetched]
    · simp only [MysqlDirectResult.next,h.nativeResult]
      exact ⟨rfl,toNat_succ h.currentRow,by rw [h.ahead,List.tail_drop]⟩
  hasNext k r h := by
    simp only [directResult,MysqlDirectResult.hasNext,h.nativeResult,h.currentRow]

/-- A statement without a stored result has no rows. -/
theorem nothing_counts : Counts directResult 0 fun _ r => r.nativeResult = none where
  next k r h := by
    refine ⟨r,?_,h⟩
    simp [directResult,MysqlDirectResult.next,h]
  hasNext k r h := by simp [directResult,MysqlDirectResult.hasNext,h]

theorem prepared_counts (res : MysqlRes) :
    Counts preparedResult res.rows.length (PreparedAt res) where
  next k p h := by
    have hfetched : decide (p.ahead ≠ []) = decide (k < res.rows.length) := by simp [h.ahead]
    have htail : p.ahead.tail = res.rows.drop (k+1) := by rw [h.ahead,List.tail_drop]
    refine ⟨p.next.2,?_,?_⟩
    · rw [← hfetched]
      simp only [preparedResult,MysqlPreparedResult.next]
      cases p.ahead <;> rfl
    · simp only [MysqlPreparedResult.next]
      cases hrows : p.ahead with
      | nil =>
        rw [hrows] at htail
        exact ⟨h.numRows,toNat_succ h.currentRow,hrows.trans htail⟩
      | cons row rest =>
        rw [hrows] at htail
        exact ⟨h.numRows,toNat_succ h.currentRow,htail⟩
  hasNext k p h := by
    simp only [preparedResult,MysqlPreparedResult.hasNext,h.currentRow,h.numRows]

/-- HasNext is right until the counter comes round, and Row is right about every result. -/
theorem next_row_status (reply : StoreReply) (result : MysqlRes) :
    (∀ start, MysqlDirectResult.new reply = .ok start →
      (∀ k, directResult.Foretells k start ↔
        k < reply.rowCount ∨ reply.rowCount ≤ k%2^32) ∧
      directResult.RowOf reply.rowCount start) ∧
    (∀ k, preparedResult.Foretells k (MysqlPreparedResult.new result) ↔
      k < result.rows.length ∨ result.rows.length ≤ k%2^32) ∧
    preparedResult.RowOf result.rows.length (MysqlPreparedResult.new result) := by
  constructor
  · intro start hnew
    cases reply with
    | stored res =>
      cases hnew
      have hstart : DirectAt res 0 ⟨some res,res.fields.length,0,none,res.rows⟩ :=
        ⟨rfl,rfl,rfl⟩
      exact ⟨(direct_counts res).foretells_iff hstart,(direct_counts res).rowOf hstart⟩
    | nothing fieldCount =>
      have hstart : start.nativeResult = none := by
        simp only [MysqlDirectResult.new,check_bind] at hnew
        split at hnew
        · cases hnew
          rfl
        · cases hnew
      exact ⟨nothing_counts.foretells_iff hstart,nothing_counts.rowOf hstart⟩
  · have hstart : PreparedAt result 0 (MysqlPreparedResult.new result) := ⟨rfl,rfl,rfl⟩
    exact ⟨(prepared_counts result).foretells_iff hstart,(prepared_counts result).rowOf hstart⟩

def oneRow : MysqlRes := ⟨[['i','d']],[[some ['7']]],by decide⟩

theorem one_row_foretold : ∃ start, MysqlDirectResult.new (.stored oneRow) = .ok start ∧
    directResult.Foretells 1 start ∧ directResult.RowOf 1 start := by
  obtain ⟨hforetells,hrow⟩ := (next_row_status (.stored oneRow) oneRow).1 _ rfl
  exact ⟨_,rfl,(hforetells 1).mpr (.inr (by decide)),hrow⟩

/-- After 2^32 calls HasNext promises the only row once more. -/
theorem counter_comes_round : ∃ start r r', MysqlDirectResult.new (.stored oneRow) = .ok start ∧
    afterCalls directResult.next (2^32) start = .ok r ∧ directResult.hasNext r = true ∧
    directResult.next r = .ok (false,r') := by
  have hcounts := direct_counts oneRow
  have hstart : DirectAt oneRow 0 ⟨some oneRow,1,0,none,oneRow.rows⟩ := ⟨rfl,rfl,rfl⟩
  obtain ⟨r,hr,hat⟩ := hcounts.after hstart (2^32)
  obtain ⟨r',hnext,-⟩ := hcounts.next _ r hat
  exact ⟨_,r,r',rfl,hr,hcounts.hasNext _ r hat,hnext⟩

end MprMq.Db
