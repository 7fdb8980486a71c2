import MprMq.Db.BindAll
import MprMq.Db.SameValues
set_option autoImplicit false

/-! The columns that the Bind overloads of the two statement classes take. -/

namespace MprMq.Db
variable {Time Double : Type}

def placeholders (query : Text) : Nat := ordinal query query.length

/-- What a sequence of calls leaves, unless one of them fails a check. -/
def StatementDriver.after {σ : Type} (driver : StatementDriver σ Time Double) :
    σ → List (Memory × DBCall Time Double) → Option σ
  | st, [] => some st
  | st, (now,call) :: script =>
    (driver.call now st call).bind fun (_,st') => driver.after st' script

/-- The values bound one by one through `operator<<` of a new Statement. -/
def successive (args : List (Memory × Arg Time Double)) : List (Memory × DBCall Time Double) :=
  forwarded 1 (args.map fun (now,arg) => (now,.bindNext arg))

open MysqlDirectStatement in
/-- A column is taken just when it is one of the parameters, as the prepared statement does, and
then nothing but that parameter changes. -/
def ColumnTaken (client : Client Time Double) (now : Memory) (n : Nat) (col : Int)
    (arg : Arg Time Double) (st : MysqlDirectStatement) : Prop :=
  ((st.bind client now col arg).isSome ↔ 1 ≤ col ∧ col ≤ n) ∧
    (∀ prepared : MysqlPreparedStatement, prepared.paramsCount = n →
      ((st.bind client now col arg).isSome ↔ (prepared.bind client now col arg).isSome)) ∧
    ∀ st', st.bind client now col arg = some st' →
      st' = { st with params := st.params.set (col-1).toNat (literal client now arg) }

open MysqlDirectStatement in
/-- Binding all columns in turn passes and sets all parameters. -/
def AllBound (client : Client Time Double) (args : List (Memory × Arg Time Double))
    (st : MysqlDirectStatement) : Prop :=
  ∃ st', (directDriver client).after st (successive args) = some st' ∧
    st'.params = args.map fun (now,arg) => literal client now arg

theorem atColumn_isSome (st : MysqlDirectStatement) (col : Int) :
    (st.atColumn col).isSome ↔ 1 < col ∧ col < st.paramsNo := by
  unfold MysqlDirectStatement.atColumn
  split <;> simp_all

theorem prepared_takes (client : Client Time Double) (now : Memory) (col : Int)
    (arg : Arg Time Double) (prepared : MysqlPreparedStatement) :
    (prepared.bind client now col arg).isSome ↔ 1 ≤ col ∧ col ≤ prepared.paramsCount := by
  unfold MysqlPreparedStatement.bind MysqlPreparedStatement.atColumn
  split <;> simp_all

theorem direct_takes (client : Client Time Double) (now : Memory) (col : Int)
    (arg : Arg Time Double) (st : MysqlDirectStatement) :
    (st.bind client now col arg).isSome ↔ 1 < col ∧ col < st.paramsNo := by
  rw [MysqlDirectStatement.bind,Option.isSome_map,atColumn_isSome]

theorem bind_changes {client : Client Time Double} {now : Memory} {col : Int}
    {arg : Arg Time Double} {st st' : MysqlDirectStatement}
    (h : st.bind client now col arg = some st') :
    st' = { st with
      params := st.params.set (col-1).toNat (MysqlDirectStatement.literal client now arg) } := by
  obtain ⟨i,hi,rfl⟩ := Option.map_eq_some_iff.mp h
  unfold MysqlDirectStatement.atColumn at hi
  split at hi
  · cases hi
    rfl
  · cases hi

theorem columnTaken_iff (client : Client Time Double) (now : Memory) {n : Nat} (col : Int)
    (arg : Arg Time Double) {st : MysqlDirectStatement} (hn : st.paramsNo = n) :
    ColumnTaken client now n col arg st ↔ n = 0 ∨ (col ≠ 1 ∧ col ≠ n) := by
  have htakes := direct_takes client now col arg st
  constructor
  · rintro ⟨htaken,-,-⟩
    rw [htakes] at htaken
    omega
  · intro hcol
    have htaken : (st.bind client now col arg).isSome ↔ 1 ≤ col ∧ col ≤ n := by
      rw [htakes]
      omega
    refine ⟨htaken,fun prepared hprepared => ?_,fun st' => bind_changes⟩
    rw [htaken,prepared_takes,hprepared]

/-- The first column is never taken. -/
theorem after_first (client : Client Time Double) (now : Memory) (arg : Arg Time Double)
    (args : List (Memory × Arg Time Double)) (st : MysqlDirectStatement) :
    (directDriver client).after st (successive ((now,arg) :: args)) = none := by
  have hnone : st.bind client now 1 arg = none := by
    rw [← Option.not_isSome_iff_eq_none,direct_takes]
    omega
  simp [successive,forwarded,StatementCall.forward,StatementDriver.after,StatementDriver.call,
    directDriver,hnone]

theorem allBound_iff (client : Client Time Double) (args : List (Memory × Arg Time Double))
    {st : MysqlDirectStatement} (h : st.params.length = args.length) :
    AllBound client args st ↔ args.length = 0 := by
  cases args with
  | nil =>
    refine iff_of_true ⟨st,rfl,?_⟩ rfl
    exact List.length_eq_zero_iff.mp h
  | cons call args =>
    refine iff_of_false ?_ (by simp)
    rintro ⟨st',hafter,-⟩
    rw [after_first] at hafter
    cases hafter

/-- Bind agrees with the number of placeholders off its two ends, and binding them all in turn
works for no query that has any. -/
theorem bind_columns (client : Client Time Double) (query : Text) (st : MysqlDirectStatement)
    (h : Prepared query st) :
    (∀ now col arg, ColumnTaken client now (placeholders query) col arg st ↔
      placeholders query = 0 ∨ (col ≠ 1 ∧ col ≠ placeholders query)) ∧
    ∀ args : List (Memory × Arg Time Double), args.length = placeholders query →
      (AllBound client args st ↔ placeholders query = 0) := by
  have hlaid := h.laid
  refine ⟨fun now col arg => columnTaken_iff client now col arg hlaid.paramsNo,fun args hargs => ?_⟩
  rw [← hargs]
  exact allBound_iff client args (hlaid.params.trans hargs.symm)

theorem middle_column_taken : ∃ st, MysqlDirectStatement.new ['?','?','?'] = some st ∧
    placeholders ['?','?','?'] = 3 ∧
    (∀ now col arg, ColumnTaken libmysql now 3 col arg st ↔ 3 = 0 ∨ (col ≠ 1 ∧ col ≠ 3)) ∧
    ∀ args : List (Memory × Arg PlainText BareText), args.length = 3 →
      (AllBound libmysql args st ↔ 3 = 0) := by
  obtain ⟨st,hst⟩ := (new_isSome ['?','?','?']).mpr (by decide)
  exact ⟨st,hst,rfl,bind_columns libmysql ['?','?','?'] st (.new hst)⟩

/-- A query with one parameter cannot be given it. -/
theorem only_column_refused : ∃ st, MysqlDirectStatement.new ['?'] = some st ∧
    placeholders ['?'] = 1 ∧ st.bind libmysql (fun _ => []) 1 .null = none ∧
    ¬ AllBound libmysql [(fun _ => [],.null)] st := by
  refine ⟨_,rfl,rfl,rfl,?_⟩
  rintro ⟨st',hafter,-⟩
  rw [after_first] at hafter
  cases hafter

end MprMq.Db
