import MprMq.Db.StatementCalls
set_option autoImplicit false

namespace MprMq.Db

inductive Buffer where
  | own
  | caller (start : Nat)

structure Param where
  isNull : Bool
  isBlob : Bool
  length : Nat
  value : Text
  buffer : Option Buffer

def Param.new : Param := ⟨true,false,0,[],none⟩

def Param.set (p : Param) (start length : Nat) : Param :=
  { p with length := length, buffer := some (.caller start), isBlob := false, isNull := false }

def Param.setString (p : Param) (text : Text) : Param :=
  { p with value := text, buffer := some .own, length := text.length, isNull := false }

inductive BufferType where
  | null
  | string
  | blob

/-- A MYSQL_BIND, its pointers followed when the statement is executed. -/
structure MysqlBind where
  bufferType : BufferType
  buffer : Text

def Param.contents (p : Param) (now : Memory) : Text :=
  match p.buffer with
  | none => []
  | some .own => p.value.take p.length
  | some (.caller start) => bytes now start p.length

def Param.bindIt (p : Param) (now : Memory) : MysqlBind :=
  if p.isNull then ⟨.null,[]⟩
  else ⟨if p.isBlob then .blob else .string,p.contents now⟩

def MysqlBind.value (bind : MysqlBind) : Value :=
  match bind.bufferType with
  | .null => none
  | .string => some bind.buffer
  | .blob => some bind.buffer

structure MysqlPreparedStatement where
  sqlQuery : Text
  params : List Param
  paramsCount : Nat

/-- What `mysql_stmt_init` and `mysql_stmt_prepare` come to. -/
inductive PrepareReply where
  | noStatement
  | refused (error : Text)
  | prepared (paramCount : Nat)

def mysqlException (message : Text) : Text := "db::mysql::".toList ++ message

namespace MysqlPreparedStatement

def resetData (st : MysqlPreparedStatement) : MysqlPreparedStatement :=
  { st with params := List.replicate st.paramsCount Param.new }

def new (query : Text) : PrepareReply → Except Text MysqlPreparedStatement
  | .noStatement => .error (mysqlException " Failed to create a statement".toList)
  | .refused error => .error (mysqlException error)
  | .prepared paramCount => .ok (resetData ⟨query,[],paramCount⟩)

def atColumn (st : MysqlPreparedStatement) (col : Int) : Option Nat :=
  if 1 ≤ col ∧ col ≤ st.paramsCount then some (col-1).toNat else none

/-- What each Bind overload does to the parameter At gives it. -/
def bindParam {Time Double : Type} (client : Client Time Double) (now : Memory) (p : Param) :
    Arg Time Double → Param
  | .string start length => p.set start length
  | .cstr start => p.set start (strlen now start)
  | .time v => p.setString (client.format v)
  | .stream content => { p.setString content with isBlob := true }
  | .int v => p.setString (intText v)
  | .double v => p.setString (client.digits v)
  | .null => Param.new

def bind {Time Double : Type} (client : Client Time Double) (now : Memory) (col : Int)
    (arg : Arg Time Double) (st : MysqlPreparedStatement) : Option MysqlPreparedStatement :=
  (st.atColumn col).map fun i =>
    { st with params := st.params.modify i fun p => bindParam client now p arg }

def bindAll (st : MysqlPreparedStatement) (now : Memory) : List MysqlBind :=
  st.params.map fun p => p.bindIt now

def query (st : MysqlPreparedStatement) (now : Memory) : List MysqlBind × MysqlPreparedStatement :=
  (st.bindAll now,st)

def execute (st : MysqlPreparedStatement) (now : Memory) :
    List MysqlBind × MysqlPreparedStatement :=
  (st.bindAll now,st)

def reset (st : MysqlPreparedStatement) : MysqlPreparedStatement := st.resetData

end MysqlPreparedStatement

section values
variable {Time Double : Type}
open MysqlPreparedStatement

def preparedDriver (client : Client Time Double) :
    StatementDriver MysqlPreparedStatement Time Double where
  bind := MysqlPreparedStatement.bind client
  reset := MysqlPreparedStatement.reset
  execute := fun now st => ((st.execute now).1.map MysqlBind.value,(st.execute now).2)
  query := fun now st => ((st.query now).1.map MysqlBind.value,(st.query now).2)

def Param.sent (now : Memory) (p : Param) : Value := (p.bindIt now).value

theorem sent_set (p : Param) (start length : Nat) (now : Memory) :
    (p.set start length).sent now = some (bytes now start length) := rfl

theorem sent_setString (p : Param) (text : Text) (now : Memory) :
    (p.setString text).sent now = some text := by
  unfold Param.sent Param.bindIt Param.setString MysqlBind.value
  cases p.isBlob <;> simp [Param.contents]

theorem sent_blob (p : Param) (text : Text) (now : Memory) :
    Param.sent now { p.setString text with isBlob := true } = some text := by
  simp [Param.sent,Param.bindIt,Param.setString,MysqlBind.value,Param.contents]

theorem sent_bindParam (client : Client Time Double) (bound now : Memory) (p : Param)
    (arg : Arg Time Double) :
    (bindParam client bound p arg).sent now = arg.value client bound now := by
  cases arg with
  | string start length => exact sent_set p start length now
  | cstr start => exact sent_set p start (strlen bound start) now
  | time v => exact sent_setString p (client.format v) now
  | stream content => exact sent_blob p content now
  | int v => exact sent_setString p (intText v) now
  | double v => exact sent_setString p (client.digits v) now
  | null => rfl

theorem map_modify {α β : Type} {f : α → β} {g : α → α} {b : β} (h : ∀ a, f (g a) = b)
    (l : List α) (i : Nat) : (l.modify i g).map f = (l.map f).set i b := by
  refine List.ext_getElem (by simp) fun k h₁ h₂ => ?_
  simp only [List.getElem_map,List.getElem_modify,List.getElem_set]
  split
  · exact h _
  · rfl

/-- What the prepared statement makes of a last binding. -/
def preparedReading (client : Client Time Double) (now : Memory)
    (binding : LastBinding Time Double) : Value :=
  if binding.reset then none else binding.arg.value client binding.bound now

structure PreparedHolds (client : Client Time Double) (n : Nat) (b : Bindings Time Double)
    (st : MysqlPreparedStatement) : Prop where
  paramsCount : st.paramsCount = n
  values : ∀ now, st.params.map (Param.sent now) = row n (preparedReading client now) b

theorem PreparedHolds.sent {client : Client Time Double} {n : Nat} {b : Bindings Time Double}
    {st : MysqlPreparedStatement} (h : PreparedHolds client n b st) (now : Memory) :
    (st.bindAll now).map MysqlBind.value = row n (preparedReading client now) b := by
  rw [← h.values now,bindAll,List.map_map]
  rfl

theorem map_sent_new (now : Memory) (n : Nat) :
    (List.replicate n Param.new).map (Param.sent now) = List.replicate n none := by
  simp [Param.sent,Param.new,Param.bindIt,MysqlBind.value]

theorem prepared_tracks (client : Client Time Double) (n : Nat) :
    Tracks (preparedDriver client) n (preparedReading client) (PreparedHolds client n) where
  bind := by
    intro b st st' bound col arg h hbind
    simp only [preparedDriver,MysqlPreparedStatement.bind,atColumn,Option.map_eq_some_iff] at hbind
    obtain ⟨i,hcol,rfl⟩ := hbind
    split at hcol
    · cases hcol
      refine ⟨h.paramsCount,fun now => ?_⟩
      simp only [Bindings.call]
      rw [row_bind (by omega),← h.values now,
        map_modify (fun p => sent_bindParam client bound now p arg)]
      rfl
    · cases hcol
  reset := by
    intro b st now h
    refine ⟨h.paramsCount,fun later => ?_⟩
    simp only [preparedDriver,MysqlPreparedStatement.reset,resetData,Bindings.call]
    rw [row_map,map_sent_new,h.paramsCount]
    exact row_null.symm
  execute := by
    intro b st now h
    refine ⟨h.sent now,h.paramsCount,fun later => ?_⟩
    rw [Bindings.call,row_map]
    exact h.values later
  query := by
    intro b st now h
    exact ⟨h.sent now,h⟩

theorem prepared_new {client : Client Time Double} {query : Text} {reply : PrepareReply}
    {st : MysqlPreparedStatement} (h : MysqlPreparedStatement.new query reply = .ok st) :
    PreparedHolds client st.paramsCount (fun _ => none) st := by
  cases reply with
  | noStatement => cases h
  | refused error => cases h
  | prepared paramCount =>
    cases h
    refine ⟨rfl,fun now => ?_⟩
    rw [resetData,map_sent_new,row_unbound]

end values

end MprMq.Db
