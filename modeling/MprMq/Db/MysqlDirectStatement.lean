import MprMq.Db.StatementCalls
set_option autoImplicit false

namespace MprMq.Db

structure MysqlDirectStatement where
  sqlQuery : Text
  params : List Text
  binders : List Nat
  paramsNo : Nat

structure Scan where
  insideText : Bool
  paramsNo : Nat
  binders : List Nat

def Scan.toggle (s : Scan) (c : Char) : Scan :=
  if c = quote then { s with insideText := !s.insideText } else s

def Scan.mark (s : Scan) (i : Nat) (c : Char) : Scan :=
  if c = '?' ∧ s.insideText = false then
    { s with paramsNo := s.paramsNo+1, binders := s.binders ++ [i] }
  else s

def scan (s : Scan) (i : Nat) : Text → Scan
  | [] => s
  | c :: text => scan ((s.toggle c).mark i c) (i+1) text

namespace MysqlDirectStatement

def resetParams (st : MysqlDirectStatement) : MysqlDirectStatement :=
  { st with params := List.replicate st.paramsNo nullText }

/-- The constructor, whose check fails on an open quote. -/
def new (query : Text) : Option MysqlDirectStatement :=
  let s := scan ⟨false,0,[]⟩ 0 query
  if s.insideText then none else some (resetParams ⟨query,[],s.binders,s.paramsNo⟩)

/-- The check of At, and the position in `params_` it gives. -/
def atColumn (st : MysqlDirectStatement) (col : Int) : Option Nat :=
  if 1 < col ∧ col < st.paramsNo then some (col-1).toNat else none

def quoted (text : Text) : Text := quote :: (text ++ [quote])

/-- The string that each Bind overload leaves in `params_`. -/
def literal {Time Double : Type} (client : Client Time Double) (now : Memory) :
    Arg Time Double → Text
  | .string start length => quoted (client.escape (bytes now start length))
  | .cstr start => quoted (client.escape (bytes now start (strlen now start)))
  | .time v => quoted (client.format v)
  | .stream content => quoted (client.escape content)
  | .int v => intText v
  | .double v => client.digits v
  | .null => nullText

def bind {Time Double : Type} (client : Client Time Double) (now : Memory) (col : Int)
    (arg : Arg Time Double) (st : MysqlDirectStatement) : Option MysqlDirectStatement :=
  (st.atColumn col).map fun i => { st with params := st.params.set i (literal client now arg) }

def splice (query : Text) (pos : Nat) : List (Nat × Text) → Text
  | [] => query.drop pos
  | (marker,param) :: rest =>
    (query.drop pos).take (marker-pos) ++ param ++ splice query (marker+1) rest

def markers (st : MysqlDirectStatement) : List (Nat × Text) := st.binders.zip st.params

def bindAll (st : MysqlDirectStatement) : Text := splice st.sqlQuery 0 st.markers

def query (st : MysqlDirectStatement) : Text × MysqlDirectStatement := (st.bindAll,st)

def execute (st : MysqlDirectStatement) : Text × MysqlDirectStatement :=
  (st.bindAll,st.resetParams)

def reset (st : MysqlDirectStatement) : MysqlDirectStatement := st

end MysqlDirectStatement

section values
variable {Time Double : Type}

/-- The value the server takes a parameter's text for. -/
def Client.value (client : Client Time Double) (param : Text) : Value :=
  if param = nullText then none
  else if param.head? = some quote then some (client.unescape (param.drop 1).dropLast)
  else some param

open MysqlDirectStatement

/-- The values in the statement that BindAll writes. -/
def MysqlDirectStatement.values (client : Client Time Double) (st : MysqlDirectStatement) :
    List Value :=
  st.markers.map fun marker => client.value marker.2

def directDriver (client : Client Time Double) :
    StatementDriver MysqlDirectStatement Time Double where
  bind := MysqlDirectStatement.bind client
  reset := MysqlDirectStatement.reset
  execute := fun _ st => (st.values client,st.execute.2)
  query := fun _ st => (st.values client,st.query.2)

theorem value_bare (client : Client Time Double) {text : Text} (h : Bare text) :
    client.value text = some text := by
  simp [Client.value,h.1,h.2]

theorem cons_ne_nullText {c : Char} (hc : c ≠ 'N') (text : Text) : c :: text ≠ nullText :=
  fun h => hc (List.cons.inj h).1

theorem value_quoted (client : Client Time Double) (text : Text) :
    client.value (quoted text) = some (client.unescape text) := by
  have hnull : quote :: (text ++ [quote]) ≠ nullText := cons_ne_nullText (by decide) _
  simp [Client.value,hnull,quoted]

theorem bare_toDigits (n : Nat) : Bare (Nat.toDigits 10 n) := by
  have hdigit {c : Char} (hc : c ∈ Nat.toDigits 10 n) : c.isDigit :=
    Nat.isDigit_of_mem_toDigits (by decide) (by decide) hc
  constructor
  · intro h
    have hN := hdigit (c := 'N') (by rw [h]; decide)
    exact absurd hN (by decide)
  · intro h
    have hquote := hdigit (List.mem_of_mem_head? h)
    exact absurd hquote (by decide)

theorem bare_intText (v : Int) : Bare (intText v) := by
  cases v with
  | ofNat n => exact bare_toDigits n
  | negSucc n => exact ⟨cons_ne_nullText (by decide) _,by simp [intText,quote]⟩

theorem value_literal (client : Client Time Double) (now : Memory) (arg : Arg Time Double) :
    client.value (literal client now arg) = arg.value client now now := by
  cases arg with
  | string start length => simp [literal,Arg.value,value_quoted,client.unescape_escape]
  | cstr start => simp [literal,Arg.value,value_quoted,client.unescape_escape]
  | time v => simp [literal,Arg.value,value_quoted,client.unescape_format]
  | stream content => simp [literal,Arg.value,value_quoted,client.unescape_escape]
  | int v => exact value_bare client (bare_intText v)
  | double v => exact value_bare client (client.digits_bare v)
  | null => rfl

/-- What the direct statement makes of a last binding. -/
def directReading (client : Client Time Double) (binding : LastBinding Time Double) : Value :=
  if binding.executed then none else binding.arg.value client binding.bound binding.bound

structure DirectHolds (client : Client Time Double) (n : Nat) (b : Bindings Time Double)
    (st : MysqlDirectStatement) : Prop where
  binders : st.binders.length = n
  paramsNo : st.paramsNo = n
  values : st.params.map client.value = row n (directReading client) b

theorem DirectHolds.sent {client : Client Time Double} {n : Nat} {b : Bindings Time Double}
    {st : MysqlDirectStatement} (h : DirectHolds client n b st) :
    st.values client = row n (directReading client) b := by
  have hlength : st.params.length = n := by simpa [row] using congrArg List.length h.values
  have hparams : st.markers.map Prod.snd = st.params :=
    List.map_snd_zip (by rw [hlength,h.binders])
  rw [← h.values,← hparams,List.map_map]
  rfl

theorem map_value_null (client : Client Time Double) (n : Nat) :
    (List.replicate n nullText).map client.value = List.replicate n none := by
  simp [Client.value]

theorem direct_tracks (client : Client Time Double) (n : Nat) :
    Tracks (directDriver client) n (fun _ => directReading client) (DirectHolds client n) where
  bind := by
    intro b st st' now col arg h hbind
    simp only [directDriver,MysqlDirectStatement.bind,atColumn,Option.map_eq_some_iff] at hbind
    obtain ⟨i,hcol,rfl⟩ := hbind
    split at hcol
    · cases hcol
      refine ⟨h.binders,h.paramsNo,?_⟩
      simp only [Bindings.call]
      rw [row_bind (by omega),← h.values,List.map_set,value_literal]
      rfl
    · cases hcol
  reset := by
    intro b st now h
    exact ⟨h.binders,h.paramsNo,by rw [Bindings.call,row_map]; exact h.values⟩
  execute := by
    intro b st now h
    refine ⟨h.sent,h.binders,h.paramsNo,?_⟩
    simp only [directDriver,MysqlDirectStatement.execute,resetParams,Bindings.call]
    rw [row_map,map_value_null,h.paramsNo]
    exact row_null.symm
  query := by
    intro b st now h
    exact ⟨h.sent,h⟩

theorem scan_length {s : Scan} {i : Nat} {text : Text} (h : s.paramsNo = s.binders.length) :
    (scan s i text).paramsNo = (scan s i text).binders.length := by
  induction text generalizing s i with
  | nil => exact h
  | cons c text ih =>
    refine ih ?_
    have htoggle : (s.toggle c).paramsNo = (s.toggle c).binders.length := by
      unfold Scan.toggle
      split <;> exact h
    unfold Scan.mark
    split
    · simp [htoggle]
    · exact htoggle

theorem direct_new {client : Client Time Double} {query : Text} {st : MysqlDirectStatement}
    (h : MysqlDirectStatement.new query = some st) :
    DirectHolds client st.paramsNo (fun _ => none) st := by
  simp only [MysqlDirectStatement.new] at h
  split at h
  · cases h
  · cases h
    refine ⟨(scan_length rfl).symm,rfl,?_⟩
    rw [resetParams,map_value_null,row_unbound]

end values

end MprMq.Db
