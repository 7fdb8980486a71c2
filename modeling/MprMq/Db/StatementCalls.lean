import Mathlib.Logic.Function.Basic
import MprMq.Db.ConnectionInfo
set_option autoImplicit false

namespace MprMq.Db

abbrev Value := Option Text

abbrev Memory := Nat → Text

/-- What the Bind overloads are given. A `const std::string&` and a range are both an address and
a length, the four integer overloads share `int`, and `null` is BindNull. -/
inductive Arg (Time Double : Type) where
  | string (start length : Nat)
  | cstr (start : Nat)
  | time (v : Time)
  | stream (content : Text)
  | int (v : Int)
  | double (v : Double)
  | null

def nullText : Text := ['N','U','L','L']

def Bare (text : Text) : Prop := text ≠ nullText ∧ text.head? ≠ some quote

/-- The code outside the repository: `mysql_real_escape_string`, the server's reading of what
stands between quotes, Time::Format, and what a stream writes for a double. -/
structure Client (Time Double : Type) where
  escape : Text → Text
  unescape : Text → Text
  format : Time → Text
  digits : Double → Text
  unescape_escape : ∀ text, unescape (escape text) = text
  unescape_format : ∀ v, unescape (format v) = format v
  digits_bare : ∀ v, Bare (digits v)

def intText : Int → Text
  | .ofNat n => Nat.toDigits 10 n
  | .negSucc n => '-' :: Nat.toDigits 10 (n+1)

def strlen (memory : Memory) (start : Nat) : Nat :=
  ((memory start).takeWhile (· != '\x00')).length

def bytes (memory : Memory) (start length : Nat) : Text := (memory start).take length

inductive DBCall (Time Double : Type) where
  | bind (col : Int) (arg : Arg Time Double)
  | reset
  | execute
  | query

def DBCall.runs {Time Double : Type} : DBCall Time Double → Bool
  | .execute => true
  | .query => true
  | _ => false

/-- The calls of the front end. The overloads without a column are `bindNext`. -/
inductive StatementCall (Time Double : Type) where
  | bind (col : Int) (arg : Arg Time Double)
  | bindNext (arg : Arg Time Double)
  | reset
  | execute
  | query

/-- A call of the front end, with `placeholder_` before and after it. -/
def StatementCall.forward {Time Double : Type} (placeholder : Int) :
    StatementCall Time Double → Int × DBCall Time Double
  | .bind col arg => (placeholder,.bind col arg)
  | .bindNext arg => (placeholder+1,.bind placeholder arg)
  | .reset => (1,.reset)
  | .execute => (placeholder,.execute)
  | .query => (placeholder,.query)

/-- Each call comes with the caller's memory at that time. -/
def forwarded {Time Double : Type} (placeholder : Int) :
    List (Memory × StatementCall Time Double) → List (Memory × DBCall Time Double)
  | [] => []
  | (now,call) :: script =>
    (now,(call.forward placeholder).2) :: forwarded (call.forward placeholder).1 script

/-- The virtual calls of a statement class. A failing check in Bind leaves nothing; Execute and
Query send the values and leave the statement. -/
structure StatementDriver (σ Time Double : Type) where
  bind : Memory → Int → Arg Time Double → σ → Option σ
  reset : σ → σ
  execute : Memory → σ → List Value × σ
  query : Memory → σ → List Value × σ

section drivers
variable {σ Time Double : Type}

def StatementDriver.call (driver : StatementDriver σ Time Double) (now : Memory) (st : σ) :
    DBCall Time Double → Option (List (List Value) × σ)
  | .bind col arg => (driver.bind now col arg st).map fun st' => ([],st')
  | .reset => some ([],driver.reset st)
  | .execute => some ([(driver.execute now st).1],(driver.execute now st).2)
  | .query => some ([(driver.query now st).1],(driver.query now st).2)

def StatementDriver.run (driver : StatementDriver σ Time Double) :
    σ → List (Memory × DBCall Time Double) → Option (List (List Value))
  | _, [] => some []
  | st, (now,call) :: script => do
    let (sent,st') ← driver.call now st call
    let more ← driver.run st' script
    return sent ++ more

def StatementDriver.serve (driver : StatementDriver σ Time Double) (st : σ)
    (script : List (Memory × StatementCall Time Double)) : Option (List (List Value)) :=
  driver.run st (forwarded 1 script)

/-- The value of a binding made in the memory `bound`, its pointers followed in the memory `now`. -/
def Arg.value (client : Client Time Double) (bound now : Memory) : Arg Time Double → Value
  | .string start length => some (bytes now start length)
  | .cstr start => some (bytes now start (strlen bound start))
  | .time v => some (client.format v)
  | .stream content => some content
  | .int v => some (intText v)
  | .double v => some (client.digits v)
  | .null => none

/-- The last binding of a column: its argument, the memory it was made in, and whether an Execute
and a Reset have come since. -/
structure LastBinding (Time Double : Type) where
  arg : Arg Time Double
  bound : Memory
  executed : Bool
  reset : Bool

abbrev Bindings (Time Double : Type) := Int → Option (LastBinding Time Double)

def Bindings.call (b : Bindings Time Double) (now : Memory) :
    DBCall Time Double → Bindings Time Double
  | .bind col arg => Function.update b col (some ⟨arg,now,false,false⟩)
  | .reset => fun col => (b col).map fun binding => { binding with reset := true }
  | .execute => fun col => (b col).map fun binding => { binding with executed := true }
  | .query => b

def row (n : Nat) (reading : LastBinding Time Double → Value) (b : Bindings Time Double) :
    List Value :=
  (List.range n).map fun i : Nat => (b (i+1)).bind reading

def rows (n : Nat) (reading : Memory → LastBinding Time Double → Value) :
    Bindings Time Double → List (Memory × DBCall Time Double) → List (List Value)
  | _, [] => []
  | b, (now,call) :: script =>
    (if call.runs then [row n (reading now) b] else []) ++ rows n reading (b.call now call) script

theorem row_bind {n : Nat} {reading : LastBinding Time Double → Value} {b : Bindings Time Double}
    {col : Int} (hcol : 1 ≤ col) (binding : LastBinding Time Double) :
    row n reading (Function.update b col (some binding)) =
      (row n reading b).set (col-1).toNat (reading binding) := by
  refine List.ext_getElem (by simp [row]) fun i h₁ h₂ => ?_
  have hi : (col-1).toNat = i ↔ (i : Int)+1 = col := by omega
  simp only [row,List.getElem_map,List.getElem_range,List.getElem_set,Function.update_apply,hi]
  split <;> rfl

theorem row_map {n : Nat} {reading : LastBinding Time Double → Value} {b : Bindings Time Double}
    (f : LastBinding Time Double → LastBinding Time Double) :
    row n reading (fun col => (b col).map f) = row n (fun binding => reading (f binding)) b := by
  refine List.map_congr_left fun i _ => ?_
  simp only [Option.bind_map]
  rfl

theorem row_null {n : Nat} {b : Bindings Time Double} :
    row n (fun _ => none) b = List.replicate n none := by
  simp [row,List.map_const']

theorem row_unbound {n : Nat} {reading : LastBinding Time Double → Value} :
    row n reading (fun _ => none) = List.replicate n none := by
  simp [row,List.map_const']

theorem row_eq_iff {n : Nat} {reading reading' : LastBinding Time Double → Value}
    {b : Bindings Time Double} : row n reading b = row n reading' b ↔
      ∀ col : Int, 1 ≤ col → col ≤ n → ∀ binding, b col = some binding →
        reading binding = reading' binding := by
  simp only [row,List.map_inj_left,List.mem_range]
  constructor
  · intro h col h₁ h₂ binding hb
    have hi := h (col-1).toNat (by omega)
    rw [show (((col-1).toNat : Nat) : Int)+1 = col by omega,hb] at hi
    exact hi
  · intro h i hi
    cases hb : b (i+1) with
    | none => rfl
    | some binding => exact h _ (by omega) (by omega) binding hb

/-- A driver whose statements hold, call for call, what `reading` makes of the last bindings. -/
structure Tracks (driver : StatementDriver σ Time Double) (n : Nat)
    (reading : Memory → LastBinding Time Double → Value)
    (Holds : Bindings Time Double → σ → Prop) : Prop where
  bind : ∀ {b st st' now col arg}, Holds b st → driver.bind now col arg st = some st' →
    Holds (b.call now (.bind col arg)) st'
  reset : ∀ {b st now}, Holds b st → Holds (b.call now .reset) (driver.reset st)
  execute : ∀ {b st} now, Holds b st → (driver.execute now st).1 = row n (reading now) b ∧
    Holds (b.call now .execute) (driver.execute now st).2
  query : ∀ {b st} now, Holds b st → (driver.query now st).1 = row n (reading now) b ∧
    Holds b (driver.query now st).2

theorem Tracks.call {driver : StatementDriver σ Time Double} {n : Nat}
    {reading : Memory → LastBinding Time Double → Value} {Holds : Bindings Time Double → σ → Prop}
    (h : Tracks driver n reading Holds) {b : Bindings Time Double} {st st' : σ} {now : Memory}
    {call : DBCall Time Double} {sent : List (List Value)} (hst : Holds b st)
    (hcall : driver.call now st call = some (sent,st')) :
    sent = (if call.runs then [row n (reading now) b] else []) ∧ Holds (b.call now call) st' := by
  cases call with
  | bind col arg =>
    obtain ⟨st₁,hbind,heq⟩ := Option.map_eq_some_iff.mp hcall
    cases heq
    exact ⟨rfl,h.bind hst hbind⟩
  | reset =>
    cases hcall
    exact ⟨rfl,h.reset hst⟩
  | execute =>
    cases hcall
    obtain ⟨hrow,hnext⟩ := h.execute now hst
    exact ⟨by rw [hrow]; rfl,hnext⟩
  | query =>
    cases hcall
    obtain ⟨hrow,hnext⟩ := h.query now hst
    exact ⟨by rw [hrow]; rfl,hnext⟩

theorem Tracks.run {driver : StatementDriver σ Time Double} {n : Nat}
    {reading : Memory → LastBinding Time Double → Value} {Holds : Bindings Time Double → σ → Prop}
    (h : Tracks driver n reading Holds) {script : List (Memory × DBCall Time Double)}
    {b : Bindings Time Double} {st : σ} {sent : List (List Value)} (hst : Holds b st)
    (hrun : driver.run st script = some sent) : sent = rows n reading b script := by
  induction script generalizing b st sent with
  | nil =>
    cases hrun
    rfl
  | cons entry script ih =>
    obtain ⟨now,call⟩ := entry
    simp only [StatementDriver.run,Option.bind_eq_bind,Option.bind_eq_some_iff] at hrun
    obtain ⟨⟨first,st'⟩,hcall,more,hmore,heq⟩ := hrun
    cases heq
    obtain ⟨hfirst,hst'⟩ := h.call hst hcall
    rw [rows,hfirst,ih hst' hmore]

end drivers

end MprMq.Db
