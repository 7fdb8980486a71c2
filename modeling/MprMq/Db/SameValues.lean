import MprMq.Db.MysqlDirectStatement
import MprMq.Db.MysqlPreparedStatement
set_option autoImplicit false

namespace MprMq.Db

section scripts
variable {Time Double : Type}

def AtRuns (P : Memory → Bindings Time Double → Prop) :
    Bindings Time Double → List (Memory × DBCall Time Double) → Prop
  | _, [] => True
  | b, (now,call) :: script => (call.runs = true → P now b) ∧ AtRuns P (b.call now call) script

theorem atRuns_congr {P Q : Memory → Bindings Time Double → Prop} (h : ∀ now b, P now b ↔ Q now b)
    {b : Bindings Time Double} {script : List (Memory × DBCall Time Double)} :
    AtRuns P b script ↔ AtRuns Q b script := by
  have hPQ : P = Q := funext fun now => funext fun b => propext (h now b)
  rw [hPQ]

theorem atRuns_and {P Q : Memory → Bindings Time Double → Prop} {b : Bindings Time Double}
    {script : List (Memory × DBCall Time Double)} :
    AtRuns (fun now b => P now b ∧ Q now b) b script ↔ AtRuns P b script ∧ AtRuns Q b script := by
  induction script generalizing b with
  | nil => exact ⟨fun _ => ⟨trivial,trivial⟩,fun _ => trivial⟩
  | cons entry script ih =>
    obtain ⟨now,call⟩ := entry
    simp only [AtRuns,ih]
    constructor
    · rintro ⟨hrun,hP,hQ⟩
      exact ⟨⟨fun hr => (hrun hr).1,hP⟩,fun hr => (hrun hr).2,hQ⟩
    · rintro ⟨⟨hrunP,hP⟩,hrunQ,hQ⟩
      exact ⟨fun hr => ⟨hrunP hr,hrunQ hr⟩,hP,hQ⟩

theorem rows_eq_iff {n : Nat} {reading reading' : Memory → LastBinding Time Double → Value}
    {b : Bindings Time Double} {script : List (Memory × DBCall Time Double)} :
    rows n reading b script = rows n reading' b script ↔
      AtRuns (fun now b => row n (reading now) b = row n (reading' now) b) b script := by
  induction script generalizing b with
  | nil => exact ⟨fun _ => trivial,fun _ => rfl⟩
  | cons entry script ih =>
    obtain ⟨now,call⟩ := entry
    simp only [rows,AtRuns,← ih]
    cases hruns : call.runs with
    | false => simp
    | true => simp

/-- The caller's bytes a binding points to are, when the statement runs, what they were. -/
def Arg.Kept (bound now : Memory) : Arg Time Double → Prop
  | .string start length => bytes now start length = bytes bound start length
  | .cstr start => bytes now start (strlen bound start) = bytes bound start (strlen bound start)
  | _ => True

/-- Since the binding, other than a BindNull, both an Execute and a Reset have come, or neither has
and the caller's bytes are kept. -/
def LastBinding.Stands (now : Memory) (binding : LastBinding Time Double) : Prop :=
  binding.arg = .null ∨ (binding.executed = true ∧ binding.reset = true) ∨
    (binding.executed = false ∧ binding.reset = false ∧ binding.arg.Kept binding.bound now)

/-- At each Execute and Query, the last binding of every placeholder stands. -/
def BindingsStand (n : Nat) (script : List (Memory × StatementCall Time Double)) : Prop :=
  AtRuns (fun now b => ∀ col : Int, 1 ≤ col → col ≤ n → ∀ binding, b col = some binding →
    binding.Stands now) (fun _ => none) (forwarded 1 script)

def inForce (client : Client Time Double) (binding : LastBinding Time Double) : Value :=
  if binding.reset then none else binding.arg.value client binding.bound binding.bound

def valuesInForce (client : Client Time Double) (n : Nat)
    (script : List (Memory × StatementCall Time Double)) : List (List Value) :=
  rows n (fun _ => inForce client) (fun _ => none) (forwarded 1 script)

theorem value_eq_none {client : Client Time Double} {bound now : Memory} {arg : Arg Time Double} :
    arg.value client bound now = none ↔ arg = .null := by
  cases arg <;> simp [Arg.value]

theorem none_eq_value {client : Client Time Double} {bound now : Memory} {arg : Arg Time Double} :
    none = arg.value client bound now ↔ arg = .null :=
  eq_comm.trans value_eq_none

theorem value_eq_iff {client : Client Time Double} {bound now : Memory} {arg : Arg Time Double} :
    arg.value client bound bound = arg.value client bound now ↔ arg.Kept bound now := by
  cases arg <;> simp [Arg.value,Arg.Kept,eq_comm]

theorem readings_iff (client : Client Time Double) {now : Memory}
    {binding : LastBinding Time Double} :
    (directReading client binding = preparedReading client now binding ∧
      directReading client binding = inForce client binding) ↔ binding.Stands now := by
  obtain ⟨arg,bound,executed,reset⟩ := binding
  cases executed with
  | false =>
    cases reset with
    | false =>
      have hnull : arg = .null → arg.Kept bound now := by
        rintro rfl
        trivial
      simpa [directReading,preparedReading,inForce,LastBinding.Stands,value_eq_iff] using hnull
    | true =>
      simp [directReading,preparedReading,inForce,LastBinding.Stands,value_eq_none]
  | true =>
    cases reset with
    | false =>
      simp [directReading,preparedReading,inForce,LastBinding.Stands,none_eq_value]
    | true =>
      simp [directReading,preparedReading,inForce,LastBinding.Stands]

theorem rows_iff {client : Client Time Double} {n : Nat}
    {script : List (Memory × StatementCall Time Double)} :
    (rows n (fun _ => directReading client) (fun _ => none) (forwarded 1 script) =
        rows n (preparedReading client) (fun _ => none) (forwarded 1 script) ∧
      rows n (fun _ => directReading client) (fun _ => none) (forwarded 1 script) =
        valuesInForce client n script) ↔ BindingsStand n script := by
  rw [valuesInForce,rows_eq_iff,rows_eq_iff,← atRuns_and]
  refine atRuns_congr fun now b => ?_
  rw [row_eq_iff,row_eq_iff]
  constructor
  · rintro ⟨hprepared,hforce⟩ col h₁ h₂ binding hb
    exact (readings_iff client).mp ⟨hprepared col h₁ h₂ binding hb,hforce col h₁ h₂ binding hb⟩
  · intro h
    have hread {col : Int} (h₁ : 1 ≤ col) (h₂ : col ≤ n) {binding : LastBinding Time Double}
        (hb : b col = some binding) :=
      (readings_iff client).mpr (h col h₁ h₂ binding hb)
    exact ⟨fun col h₁ h₂ binding hb => (hread h₁ h₂ hb).1,
      fun col h₁ h₂ binding hb => (hread h₁ h₂ hb).2⟩

/-- Both statements send the values in force, exactly when the last bindings stand. -/
theorem same_values_iff (client : Client Time Double) {query : Text} {reply : PrepareReply}
    {direct : MysqlDirectStatement} {prepared : MysqlPreparedStatement}
    (hdirect : MysqlDirectStatement.new query = some direct)
    (hprepared : MysqlPreparedStatement.new query reply = .ok prepared)
    (hcount : prepared.paramsCount = direct.paramsNo)
    (script : List (Memory × StatementCall Time Double)) {sent sent' : List (List Value)}
    (hsent : (directDriver client).serve direct script = some sent)
    (hsent' : (preparedDriver client).serve prepared script = some sent') :
    (sent = sent' ∧ sent = valuesInForce client direct.paramsNo script) ↔
      BindingsStand direct.paramsNo script := by
  have h := (direct_tracks client direct.paramsNo).run (direct_new hdirect) hsent
  have h' := (prepared_tracks client prepared.paramsCount).run (prepared_new hprepared) hsent'
  rw [hcount] at h'
  rw [h,h']
  exact rows_iff

end scripts

def escapeChar (c : Char) : Text :=
  if c = '\x00' then ['\\','0']
  else if c = '\n' then ['\\','n']
  else if c = '\r' then ['\\','r']
  else if c = '\x1a' then ['\\','Z']
  else if c = '\\' ∨ c = quote ∨ c = '\x22' then ['\\',c]
  else [c]

def unescapeChar (c : Char) : Char :=
  if c = '0' then '\x00'
  else if c = 'n' then '\n'
  else if c = 'r' then '\r'
  else if c = 'Z' then '\x1a'
  else if c = 't' then '\t'
  else if c = 'b' then '\x08'
  else c

def unescapeText : Text → Text
  | [] => []
  | [c] => [c]
  | c :: d :: text =>
    if c = '\\' then unescapeChar d :: unescapeText text else c :: unescapeText (d :: text)

theorem unescapeText_plain {c : Char} (hc : c ≠ '\\') (text : Text) :
    unescapeText (c :: text) = c :: unescapeText text := by
  cases text with
  | nil => rfl
  | cons d text => simp [unescapeText,hc]

theorem unescapeText_escaped (c : Char) (text : Text) :
    unescapeText ('\\' :: c :: text) = unescapeChar c :: unescapeText text := by
  simp [unescapeText]

theorem unescapeText_escapeChar (c : Char) (text : Text) :
    unescapeText (escapeChar c ++ text) = c :: unescapeText text := by
  unfold escapeChar
  split_ifs with h0 hn hr hZ hself
  · exact h0 ▸ unescapeText_escaped '0' text
  · exact hn ▸ unescapeText_escaped 'n' text
  · exact hr ▸ unescapeText_escaped 'r' text
  · exact hZ ▸ unescapeText_escaped 'Z' text
  · rcases hself with rfl | rfl | rfl
    · exact unescapeText_escaped '\\' text
    · exact unescapeText_escaped quote text
    · exact unescapeText_escaped '\x22' text
  · exact unescapeText_plain (fun h => hself (Or.inl h)) text

theorem unescapeText_flatMap (text : Text) : unescapeText (text.flatMap escapeChar) = text := by
  induction text with
  | nil => rfl
  | cons c text ih => rw [List.flatMap_cons,unescapeText_escapeChar,ih]

theorem unescapeText_eq {text : Text} (h : '\\' ∉ text) : unescapeText text = text := by
  induction text with
  | nil => rfl
  | cons c text ih =>
    have hc : c ≠ '\\' := fun hc => h (hc ▸ List.mem_cons_self)
    rw [unescapeText_plain hc,ih fun htext => h (List.mem_cons_of_mem c htext)]

abbrev PlainText := { text : Text // '\\' ∉ text }

abbrev BareText := { text : Text // Bare text }

def libmysql : Client PlainText BareText where
  escape := fun text => text.flatMap escapeChar
  unescape := unescapeText
  format := Subtype.val
  digits := Subtype.val
  unescape_escape := unescapeText_flatMap
  unescape_format := fun v => unescapeText_eq v.2
  digits_bare := fun v => v.2

def threePlaceholders : Text := ['f','(','?',',','?',',','?',')']

def callerText : Memory := fun start => if start = 0 then ['a',quote,'b'] else []

def reboundScript : List (Memory × StatementCall PlainText BareText) :=
  [(callerText,.bind 2 (.string 0 2)),(callerText,.query),(callerText,.execute),
    (callerText,.reset),(callerText,.execute)]

theorem rebound_values_same : BindingsStand 3 reboundScript := by
  have hdirect : MysqlDirectStatement.new threePlaceholders = some _ := rfl
  have hprepared : MysqlPreparedStatement.new threePlaceholders (.prepared 3) = .ok _ := rfl
  exact (same_values_iff libmysql hdirect hprepared rfl reboundScript rfl rfl).mp
    ⟨by decide,by decide⟩

theorem bound_value_lost : ¬ ∀ query reply direct prepared,
    MysqlDirectStatement.new query = some direct →
    MysqlPreparedStatement.new query reply = .ok prepared →
    prepared.paramsCount = direct.paramsNo → ∀ script sent sent',
    (directDriver libmysql).serve direct script = some sent →
    (preparedDriver libmysql).serve prepared script = some sent' →
    sent = sent' ∧ sent = valuesInForce libmysql direct.paramsNo script := by
  intro h
  have hsame := h threePlaceholders (.prepared 3) _ _ rfl rfl rfl
    [(callerText,.bind 2 (.int 5)),(callerText,.execute),(callerText,.execute)] _ _ rfl rfl
  exact absurd hsame.1 (by decide)

end MprMq.Db
