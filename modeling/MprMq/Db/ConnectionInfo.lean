import Mathlib.Algebra.Group.Int.Defs
import Mathlib.Data.List.TakeWhile
set_option autoImplicit false

/-! `ConnectionInfo`: a connection string, and the driver and properties that `Init`
reads from it. A failed `CHECK` or `DCHECK` is `none`. -/

namespace MprMq.Db

abbrev Text := List Char

structure ConnectionInfo where
  properties : List (Text × Text)
  connectionString : Text
  driver : Text
  deriving DecidableEq, Repr

def quote : Char := '\x27'

def isTrimWhiteSpace (c : Char) : Bool :=
  c = ' ' ∨ c = '\t' ∨ c = '\r' ∨ c = '\n' ∨ c = '\x0c'

def trimString (input : Text) : Text :=
  ((input.dropWhile isTrimWhiteSpace).reverse.dropWhile isTrimWhiteSpace).reverse

def cut (c : Char) (input : Text) : Option (Text × Text) :=
  match input.dropWhile (· != c) with
  | [] => none
  | _ :: rest => some (input.takeWhile (· != c),rest)

/-- The rest of a quoted value, where two quotes stand for one. -/
def quotedValue : Text → Option (Text × Text)
  | [] => none
  | [c] => if c = quote then some ([],[]) else none
  | c :: d :: rest =>
    if c = quote then
      if d = quote then (quotedValue rest).map (fun r => (quote :: r.1,r.2))
      else some ([],d :: rest)
    else (quotedValue (d :: rest)).map (fun r => (c :: r.1,r.2))

def readValue (input : Text) : Option (Text × Text) :=
  match input.dropWhile isTrimWhiteSpace with
  | [] => some ([],[])
  | c :: rest =>
    if c = quote then quotedValue rest
    else some (trimString ((c :: rest).takeWhile (· != ';')),(c :: rest).dropWhile (· != ';'))

/-- The loop after a property: white space, and then one character whatever it is. -/
def skipSeparator (input : Text) : Text := (input.dropWhile isTrimWhiteSpace).drop 1

/-- One turn of the loop of `Init`: a key, its value, and the text left. -/
def readProperty (input : Text) : Option ((Text × Text) × Text) := do
  let (key,rest) ← cut '=' input
  let (value,rest) ← readValue rest
  pure ((trimString key,value),skipSeparator rest)

/-- Every turn takes at least the `=`, so the length of the text is fuel enough. -/
def readProperties : Nat → List (Text × Text) → Text → Option (List (Text × Text))
  | _, properties, [] => some properties
  | 0, _, _ :: _ => none
  | fuel+1, properties, input => do
    let (property,rest) ← readProperty input
    if property.1 ∈ properties.map Prod.fst then none
    else readProperties fuel (properties ++ [property]) rest

def ConnectionInfo.init (connectionString : Text) : Option ConnectionInfo := do
  let (driver,rest) ← cut ':' connectionString
  let properties ← readProperties rest.length [] rest
  pure ⟨properties,connectionString,driver⟩

def ConnectionInfo.find (info : ConnectionInfo) (key : Text) : Option Text :=
  (info.properties.find? (fun p => p.1 = key)).map Prod.snd

def ConnectionInfo.has (info : ConnectionInfo) (key : Text) : Bool := (info.find key).isSome

def ConnectionInfo.get (info : ConnectionInfo) (key default : Text) : Text :=
  (info.find key).getD default

/-- What `std::isspace` accepts in the classic locale. -/
def isSpace (c : Char) : Bool :=
  c = ' ' ∨ c = '\t' ∨ c = '\n' ∨ c = '\x0b' ∨ c = '\x0c' ∨ c = '\r'

def decimal (digits : Text) : Nat := digits.foldl (fun n d => n * 10 + (d.toNat - 48)) 0

/-- `ss >> value` for an `int` that holds `raw` before: blank text leaves it as it
is, text without digits stores zero, and a value out of range is clamped. -/
def extractInt (raw : Int) (text : Text) : Int :=
  match text.dropWhile isSpace with
  | [] => raw
  | c :: rest =>
    let digits := if c = '-' ∨ c = '+' then rest else c :: rest
    let magnitude : Int := decimal (digits.takeWhile Char.isDigit)
    let value := if c = '-' then -magnitude else magnitude
    max (-(2 : Int)^31) (min value ((2 : Int)^31-1))

/-- `Get(key, default_value)` for an `int`; `raw` is what the uninitialized
local `value` holds. -/
def ConnectionInfo.getInt (info : ConnectionInfo) (raw : Int) (key : Text) (default : Int) : Int :=
  match info.find key with
  | none => default
  | some text => extractInt raw text

theorem cut_eq_some {c : Char} {input before rest : Text}
    (h : cut c input = some (before,rest)) : input = before ++ c :: rest ∧ c ∉ before := by
  simp only [cut] at h
  cases hd : input.dropWhile (· != c) with
  | nil =>
    simp only [hd] at h
    cases h
  | cons d tail =>
    simp only [hd,Option.some.injEq,Prod.mk.injEq] at h
    obtain ⟨rfl,rfl⟩ := h
    have hdc : d = c := by
      have := List.head?_dropWhile_not (· != c) input
      simpa [hd] using this
    subst d
    refine ⟨?_,?_⟩
    · rw [← hd,List.takeWhile_append_dropWhile]
    · intro hm
      simpa using List.mem_takeWhile_imp hm

theorem quotedValue_length {input value rest : Text}
    (h : quotedValue input = some (value,rest)) : rest.length < input.length := by
  induction input using quotedValue.induct generalizing value rest with
  | case1 => simp [quotedValue] at h
  | case2 => simp_all [quotedValue]
  | case3 => simp_all [quotedValue]
  | case4 tail ih =>
    simp only [quotedValue,if_true,Option.map_eq_some_iff] at h
    obtain ⟨r,hr,hv⟩ := h
    have := ih hr
    simp only [Prod.mk.injEq] at hv
    obtain ⟨-,rfl⟩ := hv
    simp only [List.length_cons]
    omega
  | case5 d tail hd =>
    simp only [quotedValue,if_true,if_neg hd,Option.some.injEq,Prod.mk.injEq] at h
    simp [← h.2]
  | case6 c d tail hc ih =>
    simp only [quotedValue,if_neg hc,Option.map_eq_some_iff] at h
    obtain ⟨r,hr,hv⟩ := h
    have := ih hr
    simp only [Prod.mk.injEq] at hv
    obtain ⟨-,rfl⟩ := hv
    simp only [List.length_cons] at this ⊢
    omega

theorem readValue_length {input value rest : Text}
    (h : readValue input = some (value,rest)) : rest.length ≤ input.length := by
  have hdrop := (List.dropWhile_suffix isTrimWhiteSpace (l := input)).length_le
  simp only [readValue] at h
  cases hd : input.dropWhile isTrimWhiteSpace with
  | nil =>
    rw [hd] at h
    simp only [Option.some.injEq,Prod.mk.injEq] at h
    simp [← h.2]
  | cons c tail =>
    rw [hd] at hdrop
    simp only [hd] at h
    simp only [List.length_cons] at hdrop
    by_cases hq : c = quote
    · rw [if_pos hq] at h
      have := quotedValue_length h
      omega
    · rw [if_neg hq] at h
      simp only [Option.some.injEq,Prod.mk.injEq] at h
      have := (List.dropWhile_suffix (· != ';') (l := c :: tail)).length_le
      rw [← h.2]
      simp only [List.length_cons] at this
      omega

theorem readProperty_length {input rest : Text} {property : Text × Text}
    (h : readProperty input = some (property,rest)) : rest.length < input.length := by
  simp only [readProperty,Option.bind_eq_bind,Option.bind_eq_some_iff,Option.pure_def,
    Option.some.injEq,Prod.mk.injEq,Prod.exists] at h
  obtain ⟨key,afterKey,hcut,value,afterValue,hvalue,-,rfl⟩ := h
  have hk := (cut_eq_some hcut).1
  have hv := readValue_length hvalue
  have hs := (List.dropWhile_suffix isTrimWhiteSpace (l := afterValue)).length_le
  simp only [skipSeparator,List.length_drop,hk,List.length_append,List.length_cons]
  omega

/-- Fuel beyond the length of the text changes nothing. -/
theorem readProperties_fuel {fuel fuel' : Nat} (properties : List (Text × Text)) {input : Text}
    (h : input.length ≤ fuel) (h' : input.length ≤ fuel') :
    readProperties fuel properties input = readProperties fuel' properties input := by
  induction fuel generalizing fuel' properties input with
  | zero =>
    have hnil := List.length_eq_zero_iff.mp (Nat.le_zero.mp h)
    subst input
    cases fuel' <;> rfl
  | succ fuel ih =>
    cases input with
    | nil => cases fuel' <;> rfl
    | cons c tail =>
      cases fuel' with
      | zero => simp at h'
      | succ fuel' =>
        simp only [readProperties]
        cases hr : readProperty (c :: tail) with
        | none => rfl
        | some r =>
          obtain ⟨property,rest⟩ := r
          have hlen := readProperty_length hr
          simp only [List.length_cons] at hlen h h'
          simp only [Option.bind_eq_bind,Option.bind_some]
          rw [@ih fuel' _ _ (by omega) (by omega)]

example : ConnectionInfo.init "mysql:user='ro''ot' ; @pool_size=2".toList =
    some ⟨[("user".toList,"ro'ot".toList),("@pool_size".toList,"2".toList)],
      "mysql:user='ro''ot' ; @pool_size=2".toList,"mysql".toList⟩ := by decide

end MprMq.Db
