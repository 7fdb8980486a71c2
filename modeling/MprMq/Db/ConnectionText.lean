import Mathlib.Data.List.DropRight
import Mathlib.Data.List.Forall2
import MprMq.Base.TrimString
import MprMq.Db.ConnectionInfo
set_option autoImplicit false

/-! The grammar of connection strings, what `Init` makes of the texts in it, and of those
that are not. -/

namespace MprMq.Db

def escape (value : Text) : Text :=
  value.flatMap (fun c => if c = quote then [quote,quote] else [c])

inductive ValueText : Text → Text → Prop where
  | quoted {before after : Text} (value : Text) (hbefore : ∀ c ∈ before, isTrimWhiteSpace c = true)
      (hafter : ∀ c ∈ after, isTrimWhiteSpace c = true) :
      ValueText (before ++ quote :: (escape value ++ quote :: after)) value
  | bare {text : Text} (hsep : ';' ∉ text)
      (hquote : (text.dropWhile isTrimWhiteSpace).head? ≠ some quote) :
      ValueText text (trimString text)

/-- Properties with `;` between them and maybe one at the end, and what they say. -/
inductive PropertiesText : Text → List (Text × Text) → Prop where
  | nil : PropertiesText [] []
  | last {key text value : Text} (hkey : '=' ∉ key) (hvalue : ValueText text value) :
      PropertiesText (key ++ '=' :: text) [(trimString key,value)]
  | next {key text value rest : Text} {properties : List (Text × Text)} (hkey : '=' ∉ key)
      (hvalue : ValueText text value) (hrest : PropertiesText rest properties) :
      PropertiesText (key ++ '=' :: (text ++ ';' :: rest)) ((trimString key,value) :: properties)

/-- Behind properties of the grammar a quoted value is followed, maybe behind white space, by
something that is no `;`. -/
inductive StrayText : Text → Prop where
  | here {key before after rest : Text} (value : Text) {c : Char} (hkey : '=' ∉ key)
      (hbefore : ∀ c ∈ before, isTrimWhiteSpace c = true)
      (hafter : ∀ c ∈ after, isTrimWhiteSpace c = true) (hspace : isTrimWhiteSpace c = false)
      (hquote : after = [] → c ≠ quote) (hsep : c ≠ ';') :
      StrayText (key ++ '=' :: (before ++ quote :: (escape value ++ quote :: (after ++ c :: rest))))
  | next {key text value rest : Text} (hkey : '=' ∉ key) (hvalue : ValueText text value)
      (hrest : StrayText rest) : StrayText (key ++ '=' :: (text ++ ';' :: rest))

theorem cut_append {c : Char} {before : Text} (rest : Text) (h : c ∉ before) :
    cut c (before ++ c :: rest) = some (before,rest) := by
  have hall : ∀ d ∈ before, (d != c) = true := by
    intro d hd
    rw [bne_iff_ne]
    rintro rfl
    exact h hd
  simp only [cut,List.dropWhile_append_of_pos hall,List.takeWhile_append_of_pos hall]
  simp

theorem quotedValue_cons {c : Char} (hc : c ≠ quote) (input : Text) :
    quotedValue (c :: input) = (quotedValue input).map (fun r => (c :: r.1,r.2)) := by
  cases input with
  | nil => simp [quotedValue,hc]
  | cons d rest => simp [quotedValue,hc]

/-- The quote that is not doubled ends the value. -/
theorem quotedValue_escape (value : Text) {rest : Text} (h : rest.head? ≠ some quote) :
    quotedValue (escape value ++ quote :: rest) = some (value,rest) := by
  induction value with
  | nil =>
    cases rest with
    | nil => simp [escape,quotedValue]
    | cons d rest =>
      have hd : d ≠ quote := by simpa using h
      simp [escape,quotedValue,hd]
  | cons c value ih =>
    have hescape : escape (c :: value) =
        (if c = quote then [quote,quote] else [c]) ++ escape value := rfl
    rw [hescape]
    by_cases hc : c = quote
    · subst hc
      simp only [if_true,List.cons_append,List.nil_append,quotedValue,ih,Option.map_some]
    · simp only [if_neg hc,List.cons_append,List.nil_append,quotedValue_cons hc,ih,
        Option.map_some]

theorem quotedValue_sound {input value rest : Text} (h : quotedValue input = some (value,rest)) :
    input = escape value ++ quote :: rest ∧ rest.head? ≠ some quote := by
  induction input using quotedValue.induct generalizing value rest with
  | case1 => simp [quotedValue] at h
  | case2 =>
    simp only [quotedValue,if_true,Option.some.injEq,Prod.mk.injEq] at h
    obtain ⟨rfl,rfl⟩ := h
    exact ⟨rfl,by simp⟩
  | case3 c hc => simp [quotedValue,hc] at h
  | case4 tail ih =>
    simp only [quotedValue,if_true,Option.map_eq_some_iff,Prod.exists,Prod.mk.injEq] at h
    obtain ⟨value,rest,hr,rfl,rfl⟩ := h
    obtain ⟨htail,hrest⟩ := ih hr
    exact ⟨by simp [escape,htail],hrest⟩
  | case5 d tail hd =>
    simp only [quotedValue,if_true,if_neg hd,Option.some.injEq,Prod.mk.injEq] at h
    obtain ⟨rfl,rfl⟩ := h
    exact ⟨rfl,by simpa using hd⟩
  | case6 c d tail hc ih =>
    simp only [quotedValue,if_neg hc,Option.map_eq_some_iff,Prod.exists,Prod.mk.injEq] at h
    obtain ⟨value,rest,hr,rfl,rfl⟩ := h
    obtain ⟨htail,hrest⟩ := ih hr
    exact ⟨by simp [escape,htail,hc],hrest⟩

/-- White space in front goes with what is dropped in front. -/
theorem skip_append {before : Text} (rest : Text)
    (h : ∀ c ∈ before, isTrimWhiteSpace c = true) :
    (before ++ rest).dropWhile isTrimWhiteSpace = rest.dropWhile isTrimWhiteSpace :=
  List.dropWhile_append_of_pos h

theorem skip_stop {c : Char} (rest : Text) (h : isTrimWhiteSpace c = false) :
    (c :: rest).dropWhile isTrimWhiteSpace = c :: rest := by simp [h]

theorem trimString_skip (text : Text) :
    trimString (text.dropWhile isTrimWhiteSpace) = trimString text := by
  simp only [trimString,List.dropWhile_idempotent isTrimWhiteSpace text]

theorem trimString_append {before : Text} (text : Text)
    (h : ∀ c ∈ before, isTrimWhiteSpace c = true) :
    trimString (before ++ text) = trimString text := by
  simp only [trimString,skip_append text h]

def kTrimWhiteSpace : Base.StringPiece := ⟨[0x20,0x09,0x0D,0x0A,0x0C],by decide⟩

/-- A text whose characters are the bytes of a string. -/
def SameBytes : List UInt8 → Text → Prop := List.Forall₂ (fun b c => b.toNat = c.toNat)

theorem isTrimWhiteSpace_eq {b : UInt8} {c : Char} (h : b.toNat = c.toNat) :
    decide (b ∈ kTrimWhiteSpace.data) = isTrimWhiteSpace c := by
  have hchar (d : Char) : c = d ↔ b.toNat = d.toNat := by rw [h,Char.toNat_inj]
  have hbyte (d : UInt8) : b = d ↔ b.toNat = d.toNat := UInt8.toNat_inj.symm
  unfold isTrimWhiteSpace kTrimWhiteSpace
  simp only [List.mem_cons,List.not_mem_nil,or_false,hchar,hbyte]
  rfl

theorem SameBytes.dropWhile {data : List UInt8} {text : Text} (h : SameBytes data text) :
    SameBytes (data.dropWhile (fun b => b ∈ kTrimWhiteSpace.data))
      (text.dropWhile isTrimWhiteSpace) := by
  induction h with
  | nil => exact .nil
  | @cons b c data text hbc hrest ih =>
    rw [List.dropWhile_cons,List.dropWhile_cons,isTrimWhiteSpace_eq hbc]
    split
    case isTrue => exact ih
    case isFalse => exact .cons hbc hrest

/-- What the texts lose here is what `TrimString` takes from their bytes. -/
theorem trimString_bytes {strings : Nat → Base.StringPiece} {input : Nat} {text : Text}
    (output : Nat) (h : SameBytes (strings input).data text) :
    ∃ changed value, Base.trimString strings input kTrimWhiteSpace output =
      some (changed,Function.update strings output value) ∧
      SameBytes value.data (trimString text) := by
  obtain ⟨value,heq,hdata⟩ := Base.trimString_eq strings input kTrimWhiteSpace output
  refine ⟨_,value,heq,?_⟩
  rw [hdata]
  exact List.rel_reverse (SameBytes.dropWhile (List.rel_reverse h.dropWhile))

def AtSeparator (tail : Text) : Prop := tail = [] ∨ ∃ rest, tail = ';' :: rest

theorem AtSeparator.skip {tail : Text} (h : AtSeparator tail) :
    tail.dropWhile isTrimWhiteSpace = tail := by
  obtain rfl | ⟨rest,rfl⟩ := h
  · rfl
  · exact skip_stop rest rfl

theorem head_after_quote {after tail : Text} (hafter : ∀ c ∈ after, isTrimWhiteSpace c = true)
    (htail : after = [] → tail.head? ≠ some quote) : (after ++ tail).head? ≠ some quote := by
  cases after with
  | nil => exact htail rfl
  | cons c after =>
    have hc := hafter c List.mem_cons_self
    rintro h
    obtain rfl : c = quote := by simpa using h
    cases hc

theorem readValue_quoted {before after tail : Text} (value : Text)
    (hbefore : ∀ c ∈ before, isTrimWhiteSpace c = true)
    (hafter : ∀ c ∈ after, isTrimWhiteSpace c = true)
    (htail : after = [] → tail.head? ≠ some quote) :
    readValue (before ++ quote :: (escape value ++ quote :: (after ++ tail))) =
      some (value,after ++ tail) := by
  simp only [readValue,skip_append _ hbefore]
  rw [skip_stop _ rfl]
  simp only [if_true,quotedValue_escape value (head_after_quote hafter htail)]

theorem readValue_bare {text tail : Text} (hsep : ';' ∉ text)
    (hquote : (text.dropWhile isTrimWhiteSpace).head? ≠ some quote) (htail : AtSeparator tail) :
    readValue (text ++ tail) = some (trimString text,tail) := by
  have hall : ∀ d ∈ text.dropWhile isTrimWhiteSpace, (d != ';') = true := by
    intro d hd
    rw [bne_iff_ne]
    rintro rfl
    exact hsep ((List.dropWhile_suffix _).subset hd)
  have hstop : tail.takeWhile (· != ';') = [] ∧ tail.dropWhile (· != ';') = tail := by
    obtain rfl | ⟨rest,rfl⟩ := htail <;> simp
  cases hd : text.dropWhile isTrimWhiteSpace with
  | nil =>
    have hspace : ∀ c ∈ text, isTrimWhiteSpace c = true := List.dropWhile_eq_nil_iff.mp hd
    have htrim : trimString text = [] := by simp [trimString,hd]
    simp only [readValue,skip_append tail hspace,htail.skip,htrim]
    obtain rfl | ⟨rest,rfl⟩ := htail
    · rfl
    · simp [quote,trimString]
  | cons c rest =>
    have hskip : (text ++ tail).dropWhile isTrimWhiteSpace = c :: (rest ++ tail) := by
      rw [List.dropWhile_append,hd]
      rfl
    rw [hd] at hall hquote
    have hc : c ≠ quote := by simpa using hquote
    simp only [readValue,hskip,if_neg hc]
    rw [← List.cons_append,List.takeWhile_append_of_pos hall,List.dropWhile_append_of_pos hall,
      hstop.1,hstop.2,List.append_nil,← hd,trimString_skip]

theorem readValue_text {text value tail : Text} (h : ValueText text value)
    (htail : AtSeparator tail) :
    ∃ rest, readValue (text ++ tail) = some (value,rest) ∧
      rest.dropWhile isTrimWhiteSpace = tail := by
  cases h with
  | @quoted before after _ hbefore hafter =>
    have hend : after = [] → tail.head? ≠ some quote := by
      obtain rfl | ⟨rest,rfl⟩ := htail <;> simp [quote]
    refine ⟨after ++ tail,?_,(skip_append tail hafter).trans htail.skip⟩
    have := readValue_quoted value hbefore hafter hend
    simpa only [List.append_assoc,List.cons_append] using this
  | bare hsep hquote => exact ⟨tail,readValue_bare hsep hquote htail,htail.skip⟩

inductive ValueRead : Text → Text → Text → Prop where
  | quoted {before rest : Text} (value : Text) (hbefore : ∀ c ∈ before, isTrimWhiteSpace c = true)
      (hquote : rest.head? ≠ some quote) :
      ValueRead (before ++ quote :: (escape value ++ quote :: rest)) value rest
  | bare {text rest : Text} (hsep : ';' ∉ text)
      (hquote : (text.dropWhile isTrimWhiteSpace).head? ≠ some quote) (hrest : AtSeparator rest) :
      ValueRead (text ++ rest) (trimString text) rest

theorem separator_after_run (text : Text) : AtSeparator (text.dropWhile (· != ';')) := by
  cases hd : text.dropWhile (· != ';') with
  | nil => exact .inl rfl
  | cons c rest =>
    have := List.head?_dropWhile_not (· != ';') text
    rw [hd] at this
    obtain rfl : c = ';' := by simpa using this
    exact .inr ⟨rest,rfl⟩

theorem separator_notMem_run (text : Text) : ';' ∉ text.takeWhile (· != ';') := by
  intro hmem
  simpa using List.mem_takeWhile_imp hmem

theorem readValue_sound {input value rest : Text} (h : readValue input = some (value,rest)) :
    ValueRead input value rest := by
  have hspace : ∀ c ∈ input.takeWhile isTrimWhiteSpace, isTrimWhiteSpace c = true :=
    fun c hc => List.mem_takeWhile_imp hc
  have hinput := (List.takeWhile_append_dropWhile (p := isTrimWhiteSpace) (l := input)).symm
  simp only [readValue] at h
  cases hd : input.dropWhile isTrimWhiteSpace with
  | nil =>
    simp only [hd,Option.some.injEq,Prod.mk.injEq] at h
    obtain ⟨rfl,rfl⟩ := h
    have hall := List.dropWhile_eq_nil_iff.mp hd
    have hsep : ';' ∉ input := by
      intro hmem
      cases hall ';' hmem
    have hbare : ValueRead (input ++ []) (trimString input) [] :=
      .bare hsep (by simp [hd]) (.inl rfl)
    rwa [List.append_nil,show trimString input = [] by simp [trimString,hd]] at hbare
  | cons c tail =>
    have hstop : isTrimWhiteSpace c = false := by
      have := List.head?_dropWhile_not isTrimWhiteSpace input
      simpa [hd] using this
    simp only [hd] at h
    rw [hd] at hinput
    by_cases hc : c = quote
    · rw [if_pos hc] at h
      obtain ⟨rfl,hquote⟩ := quotedValue_sound h
      rw [hinput,hc]
      exact .quoted value hspace hquote
    · simp only [if_neg hc,Option.some.injEq,Prod.mk.injEq] at h
      obtain ⟨rfl,rfl⟩ := h
      have hrun : isTrimWhiteSpace ';' = false := rfl
      generalize hrun' : (c :: tail).takeWhile (· != ';') = run
      have hskip : run.dropWhile isTrimWhiteSpace = run ∧ run.head? ≠ some quote := by
        subst hrun'
        by_cases hsep : c = ';'
        · simp [hsep]
        · simp [hsep,hstop,hc]
      have hbare : ValueRead ((input.takeWhile isTrimWhiteSpace ++ run) ++
          (c :: tail).dropWhile (· != ';')) (trimString (input.takeWhile isTrimWhiteSpace ++ run))
          ((c :: tail).dropWhile (· != ';')) := .bare ?_ ?_ (separator_after_run _)
      · rw [trimString_append run hspace,List.append_assoc,← hrun',
          List.takeWhile_append_dropWhile,← hinput,hrun'] at hbare
        exact hbare
      · intro hmem
        obtain hmem | hmem := List.mem_append.mp hmem
        · rw [hspace ';' hmem] at hrun
          cases hrun
        · exact separator_notMem_run (c :: tail) (hrun' ▸ hmem)
      · rw [skip_append run hspace,hskip.1]
        exact hskip.2

def readHead (input : Text) : Option (Text × Text × Text) := do
  let (key,rest) ← cut '=' input
  let (value,rest) ← readValue rest
  pure (key,value,rest.dropWhile isTrimWhiteSpace)

theorem readProperty_eq (input : Text) : readProperty input =
    (readHead input).map (fun r => ((trimString r.1,r.2.1),r.2.2.drop 1)) := by
  simp only [readProperty,readHead,skipSeparator]
  cases cut '=' input with
  | none => rfl
  | some r =>
    obtain ⟨key,rest⟩ := r
    simp only [Option.bind_eq_bind,Option.bind_some]
    cases readValue rest <;> rfl

theorem readHead_text {key text value : Text} (tail : Text) (hkey : '=' ∉ key)
    (hvalue : ValueText text value) (htail : AtSeparator tail) :
    readHead (key ++ '=' :: (text ++ tail)) = some (key,value,tail) := by
  obtain ⟨rest,hread,hskip⟩ := readValue_text hvalue htail
  simp [readHead,cut_append _ hkey,hread,hskip]

theorem readHead_stray {key before after : Text} (value rest : Text) {c : Char} (hkey : '=' ∉ key)
    (hbefore : ∀ c ∈ before, isTrimWhiteSpace c = true)
    (hafter : ∀ c ∈ after, isTrimWhiteSpace c = true) (hspace : isTrimWhiteSpace c = false)
    (hquote : after = [] → c ≠ quote) :
    readHead (key ++ '=' :: (before ++ quote :: (escape value ++ quote :: (after ++ c :: rest)))) =
      some (key,value,c :: rest) := by
  have hend : after = [] → (c :: rest).head? ≠ some quote := fun h => by simpa using hquote h
  simp only [readHead,cut_append _ hkey,Option.bind_eq_bind,Option.bind_some,
    readValue_quoted value hbefore hafter hend,skip_append _ hafter,skip_stop rest hspace]
  rfl

/-- A property that is read is one of the grammar up to a separator, or a stray character is
in the separator's place. -/
theorem readHead_sound {input key value tail : Text} (h : readHead input = some (key,value,tail)) :
    '=' ∉ key ∧ ((AtSeparator tail ∧ ∃ text, ValueText text value ∧
        input = key ++ '=' :: (text ++ tail)) ∨
      ∃ c rest, tail = c :: rest ∧ c ≠ ';' ∧ StrayText input) := by
  simp only [readHead,Option.bind_eq_bind,Option.bind_eq_some_iff,Option.pure_def,
    Option.some.injEq,Prod.mk.injEq,Prod.exists] at h
  obtain ⟨key,afterKey,hcut,value,afterValue,hread,rfl,rfl,rfl⟩ := h
  obtain ⟨rfl,hkey⟩ := cut_eq_some hcut
  refine ⟨hkey,?_⟩
  cases readValue_sound hread with
  | @bare text _ hsep hquote hrest =>
    refine .inl ⟨hrest.skip.symm ▸ hrest,text,.bare hsep hquote,?_⟩
    rw [hrest.skip]
  | @quoted before _ _ hbefore hquote =>
    have hspace : ∀ c ∈ afterValue.takeWhile isTrimWhiteSpace, isTrimWhiteSpace c = true :=
      fun c hc => List.mem_takeWhile_imp hc
    have hsplit := (List.takeWhile_append_dropWhile (p := isTrimWhiteSpace) (l := afterValue)).symm
    have htext : AtSeparator (afterValue.dropWhile isTrimWhiteSpace) →
        ∃ text, ValueText text value ∧
          key ++ '=' :: (before ++ quote :: (escape value ++ quote :: afterValue)) =
            key ++ '=' :: (text ++ afterValue.dropWhile isTrimWhiteSpace) := by
      intro _
      refine ⟨_,.quoted value hbefore hspace,?_⟩
      simp only [List.append_assoc,List.cons_append]
      rw [List.takeWhile_append_dropWhile]
    cases hd : afterValue.dropWhile isTrimWhiteSpace with
    | nil =>
      have hat : AtSeparator [] := .inl rfl
      exact .inl ⟨hat,hd ▸ htext (hd ▸ hat)⟩
    | cons c rest =>
      by_cases hsep : c = ';'
      · have hat : AtSeparator (c :: rest) := .inr ⟨rest,by rw [hsep]⟩
        exact .inl ⟨hat,hd ▸ htext (hd ▸ hat)⟩
      · have hstop : isTrimWhiteSpace c = false := by
          have := List.head?_dropWhile_not isTrimWhiteSpace afterValue
          simpa [hd] using this
        rw [hd] at hsplit
        refine .inr ⟨c,rest,rfl,hsep,?_⟩
        rw [hsplit]
        refine .here value hkey hbefore hspace hstop (fun hnil hc => hquote ?_) hsep
        rw [hsplit,hnil,hc]
        rfl

/-- What a text of properties and its first property have in common. -/
theorem PropertiesText.head {input key value tail : Text} {properties : List (Text × Text)}
    (h : PropertiesText input properties) (hread : readHead input = some (key,value,tail)) :
    (tail = [] ∧ properties = [(trimString key,value)]) ∨
      ∃ rest rest', tail = ';' :: rest ∧ properties = (trimString key,value) :: rest' ∧
        PropertiesText rest rest' := by
  cases h with
  | nil => cases hread
  | @last key' text value' hkey hvalue =>
    have hhead := readHead_text [] hkey hvalue (.inl rfl)
    rw [List.append_nil,hread] at hhead
    obtain ⟨rfl,rfl,rfl⟩ := hhead
    exact .inl ⟨rfl,rfl⟩
  | @next key' text value' rest rest' hkey hvalue hrest =>
    have hhead := readHead_text (';' :: rest) hkey hvalue (.inr ⟨rest,rfl⟩)
    rw [hread] at hhead
    obtain ⟨rfl,rfl,rfl⟩ := hhead
    exact .inr ⟨rest,rest',rfl,rfl,hrest⟩

theorem StrayText.head {input key value tail : Text} (h : StrayText input)
    (hread : readHead input = some (key,value,tail)) :
    (∃ c rest, tail = c :: rest ∧ c ≠ ';') ∨ ∃ rest, tail = ';' :: rest ∧ StrayText rest := by
  cases h with
  | @here key' before after rest value' c hkey hbefore hafter hspace hquote hsep =>
    have hhead := readHead_stray value' rest hkey hbefore hafter hspace hquote
    rw [hread] at hhead
    obtain ⟨-,-,rfl⟩ := hhead
    exact .inl ⟨_,_,rfl,hsep⟩
  | @next key' text value' rest hkey hvalue hrest =>
    have hhead := readHead_text (';' :: rest) hkey hvalue (.inr ⟨rest,rfl⟩)
    rw [hread] at hhead
    obtain ⟨-,-,rfl⟩ := hhead
    exact .inr ⟨rest,rfl,hrest⟩

theorem propertiesText_next {key text value rest : Text} (hkey : '=' ∉ key)
    (hvalue : ValueText text value) (properties : List (Text × Text)) :
    PropertiesText (key ++ '=' :: (text ++ ';' :: rest)) ((trimString key,value) :: properties) ↔
      PropertiesText rest properties := by
  refine ⟨fun h => ?_,.next hkey hvalue⟩
  have hread := readHead_text (';' :: rest) hkey hvalue (.inr ⟨rest,rfl⟩)
  obtain ⟨hnil,-⟩ | ⟨rest',properties',hcons,hmore,htext⟩ := h.head hread
  · cases hnil
  · obtain ⟨-,rfl⟩ := List.cons.inj hcons
    obtain ⟨-,rfl⟩ := List.cons.inj hmore
    exact htext

theorem strayText_next {key text value rest : Text} (hkey : '=' ∉ key)
    (hvalue : ValueText text value) :
    StrayText (key ++ '=' :: (text ++ ';' :: rest)) ↔ StrayText rest := by
  refine ⟨fun h => ?_,.next hkey hvalue⟩
  have hread := readHead_text (';' :: rest) hkey hvalue (.inr ⟨rest,rfl⟩)
  obtain ⟨d,rest',hcons,hsep⟩ | ⟨rest',hcons,hstray⟩ := h.head hread
  · obtain ⟨rfl,-⟩ := List.cons.inj hcons
    exact absurd rfl hsep
  · obtain ⟨-,rfl⟩ := List.cons.inj hcons
    exact hstray

theorem not_stray_nil : ¬ StrayText [] := by
  intro h
  generalize hinput : ([] : Text) = input at h
  cases h <;> simp at hinput

/-- One turn of the loop, from the property it reads. -/
theorem readProperties_cases {fuel : Nat} {properties all : List (Text × Text)} {c : Char}
    {input : Text} (h : readProperties (fuel+1) properties (c :: input) = some all) :
    ∃ key value tail, readHead (c :: input) = some (key,value,tail) ∧
      readProperties fuel (properties ++ [(trimString key,value)]) (tail.drop 1) = some all := by
  simp only [readProperties,readProperty_eq,Option.bind_eq_bind,Option.bind_eq_some_iff,
    Option.map_eq_some_iff,Prod.exists,Prod.mk.injEq] at h
  obtain ⟨key,value,rest,⟨key',value',tail,hread,⟨rfl,rfl⟩,rfl⟩,h⟩ := h
  split at h
  · cases h
  · exact ⟨key',value',tail,hread,h⟩

theorem readProperties_nil {fuel : Nat} {properties all : List (Text × Text)} :
    readProperties fuel properties [] = some all ↔ properties = all := by
  cases fuel <;> simp [readProperties]

/-- What the loop has read goes on with what it reads. -/
theorem readProperties_prefix {fuel : Nat} {properties all : List (Text × Text)} {input : Text}
    (h : readProperties fuel properties input = some all) : ∃ more, all = properties ++ more := by
  induction fuel generalizing properties input with
  | zero =>
    cases input with
    | nil => exact ⟨[],by simpa using (readProperties_nil.mp h).symm⟩
    | cons => cases h
  | succ fuel ih =>
    cases input with
    | nil => exact ⟨[],by simpa using (readProperties_nil.mp h).symm⟩
    | cons c input =>
      obtain ⟨key,value,tail,-,hrest⟩ := readProperties_cases h
      obtain ⟨more,hmore⟩ := ih hrest
      exact ⟨(trimString key,value) :: more,by simp [hmore]⟩

/-- A text that is read to its end is one of the grammar, and says what was read, exactly
where no stray character was taken for a separator. -/
theorem properties_text_iff {fuel : Nat} (properties : List (Text × Text))
    {more : List (Text × Text)} {input : Text}
    (h : readProperties fuel properties input = some (properties ++ more)) :
    PropertiesText input more ↔ ¬ StrayText input := by
  induction fuel generalizing properties more input with
  | zero =>
    cases input with
    | cons => cases h
    | nil =>
      obtain rfl : more = [] := by simpa using readProperties_nil.mp h
      exact iff_of_true .nil not_stray_nil
  | succ fuel ih =>
    cases input with
    | nil =>
      obtain rfl : more = [] := by simpa using readProperties_nil.mp h
      exact iff_of_true .nil not_stray_nil
    | cons c input =>
      obtain ⟨key,value,tail,hread,hrest⟩ := readProperties_cases h
      obtain ⟨rest',hrest'⟩ := readProperties_prefix hrest
      obtain rfl : more = (trimString key,value) :: rest' := by simpa using hrest'
      rw [hrest'] at hrest
      obtain ⟨hkey,⟨htail,text,hvalue,hinput⟩ | ⟨d,rest,rfl,hsep,hstray⟩⟩ := readHead_sound hread
      · obtain rfl | ⟨rest,rfl⟩ := htail
        · obtain rfl : rest' = [] := by simpa using readProperties_nil.mp hrest
          refine iff_of_true ?_ (fun hstray => ?_)
          · rw [hinput,List.append_nil]
            exact .last hkey hvalue
          · obtain ⟨d,rest,hcons,-⟩ | ⟨rest,hcons,-⟩ := hstray.head hread <;> cases hcons
        · rw [hinput,propertiesText_next hkey hvalue,strayText_next hkey hvalue]
          exact ih _ hrest
      · refine iff_of_false (fun htext => ?_) (fun hno => hno hstray)
        obtain ⟨hnil,-⟩ | ⟨rest,rest',hcons,-⟩ := htext.head hread
        · cases hnil
        · obtain ⟨rfl,-⟩ := List.cons.inj hcons
          exact hsep rfl

/-- A connection string of the grammar, with its driver and its properties. -/
def ConnectionText (s driver : Text) (properties : List (Text × Text)) : Prop :=
  ∃ rest, s = driver ++ ':' :: rest ∧ ':' ∉ driver ∧ PropertiesText rest properties

/-- Somewhere in the connection string a quoted value has something else than a separator
behind it. -/
def StrayConnection (s : Text) : Prop :=
  ∃ driver rest, s = driver ++ ':' :: rest ∧ ':' ∉ driver ∧ StrayText rest

theorem init_cases {s : Text} {info : ConnectionInfo} (h : ConnectionInfo.init s = some info) :
    ∃ rest, cut ':' s = some (info.driver,rest) ∧
      readProperties rest.length [] rest = some info.properties := by
  simp only [ConnectionInfo.init,Option.bind_eq_bind,Option.bind_eq_some_iff,Option.pure_def,
    Option.some.injEq,Prod.exists] at h
  obtain ⟨driver,rest,hcut,properties,hread,rfl⟩ := h
  exact ⟨rest,hcut,hread⟩

/-- Of the strings that `Init` reads without a failing check, those are of the grammar, with
what it has read, in which no quoted value has something else behind it. -/
theorem accepted_text_iff {s : Text} {info : ConnectionInfo}
    (h : ConnectionInfo.init s = some info) :
    ConnectionText s info.driver info.properties ↔ ¬ StrayConnection s := by
  obtain ⟨rest,hcut,hread⟩ := init_cases h
  obtain ⟨hs,hdriver⟩ := cut_eq_some hcut
  have hiff := properties_text_iff [] hread
  have htext : ConnectionText s info.driver info.properties ↔
      PropertiesText rest info.properties := by
    refine ⟨fun ⟨rest',hs',_,htext⟩ => ?_,fun htext => ⟨rest,hs,hdriver,htext⟩⟩
    obtain ⟨-,rfl⟩ := List.cons.inj (List.append_cancel_left (hs.symm.trans hs'))
    exact htext
  have hstray : StrayConnection s ↔ StrayText rest := by
    refine ⟨fun ⟨driver,rest',hs',hno,hstray⟩ => ?_,fun hstray => ⟨_,rest,hs,hdriver,hstray⟩⟩
    rw [hs',cut_append rest' hno] at hcut
    obtain ⟨-,rfl⟩ := hcut
    exact hstray
  rw [htext,hstray]
  exact hiff

theorem accepted_quoted :
    ConnectionText "mysql:user='ro''ot' ; @pool_size=2".toList "mysql".toList
        [("user".toList,"ro'ot".toList),("@pool_size".toList,"2".toList)] ↔
      ¬ StrayConnection "mysql:user='ro''ot' ; @pool_size=2".toList :=
  have hinit : ConnectionInfo.init "mysql:user='ro''ot' ; @pool_size=2".toList =
      some ⟨[("user".toList,"ro'ot".toList),("@pool_size".toList,"2".toList)],
        "mysql:user='ro''ot' ; @pool_size=2".toList,"mysql".toList⟩ := by decide
  accepted_text_iff hinit

/-- The character behind the closing quote is lost. -/
theorem character_dropped : ¬ ∀ s info, ConnectionInfo.init s = some info →
    ConnectionText s info.driver info.properties := by
  intro h
  obtain ⟨rest,hs,-,htext⟩ := h "a:k='v'xj=w".toList
    ⟨[("k".toList,"v".toList),("j".toList,"w".toList)],"a:k='v'xj=w".toList,"a".toList⟩ (by decide)
  obtain rfl : rest = "k='v'xj=w".toList := (List.cons.inj (List.cons.inj hs).2).2.symm
  have hread : readProperties 9 [] "k='v'xj=w".toList =
      some ([] ++ [("k".toList,"v".toList),("j".toList,"w".toList)]) := by decide
  have hstray : StrayText ("k".toList ++ '=' :: ([] ++ quote :: (escape "v".toList ++
      quote :: ([] ++ 'x' :: "j=w".toList)))) :=
    .here "v".toList (by decide) (by simp) (by simp) (by decide) (by decide) (by decide)
  exact (properties_text_iff [] hread).mp htext hstray

/-! Connection strings that are rendered. -/

def renderProperty (property : Text × Text) : Text :=
  property.1 ++ '=' :: quote :: (escape property.2 ++ [quote])

def renderProperties (properties : List (Text × Text)) : Text :=
  [';'].intercalate (properties.map renderProperty)

def render (driver : Text) (properties : List (Text × Text)) : Text :=
  driver ++ ':' :: renderProperties properties

def PlainKey (key : Text) : Prop :=
  '=' ∉ key ∧ key.head?.all (fun c => !isTrimWhiteSpace c) = true ∧
    key.getLast?.all (fun c => !isTrimWhiteSpace c) = true

instance : DecidablePred PlainKey := fun _ => inferInstanceAs (Decidable (_ ∧ _))

theorem skip_of_head {text : Text}
    (h : text.head?.all (fun c => !isTrimWhiteSpace c) = true) :
    text.dropWhile isTrimWhiteSpace = text := by
  cases text with
  | nil => rfl
  | cons c text => exact skip_stop text (by simpa using h)

theorem PlainKey.trim {key : Text} (h : PlainKey key) : trimString key = key := by
  obtain ⟨-,hfirst,hlast⟩ := h
  rw [trimString,skip_of_head hfirst,skip_of_head (by rwa [List.head?_reverse]),
    List.reverse_reverse]

theorem renderProperties_cons (property : Text × Text) (properties : List (Text × Text)) :
    ∃ tail, AtSeparator tail ∧ tail.drop 1 = renderProperties properties ∧
      renderProperties (property :: properties) = renderProperty property ++ tail := by
  cases properties with
  | nil => exact ⟨[],.inl rfl,rfl,by simp [renderProperties,List.intercalate]⟩
  | cons next properties =>
    refine ⟨';' :: renderProperties (next :: properties),.inr ⟨_,rfl⟩,rfl,?_⟩
    simp [renderProperties,List.intercalate]

theorem readProperty_render {property : Text × Text} {tail : Text} (hkey : PlainKey property.1)
    (htail : AtSeparator tail) :
    readProperty (renderProperty property ++ tail) = some (property,tail.drop 1) := by
  have hvalue : ValueText ([] ++ quote :: (escape property.2 ++ quote :: [])) property.2 :=
    .quoted property.2 (by simp) (by simp)
  have hread := readHead_text tail hkey.1 hvalue htail
  have htext : renderProperty property ++ tail = property.1 ++ '=' ::
      (([] ++ quote :: (escape property.2 ++ quote :: [])) ++ tail) := by
    simp [renderProperty]
  rw [readProperty_eq,htext,hread,Option.map_some,hkey.trim]

theorem readProperties_render (fuel : Nat) (seen : List (Text × Text))
    {properties : List (Text × Text)}
    (hkeys : ∀ p ∈ properties, PlainKey p.1) (hdistinct : ((seen ++ properties).map Prod.fst).Nodup)
    (hfuel : (renderProperties properties).length ≤ fuel) :
    readProperties fuel seen (renderProperties properties) = some (seen ++ properties) := by
  induction properties generalizing fuel seen with
  | nil => exact readProperties_nil.mpr (by simp)
  | cons property properties ih =>
    obtain ⟨tail,htail,hdrop,htext⟩ := renderProperties_cons property properties
    have hkey := hkeys property List.mem_cons_self
    have hread := readProperty_render hkey htail
    rw [← htext,hdrop] at hread
    have hshort := readProperty_length hread
    cases fuel with
    | zero => omega
    | succ fuel =>
      have hnew : property.1 ∉ seen.map Prod.fst := by
        intro hmem
        rw [List.map_append,List.map_cons] at hdistinct
        exact (List.nodup_append.mp hdistinct).2.2 _ hmem _ List.mem_cons_self rfl
      have hrest := ih fuel (seen ++ [property])
        (fun p hp => hkeys p (List.mem_cons_of_mem _ hp)) (by simpa using hdistinct) (by omega)
      cases hinput : renderProperties (property :: properties) with
      | nil =>
        rw [hinput] at hshort
        cases hshort
      | cons c input =>
        rw [hinput] at hread
        simp only [readProperties,hread,Option.bind_eq_bind,Option.bind_some,if_neg hnew,hrest,
          List.append_assoc,List.singleton_append]

/-- Whatever the values are, what is rendered with quotes is read as it was. -/
theorem init_render {driver : Text} {properties : List (Text × Text)} (hdriver : ':' ∉ driver)
    (hkeys : ∀ p ∈ properties, PlainKey p.1) (hdistinct : (properties.map Prod.fst).Nodup) :
    ConnectionInfo.init (render driver properties) =
      some ⟨properties,render driver properties,driver⟩ := by
  have hread := readProperties_render (renderProperties properties).length []
    hkeys hdistinct (Nat.le_refl _)
  simp [ConnectionInfo.init,render,cut_append _ hdriver,hread]

/-- A value with a separator, an equals sign and quotes at its ends. -/
theorem init_render_quotes :
    ConnectionInfo.init (render "mysql".toList [("password".toList,"';a=b'".toList),([],[])]) =
      some ⟨[("password".toList,"';a=b'".toList),([],[])],
        render "mysql".toList [("password".toList,"';a=b'".toList),([],[])],"mysql".toList⟩ :=
  init_render (by decide) (by decide) (by decide)

end MprMq.Db
