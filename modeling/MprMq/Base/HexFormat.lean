import MprMq.Base.HexEncode
set_option autoImplicit false

/-! Which texts `HexDecodeWithDelimiter` accepts. -/

namespace MprMq.Base
open Lib Lib.Buffer

def isHexDigit (c : Char) : Bool :=
  ('0' ≤ c ∧ c ≤ '9') ∨ ('A' ≤ c ∧ c ≤ 'F') ∨ ('a' ≤ c ∧ c ≤ 'f')

def isLetterOrDigit (c : Char) : Bool :=
  ('0' ≤ c ∧ c ≤ '9') ∨ ('A' ≤ c ∧ c ≤ 'Z') ∨ ('a' ≤ c ∧ c ≤ 'z')

def separator (delimiter : Char) : Text := if delimiter ≠ '\x00' then [delimiter] else []

inductive Pairs (digit : Char → Bool) (delimiter : Char) : Text → Prop where
  | last {c1 c2 : Char} : digit c1 = true → digit c2 = true → Pairs digit delimiter [c1,c2]
  | more {c1 c2 : Char} {rest : Text} : digit c1 = true → digit c2 = true →
      Pairs digit delimiter rest →
      Pairs digit delimiter (c1 :: c2 :: (separator delimiter ++ rest))

variable {delimiter : Char} {src rest : Text}

theorem Pairs.long {digit : Char → Bool} (h : Pairs digit delimiter rest) : 1 < rest.length := by
  cases h with
  | last => exact Nat.lt_succ_self 1
  | more => simp only [List.length_cons]; omega

theorem pairByte_isSome {c1 c2 : Char} : (pairByte c1 c2).isSome = true ↔
    isLetterOrDigit c1 = true ∧ isLetterOrDigit c2 = true := by
  have hchar (c : Char) : (hexDecodeChar c).isSome = isLetterOrDigit c := by
    unfold hexDecodeChar isLetterOrDigit
    by_cases hdigit : '0' ≤ c ∧ c ≤ '9'
    · simp [hdigit]
    · by_cases hupper : 'A' ≤ c ∧ c ≤ 'Z'
      · simp [hdigit,hupper]
      · by_cases hlower : 'a' ≤ c ∧ c ≤ 'z'
        · simp [hdigit,hupper,hlower]
        · simp [hdigit,hupper,hlower]
  rw [← hchar,← hchar,pairByte]
  cases hexDecodeChar c1 <;> cases hexDecodeChar c2 <;> simp

theorem skip_pairs {digit : Char → Bool} (h : Pairs digit delimiter rest) :
    skip delimiter (separator delimiter ++ rest) = some rest := by
  have hlong := h.long
  by_cases hd : delimiter ≠ '\x00'
  · simp only [skip,separator,if_pos hd,List.singleton_append,List.length_cons,List.head?_cons,
      List.drop_one,List.tail_cons]
    rw [if_pos ⟨hd,by omega⟩,if_pos trivial]
  · rw [skip,separator,if_neg hd,if_neg (fun hboth => hd hboth.1),List.nil_append]

theorem skip_nil : skip delimiter [] = some [] := by
  rw [skip,if_neg (fun hboth => absurd hboth.2 (by decide))]

/-- Pairs of letters and digits are decoded, whatever the letters are. -/
theorem Pairs.decoded (h : Pairs isLetterOrDigit delimiter src) (out : List UInt8) :
    ∃ bytes, bytes ≠ [] ∧
      decodedBytes (delimiting delimiter) src out = some (out ++ bytes) := by
  induction h generalizing out with
  | last h1 h2 =>
    obtain ⟨b,hb⟩ := Option.isSome_iff_exists.mp (pairByte_isSome.mpr ⟨h1,h2⟩)
    refine ⟨[b],List.cons_ne_nil _ _,?_⟩
    rw [decodedBytes_cons,hb,Option.bind_some,skip_nil,Option.bind_some,decodedBytes]
  | more h1 h2 hrest ih =>
    obtain ⟨b,hb⟩ := Option.isSome_iff_exists.mp (pairByte_isSome.mpr ⟨h1,h2⟩)
    obtain ⟨bytes,-,hbytes⟩ := ih (out ++ [b])
    refine ⟨b :: bytes,List.cons_ne_nil _ _,?_⟩
    rw [decodedBytes_cons,hb,Option.bind_some,skip_pairs hrest,Option.bind_some,hbytes,
      List.append_assoc,List.singleton_append]

theorem skip_cases {rest' : Text} (h : skip delimiter rest = some rest') :
    rest = separator delimiter ++ rest' ∧ (rest' = [] → rest = []) ∨
      rest' = rest ∧ rest.length ≤ 1 := by
  unfold skip at h
  unfold separator
  split at h
  case isTrue hmore =>
    rw [Option.ite_none_right_eq_some,Option.some.injEq] at h
    obtain ⟨hhead,rfl⟩ := h
    rcases rest with _ | ⟨e,rest⟩
    · cases hhead
    · cases Option.some.inj hhead
      rw [if_pos hmore.1]
      refine .inl ⟨rfl,fun hnil => ?_⟩
      rw [List.drop_one,List.tail_cons] at hnil
      rw [hnil] at hmore
      exact absurd hmore.2 (by simp)
  case isFalse hless =>
    cases h
    by_cases hd : delimiter ≠ '\x00'
    · exact .inr ⟨rfl,Nat.le_of_not_lt fun hlong => hless ⟨hd,hlong⟩⟩
    · rw [if_neg hd]
      exact .inl ⟨rfl,id⟩

theorem pairs_of_decoded {out out' : List UInt8}
    (h : decodedBytes (delimiting delimiter) src out = some out') :
    src = [] ∧ out' = out ∨ Pairs isLetterOrDigit delimiter src := by
  induction hn : src.length using Nat.strong_induction_on generalizing src out with
  | _ n ih =>
    rcases src with _ | ⟨c1,_ | ⟨c2,rest⟩⟩
    · exact .inl ⟨rfl,(Option.some.inj h).symm⟩
    · cases h
    · right
      rw [decodedBytes_cons] at h
      obtain ⟨b,hb,h⟩ := Option.bind_eq_some_iff.mp h
      obtain ⟨rest',hrest',h⟩ := Option.bind_eq_some_iff.mp h
      obtain ⟨h1,h2⟩ := pairByte_isSome.mp (Option.isSome_of_eq_some hb)
      have hshort := (skip_needed hrest').1
      rw [List.length_cons,List.length_cons] at hn
      have hnext := ih rest'.length (by omega) h rfl
      rcases skip_cases hrest' with ⟨rfl,hnil⟩ | ⟨rfl,hone⟩
      · rcases hnext with ⟨hempty,-⟩ | hnext
        · rw [hnil hempty]
          exact .last h1 h2
        · exact .more h1 h2 hnext
      · rcases hnext with ⟨rfl,-⟩ | hnext
        · exact .last h1 h2
        · exact absurd hnext.long (Nat.not_lt.mpr hone)

theorem letterOrDigit_of_hex (c : Char) (h : isHexDigit c = true) : isLetterOrDigit c = true := by
  simp only [isHexDigit,decide_eq_true_eq] at h
  simp only [isLetterOrDigit,decide_eq_true_eq]
  rcases h with hdigit | ⟨hlow,hhigh⟩ | ⟨hlow,hhigh⟩
  · exact .inl hdigit
  · exact .inr (.inl ⟨hlow,Char.le_trans hhigh (by decide)⟩)
  · exact .inr (.inr ⟨hlow,Char.le_trans hhigh (by decide)⟩)

/-- A hexadecimal digit is written back, in upper case. -/
theorem hexDigit_value {c : Char} (h : isHexDigit c = true) : ∃ v < 16,
    hexDecodeChar c = some v ∧ (kHex.getD v '0').toLower = c.toLower := by
  have hall : ∀ n < 128, isHexDigit (Char.ofNat n) = true → ∃ v < 16,
      hexDecodeChar (Char.ofNat n) = some v ∧
        (kHex.getD v '0').toLower = (Char.ofNat n).toLower := by decide
  have hlast : c ≤ 'z' := by
    have hletter := letterOrDigit_of_hex c h
    simp only [isLetterOrDigit,decide_eq_true_eq] at hletter
    rcases hletter with hc | hc | hc
    · exact Char.le_trans hc.2 (by decide)
    · exact Char.le_trans hc.2 (by decide)
    · exact hc.2
  have hsmall : c.toNat < 128 :=
    Nat.lt_of_le_of_lt (UInt32.le_iff_toNat_le.mp (Char.le_def.mp hlast)) (by decide)
  have hc := hall c.toNat hsmall
  rw [Char.ofNat_toNat] at hc
  exact hc h

theorem hexPair_hexByte : ∀ h1 < 16, ∀ h2 < 16,
    hexPair (hexByte h1 h2) = [kHex.getD h1 '0',kHex.getD h2 '0'] := by decide

theorem hexPair_encoded {c1 c2 : Char} (h1 : isHexDigit c1 = true) (h2 : isHexDigit c2 = true) :
    ∃ b, pairByte c1 c2 = some b ∧ toLowerASCII (hexPair b) = toLowerASCII [c1,c2] := by
  obtain ⟨v1,hsmall1,hv1,hlower1⟩ := hexDigit_value h1
  obtain ⟨v2,hsmall2,hv2,hlower2⟩ := hexDigit_value h2
  refine ⟨hexByte v1 v2,by rw [pairByte,hv1,hv2],?_⟩
  rw [hexPair_hexByte v1 hsmall1 v2 hsmall2]
  simp only [toLowerASCII,List.map_cons,List.map_nil,hlower1,hlower2]

theorem toLowerASCII_append (s t : Text) :
    toLowerASCII (s ++ t) = toLowerASCII s ++ toLowerASCII t := List.map_append

theorem Pairs.encoded (h : Pairs isHexDigit delimiter src) (out : List UInt8) :
    ∃ bytes, bytes ≠ [] ∧
      decodedBytes (delimiting delimiter) src out = some (out ++ bytes) ∧
      toLowerASCII (hexText delimiter bytes) = toLowerASCII src := by
  induction h generalizing out with
  | last h1 h2 =>
    obtain ⟨b,hb,hlower⟩ := hexPair_encoded h1 h2
    refine ⟨[b],List.cons_ne_nil _ _,?_,?_⟩
    · rw [decodedBytes_cons,hb,Option.bind_some,skip_nil,Option.bind_some,decodedBytes]
    · rw [hexText,hexChunk,if_neg (fun hmore => hmore.2 rfl),List.append_nil,hexText,
        List.append_nil,hlower]
  | more h1 h2 hrest ih =>
    obtain ⟨b,hb,hlower⟩ := hexPair_encoded h1 h2
    obtain ⟨bytes,hne,hbytes,hsame⟩ := ih (out ++ [b])
    refine ⟨b :: bytes,List.cons_ne_nil _ _,?_,?_⟩
    · rw [decodedBytes_cons,hb,Option.bind_some,skip_pairs hrest,Option.bind_some,hbytes,
        List.append_assoc,List.singleton_append]
    · have hchunk : hexChunk delimiter b bytes = hexPair b ++ separator delimiter := by
        unfold hexChunk separator
        simp only [hne,ne_eq,not_false_eq_true,and_true]
      rw [hexText,hchunk,toLowerASCII_append,hsame,← toLowerASCII_append,List.append_assoc,
        toLowerASCII_append,hlower,← toLowerASCII_append]
      rfl

/-- A buffer of no bytes is large enough for a source that holds no pair. -/
theorem hexDecodeInto_enough (buf : List UInt8)
    (hroom : decodeNeeded delimiter src.length ≤ buf.length) :
    Decodes [] buf (decodedBytes (delimiting delimiter) src [])
      (hexDecodeInto buf src delimiter) := by
  rcases buf with _ | ⟨b,buf⟩
  · rw [hexDecodeInto_small (.inl rfl)]
    rcases src with _ | ⟨c1,_ | ⟨c2,rest⟩⟩
    · exact ⟨Nat.le_refl _,Nat.le_refl _,rfl⟩
    · exact ⟨[],rfl,rfl⟩
    · have hneeded := decodeNeeded_two delimiter rest.length
      exact absurd hroom (Nat.not_le.mpr hneeded)
  · exact hexDecodeInto_fits delimiter _ src (Nat.succ_pos _) hroom

/-- What a string is decoded to does not depend on what the stack held. -/
theorem hexDecodeString_eq (stack : Nat → UInt8) (hne : src ≠ []) :
    hexDecodeString stack src =
      ((decodedBytes none src []).bind fun out => if out = [] then none else some out) := by
  have hdone : Decodes [] (uninitialized stack (src.length/2))
      (decodedBytes (delimiting '\x00') src [])
      (hexDecodeInto (uninitialized stack (src.length/2)) src '\x00') :=
    hexDecodeInto_enough _ (by rw [length_uninitialized]; exact Nat.le_refl _)
  rw [hexDecodeString,if_neg hne]
  cases hloop : decodedBytes none src [] with
  | none =>
    rw [show decodedBytes (delimiting '\x00') src [] = none from hloop] at hdone
    obtain ⟨buf,hbuf,-⟩ := hdone
    simp [hbuf]
  | some out =>
    rw [show decodedBytes (delimiting '\x00') src [] = some out from hloop] at hdone
    rw [hdone.2.2]
    cases out <;> simp

/-- The key of a job is taken although its letters go beyond F. -/
theorem hexDecode_isSome (hne : src ≠ []) :
    (hexDecode src).isSome = true ↔ Pairs isLetterOrDigit '\x00' src := by
  have hloop : decodedBytes none src [] = decodedBytes (delimiting '\x00') src [] := rfl
  rw [hexDecode,hexDecodeString_eq _ hne,hloop]
  constructor
  · intro hsome
    cases hdone : decodedBytes (delimiting '\x00') src [] with
    | none => simp [hdone] at hsome
    | some out => exact (pairs_of_decoded hdone).resolve_left fun h => hne h.1
  · intro hpairs
    obtain ⟨bytes,hbytes,hdone⟩ := hpairs.decoded []
    simp [hdone,hbytes]

/-- The hex format is accepted and nothing else, and what is decoded encodes to the source. -/
structure HexRight (delimiter : Char) (src : Text) (buf' : List UInt8) (n : Nat) : Prop where
  accepted : n ≠ 0 ↔ Pairs isHexDigit delimiter src
  encoded : n ≠ 0 → ∀ text : Text, encodeNeeded delimiter n ≤ text.length → ∃ text' m,
    hexEncodeWithDelimiter text (buf'.take n) delimiter = some (text',m) ∧
      toLowerASCII (text'.take m) = toLowerASCII src

/-- Decoding is right unless the source is in the format but for letters beyond F. -/
theorem hex_decode_format (delimiter : Char) (src : Text) (buf : List UInt8)
    (hroom : decodeNeeded delimiter src.length ≤ buf.length) :
    (∃ buf' n, hexDecodeInto buf src delimiter = some (buf',n) ∧
      HexRight delimiter src buf' n) ↔
        (Pairs isLetterOrDigit delimiter src → Pairs isHexDigit delimiter src) := by
  have hdone := hexDecodeInto_enough buf hroom
  constructor
  · rintro ⟨buf',n,hdecode,hright⟩ hpairs
    obtain ⟨bytes,hbytes,hloop⟩ := hpairs.decoded []
    rw [hloop] at hdone
    rw [hdone.2.2] at hdecode
    cases hdecode
    exact hright.accepted.mp (by simpa using hbytes)
  · intro hpairs
    cases hloop : decodedBytes (delimiting delimiter) src [] with
    | none =>
      rw [hloop] at hdone
      obtain ⟨buf',hdecode,-⟩ := hdone
      refine ⟨buf',0,hdecode,⟨fun h => absurd rfl h,fun hhex => ?_⟩,fun h => absurd rfl h⟩
      obtain ⟨bytes,-,hbytes,-⟩ := hhex.encoded []
      cases hloop.symm.trans hbytes
    | some out =>
      rw [hloop] at hdone
      refine ⟨_,_,hdone.2.2,?_⟩
      rcases pairs_of_decoded hloop with ⟨rfl,rfl⟩ | hdecoded
      · refine ⟨⟨fun h => absurd rfl h,fun hhex => ?_⟩,fun h => absurd rfl h⟩
        exact absurd hhex.long (by decide)
      · have hhex := hpairs hdecoded
        obtain ⟨bytes,hbytes,hloop',hsame⟩ := hhex.encoded []
        cases hloop.symm.trans hloop'
        refine ⟨iff_of_true (by simpa using hbytes) hhex,fun _ text htext => ?_⟩
        rw [List.take_left]
        obtain ⟨text',hencode,htake⟩ := hexEncode_text delimiter text _ htext
        exact ⟨text',_,hencode,by rw [htake]; exact hsame⟩

theorem hex_decode_format_pair : (∃ buf' n,
    hexDecodeInto [0,0] ['0','a',':','F','f'] ':' = some (buf',n) ∧
      HexRight ':' ['0','a',':','F','f'] buf' n) ↔
        (Pairs isLetterOrDigit ':' ['0','a',':','F','f'] →
          Pairs isHexDigit ':' ['0','a',':','F','f']) :=
  hex_decode_format ':' _ [0,0] (by decide)

/-- A pair of letters beyond F is decoded to a byte. -/
theorem hex_decode_beyond : hexDecodeInto [0] ['Z','Z'] '\x00' = some ([51],1) ∧
    ¬ HexRight '\x00' ['Z','Z'] [51] 1 := by
  refine ⟨by decide,fun hright => ?_⟩
  have hhex : ∀ {src : Text}, Pairs isHexDigit '\x00' src → src.head? ≠ some 'Z' := by
    rintro _ (⟨h1,-⟩ | ⟨h1,-,-⟩)
    all_goals
      rintro hz
      cases Option.some.inj hz
      exact absurd h1 (by decide)
  exact hhex (hright.accepted.mp Nat.one_ne_zero) rfl

end MprMq.Base
