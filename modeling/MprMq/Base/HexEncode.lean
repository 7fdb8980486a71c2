import Mathlib.Data.Nat.Bitwise
import MprMq.Base.StringUtil
import MprMq.Lib.Buffer
set_option autoImplicit false

/-! `HexEncode` and `HexDecode` with the buffers they write to. -/

namespace MprMq.Base
open Lib Lib.Buffer

def kHex : Text := ['0','1','2','3','4','5','6','7','8','9','A','B','C','D','E','F']

/-- `HexEncode` of one value; `none` is the failed check. -/
def hexEncodeChar (v : Nat) : Option Char := kHex[v]?

def hexEncodeLoop (delimiter : Char) (buf : Text) (pos : Nat) :
    List UInt8 → Option (Text × Nat)
  | [] => some (buf,pos)
  | ch :: src => do
    let high ← hexEncodeChar (ch.toNat >>> 4 &&& 0xF)
    let buf ← put buf pos [high]
    let low ← hexEncodeChar (ch.toNat &&& 0xF)
    let buf ← put buf (pos+1) [low]
    if delimiter ≠ '\x00' ∧ src ≠ [] then
      hexEncodeLoop delimiter (← put buf (pos+2) [delimiter]) (pos+3) src
    else hexEncodeLoop delimiter buf (pos+2) src

def encodeNeeded (delimiter : Char) (srcLen : Nat) : Nat :=
  if delimiter ≠ '\x00' then srcLen*3 else srcLen*2+1

/-- The buffer afterwards and what is returned; `none` is a write outside the buffer. -/
def hexEncodeWithDelimiter (buf : Text) (src : List UInt8) (delimiter : Char) :
    Option (Text × Nat) :=
  if buf.length = 0 then some (buf,0)
  else if buf.length < encodeNeeded delimiter src.length then some (buf,0)
  else do
    let (buf,pos) ← hexEncodeLoop delimiter buf 0 src
    return (← put buf pos ['\x00'],pos)

def hexEncodeString (stack : Nat → Char) (src : List UInt8) : Option Text := do
  let (buf,length) ← hexEncodeWithDelimiter (uninitialized stack (src.length*3)) src '\x00'
  if src.length = 0 ∨ 0 < length then some (buf.take length) else none

/-- `HexDecode` of one character; its letters go up to Z. -/
def hexDecodeChar (ch : Char) : Option Nat :=
  if '0' ≤ ch ∧ ch ≤ '9' then some (ch.toNat - '0'.toNat)
  else if 'A' ≤ ch ∧ ch ≤ 'Z' then some (ch.toNat - 'A'.toNat+10)
  else if 'a' ≤ ch ∧ ch ≤ 'z' then some (ch.toNat - 'a'.toNat+10)
  else none

def hexByte (h1 h2 : Nat) : UInt8 := UInt8.ofNat ((h1*2^4) ||| h2)

def hexDecodeIntoLoop (delimiter : Char) : Text → List UInt8 → Nat → Option (List UInt8 × Nat)
  | [], buf, pos => some (buf,pos)
  | [_], buf, _ => some (buf,0)
  | c1 :: c2 :: rest, buf, pos =>
    match hexDecodeChar c1, hexDecodeChar c2 with
    | some h1, some h2 => do
      let buf ← put buf pos [hexByte h1 h2]
      match rest with
      | e :: c3 :: rest =>
        if delimiter ≠ '\x00' then
          if e ≠ delimiter then some (buf,0)
          else hexDecodeIntoLoop delimiter (c3 :: rest) buf (pos+1)
        else hexDecodeIntoLoop delimiter (e :: c3 :: rest) buf (pos+1)
      | rest => hexDecodeIntoLoop delimiter rest buf (pos+1)
    | _, _ => some (buf,0)

def decodeNeeded (delimiter : Char) (srcLen : Nat) : Nat :=
  if delimiter ≠ '\x00' then (srcLen+1)/3 else srcLen/2

def hexDecodeInto (buf : List UInt8) (src : Text) (delimiter : Char) :
    Option (List UInt8 × Nat) :=
  if buf.length = 0 then some (buf,0)
  else if buf.length < decodeNeeded delimiter src.length then some (buf,0)
  else hexDecodeIntoLoop delimiter src buf 0

def hexDecodeString (stack : Nat → UInt8) (src : Text) : Option (List UInt8) :=
  if src = [] then some []
  else do
    let (buf,length) ← hexDecodeInto (uninitialized stack (src.length/2)) src '\x00'
    if 0 < length then some (buf.take length) else none

/-- `HexDecode` of a string, which does not depend on the stack. -/
def hexDecode (src : Text) : Option (List UInt8) := hexDecodeString (fun _ => 0) src

def hexPair (b : UInt8) : Text := [kHex.getD (b.toNat/16) '0',kHex.getD (b.toNat%16) '0']

def hexChunk (delimiter : Char) (b : UInt8) (src : List UInt8) : Text :=
  hexPair b ++ if delimiter ≠ '\x00' ∧ src ≠ [] then [delimiter] else []

def hexText (delimiter : Char) : List UInt8 → Text
  | [] => []
  | b :: src => hexChunk delimiter b src ++ hexText delimiter src

theorem hexEncodeChar_of_lt {v : Nat} (h : v < 16) :
    hexEncodeChar v = some (kHex.getD v '0') := by
  have hv : v < kHex.length := h
  rw [hexEncodeChar,List.getElem?_eq_getElem hv,List.getD_eq_getElem kHex '0' hv]

theorem hexDecodeChar_digit : ∀ v < 16, hexDecodeChar (kHex.getD v '0') = some v := by decide

theorem byte_nibbles (b : UInt8) :
    b.toNat >>> 4 &&& 0xF = b.toNat/16 ∧ b.toNat &&& 0xF = b.toNat%16 := by
  have hb := b.toNat_lt
  have hlow (n : Nat) : n &&& 0xF = n%16 := Nat.and_two_pow_sub_one_eq_mod n 4
  rw [hlow,hlow,Nat.shiftRight_eq_div_pow]
  omega

theorem hexByte_nibbles (b : UInt8) : hexByte (b.toNat/16) (b.toNat%16) = b := by
  have hor : b.toNat/16*2^4 ||| b.toNat%16 = b.toNat := by
    rw [Nat.mul_comm,← Nat.two_pow_add_eq_or_of_lt (by omega)]
    omega
  rw [hexByte,hor,UInt8.ofNat_toNat]

theorem length_hexText (delimiter : Char) (src : List UInt8) :
    (hexText delimiter src).length =
      if delimiter ≠ '\x00' then src.length*3-1 else src.length*2 := by
  induction src with
  | nil => simp [hexText]
  | cons b src ih =>
    rw [hexText,List.length_append,ih]
    by_cases hd : delimiter ≠ '\x00'
    · cases src with
      | nil => simp [hd,hexChunk,hexPair]
      | cons c src => simp [hd,hexChunk,hexPair]; omega
    · simp [hd,hexChunk,hexPair]; omega

theorem hexEncodeLoop_cons (delimiter : Char) (buf : Text) (pos : Nat) (b : UInt8)
    (src : List UInt8) : hexEncodeLoop delimiter buf pos (b :: src) =
      (put buf pos (hexChunk delimiter b src)).bind
        fun buf => hexEncodeLoop delimiter buf (pos+(hexChunk delimiter b src).length) src := by
  have hb := b.toNat_lt
  obtain ⟨hhigh,hlow⟩ := byte_nibbles b
  rw [hexEncodeLoop,hhigh,hlow,hexEncodeChar_of_lt (by omega),hexEncodeChar_of_lt (by omega)]
  simp only [Option.bind_eq_bind,Option.bind_some]
  have hpair : put buf pos (hexPair b) = (put buf pos [kHex.getD (b.toNat/16) '0']).bind
      fun buf' => put buf' (pos+1) [kHex.getD (b.toNat%16) '0'] :=
    (put_append buf pos [kHex.getD (b.toNat/16) '0'] [kHex.getD (b.toNat%16) '0']).symm
  unfold hexChunk
  split
  · rw [← put_append,hpair]
    simp only [Option.bind_assoc]
    rfl
  · rw [List.append_nil,hpair]
    simp only [Option.bind_assoc]
    rfl

/-- The loop writes the text and nothing else. -/
theorem hexEncodeLoop_eq (delimiter : Char) {buf : Text} {pos : Nat} (hpos : pos ≤ buf.length)
    (src : List UInt8) : hexEncodeLoop delimiter buf pos src =
      (put buf pos (hexText delimiter src)).map
        fun buf' => (buf',pos+(hexText delimiter src).length) := by
  induction src generalizing buf pos with
  | nil =>
    rw [hexText,put_eq (by simpa using hpos)]
    simp [hexEncodeLoop]
  | cons b src ih =>
    rw [hexEncodeLoop_cons,hexText,← put_append]
    cases hput : put buf pos (hexChunk delimiter b src) with
    | none => rfl
    | some buf' =>
      have hfits : pos+(hexChunk delimiter b src).length ≤ buf'.length := by
        rw [put_length hput]
        exact le_of_put hput
      rw [Option.bind_some,Option.bind_some,ih hfits,List.length_append,Nat.add_assoc]

theorem hexEncode_small {delimiter : Char} {buf : Text} {src : List UInt8}
    (h : buf.length = 0 ∨ buf.length < encodeNeeded delimiter src.length) :
    hexEncodeWithDelimiter buf src delimiter = some (buf,0) := by
  unfold hexEncodeWithDelimiter
  split
  · rfl
  · rw [if_pos (by omega)]

theorem hexText_fits (delimiter : Char) (src : List UInt8) {bufLen : Nat} (hne : 0 < bufLen)
    (h : encodeNeeded delimiter src.length ≤ bufLen) :
    (hexText delimiter src).length+1 ≤ bufLen := by
  rw [length_hexText]
  unfold encodeNeeded at h
  by_cases hd : delimiter ≠ '\x00'
  · rw [if_pos hd] at h ⊢
    omega
  · rw [if_neg hd] at h ⊢
    exact h

theorem hexEncode_fits (delimiter : Char) {buf : Text} (src : List UInt8) (hne : 0 < buf.length)
    (h : encodeNeeded delimiter src.length ≤ buf.length) :
    hexEncodeWithDelimiter buf src delimiter =
      some (hexText delimiter src ++ '\x00' :: buf.drop ((hexText delimiter src).length+1),
        (hexText delimiter src).length) := by
  have hfits : (hexText delimiter src ++ ['\x00']).length ≤ buf.length := by
    rw [List.length_append]
    exact hexText_fits delimiter src hne h
  have hboth := put_append buf 0 (hexText delimiter src) ['\x00']
  rw [put_at_start hfits,Nat.zero_add] at hboth
  rw [hexEncodeWithDelimiter,if_neg (by omega),if_neg (by omega),
    hexEncodeLoop_eq delimiter (Nat.zero_le _),Nat.zero_add]
  simp only [Option.bind_eq_bind,Option.bind_map,Function.comp_def]
  cases hput : put buf 0 (hexText delimiter src) with
  | none =>
    rw [hput] at hboth
    cases hboth
  | some buf' =>
    rw [hput,Option.bind_some] at hboth
    simp [hboth]

def delimiting (delimiter : Char) : Option Char :=
  if delimiter ≠ '\x00' then some delimiter else none

/-- The bytes that a source stands for, behind those decoded so far; `none` is the
`return 0` inside the loop. -/
def decodedBytes (delimiter : Option Char) : Text → List UInt8 → Option (List UInt8)
  | [], out => some out
  | [_], _ => none
  | c1 :: c2 :: rest, out =>
    match hexDecodeChar c1, hexDecodeChar c2 with
    | some h1, some h2 =>
      let out := out ++ [hexByte h1 h2]
      match delimiter, rest with
      | some d, e :: c3 :: rest =>
        if e = d then decodedBytes delimiter (c3 :: rest) out else none
      | _, rest => decodedBytes delimiter rest out
    | _, _ => none

def Decodes (out tail : List UInt8) (result : Option (List UInt8))
    (done : Option (List UInt8 × Nat)) : Prop :=
  match result with
  | some out' => out.length ≤ out'.length ∧ out'.length ≤ out.length+tail.length ∧
    done = some (out' ++ tail.drop (out'.length-out.length),out'.length)
  | none => ∃ buf, done = some (buf,0) ∧ buf.length = out.length+tail.length

theorem put_next {out tail : List UInt8} {b : UInt8} (h : 0 < tail.length) :
    put (out ++ tail) out.length [b] = some ((out ++ [b]) ++ tail.drop 1) := by
  rw [put_eq (by simp; omega),List.take_left,List.length_singleton]
  simp

theorem Decodes.next {out tail : List UInt8} {b : UInt8} {result : Option (List UInt8)}
    {done : Option (List UInt8 × Nat)} (h : 0 < tail.length)
    (hd : Decodes (out ++ [b]) (tail.drop 1) result done) : Decodes out tail result done := by
  cases result with
  | none =>
    obtain ⟨buf,hbuf,hlength⟩ := hd
    refine ⟨buf,hbuf,?_⟩
    simp only [List.length_append,List.length_singleton,List.length_drop] at hlength
    omega
  | some out' =>
    obtain ⟨hgrows,hfits,hdone⟩ := hd
    rw [List.length_append,List.length_singleton] at hgrows hfits hdone
    rw [List.length_drop] at hfits
    refine ⟨by omega,by omega,?_⟩
    rw [hdone,List.drop_drop,show 1+(out'.length-(out.length+1)) = out'.length-out.length by omega]

def pairByte (c1 c2 : Char) : Option UInt8 :=
  match hexDecodeChar c1, hexDecodeChar c2 with
  | some h1, some h2 => some (hexByte h1 h2)
  | _, _ => none

def skip (delimiter : Char) (rest : Text) : Option Text :=
  if delimiter ≠ '\x00' ∧ 1 < rest.length then
    if rest.head? = some delimiter then some (rest.drop 1) else none
  else some rest

theorem decodedBytes_cons (delimiter c1 c2 : Char) (rest : Text) (out : List UInt8) :
    decodedBytes (delimiting delimiter) (c1 :: c2 :: rest) out =
      (pairByte c1 c2).bind fun b => (skip delimiter rest).bind fun rest =>
        decodedBytes (delimiting delimiter) rest (out ++ [b]) := by
  rw [decodedBytes,pairByte]
  cases hexDecodeChar c1 with
  | none => rfl
  | some h1 =>
    cases hexDecodeChar c2 with
    | none => rfl
    | some h2 =>
      by_cases hd : delimiter ≠ '\x00'
      · rcases rest with _ | ⟨e,_ | ⟨c3,rest⟩⟩
        · simp [delimiting,skip,hd]
        · simp [delimiting,skip,hd]
        · by_cases he : e = delimiter
          · simp [delimiting,skip,hd,he]
          · simp [delimiting,skip,hd,he]
      · simp [delimiting,skip,hd]

theorem hexDecodeIntoLoop_cons (delimiter c1 c2 : Char) (rest : Text) (buf : List UInt8)
    (pos : Nat) : hexDecodeIntoLoop delimiter (c1 :: c2 :: rest) buf pos =
      match pairByte c1 c2 with
      | none => some (buf,0)
      | some b => (put buf pos [b]).bind fun buf =>
        match skip delimiter rest with
        | none => some (buf,0)
        | some rest => hexDecodeIntoLoop delimiter rest buf (pos+1) := by
  rw [hexDecodeIntoLoop,pairByte]
  cases hexDecodeChar c1 with
  | none => rfl
  | some h1 =>
    cases hexDecodeChar c2 with
    | none => rfl
    | some h2 =>
      by_cases hd : delimiter ≠ '\x00'
      · rcases rest with _ | ⟨e,_ | ⟨c3,rest⟩⟩
        · simp [skip,hd]
        · simp [skip,hd]
        · by_cases he : e = delimiter
          · simp [skip,hd,he]
          · simp [skip,hd,he]
      · rcases rest with _ | ⟨e,_ | ⟨c3,rest⟩⟩
        · simp [skip,hd]
        · simp [skip,hd]
        · simp [skip,hd]

theorem skip_needed {delimiter : Char} {rest rest' : Text} (h : skip delimiter rest = some rest') :
    rest'.length ≤ rest.length ∧
      decodeNeeded delimiter rest'.length+1 ≤ decodeNeeded delimiter (rest.length+2) := by
  unfold skip at h
  unfold decodeNeeded
  by_cases hd : delimiter ≠ '\x00'
  · rw [if_pos hd,if_pos hd]
    split at h
    · split at h
      · cases h
        rw [List.length_drop]
        omega
      · cases h
    · rename_i hshort
      cases h
      have : ¬ 1 < rest.length := fun hlong => hshort ⟨hd,hlong⟩
      omega
  · rw [if_neg (fun hboth => hd hboth.1)] at h
    cases h
    rw [if_neg hd,if_neg hd]
    omega

theorem decodeNeeded_two (delimiter : Char) (n : Nat) :
    0 < decodeNeeded delimiter (n+2) := by
  unfold decodeNeeded
  split <;> omega

/-- The loop stays inside the buffer and writes the bytes that the source stands for. -/
theorem hexDecodeIntoLoop_eq (delimiter : Char) (src : Text) (out tail : List UInt8)
    (h : decodeNeeded delimiter src.length ≤ tail.length) :
    Decodes out tail (decodedBytes (delimiting delimiter) src out)
      (hexDecodeIntoLoop delimiter src (out ++ tail) out.length) := by
  induction hn : src.length using Nat.strong_induction_on generalizing src out tail with
  | _ n ih =>
    rcases src with _ | ⟨c1,_ | ⟨c2,rest⟩⟩
    · simp [decodedBytes,hexDecodeIntoLoop,Decodes]
    · simp [decodedBytes,hexDecodeIntoLoop,Decodes]
    · have hneeded : decodeNeeded delimiter (rest.length+2) ≤ tail.length := h
      have hroom : 0 < tail.length := by
        have := decodeNeeded_two delimiter rest.length
        omega
      rw [decodedBytes_cons,hexDecodeIntoLoop_cons]
      cases pairByte c1 c2 with
      | none => simp [Decodes]
      | some b =>
        simp only [Option.bind_some,put_next hroom]
        cases hskip : skip delimiter rest with
        | none =>
          refine ⟨_,rfl,?_⟩
          simp only [List.length_append,List.length_singleton,List.length_drop]
          omega
        | some rest' =>
          obtain ⟨hshort,hless⟩ := skip_needed hskip
          simp only [List.length_cons] at hn
          have hnext := ih rest'.length (by omega) rest' (out ++ [b]) (tail.drop 1)
            (by rw [List.length_drop]; omega) rfl
          rw [List.length_append] at hnext
          exact hnext.next hroom

theorem hexDecodeInto_small {delimiter : Char} {buf : List UInt8} {src : Text}
    (h : buf.length = 0 ∨ buf.length < decodeNeeded delimiter src.length) :
    hexDecodeInto buf src delimiter = some (buf,0) := by
  unfold hexDecodeInto
  split
  · rfl
  · rw [if_pos (by omega)]

theorem hexDecodeInto_fits (delimiter : Char) (buf : List UInt8) (src : Text)
    (hne : 0 < buf.length) (h : decodeNeeded delimiter src.length ≤ buf.length) :
    Decodes [] buf (decodedBytes (delimiting delimiter) src [])
      (hexDecodeInto buf src delimiter) := by
  rw [hexDecodeInto,if_neg (by omega),if_neg (by omega)]
  exact hexDecodeIntoLoop_eq delimiter src [] buf h

theorem Decodes.in_bounds {out tail : List UInt8} {result : Option (List UInt8)}
    {done : Option (List UInt8 × Nat)} (h : Decodes out tail result done) :
    ∃ buf n, done = some (buf,n) ∧ buf.length = out.length+tail.length := by
  cases result with
  | none =>
    obtain ⟨buf,hbuf,hlength⟩ := h
    exact ⟨buf,0,hbuf,hlength⟩
  | some out' =>
    obtain ⟨hgrows,hfits,hdone⟩ := h
    refine ⟨_,_,hdone,?_⟩
    rw [List.length_append,List.length_drop]
    omega

theorem pairByte_hexPair (b : UInt8) :
    pairByte (kHex.getD (b.toNat/16) '0') (kHex.getD (b.toNat%16) '0') = some b := by
  have hb := b.toNat_lt
  simp only [pairByte,hexDecodeChar_digit _ (show b.toNat/16 < 16 by omega),
    hexDecodeChar_digit _ (show b.toNat%16 < 16 by omega),hexByte_nibbles]

/-- The digits and the delimiter are read off again. -/
theorem decodedBytes_hexText (delimiter : Char) (s out : List UInt8) :
    decodedBytes (delimiting delimiter) (hexText delimiter s) out = some (out ++ s) := by
  induction s generalizing out with
  | nil => simp [hexText,decodedBytes]
  | cons b s ih =>
    have hskip : skip delimiter ((if delimiter ≠ '\x00' ∧ s ≠ [] then [delimiter] else []) ++
        hexText delimiter s) = some (hexText delimiter s) := by
      cases s with
      | nil => simp [hexText,skip]
      | cons c s =>
        by_cases hd : delimiter ≠ '\x00'
        · simp [skip,hd,hexText,hexChunk,hexPair]
        · simp [skip,hd]
    rw [hexText,hexChunk,List.append_assoc,hexPair,List.cons_append,List.cons_append,
      List.nil_append,decodedBytes_cons,pairByte_hexPair,Option.bind_some,hskip,Option.bind_some,
      ih,List.append_assoc,List.singleton_append]

theorem hexEncode_in_bounds (delimiter : Char) (s : List UInt8) (buf : Text) :
    ∃ buf' n, hexEncodeWithDelimiter buf s delimiter = some (buf',n) ∧
      buf'.length = buf.length ∧ (buf.length < encodeNeeded delimiter s.length → n = 0) := by
  by_cases hsmall : buf.length = 0 ∨ buf.length < encodeNeeded delimiter s.length
  · exact ⟨buf,0,hexEncode_small hsmall,rfl,fun _ => rfl⟩
  · have hfits := hexEncode_fits delimiter s (show 0 < buf.length by omega) (by omega)
    refine ⟨_,_,hfits,?_,fun hless => absurd hless (by omega)⟩
    have hlength := hexText_fits delimiter s (show 0 < buf.length by omega) (by omega)
    rw [List.length_append,List.length_cons,List.length_drop]
    omega

theorem hexDecode_in_bounds (delimiter : Char) (src : Text) (buf : List UInt8) :
    ∃ buf' n, hexDecodeInto buf src delimiter = some (buf',n) ∧
      buf'.length = buf.length ∧ (buf.length < decodeNeeded delimiter src.length → n = 0) := by
  by_cases hsmall : buf.length = 0 ∨ buf.length < decodeNeeded delimiter src.length
  · exact ⟨buf,0,hexDecodeInto_small hsmall,rfl,fun _ => rfl⟩
  · obtain ⟨buf',n,hbuf,hlength⟩ :=
      (hexDecodeInto_fits delimiter buf src (by omega) (by omega)).in_bounds
    exact ⟨buf',n,hbuf,by simpa using hlength,fun hless => absurd (.inr hless) hsmall⟩

theorem decodeNeeded_hexText (delimiter : Char) (s : List UInt8) :
    decodeNeeded delimiter (hexText delimiter s).length = s.length := by
  rw [length_hexText]
  unfold decodeNeeded
  by_cases hd : delimiter ≠ '\x00'
  · rw [if_pos hd,if_pos hd]
    omega
  · rw [if_neg hd,if_neg hd]
    omega

theorem hexDecode_hexText (delimiter : Char) (buf : List UInt8) (s : List UInt8)
    (h : s.length ≤ buf.length) : hexDecodeInto buf (hexText delimiter s) delimiter =
      some (s ++ buf.drop s.length,s.length) := by
  by_cases hempty : buf.length = 0
  · have hs : s = [] := List.length_eq_zero_iff.mp (by omega)
    have hbuf : buf = [] := List.length_eq_zero_iff.mp hempty
    subst hs hbuf
    rfl
  · have hdone := hexDecodeInto_fits delimiter buf (hexText delimiter s)
      (by omega) (by rw [decodeNeeded_hexText]; exact h)
    rw [decodedBytes_hexText,List.nil_append] at hdone
    exact hdone.2.2

theorem hexEncode_text (delimiter : Char) (buf : Text) (s : List UInt8)
    (h : encodeNeeded delimiter s.length ≤ buf.length) :
    ∃ buf', hexEncodeWithDelimiter buf s delimiter =
        some (buf',(hexText delimiter s).length) ∧
      buf'.take (hexText delimiter s).length = hexText delimiter s := by
  by_cases hempty : buf.length = 0
  · have hs : s = [] := by
      unfold encodeNeeded at h
      exact List.length_eq_zero_iff.mp (by split at h <;> omega)
    subst hs
    exact ⟨buf,hexEncode_small (.inl hempty),rfl⟩
  · exact ⟨_,hexEncode_fits delimiter s (by omega) h,List.take_left⟩

theorem hexDecodeString_hexEncodeString (stack : Nat → Char) (stack' : Nat → UInt8)
    (s : List UInt8) : (hexEncodeString stack s).bind (hexDecodeString stack') = some s := by
  cases s with
  | nil => rfl
  | cons b s =>
    have hneeded : encodeNeeded '\x00' (b :: s).length ≤
        (uninitialized stack ((b :: s).length*3)).length := by
      rw [encodeNeeded,if_neg (by simp),length_uninitialized,List.length_cons]
      omega
    obtain ⟨buf,hbuf,htake⟩ := hexEncode_text '\x00'
      (uninitialized stack ((b :: s).length*3)) (b :: s) hneeded
    have hlength : (hexText '\x00' (b :: s)).length = (b :: s).length*2 :=
      length_hexText '\x00' (b :: s)
    have hpos : (b :: s).length = 0 ∨ 0 < (hexText '\x00' (b :: s)).length :=
      .inr (by rw [hlength]; simp)
    have hencode : hexEncodeString stack (b :: s) = some (hexText '\x00' (b :: s)) := by
      rw [hexEncodeString,hbuf]
      simp only [Option.bind_eq_bind,Option.bind_some]
      rw [if_pos hpos,htake]
    have hne : hexText '\x00' (b :: s) ≠ [] := List.ne_nil_of_length_pos (by rw [hlength]; simp)
    have hdecode := hexDecode_hexText '\x00'
      (uninitialized stack' ((hexText '\x00' (b :: s)).length/2)) (b :: s) (by simp [hlength])
    rw [hencode,Option.bind_some,hexDecodeString,if_neg hne,hdecode]
    simp

/-- Decoding undoes encoding, and neither leaves its buffer. -/
theorem hex_decode_encode :
    (∀ (s : List UInt8) (d : Char) (text : Text) (buf : List UInt8),
      encodeNeeded d s.length ≤ text.length → ∃ text' n,
        hexEncodeWithDelimiter text s d = some (text',n) ∧
        (decodeNeeded d n ≤ buf.length →
          hexDecodeInto buf (text'.take n) d = some (s ++ buf.drop s.length,s.length))) ∧
    (∀ (s : List UInt8) (d : Char) (text : Text), ∃ text' n,
      hexEncodeWithDelimiter text s d = some (text',n) ∧ text'.length = text.length ∧
        (text.length < encodeNeeded d s.length → n = 0)) ∧
    (∀ (src : Text) (d : Char) (buf : List UInt8), ∃ buf' n,
      hexDecodeInto buf src d = some (buf',n) ∧ buf'.length = buf.length ∧
        (buf.length < decodeNeeded d src.length → n = 0)) ∧
    ∀ (stack : Nat → Char) (stack' : Nat → UInt8) (s : List UInt8),
      (hexEncodeString stack s).bind (hexDecodeString stack') = some s := by
  refine ⟨?_,fun s d text => hexEncode_in_bounds d s text,
    fun src d buf => hexDecode_in_bounds d src buf,hexDecodeString_hexEncodeString⟩
  intro s d text buf hfits
  obtain ⟨text',hencode,htake⟩ := hexEncode_text _ _ _ hfits
  refine ⟨text',_,hencode,fun hroom => ?_⟩
  rw [decodeNeeded_hexText] at hroom
  rw [htake]
  exact hexDecode_hexText d buf s hroom

end MprMq.Base
