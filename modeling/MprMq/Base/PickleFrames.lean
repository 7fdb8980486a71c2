import MprMq.Base.PickleImage
import Mathlib.Data.List.Forall2
set_option autoImplicit false

/-! `FindNext`, and the frames that it cuts a range of bytes into. -/

namespace MprMq.Base
open Lib Lib.Buffer

def announced (range : List UInt8) : Nat := leValue (range.take 4)

namespace Pickle

/-- The size that PeekNext stores, `none` where it returns false. The outer `none` is a failed
check. -/
def peekNext (headerSize : Nat) (range : List UInt8) : Option (Option Nat) :=
  if headerSize = align headerSize 4 % SizeT.modulus ∧ 4 ≤ headerSize ∧
      headerSize ≤ kPayloadUnit then
    if range.length < 4 then some none
    else if range.length < headerSize then some none
    else if SizeT.modulus-1-headerSize < announced range then some (some (SizeT.modulus-1))
    else some (some (headerSize+announced range))
  else none

/-- How far behind the start of the range FindNext points, `none` for NULL. -/
def findNext (headerSize : Nat) (range : List UInt8) : Option (Option Nat) := do
  match ← peekNext headerSize range with
  | none => some none
  | some pickleSize =>
    if range.length < pickleSize then some none else some (some pickleSize)

end Pickle

def HeaderSize (headerSize : Nat) : Prop :=
  4 ≤ headerSize ∧ headerSize ≤ 64 ∧ headerSize % 4 = 0

def HoldsFrame (headerSize : Nat) (range : List UInt8) : Prop :=
  headerSize ≤ range.length ∧ headerSize+announced range ≤ range.length

instance (headerSize : Nat) (range : List UInt8) : Decidable (HoldsFrame headerSize range) :=
  inferInstanceAs (Decidable (_ ∧ _))

section frame
variable {headerSize : Nat} {range : List UInt8}

theorem announced_lt (range : List UInt8) : announced range < 2^32 := by
  have hlt := leValue_lt (range.take 4)
  have hpow : 256^(range.take 4).length ≤ 256^4 :=
    Nat.pow_le_pow_right (by decide) (by rw [List.length_take]; omega)
  exact Nat.lt_of_lt_of_le hlt hpow

theorem findNext_eq (h : HeaderSize headerSize) (range : List UInt8) :
    Pickle.findNext headerSize range =
      some (if HoldsFrame headerSize range then some (headerSize+announced range) else none) := by
  obtain ⟨hfour,hunit,hmod⟩ := h
  have hmodulus : SizeT.modulus = 2^64 := rfl
  have hlt := announced_lt range
  have halign : headerSize = align headerSize 4 % SizeT.modulus := by
    rw [hmodulus]
    unfold align
    omega
  rw [Pickle.findNext,Pickle.peekNext,if_pos ⟨halign,hfour,hunit⟩]
  by_cases hheader : headerSize ≤ range.length
  · rw [if_neg (by omega),if_neg (by omega),if_neg (by omega)]
    by_cases hwhole : headerSize+announced range ≤ range.length
    · rw [if_pos (show HoldsFrame headerSize range from ⟨hheader,hwhole⟩)]
      exact if_neg (by omega)
    · rw [if_neg (fun hframe => hwhole hframe.2)]
      exact if_pos (by omega)
  · rw [if_neg (show ¬ HoldsFrame headerSize range from fun hframe => hheader hframe.1)]
    split
    · rfl
    · rw [if_pos (by omega)]
      rfl

end frame

/-- The bytes a pickle with that header size is sent as; what was never written of the header can
be anything. -/
structure IsImage (headerSize : Nat) (bytes : List UInt8) : Prop where
  sent : ∃ p values cells, Built p values ∧ p.headerSize = headerSize ∧ p.data = some cells ∧
    List.Forall₂ (fun b cell => ∀ v, cell = some v → b = v) bytes cells

/-- What repeated FindNext finds in a range from an offset on, until it returns NULL. -/
inductive Walk (headerSize : Nat) (range : List UInt8) : Nat → List Nat → Prop where
  | last {start : Nat} : Pickle.findNext headerSize (range.drop start) = some none →
      Walk headerSize range start []
  | next {start size : Nat} {found : List Nat} :
      Pickle.findNext headerSize (range.drop start) = some (some size) →
      Walk headerSize range (start+size) found →
      Walk headerSize range start ((start+size) :: found)

def boundaries (start : Nat) : List (List UInt8) → List Nat
  | [] => []
  | image :: images => (start+image.length) :: boundaries (start+image.length) images

theorem known_bytes {bytes known : List UInt8}
    (h : List.Forall₂ (fun b cell => ∀ v, cell = some v → b = v) bytes (known.map some)) :
    bytes = known := by
  induction known generalizing bytes with
  | nil => exact List.forall₂_nil_right_iff.mp h
  | cons v known ih =>
    cases h with
    | cons hb hrest => rw [hb v rfl,ih hrest]

section frames
variable {headerSize : Nat} {bytes rest part range : List UInt8}

theorem IsImage.frame (h : IsImage headerSize bytes) :
    HeaderSize headerSize ∧ bytes.length = headerSize+announced bytes := by
  obtain ⟨p,values,cells,hbuilt,rfl,hdata,hsame⟩ := h.sent
  obtain ⟨image,hdata',himage⟩ := hbuilt.image
  cases hdata.symm.trans hdata'
  have hsmall := himage.small
  have hstart := (le_of_get himage.size).2
  rw [List.drop_zero] at hstart
  have hfirst := List.forall₂_take 4 hsame
  rw [← hstart] at hfirst
  refine ⟨himage.header,?_⟩
  rw [hsame.length_eq,himage.length,announced,known_bytes hfirst,leValue_leBytes,
    Nat.mod_eq_of_lt (by omega)]

theorem announced_append (h : 4 ≤ bytes.length) (rest : List UInt8) :
    announced (bytes ++ rest) = announced bytes := by
  rw [announced,List.take_append_of_le_length h,announced]

theorem findNext_image (h : IsImage headerSize bytes) (rest : List UInt8) :
    Pickle.findNext headerSize (bytes ++ rest) = some (some bytes.length) := by
  obtain ⟨hheader,hlength⟩ := h.frame
  have hfour := hheader.1
  have hannounced := announced_append (show 4 ≤ bytes.length by omega) rest
  have hframe : HoldsFrame headerSize (bytes ++ rest) := by
    rw [HoldsFrame,hannounced,List.length_append]
    omega
  rw [findNext_eq hheader,if_pos hframe,hannounced,hlength]

/-- Of an image that is cut off there is no frame. -/
theorem findNext_part {last : List UInt8} (h : IsImage headerSize last) (hpart : part <+: last)
    (hne : part ≠ last) : Pickle.findNext headerSize part = some none := by
  obtain ⟨hheader,hlength⟩ := h.frame
  obtain ⟨missing,rfl⟩ := hpart
  have hfour := hheader.1
  have hmissing : 0 < missing.length := by
    refine List.length_pos_iff.mpr fun hnil => hne ?_
    rw [hnil,List.append_nil]
  have hframe : ¬ HoldsFrame headerSize part := by
    rintro ⟨hroom,hwhole⟩
    rw [announced_append (by omega),List.length_append] at hlength
    omega
  rw [findNext_eq hheader,if_neg hframe]

theorem walk_boundaries {images : List (List UInt8)} {last : List UInt8}
    (himages : ∀ image ∈ images, IsImage headerSize image) (hlast : IsImage headerSize last)
    (hpart : part <+: last) (hne : part ≠ last) {start : Nat}
    (hstart : range.drop start = images.flatten ++ part) (found : List Nat) :
    Walk headerSize range start found ↔ found = boundaries start images := by
  induction images generalizing start found with
  | nil =>
    have hend : Pickle.findNext headerSize (range.drop start) = some none := by
      rw [hstart]
      exact findNext_part hlast hpart hne
    constructor
    · intro hwalk
      cases hwalk with
      | last => rfl
      | next hnext _ => cases hend.symm.trans hnext
    · rintro rfl
      exact .last hend
  | cons image images ih =>
    rw [List.flatten_cons,List.append_assoc] at hstart
    have hfirst : Pickle.findNext headerSize (range.drop start) = some (some image.length) := by
      rw [hstart]
      exact findNext_image (himages image List.mem_cons_self) _
    have hdrop : range.drop (start+image.length) = images.flatten ++ part := by
      rw [← List.drop_drop,hstart,List.drop_left]
    have hrest := ih (fun i hi => himages i (List.mem_cons_of_mem image hi)) hdrop
    constructor
    · intro hwalk
      cases hwalk with
      | last hnull => cases hfirst.symm.trans hnull
      | next hnext hwalk =>
        cases hfirst.symm.trans hnext
        rw [boundaries,(hrest _).mp hwalk]
    · rintro rfl
      exact .next hfirst ((hrest _).mpr rfl)

end frames

/-- FindNext finds what is a whole frame, and in a stream of images exactly where they end. -/
theorem find_next_frames (headerSize : Nat) (h : HeaderSize headerSize) :
    (∀ range : List UInt8, ∃ found, Pickle.findNext headerSize range = some found ∧
      (found.isSome = true ↔ HoldsFrame headerSize range) ∧
      ∀ size, found = some size → size ≤ range.length) ∧
    ∀ (images : List (List UInt8)) (part last : List UInt8),
      (∀ image ∈ images, IsImage headerSize image) → IsImage headerSize last → part <+: last →
      part ≠ last → ∀ found,
        Walk headerSize (images.flatten ++ part) 0 found ↔ found = boundaries 0 images := by
  constructor
  · intro range
    refine ⟨_,findNext_eq h range,?_,?_⟩
    · split
      case isTrue hframe => exact iff_of_true rfl hframe
      case isFalse hframe => exact iff_of_false (by decide) hframe
    · intro size hsize
      rw [Option.ite_none_right_eq_some,Option.some.injEq] at hsize
      exact hsize.2 ▸ hsize.1.2
  · intro images part last himages hlast hpart hne found
    exact walk_boundaries himages hlast hpart hne rfl found

theorem seven_image : IsImage 4 [4,0,0,0,7,0,0,0] := by
  have hbuilt : ∃ p, Built p [.int32 7] ∧ p.headerSize = 4 ∧
      p.data = some ([4,0,0,0,7,0,0,0].map some) :=
    ⟨_,⟨⟨_,[.write (.int32 7)],.inl rfl,rfl,rfl⟩,by decide,by decide⟩,rfl,rfl⟩
  obtain ⟨p,hp,hheader,hdata⟩ := hbuilt
  refine ⟨p,_,_,hp,hheader,hdata,?_⟩
  rw [List.forall₂_map_right_iff,List.forall₂_same]
  exact fun b _ v hv => Option.some.inj hv

theorem seven_frames :
    Walk 4 ([[4,0,0,0,7,0,0,0],[4,0,0,0,7,0,0,0]].flatten ++ [4,0,0,0,7]) 0 [8,16] := by
  refine ((find_next_frames 4 ⟨by decide,by decide,by decide⟩).2
    [[4,0,0,0,7,0,0,0],[4,0,0,0,7,0,0,0]] [4,0,0,0,7] [4,0,0,0,7,0,0,0] ?_ seven_image
    ⟨[0,0,0],rfl⟩ (by decide) [8,16]).mpr rfl
  intro image himage
  rcases List.mem_cons.mp himage with rfl | himage
  · exact seven_image
  · cases List.mem_singleton.mp himage
    exact seven_image

end MprMq.Base
