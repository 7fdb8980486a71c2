import MprMq.Epub.Unzip
import MprMq.Lib.Cursor
set_option autoImplicit false

/-! The search for the end of the central directory. -/

namespace MprMq.Epub
open MprMq.Base MprMq.Lib

variable {σ : Type} [IStreamBase σ] [RandomAccess σ] {contents : List UInt8} {pos : Nat}

structure Standing (contents : List UInt8) (pos : Nat) (s : σ) : Prop where
  at_pos : RandomAccess.At contents pos s
  selfClose : IStreamBase.selfClose s = true

section Streams
variable {s : σ}

theorem Standing.streamTell (h : Standing contents pos s) : streamTell s = pos := by
  have htell := RandomAccess.tell_eq h.at_pos
  unfold Epub.streamTell
  rw [htell]
  split
  case isTrue => rfl
  case isFalse hpos => omega

theorem Standing.toInt64 (h : Standing contents pos s) {offset : Nat}
    (hle : offset ≤ contents.length) : Epub.toInt64 offset = offset := by
  have hlt := RandomAccess.length_lt h.at_pos
  exact toInt64_of_range (by omega) (by omega)

theorem streamSeek_reads {offset : Nat} (hle : offset ≤ contents.length) :
    Reads (Standing (σ := σ) contents) (streamSeek offset .seekSet) pos 0 offset := by
  intro s hs
  obtain ⟨t,hseek,hat,hflag⟩ := RandomAccess.seek_spec hs.at_pos hle
  unfold streamSeek
  rw [hs.toInt64 hle,hseek]
  exact ⟨rfl,hat,hflag.trans hs.selfClose⟩

theorem streamSeekCur_reads {offset : Nat} (hle : pos+offset ≤ contents.length) :
    Reads (Standing (σ := σ) contents) (streamSeek offset .seekCur) pos 0 (pos+offset) := by
  intro s hs
  obtain ⟨t,hseek,hat,hflag⟩ := RandomAccess.seekCur_spec hs.at_pos hle
  unfold streamSeek
  rw [hs.toInt64 (by omega),hseek]
  exact ⟨rfl,hat,hflag.trans hs.selfClose⟩

theorem streamSeekEnd_reads :
    Reads (Standing (σ := σ) contents) (streamSeek 0 .seekEnd) pos 0 contents.length := by
  intro s hs
  obtain ⟨t,hseek,hat,hflag⟩ := RandomAccess.seekEnd_spec hs.at_pos
  unfold streamSeek
  rw [hs.toInt64 (Nat.zero_le _),Int.natCast_zero,hseek]
  exact ⟨rfl,hat,hflag.trans hs.selfClose⟩

theorem streamRead_reads {size : Nat} (hlow : 0 < size) (hhigh : size < 2^31) :
    Reads (Standing (σ := σ) contents) (streamRead size) pos
      (delivered ((contents.drop pos).take size)) (pos+((contents.drop pos).take size).length) := by
  intro s hs
  obtain ⟨t,hread,hat,hflag⟩ := RandomAccess.read_spec hs.at_pos hlow hhigh
  unfold streamRead
  rw [toInt32_of_range (by omega) (by omega),hread]
  refine ⟨?_,hat,hflag.trans hs.selfClose⟩
  dsimp only [delivered]
  split
  case isTrue => rfl
  case isFalse hnone =>
    have hlength : ((contents.drop pos).take size).length = 0 := by omega
    rw [hlength]
    rfl

end Streams

def SignatureAt (signature contents : List UInt8) (x : Nat) : Prop :=
  (contents.drop x).take 4 = signature

def places (signature contents : List UInt8) : Set Nat :=
  {x | 0 < x ∧ contents.length ≤ x+0xffff ∧ SignatureAt signature contents x}

variable {signature : List UInt8}

theorem SignatureAt.le (hsignature : signature.length = 4) {x : Nat}
    (h : SignatureAt signature contents x) : x+4 ≤ contents.length := by
  have hlength := congrArg List.length h
  rw [List.length_take,List.length_drop,hsignature] at hlength
  omega

/-- The signature in what a read has of the file. -/
theorem signatureAt_window {readPos size i : Nat} (hi : i+4 ≤ size) :
    ((((contents.drop readPos).take size).drop i).take 4 = signature) ↔
      SignatureAt signature contents (readPos+i) := by
  rw [List.drop_take,List.take_take,List.drop_drop,Nat.min_eq_left (by omega)]
  rfl

/-- What a turn finds, when nothing has been found behind its part of the file. -/
theorem findSignature_greatest (hsignature : signature.length = 4) {back next size : Nat}
    (hlt : back < next) (hle : next ≤ contents.length) (hsize : size = min (bufReadComment+4) next)
    (hback : 4 ≤ back) (hnext : next ≤ back+bufReadComment)
    (hbehind : ∀ x, 0 < x → SignatureAt signature contents x →
      x+back < contents.length ∨ back = 4) {found : Nat}
    (hfound : findSignature signature (contents.length-next) size
      ((contents.drop (contents.length-next)).take size) = found) :
    GreatestOf {x | 0 < x ∧ contents.length ≤ x+next ∧ SignatureAt signature contents x}
      (if found = 0 then none else some found) := by
  have hcomment : bufReadComment = 1024 := rfl
  have hscan := scanDown_greatestOf (fun i =>
    ((((contents.drop (contents.length-next)).take size).drop i).take 4 = signature)) (size-4)
  have hmem : ∀ x, 0 < x ∧ contents.length ≤ x+next ∧ SignatureAt signature contents x →
      x-(contents.length-next) ∈ {i | i ≤ size-4 ∧
        decide ((((contents.drop (contents.length-next)).take size).drop i).take 4 =
          signature) = true} := by
    rintro x ⟨hpos,hx,hat⟩
    have := hat.le hsignature
    have := hbehind x hpos hat
    refine ⟨by omega,decide_eq_true ((signatureAt_window (by omega)).mpr ?_)⟩
    rwa [Nat.add_sub_cancel' (by omega)]
  unfold findSignature at hfound
  split at hfound
  case h_1 i hi =>
    rw [hi] at hscan
    have hgreatest : ∀ x, 0 < x ∧ contents.length ≤ x+next ∧ SignatureAt signature contents x →
        x ≤ found := by
      intro x hx
      have := hscan.2 (hmem x hx)
      omega
    split
    case isTrue hzero =>
      refine Set.eq_empty_of_forall_notMem fun x hx => ?_
      have := hgreatest x hx
      have := hx.1
      omega
    case isFalse hzero =>
      refine ⟨⟨Nat.pos_of_ne_zero hzero,by omega,?_⟩,fun x hx => hgreatest x hx⟩
      have hin := hscan.1.1
      rw [← hfound]
      exact (signatureAt_window (by omega)).mp (of_decide_eq_true hscan.1.2)
  case h_2 hi =>
    rw [hi] at hscan
    rw [if_pos hfound.symm]
    refine Set.eq_empty_of_forall_notMem fun x hx => ?_
    exact Set.eq_empty_iff_forall_notMem.mp hscan _ (hmem x hx)

variable (contents signature) in
/-- Where a turn reads, and how the search goes on after it. -/
theorem searchBack_turn {back maxBack : Nat} (hback : 4 ≤ back) (hlt : back < maxBack)
    (hmax : maxBack ≤ contents.length) (turns pos : Nat) :
    ∃ next size, back < next ∧ next ≤ maxBack ∧ next ≤ back+bufReadComment ∧
      size = min (bufReadComment+4) next ∧
      ∀ {p found place : Nat}, findSignature signature (contents.length-next) size
          ((contents.drop (contents.length-next)).take size) = p →
        Reads (Standing (σ := σ) contents) (if p ≠ 0 then pure p else
          searchBack signature contents.length maxBack turns next)
          (contents.length-next+size) found place →
        Reads (Standing (σ := σ) contents)
          (searchBack signature contents.length maxBack (turns+1) back) pos found place := by
  have hcomment : bufReadComment = 1024 := rfl
  obtain ⟨next,hnext⟩ : ∃ next, (if maxBack < back+bufReadComment then maxBack
    else back+bufReadComment) = next := ⟨_,rfl⟩
  obtain ⟨size,hsize⟩ : ∃ size, (if bufReadComment+4 < contents.length-(contents.length-next)
    then bufReadComment+4 else contents.length-(contents.length-next)) = size := ⟨_,rfl⟩
  have hbounds : back < next ∧ next ≤ maxBack ∧ next ≤ back+bufReadComment := by
    split at hnext
    case isTrue => omega
    case isFalse => omega
  have hmin : size = min (bufReadComment+4) next := by
    split at hsize
    case isTrue => omega
    case isFalse => omega
  have hread : ((contents.drop (contents.length-next)).take size).length = size := by
    rw [List.length_take,List.length_drop]
    omega
  refine ⟨next,size,hbounds.1,hbounds.2.1,hbounds.2.2,hmin,
    fun {p found place} hfound hrest s hs => ?_⟩
  obtain ⟨hseek,hsought⟩ := streamSeek_reads (Nat.sub_le contents.length next) s hs
  obtain ⟨hbytes,hplace⟩ := streamRead_reads (by omega : 0 < size) (by omega) _ hsought
  rw [hread] at hplace
  have hthen := hrest _ hplace
  rw [searchBack,if_pos hlt]
  dsimp only
  rw [hnext,hsize,hseek,if_neg (by simp),hbytes,delivered]
  dsimp only
  rw [hread,if_neg (by simp),hfound]
  split
  case isTrue hpos =>
    rw [if_pos hpos] at hthen
    exact hthen
  case isFalse hpos =>
    rw [if_neg hpos] at hthen
    exact hthen

variable (contents) in
/-- What the turns find that are left. -/
theorem searchBack_places (hsignature : signature.length = 4) {back maxBack : Nat}
    (hmax : maxBack = min contents.length 0xffff) (turns : Nat) (hturns : maxBack ≤ back+turns)
    (hback : 4 ≤ back) (hbehind : ∀ x, 0 < x → SignatureAt signature contents x →
      x+back < contents.length ∨ back = 4) (pos : Nat) :
    ∃ found place, Reads (Standing (σ := σ) contents)
        (searchBack signature contents.length maxBack turns back) pos (found.getD 0) place ∧
      GreatestOf (places signature contents) found := by
  have hcomment : bufReadComment = 1024 := rfl
  have hempty : maxBack ≤ back → GreatestOf (places signature contents) none := by
    intro hle
    refine Set.eq_empty_of_forall_notMem fun x ⟨hpos,hx,hat⟩ => ?_
    have := hat.le hsignature
    have := hbehind x hpos hat
    omega
  induction turns generalizing back pos with
  | zero => exact ⟨none,pos,fun s hs => ⟨rfl,hs⟩,hempty hturns⟩
  | succ turns ih =>
    by_cases hlt : back < maxBack
    · obtain ⟨next,size,hup,hle,hstep,hsize,hturn⟩ := searchBack_turn (σ := σ) contents signature
        hback hlt (by omega) turns pos
      obtain ⟨p,hp⟩ : ∃ p, findSignature signature (contents.length-next) size
        ((contents.drop (contents.length-next)).take size) = p := ⟨_,rfl⟩
      have hgreatest := findSignature_greatest hsignature hup (by omega) hsize hback hstep hbehind
        hp
      by_cases hzero : p = 0
      · rw [if_pos hzero] at hgreatest
        have hnone := Set.eq_empty_iff_forall_notMem.mp hgreatest
        have hahead : ∀ x, 0 < x → SignatureAt signature contents x →
            x+next < contents.length ∨ next = 4 := by
          intro x hpos hat
          by_contra hx
          exact hnone x ⟨hpos,by omega,hat⟩
        obtain ⟨found,place,hreads,hplaces⟩ := ih (by omega) (by omega) hahead _ (by
          intro hend
          refine Set.eq_empty_of_forall_notMem fun x ⟨hpos,hx,hat⟩ => ?_
          exact hnone x ⟨hpos,by omega,hat⟩)
        exact ⟨found,place,hturn hp (by rw [if_neg (by simp [hzero])]; exact hreads),hplaces⟩
      · rw [if_neg hzero] at hgreatest
        refine ⟨some p,_,hturn hp (by rw [if_pos hzero]; exact Reads.pure _ _),⟨?_,fun x hx => ?_⟩⟩
        · exact ⟨hgreatest.1.1,by have := hgreatest.1.2.1; omega,hgreatest.1.2.2⟩
        · by_cases hnear : contents.length ≤ x+next
          · exact hgreatest.2 ⟨hx.1,hnear,hx.2.2⟩
          · have := hgreatest.1.2.1
            omega
    · refine ⟨none,pos,fun s hs => ?_,hempty (by omega)⟩
      rw [searchBack,if_neg hlt]
      exact ⟨rfl,hs⟩

variable (contents) in
/-- The search finds the last place of the signature that is not the first byte of the file and not
too far from its end. -/
theorem searchSignature_places (hsignature : signature.length = 4) (pos : Nat) :
    ∃ found place, Reads (Standing (σ := σ) contents) (searchSignature signature) pos
        (found.getD 0) place ∧ GreatestOf (places signature contents) found := by
  obtain ⟨found,place,hreads,hplaces⟩ := searchBack_places (σ := σ) contents hsignature rfl
    (min contents.length 0xffff) (by omega) (Nat.le_refl 4)
    (fun _ _ _ => .inr rfl) contents.length
  refine ⟨found,place,fun s hs => ?_,hplaces⟩
  obtain ⟨hseek,hend⟩ := streamSeekEnd_reads s hs
  have hmin : (if contents.length < 0xffff then contents.length else 0xffff) =
      min contents.length 0xffff := by
    split
    case isTrue => omega
    case isFalse => omega
  unfold searchSignature
  dsimp only
  rw [hseek,if_neg (by simp),hend.streamTell,hmin]
  exact hreads _ hend

/-- `SearchCentralDir` finds the last record that ends an archive, which 0 is not. -/
theorem searchCentralDir_places {s : σ} (hs : Standing contents pos s) :
    GreatestOf (places centralDirSignature contents)
      (if (searchCentralDir s).1 = 0 then none else some (searchCentralDir s).1) := by
  obtain ⟨found,place,hreads,hplaces⟩ := searchSignature_places (σ := σ) contents
    (rfl : centralDirSignature.length = 4) pos
  obtain ⟨hfound,_⟩ := hreads s hs
  rw [searchCentralDir,hfound]
  cases found with
  | none => exact hplaces
  | some x =>
    have hpos : 0 < x := hplaces.1.1
    rw [Option.getD_some,if_neg (by omega)]
    exact hplaces

def recordAfterByte : FileStream :=
  ⟨some [0x00,0x50,0x4b,0x05,0x06],some ⟨[0x00,0x50,0x4b,0x05,0x06],0,false⟩,5,true⟩

theorem searchCentralDir_record :
    GreatestOf (places centralDirSignature [0x00,0x50,0x4b,0x05,0x06])
      (if (searchCentralDir recordAfterByte).1 = 0 then none
        else some (searchCentralDir recordAfterByte).1) := by
  have hs : Standing [0x00,0x50,0x4b,0x05,0x06] 0 recordAfterByte :=
    ⟨⟨⟨false,rfl⟩,rfl,by decide,by decide⟩,rfl⟩
  exact searchCentralDir_places hs

end MprMq.Epub
