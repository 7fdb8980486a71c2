import MprMq.Base.PathComponents
set_option autoImplicit false

/-! `ReadFileToStringWithMaxSize`, over the chunks that `fread` makes of a file. -/

namespace MprMq.Base

namespace FilePath

/-- `ReferencesParent`; `none` when the fuel does not do. -/
def referencesParent (fuel : Nat) (self : FilePath) : Option Bool :=
  (self.getComponents fuel).map fun components =>
    components.any fun component => component = kParentDirectory

theorem referencesParent_eq (self : FilePath) {fuel : Nat} (h : self.value.length+2 ≤ fuel) :
    self.referencesParent fuel = some (decide (kParentDirectory ∈ components self.value)) := by
  rw [referencesParent,self.getComponents_eq h,Option.map_some]
  simp [List.any_eq]

end FilePath

def kReadBufferSize : Nat := 65536

/-- What one `fread` that does not return 0 puts into the buffer. -/
abbrev Chunk : Type := {buf : List UInt8 // 0 < buf.length ∧ buf.length ≤ kReadBufferSize}

/-- An opened file, by its reads and by what `ferror` says behind them. -/
structure FileReads where
  chunks : List Chunk
  ferror : Bool

def chunkBytes (chunks : List Chunk) : List UInt8 := (chunks.map Subtype.val).flatten

def FileReads.bytes (file : FileReads) : List UInt8 := chunkBytes file.chunks

structure ReadState where
  contents : Option (List UInt8)
  size : UInt64
  readStatus : Bool

def minSize (a b : UInt64) : UInt64 := if b < a then b else a

/-- One turn of the loop; `error` is the `break`. -/
def readTurn (maxSize : UInt64) (state : ReadState) (buf : Chunk) :
    Except ReadState ReadState :=
  let len := UInt64.ofNat buf.val.length
  let contents := state.contents.map fun contents =>
    contents ++ buf.val.take (minSize len (maxSize-state.size)).toNat
  if maxSize-state.size < len then
    .error { state with contents, readStatus := false }
  else .ok { state with contents, size := state.size+len }

def readLoop (maxSize : UInt64) (state : ReadState) (chunks : List Chunk) :
    Except ReadState ReadState :=
  chunks.foldlM (readTurn maxSize) state

def readStart (contents : Option (List UInt8)) : ReadState := ⟨contents.map fun _ => [],0,true⟩

/-- `ReadFileToStringWithMaxSize`: what is left in `contents` and what is returned. The file is
`none` when it cannot be opened; the whole is `none` when the fuel does not do. -/
def readFileToStringWithMaxSize (fuel : Nat) (path : FilePath) (contents : Option (List UInt8))
    (file : Option FileReads) (maxSize : UInt64) : Option (Option (List UInt8) × Bool) := do
  let start := readStart contents
  if ← path.referencesParent fuel then return (start.contents,false)
  match file with
  | none => return (start.contents,false)
  | some file =>
    let state := match readLoop maxSize start file.chunks with
      | .error state => state
      | .ok state => state
    return (state.contents,state.readStatus && !file.ferror)

section turn
variable {maxSize : UInt64} {state : ReadState}

theorem chunk_length (buf : Chunk) :
    (UInt64.ofNat buf.val.length).toNat = buf.val.length := by
  have hlen := buf.property.2
  have hsize : kReadBufferSize < UInt64.size := by decide
  exact UInt64.toNat_ofNat_of_lt' (by omega)

theorem readTurn_whole (hsize : state.size ≤ maxSize) (buf : Chunk)
    (h : state.size.toNat + buf.val.length ≤ maxSize.toNat) :
    ∃ size, size.toNat = state.size.toNat + buf.val.length ∧
      readTurn maxSize state buf =
        .ok ⟨state.contents.map fun contents => contents ++ buf.val,size,state.readStatus⟩ := by
  have hlen := chunk_length buf
  have hroom := UInt64.toNat_sub_of_le _ _ hsize
  have hmax := maxSize.toNat_lt
  have hle : UInt64.ofNat buf.val.length ≤ maxSize-state.size := by
    rw [UInt64.le_iff_toNat_le,hlen,hroom]
    omega
  refine ⟨state.size+UInt64.ofNat buf.val.length,?_,?_⟩
  · rw [UInt64.toNat_add,hlen,Nat.mod_eq_of_lt (by omega)]
  · have hnot := UInt64.not_lt.mpr hle
    rw [readTurn,if_neg hnot,minSize,if_neg hnot,hlen,List.take_length]

theorem readTurn_cut (hsize : state.size ≤ maxSize) (buf : Chunk)
    (h : maxSize.toNat < state.size.toNat + buf.val.length) :
    readTurn maxSize state buf =
      .error ⟨state.contents.map fun contents =>
        contents ++ buf.val.take (maxSize.toNat-state.size.toNat),state.size,false⟩ := by
  have hlen := chunk_length buf
  have hroom := UInt64.toNat_sub_of_le _ _ hsize
  have hlt : maxSize-state.size < UInt64.ofNat buf.val.length := by
    rw [UInt64.lt_iff_toNat_lt,hlen,hroom]
    have hle := UInt64.le_iff_toNat_le.mp hsize
    omega
  rw [readTurn,if_pos hlt,minSize,if_pos hlt,hroom]

/-- What the loop makes of all chunks: it takes them all, or stops in the one that reaches
beyond the bound. -/
theorem readLoop_eq (chunks : List Chunk) (hsize : state.size ≤ maxSize) :
    (state.size.toNat + (chunkBytes chunks).length ≤ maxSize.toNat ∧
      ∃ size, size ≤ maxSize ∧ readLoop maxSize state chunks = .ok
        ⟨state.contents.map fun contents => contents ++ chunkBytes chunks,size,
          state.readStatus⟩) ∨
    (maxSize.toNat < state.size.toNat + (chunkBytes chunks).length ∧
      ∃ size, readLoop maxSize state chunks = .error
        ⟨state.contents.map fun contents => contents ++
          (chunkBytes chunks).take (maxSize.toNat-state.size.toNat),size,false⟩) := by
  induction chunks generalizing state with
  | nil =>
    refine .inl ⟨UInt64.le_iff_toNat_le.mp hsize,state.size,hsize,?_⟩
    cases state with
    | mk contents size readStatus => cases contents <;> simp [readLoop,chunkBytes,pure,Except.pure]
  | cons buf chunks ih =>
    have hbytes : chunkBytes (buf :: chunks) = buf.val ++ chunkBytes chunks := rfl
    rw [hbytes,List.length_append,readLoop,List.foldlM_cons]
    rcases Nat.lt_or_ge maxSize.toNat (state.size.toNat + buf.val.length) with hlt | hle
    · refine .inr ⟨by omega,state.size,?_⟩
      have hmore : maxSize.toNat-state.size.toNat ≤ buf.val.length := by omega
      rw [readTurn_cut hsize buf hlt,List.take_append_of_le_length hmore]
      rfl
    · obtain ⟨size,hnext,hturn⟩ := readTurn_whole hsize buf hle
      have hnextLe : size ≤ maxSize := by
        rw [UInt64.le_iff_toNat_le,hnext]
        exact hle
      rw [hturn]
      rcases @ih ⟨_,size,_⟩ hnextLe with ⟨hfits,last,hlast,hrest⟩ | ⟨hlong,last,hrest⟩
      · dsimp only at hfits
        refine .inl ⟨by omega,last,hlast,hrest.trans ?_⟩
        simp only [Option.map_map,Function.comp_def,List.append_assoc]
      · dsimp only at hlong
        refine .inr ⟨by omega,last,hrest.trans ?_⟩
        have hroom : maxSize.toNat-state.size.toNat =
            buf.val.length + (maxSize.toNat-size.toNat) := by omega
        simp only [hroom,Option.map_map,Function.comp_def,List.append_assoc,
          List.take_length_add_append]

end turn

/-- What is read is cut at the bound, and the bound is never behind what has been read. -/
theorem readFileToStringWithMaxSize_eq (path : FilePath)
    (hpath : kParentDirectory ∉ components path.value) (contents : Option (List UInt8))
    (file : FileReads) (maxSize : UInt64) :
    (∀ fuel, path.value.length+2 ≤ fuel →
      readFileToStringWithMaxSize fuel path contents (some file) maxSize =
        some (contents.map fun _ => file.bytes.take maxSize.toNat,
          decide (file.bytes.length ≤ maxSize.toNat) && !file.ferror)) ∧
    ∀ turns state, readLoop maxSize (readStart contents) (file.chunks.take turns) = .ok state →
      state.size ≤ maxSize := by
  have hsize : (readStart contents).size ≤ maxSize := UInt64.zero_le
  constructor
  · intro fuel hfuel
    rw [readFileToStringWithMaxSize,path.referencesParent_eq hfuel,decide_eq_false hpath]
    have hzero : (readStart contents).size.toNat = 0 := rfl
    have hstart (bytes : List UInt8) :
        ((readStart contents).contents.map fun contents => contents ++ bytes) =
          contents.map fun _ => bytes := by
      simp [readStart,Function.comp_def]
    rcases readLoop_eq file.chunks hsize with ⟨hfits,size,-,hloop⟩ | ⟨hlong,size,hloop⟩
    · rw [hzero,Nat.zero_add] at hfits
      have hfits : file.bytes.length ≤ maxSize.toNat := hfits
      simp only [Option.pure_def,Option.bind_eq_bind,Option.bind_some,Bool.false_eq_true,if_false,
        hloop,hstart,decide_eq_true hfits,List.take_of_length_le hfits]
      rfl
    · rw [hzero,Nat.zero_add] at hlong
      have hlong : ¬file.bytes.length ≤ maxSize.toNat := Nat.not_le.mpr hlong
      simp only [Option.pure_def,Option.bind_eq_bind,Option.bind_some,Bool.false_eq_true,if_false,
        hloop,hstart,hzero,Nat.sub_zero,decide_eq_false hlong]
      rfl
  · intro turns state hloop
    rcases readLoop_eq (file.chunks.take turns) hsize with ⟨-,size,hle,hends⟩ | ⟨-,size,hends⟩
    · cases hloop.symm.trans hends
      exact hle
    · cases hloop.symm.trans hends

/-- Three bytes in two chunks, under a bound that cuts the second. -/
theorem readFileToStringWithMaxSize_cut :
    (∀ fuel, "a/b".toList.length+2 ≤ fuel →
      readFileToStringWithMaxSize fuel ⟨"a/b".toList,by decide⟩ (some [7])
        (some ⟨[⟨[1],by decide⟩,⟨[2,3],by decide⟩],false⟩) 2 = some (some [1,2],false)) ∧
    ∀ turns state,
      readLoop 2 (readStart (some [7])) (List.take turns [⟨[1],by decide⟩,⟨[2,3],by decide⟩]) =
        .ok state → state.size ≤ 2 :=
  readFileToStringWithMaxSize_eq ⟨"a/b".toList,by decide⟩ (by decide) (some [7])
    ⟨[⟨[1],by decide⟩,⟨[2,3],by decide⟩],false⟩ 2

end MprMq.Base
