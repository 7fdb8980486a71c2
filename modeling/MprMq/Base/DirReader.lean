import MprMq.Lib.Buffer
import MprMq.Lib.LittleEndian
import MprMq.Lib.Loop
set_option autoImplicit false

/-! `DirReader` over its buffer, for every way in which `getdents64` fills it. -/

namespace MprMq.Base
open Lib Lib.Buffer

/-- A record that `getdents64` delivers: the name ends in a NUL, and may be padded behind it. -/
structure Dirent where
  dIno : List UInt8
  dOff : List UInt8
  dType : UInt8
  dName : List UInt8
  padding : List UInt8
  length_dIno : dIno.length = 8
  length_dOff : dOff.length = 8
  nonempty : dName ≠ []
  noNul : 0 ∉ dName
  noSeparator : 47 ∉ dName

namespace Dirent

def reclen (d : Dirent) : Nat := 20+d.dName.length+d.padding.length

def head (d : Dirent) : List UInt8 := d.dIno ++ d.dOff

def bytes (d : Dirent) : List UInt8 :=
  d.head ++ (leBytes 2 d.reclen ++ (d.dType :: (d.dName ++ 0 :: d.padding)))

theorem length_head (d : Dirent) : d.head.length = 16 := by
  rw [head,List.length_append,d.length_dIno,d.length_dOff]

theorem length_bytes (d : Dirent) : d.bytes.length = d.reclen := by
  simp only [bytes,List.length_append,length_head,length_leBytes,List.length_cons,reclen]
  omega

end Dirent

def kDirBufSize : Nat := 512

def recordBytes (entries : List Dirent) : List UInt8 := entries.flatMap Dirent.bytes

/-- What one `getdents64` delivers before the end. -/
structure DirentBatch where
  entries : List Dirent
  nonempty : entries ≠ []
  fits : (recordBytes entries).length ≤ kDirBufSize

/-- The reader, with the batches that are still to come and whether there is an error behind
them. -/
structure DirReader where
  buf : List UInt8
  offset : Nat
  size : Nat
  pending : List DirentBatch
  fails : Bool

namespace DirReader

def opened (batches : List DirentBatch) (fails : Bool) : DirReader :=
  ⟨List.replicate kDirBufSize 0,0,0,batches,fails⟩

/-- `getdents64` into `buf_`; `none` is a write outside of it. -/
def getdents64 (reader : DirReader) : Option (Int × DirReader) :=
  match reader.pending with
  | [] => some (if reader.fails then -1 else 0,reader)
  | batch :: rest => do
    let buf ← put reader.buf 0 (recordBytes batch.entries)
    return ((recordBytes batch.entries).length,{reader with buf, pending := rest})

/-- `offset_ += dirent->d_reclen` in front of all but the first call; `none` is a read outside
of `buf_`. -/
def skipEntry (reader : DirReader) : Option DirReader :=
  if reader.size ≠ 0 then do
    let dReclen ← get reader.buf (reader.offset+16) 2
    return {reader with offset := reader.offset+leValue dReclen}
  else some reader

def next (reader : DirReader) : Option (Bool × DirReader) := do
  let reader ← reader.skipEntry
  if reader.offset ≠ reader.size then return (true,reader)
  else
    let (r,reader) ← reader.getdents64
    if r = 0 then return (false,reader)
    else if r = -1 then return (false,reader)
    else return (true,{reader with size := r.toNat, offset := 0})

/-- The string that `name` points at; `none` is a null pointer or one to no string in `buf_`. -/
def name (reader : DirReader) : Option (List UInt8) :=
  if reader.size = 0 then none
  else
    let dName := reader.buf.drop (reader.offset+19)
    if 0 ∈ dName then some (dName.takeWhile fun b => b ≠ 0) else none

/-- A turn of `while (reader.Next()) use(reader.name())`, where `use` may leave the loop. -/
def whileTurn {τ ρ : Type} (use : List UInt8 → τ → Turn τ ρ) (finish : τ → ρ)
    (state : DirReader × τ) : Option (Turn (DirReader × τ) ρ) := do
  let (more,reader) ← state.1.next
  if more then
    match use (← reader.name) state.2 with
    | .next t => return .next (reader,t)
    | .done r => return .done r
  else return .done (finish state.2)

def overNames {τ ρ : Type} (use : List UInt8 → τ → Turn τ ρ) (finish : τ → ρ) :
    List (List UInt8) → τ → ρ
  | [], t => finish t
  | name :: names, t =>
    match use name t with
    | .next t => overNames use finish names t
    | .done r => r

structure At (reader : DirReader) (before : List Dirent) (entry : Dirent) (after : List Dirent) :
    Prop where
  length : reader.buf.length = kDirBufSize
  filled : recordBytes (before ++ entry :: after) <+: reader.buf
  size : reader.size = (recordBytes (before ++ entry :: after)).length
  offset : reader.offset = (recordBytes before).length

section cursor
variable {reader : DirReader} {before after : List Dirent} {entry : Dirent}

theorem recordBytes_cons (entry : Dirent) (entries : List Dirent) :
    recordBytes (entry :: entries) = entry.bytes ++ recordBytes entries := List.flatMap_cons

theorem recordBytes_append (before after : List Dirent) :
    recordBytes (before ++ after) = recordBytes before ++ recordBytes after := List.flatMap_append

theorem At.size_eq (h : reader.At before entry after) :
    reader.size = reader.offset+entry.reclen+(recordBytes after).length := by
  rw [h.size,recordBytes_append,recordBytes_cons,List.length_append,List.length_append,
    entry.length_bytes,h.offset,Nat.add_assoc]

theorem At.size_le (h : reader.At before entry after) : reader.size ≤ kDirBufSize := by
  rw [h.size,← h.length]
  exact h.filled.length_le

theorem At.buf (h : reader.At before entry after) :
    ∃ behind, reader.buf.drop reader.offset = entry.bytes ++ behind := by
  obtain ⟨stale,hbuf⟩ := h.filled
  rw [recordBytes_append,recordBytes_cons,List.append_assoc,List.append_assoc] at hbuf
  exact ⟨_,by rw [← hbuf,h.offset,List.drop_left]⟩

theorem reclen_pos (entry : Dirent) : 0 < entry.reclen := by
  rw [Dirent.reclen]
  omega

theorem At.skipEntry (h : reader.At before entry after) :
    reader.skipEntry = some {reader with offset := reader.offset+entry.reclen} := by
  have hsize := h.size_eq
  have hle := h.size_le
  have hpos := reclen_pos entry
  have hreclen : entry.reclen = 20+entry.dName.length+entry.padding.length := rfl
  obtain ⟨behind,hbuf⟩ := h.buf
  have hget : get reader.buf (reader.offset+16) 2 = some (leBytes 2 entry.reclen) := by
    have hroom : reader.offset+16+2 ≤ reader.buf.length := by
      rw [h.length]
      omega
    rw [Buffer.get,if_pos hroom,← List.drop_drop,hbuf,Dirent.bytes,List.append_assoc,
      List.drop_left' entry.length_head,List.append_assoc]
    exact congrArg some (List.take_left' (length_leBytes 2 _))
  have hvalue : leValue (leBytes 2 entry.reclen) = entry.reclen := by
    rw [leValue_leBytes]
    refine Nat.mod_eq_of_lt ?_
    have hbound : kDirBufSize < 256^2 := by decide
    omega
  rw [DirReader.skipEntry,if_pos (by omega),hget,Option.bind_eq_bind,Option.bind_some,hvalue]
  rfl

theorem At.name (h : reader.At before entry after) : reader.name = some entry.dName := by
  have hsize := h.size_eq
  have hpos := reclen_pos entry
  obtain ⟨behind,hbuf⟩ := h.buf
  have hdrop : reader.buf.drop (reader.offset+19) =
      entry.dName ++ 0 :: (entry.padding ++ behind) := by
    have hlen : (entry.head ++ (leBytes 2 entry.reclen ++ [entry.dType])).length = 19 := by
      simp [Dirent.length_head]
    have hsplit : entry.bytes ++ behind =
        (entry.head ++ (leBytes 2 entry.reclen ++ [entry.dType])) ++
          (entry.dName ++ 0 :: (entry.padding ++ behind)) := by
      simp [Dirent.bytes]
    rw [← List.drop_drop,hbuf,hsplit,List.drop_left' hlen]
  have htake : (entry.dName ++ 0 :: (entry.padding ++ behind)).takeWhile (fun b => b ≠ 0) =
      entry.dName := by
    rw [List.takeWhile_append_of_pos]
    · simp
    · intro b hb
      simp only [ne_eq,decide_not,Bool.not_eq_true',decide_eq_false_iff_not]
      rintro rfl
      exact entry.noNul hb
  rw [DirReader.name,if_neg (by omega),hdrop,if_pos (by simp),htake]

end cursor

def stillPending (reader : DirReader) : List Dirent :=
  reader.pending.flatMap DirentBatch.entries

inductive Ready : DirReader → List Dirent → Prop
  | first {reader : DirReader} (length : reader.buf.length = kDirBufSize)
      (size : reader.size = 0) (offset : reader.offset = 0) : Ready reader reader.stillPending
  | later {reader : DirReader} {before after : List Dirent} {entry : Dirent}
      (h : reader.At before entry after) : Ready reader (after ++ reader.stillPending)

inductive Nexts (reader : DirReader) : List Dirent → Prop
  | ends {last : DirReader} (h : reader.next = some (false,last))
      (offset : last.offset = last.size) : Nexts reader []
  | moves {moved : DirReader} {before after rest : List Dirent} {entry : Dirent}
      (h : reader.next = some (true,moved)) (place : moved.At before entry after)
      (ready : Ready moved rest) : Nexts reader (entry :: rest)

section next
variable {reader skipped : DirReader}

theorem next_refill (hskip : reader.skipEntry = some skipped)
    (hoffset : skipped.offset = skipped.size) (hlength : skipped.buf.length = kDirBufSize) :
    Nexts reader skipped.stillPending := by
  have hnext : reader.next = skipped.getdents64.bind fun answer =>
      if answer.1 = 0 then some (false,answer.2)
      else if answer.1 = -1 then some (false,answer.2)
      else some (true,{answer.2 with size := answer.1.toNat, offset := 0}) := by
    rw [next,hskip,Option.bind_eq_bind,Option.bind_some,if_neg (not_not.mpr hoffset)]
    rfl
  obtain ⟨buf,offset,size,pending,fails⟩ := skipped
  cases pending with
  | nil =>
    refine @Nexts.ends reader ⟨buf,offset,size,[],fails⟩ ?_ hoffset
    rw [hnext]
    cases fails <;> rfl
  | cons batch rest =>
    obtain ⟨entries,hne,hsize⟩ := batch
    obtain ⟨entry,after,rfl⟩ := List.exists_cons_of_ne_nil hne
    dsimp only at hlength
    have hfits : (recordBytes (entry :: after)).length ≤ buf.length := by
      rw [hlength]
      exact hsize
    have hput := put_at_start hfits
    have hpos : 0 < (recordBytes (entry :: after)).length := by
      rw [recordBytes_cons,List.length_append,entry.length_bytes,Dirent.reclen]
      omega
    have hmoved : reader.next = some (true,⟨recordBytes (entry :: after) ++
        buf.drop (recordBytes (entry :: after)).length,0,(recordBytes (entry :: after)).length,
        rest,fails⟩) := by
      rw [hnext,getdents64]
      dsimp only
      rw [hput,Option.bind_eq_bind,Option.bind_some]
      have hne : ¬((recordBytes (entry :: after)).length : Int) = 0 := by omega
      have hneg : ¬((recordBytes (entry :: after)).length : Int) = -1 := by omega
      simp only [Option.pure_def,Option.bind_some,hne,hneg,if_false,Int.toNat_natCast]
    have hplace : At ⟨recordBytes (entry :: after) ++
        buf.drop (recordBytes (entry :: after)).length,0,(recordBytes (entry :: after)).length,
        rest,fails⟩ [] entry after :=
      ⟨(put_length hput).trans hlength,⟨_,rfl⟩,rfl,rfl⟩
    exact .moves hmoved hplace (.later hplace)

theorem Ready.nexts {rest : List Dirent} (h : reader.Ready rest) : Nexts reader rest := by
  cases h with
  | first length size offset =>
    have hskip : reader.skipEntry = some reader := by
      rw [skipEntry,if_neg (not_not.mpr size)]
    exact next_refill hskip (offset.trans size.symm) length
  | @later before after entry place =>
    have hsize := place.size_eq
    cases after with
    | nil =>
      have hnexts := next_refill place.skipEntry hsize.symm place.length
      exact hnexts
    | cons entry' after =>
      have hpos := reclen_pos entry'
      rw [recordBytes_cons,List.length_append,entry'.length_bytes] at hsize
      have hne : reader.offset+entry.reclen ≠ reader.size := by omega
      have hplace : At {reader with offset := reader.offset+entry.reclen}
          (before ++ [entry]) entry' after := by
        refine ⟨place.length,?_,?_,?_⟩
        · rw [List.append_assoc]
          exact place.filled
        · rw [List.append_assoc]
          exact place.size
        · dsimp only
          rw [recordBytes_append,List.length_append,recordBytes_cons,List.length_append,
            entry.length_bytes,place.offset]
          rfl
      refine .moves ?_ hplace (.later hplace)
      rw [next,place.skipEntry,Option.bind_eq_bind,Option.bind_some,if_pos hne]
      rfl

/-- The loop uses the names that are to come, in their order and each of them once. -/
theorem Ready.loop {τ ρ : Type} (use : List UInt8 → τ → Turn τ ρ) (finish : τ → ρ)
    {rest : List Dirent} (h : reader.Ready rest) (t : τ) {turns : Nat}
    (hturns : rest.length < turns) :
    runLoop (whileTurn use finish) turns (reader,t) =
      some (overNames use finish (rest.map Dirent.dName) t) := by
  induction rest generalizing reader t turns with
  | nil =>
    obtain ⟨turns,rfl⟩ := Nat.exists_eq_add_of_lt hturns
    cases h.nexts with
    | ends hnext offset =>
      exact runLoop_done (by rw [whileTurn,hnext]; rfl) _
  | cons entry rest ih =>
    obtain ⟨more,rfl⟩ := Nat.exists_eq_add_of_lt hturns
    cases h.nexts with
    | @moves moved before after _ _ hnext place ready =>
      have hturn : whileTurn use finish (reader,t) =
          match use entry.dName t with
          | .next t => some (.next (moved,t))
          | .done r => some (.done r) := by
        rw [whileTurn,hnext]
        simp only [Option.bind_eq_bind,Option.bind_some,if_true,place.name]
        rfl
      rw [List.map_cons,overNames]
      cases huse : use entry.dName t with
      | next u =>
        rw [huse] at hturn
        rw [runLoop_next hturn]
        exact ih ready u (by rw [List.length_cons]; omega)
      | done r =>
        rw [huse] at hturn
        exact runLoop_done hturn _

end next

inductive Reached (start : DirReader) : Bool → DirReader → Prop
  | first {more : Bool} {reader : DirReader} (h : start.next = some (more,reader)) :
      Reached start more reader
  | again {more : Bool} {reader moved : DirReader} (h : Reached start true reader)
      (hnext : reader.next = some (more,moved)) : Reached start more moved

theorem Nexts.reached {reader moved : DirReader} {rest : List Dirent} {more : Bool}
    (h : Nexts reader rest) (hnext : reader.next = some (more,moved)) :
    moved.offset ≤ moved.size ∧ (more = true →
      (∃ before entry after, moved.At before entry after) ∧ ∃ rest, moved.Ready rest) := by
  cases h with
  | ends hends offset =>
    cases hends.symm.trans hnext
    exact ⟨Nat.le_of_eq offset,fun hmore => by cases hmore⟩
  | moves hmoves place ready =>
    cases hmoves.symm.trans hnext
    have hsize := place.size_eq
    exact ⟨by omega,fun _ => ⟨⟨_,_,_,place⟩,_,ready⟩⟩

theorem Reached.keeps {start reader : DirReader} {rest : List Dirent} {more : Bool}
    (hstart : start.Ready rest) (h : Reached start more reader) :
    reader.offset ≤ reader.size ∧ (more = true →
      (∃ before entry after, reader.At before entry after) ∧ ∃ rest, reader.Ready rest) := by
  induction h with
  | first hnext => exact hstart.nexts.reached hnext
  | again _ hnext ih =>
    obtain ⟨-,rest,hready⟩ := ih.2 rfl
    exact hready.nexts.reached hnext

end DirReader

end MprMq.Base
