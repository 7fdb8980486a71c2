import MprMq.Base.ReadFile
import MprMq.Lib.Buffer
import MprMq.Lib.Loop
set_option autoImplicit false

/-! `CopyFile`, over any way in which the system splits the reads and the writes. -/

namespace MprMq.Base
open Lib Lib.Buffer

/-- A call of `read` or `write` and what it returned; of a write also how many bytes of the same
`WriteAtCurrentPos` had been accepted in front of it. -/
inductive SysCall where
  | read (rv : Int)
  | write (bytesWritten : Nat) (rv : Int)
  deriving DecidableEq

/-- What the system makes of a call: it fails, or takes as many bytes as there are up to a number,
which is at least one. -/
inductive SysAnswer where
  | fails
  | upTo (count : Nat)

/-- A call for at least one byte serves at least one: `write` never answers 0. -/
def served (count available : Nat) : Nat := min (max 1 count) available

structure CopyWorld where
  /-- What has not been read of the source. -/
  rest : List UInt8
  destination : List UInt8
  calls : List SysCall

def sysRead (os : List SysCall → SysAnswer) (world : CopyWorld) (count : Nat) :
    Int × List UInt8 × CopyWorld :=
  match os world.calls with
  | .fails => (-1,[],{world with calls := world.calls ++ [.read (-1)]})
  | .upTo n =>
    let bytes := world.rest.take (served n count)
    (bytes.length,bytes,
      ⟨world.rest.drop (served n count),world.destination,world.calls ++ [.read bytes.length]⟩)

def sysWrite (os : List SysCall → SysAnswer) (world : CopyWorld) (bytesWritten : Nat)
    (data : List UInt8) : Int × CopyWorld :=
  match os world.calls with
  | .fails => (-1,{world with calls := world.calls ++ [.write bytesWritten (-1)]})
  | .upTo n =>
    let bytes := data.take (served n data.length)
    (bytes.length,⟨world.rest,world.destination ++ bytes,
      world.calls ++ [.write bytesWritten bytes.length]⟩)

def bytesOr (bytes : Nat) (rv : Int) : Int := if bytes ≠ 0 then bytes else rv

structure ReadAt where
  data : List UInt8
  bytesRead : Nat
  world : CopyWorld

def readAtCurrentPosTurn (os : List SysCall → SysAnswer) (size : Nat) (state : ReadAt) :
    Option (Turn ReadAt (Int × List UInt8 × CopyWorld)) := do
  let (rv,bytes,world) := sysRead os state.world (size-state.bytesRead)
  if rv ≤ 0 then return .done (bytesOr state.bytesRead rv,state.data,world)
  else
    let data ← put state.data state.bytesRead bytes
    let bytesRead := state.bytesRead+rv.toNat
    if bytesRead < size then return .next ⟨data,bytesRead,world⟩
    else return .done (bytesOr bytesRead rv,data,world)

/-- `File::ReadAtCurrentPos`: what is returned, and `data` afterwards. -/
def readAtCurrentPos (os : List SysCall → SysAnswer) (fuel : Nat) (world : CopyWorld)
    (data : List UInt8) (size : Int) : Option (Int × List UInt8 × CopyWorld) :=
  if size < 0 then some (-1,data,world)
  else runLoop (readAtCurrentPosTurn os size.toNat) fuel ⟨data,0,world⟩

structure WriteAt where
  bytesWritten : Nat
  world : CopyWorld

def writeAtCurrentPosTurn (os : List SysCall → SysAnswer) (data : List UInt8) (size : Nat)
    (state : WriteAt) : Option (Turn WriteAt (Int × CopyWorld)) := do
  let (rv,world) := sysWrite os state.world state.bytesWritten
    (← get data state.bytesWritten (size-state.bytesWritten))
  if rv ≤ 0 then return .done (bytesOr state.bytesWritten rv,world)
  else
    let bytesWritten := state.bytesWritten+rv.toNat
    if bytesWritten < size then return .next ⟨bytesWritten,world⟩
    else return .done (bytesOr bytesWritten rv,world)

def writeAtCurrentPos (os : List SysCall → SysAnswer) (fuel : Nat) (world : CopyWorld)
    (data : List UInt8) (size : Int) : Option (Int × CopyWorld) :=
  if size < 0 then some (-1,world)
  else runLoop (writeAtCurrentPosTurn os data size.toNat) fuel ⟨0,world⟩

def kCopyBufferSize : Nat := 32768

structure WriteBlock where
  bytesWrittenPerRead : Nat
  world : CopyWorld

def writeBlockTurn (os : List SysCall → SysAnswer) (buffer : List UInt8) (bytesRead : Nat)
    (fuel : Nat) (state : WriteBlock) : Option (Turn WriteBlock (Bool × CopyWorld)) := do
  let (bytesWrittenPartial,world) ← writeAtCurrentPos os fuel state.world
    (buffer.drop state.bytesWrittenPerRead) (bytesRead-state.bytesWrittenPerRead)
  if bytesWrittenPartial < 0 then return .done (false,world)
  else
    let bytesWrittenPerRead := state.bytesWrittenPerRead+bytesWrittenPartial.toNat
    if bytesWrittenPerRead < bytesRead then return .next ⟨bytesWrittenPerRead,world⟩
    else return .done (true,world)

structure CopyState where
  buffer : List UInt8
  world : CopyWorld

def copyTurn (os : List SysCall → SysAnswer) (fuel : Nat) (state : CopyState) :
    Option (Turn CopyState (Bool × CopyWorld)) := do
  let (bytesRead,buffer,world) ←
    readAtCurrentPos os fuel state.world state.buffer state.buffer.length
  if bytesRead < 0 then return .done (false,world)
  else if bytesRead = 0 then return .done (true,world)
  else
    let (result,world) ← runLoop (writeBlockTurn os buffer bytesRead.toNat fuel) fuel ⟨0,world⟩
    if result then return .next ⟨buffer,world⟩ else return .done (false,world)

/-- `File::Initialize` and `IsValid`, by whether the system opens the file. -/
def fileIsValid (fuel : Nat) (path : FilePath) (opens : Bool) : Option Bool :=
  (path.referencesParent fuel).map fun refersUp => !refersUp && opens

/-- `CopyFile` to another file; the source is `none` when it cannot be opened, and the
destination holds `old` until it is. -/
def copyFile (os : List SysCall → SysAnswer) (fuel : Nat) (fromPath toPath : FilePath)
    (source : Option (List UInt8)) (toOpens : Bool) (old : List UInt8) :
    Option (Bool × CopyWorld) := do
  let infile := source.getD []
  if !(← fileIsValid fuel fromPath source.isSome) then return (false,⟨infile,old,[]⟩)
  if !(← fileIsValid fuel toPath toOpens) then return (false,⟨infile,old,[]⟩)
  runLoop (copyTurn os fuel) fuel ⟨List.replicate kCopyBufferSize 0,⟨infile,[],[]⟩⟩

/-- A `WriteAtCurrentPos` had its first write fail. -/
def FailsAtOnce (calls : List SysCall) : Prop := .write 0 (-1) ∈ calls

section calls
variable {os : List SysCall → SysAnswer} {world : CopyWorld}

theorem served_le (n available : Nat) : served n available ≤ available := Nat.min_le_right _ _

theorem served_pos (n : Nat) {available : Nat} (h : 0 < available) : 0 < served n available :=
  Nat.lt_min.mpr ⟨Nat.lt_of_lt_of_le Nat.one_pos (Nat.le_max_left 1 n),h⟩

theorem bytesOr_pos {bytes : Nat} (h : 0 < bytes) (rv : Int) : bytesOr bytes rv = bytes :=
  if_pos (Nat.ne_of_gt h)

theorem sysRead_cases (os : List SysCall → SysAnswer) (world : CopyWorld) {count : Nat}
    (h : 0 < count) :
    sysRead os world count = (-1,[],{world with calls := world.calls ++ [.read (-1)]}) ∨
    ∃ bytes rest, world.rest = bytes ++ rest ∧ bytes.length ≤ count ∧
      (bytes = [] → world.rest = []) ∧
      sysRead os world count =
        ((bytes.length : Int),bytes,
          ⟨rest,world.destination,world.calls ++ [.read bytes.length]⟩) := by
  unfold sysRead
  split
  · exact .inl rfl
  · rename_i n hanswer
    refine .inr ⟨_,_,(List.take_append_drop (served n count) _).symm,?_,fun hnil => ?_,rfl⟩
    · rw [List.length_take]
      exact Nat.le_trans (Nat.min_le_left _ _) (served_le n count)
    · rcases List.take_eq_nil_iff.mp hnil with hzero | hrest
      · exact absurd hzero (Nat.ne_of_gt (served_pos n h))
      · exact hrest

theorem sysWrite_cases (os : List SysCall → SysAnswer) (world : CopyWorld) (bytesWritten : Nat)
    {data : List UInt8} (h : 0 < data.length) :
    sysWrite os world bytesWritten data =
      (-1,{world with calls := world.calls ++ [.write bytesWritten (-1)]}) ∨
    ∃ n : Nat, 0 < n ∧ n ≤ data.length ∧ sysWrite os world bytesWritten data =
      ((n : Int),
        ⟨world.rest,world.destination ++ data.take n,world.calls ++ [.write bytesWritten n]⟩) := by
  unfold sysWrite
  split
  · exact .inl rfl
  · rename_i n hanswer
    have hlen : (data.take (served n data.length)).length = served n data.length := by
      rw [List.length_take]
      exact Nat.min_eq_left (served_le n _)
    refine .inr ⟨served n data.length,served_pos n h,served_le n _,?_⟩
    dsimp only
    rw [hlen]

theorem not_failsAtOnce {calls : List SysCall} {call : SysCall} (h : ¬FailsAtOnce calls)
    (hcall : call ≠ .write 0 (-1)) : ¬FailsAtOnce (calls ++ [call]) := by
  intro hmem
  rcases List.mem_append.mp hmem with hmem | hmem
  · exact h hmem
  · exact hcall (List.mem_singleton.mp hmem).symm

end calls

structure ReadTo (world : CopyWorld) (size : Nat) (data bytes : List UInt8) (after : CopyWorld) :
    Prop where
  length : data.length = size
  got : get data 0 bytes.length = some bytes
  rest : world.rest = bytes ++ after.rest
  destination : after.destination = world.destination
  calls : ¬FailsAtOnce world.calls → ¬FailsAtOnce after.calls

section reading
variable {os : List SysCall → SysAnswer} {world : CopyWorld} {size : Nat}

/-- A loop that stops has failed, or returns what it has got, which is nothing only at the end. -/
def ReadDone (world : CopyWorld) (size : Nat) (r : Int × List UInt8 × CopyWorld) : Prop :=
  ∃ bytes, ReadTo world size r.2.1 bytes r.2.2 ∧
    (r.1 = -1 ∨ r.1 = bytes.length ∧ bytes.length ≤ size ∧ (bytes = [] → world.rest = []))

def Reading (world : CopyWorld) (size : Nat) (state : ReadAt) : Prop :=
  state.bytesRead < size ∧
    ∃ bytes, bytes.length = state.bytesRead ∧ ReadTo world size state.data bytes state.world

section got
variable {data bytes rest : List UInt8} {after : CopyWorld}

theorem ReadTo.nothing (h : ReadTo world size data bytes after) (hrest : after.rest = rest)
    (rv : Int) : ReadTo world size data bytes
      ⟨rest,after.destination,after.calls ++ [.read rv]⟩ :=
  ⟨h.length,h.got,hrest ▸ h.rest,h.destination,
    fun hno => not_failsAtOnce (h.calls hno) (by simp)⟩

theorem ReadTo.more (h : ReadTo world size data bytes after) {new further : List UInt8}
    (hrest : after.rest = new ++ rest) (hput : put data bytes.length new = some further)
    (rv : Int) : ReadTo world size further (bytes ++ new)
      ⟨rest,after.destination,after.calls ++ [.read rv]⟩ := by
  refine ⟨(put_length hput).trans h.length,?_,?_,h.destination,
    fun hno => not_failsAtOnce (h.calls hno) (by simp)⟩
  · rw [List.length_append]
    refine get_append ?_ ?_
    · rw [get_put_before hput (by omega),h.got]
    · rw [Nat.zero_add]
      exact get_put hput
  · rw [h.rest,hrest,List.append_assoc]

end got

theorem bytesOr_length {bytes : List UInt8} {n : Nat} (h : bytes.length = n) :
    bytesOr n 0 = bytes.length := by
  rw [h]
  rcases Nat.eq_zero_or_pos n with rfl | hpos
  · rfl
  · exact bytesOr_pos hpos 0

theorem readAtCurrentPosTurn_keeps (state : ReadAt) (h : Reading world size state) :
    ∃ o, readAtCurrentPosTurn os size state = some o ∧
      o.Meets (fun next => Reading world size next ∧
        size-next.bytesRead < size-state.bytesRead) (ReadDone world size) := by
  obtain ⟨hmore,bytes,hbytes,hto⟩ := h
  rw [readAtCurrentPosTurn]
  rcases sysRead_cases os state.world (Nat.sub_pos_of_lt hmore) with
    hread | ⟨new,rest,hrest,hlen,hend,hread⟩
  · rw [hread]
    refine ⟨_,rfl,bytes,hto.nothing rfl (-1),?_⟩
    rcases Nat.eq_zero_or_pos state.bytesRead with hzero | hpos
    · rw [hzero]
      exact .inl rfl
    · refine .inr ⟨by rw [bytesOr_pos hpos,hbytes],by omega,fun hnil => ?_⟩
      rw [← hbytes,hnil] at hpos
      exact absurd hpos (Nat.lt_irrefl 0)
  · rw [hread]
    rcases List.eq_nil_or_concat new with rfl | hnew
    · refine ⟨_,rfl,bytes,hto.nothing hrest 0,.inr ⟨bytesOr_length hbytes,by omega,?_⟩⟩
      intro hnil
      rw [hto.rest,hnil,hend rfl]
      rfl
    · have hpos : 0 < new.length := by
        obtain ⟨front,last,rfl⟩ := hnew
        simp
      have hfits : state.bytesRead + new.length ≤ state.data.length := by
        rw [hto.length]
        omega
      obtain ⟨data,hput⟩ := exists_put state.data state.bytesRead new hfits
      have hnext := hto.more hrest (hbytes ▸ hput) new.length
      have hrv : ¬(new.length : Int) ≤ 0 := by omega
      simp only [hrv,if_false,hput,Option.bind_eq_bind,Option.bind_some,Int.toNat_natCast]
      split
      · rename_i hless
        exact ⟨_,rfl,⟨hless,_,by rw [List.length_append,hbytes],hnext⟩,by dsimp only; omega⟩
      · refine ⟨_,rfl,_,hnext,.inr ⟨?_,?_,fun hnil => ?_⟩⟩
        · rw [bytesOr_pos (by omega),List.length_append,hbytes]
        · rw [List.length_append]
          omega
        · rw [(List.append_eq_nil_iff.mp hnil).2] at hpos
          exact absurd hpos (Nat.lt_irrefl 0)

theorem readAtCurrentPos_reads (os : List SysCall → SysAnswer) (world : CopyWorld)
    {data : List UInt8} (h : 0 < data.length) :
    ∃ r, ReadDone world data.length r ∧ ∀ fuel, data.length < fuel →
      readAtCurrentPos os fuel world data data.length = some r := by
  have hstart : Reading world data.length ⟨data,0,world⟩ :=
    ⟨h,[],rfl,rfl,if_pos (Nat.zero_le _),rfl,rfl,id⟩
  obtain ⟨r,hr,hruns⟩ := runLoop_simple (readAtCurrentPosTurn os data.length)
    (fun state => data.length-state.bytesRead) readAtCurrentPosTurn_keeps hstart
  refine ⟨r,hr,fun fuel hfuel => ?_⟩
  rw [readAtCurrentPos,if_neg (by omega),Int.toNat_natCast]
  exact hruns fuel (by dsimp only; omega)

end reading

structure WroteTo (world : CopyWorld) (data : List UInt8) (n : Nat) (after : CopyWorld) : Prop where
  rest : after.rest = world.rest
  destination : after.destination = world.destination ++ data.take n
  calls : ¬FailsAtOnce world.calls → ¬FailsAtOnce after.calls

section writing
variable {os : List SysCall → SysAnswer} {world : CopyWorld} {data : List UInt8} {size : Nat}

/-- A loop that stops has failed with nothing written, or returns how much it has written. -/
def WriteDone (world : CopyWorld) (data : List UInt8) (size : Nat) (r : Int × CopyWorld) : Prop :=
  r.1 = -1 ∧ r.2.rest = world.rest ∧ r.2.destination = world.destination ∨
  ∃ n : Nat, 0 < n ∧ n ≤ size ∧ r.1 = n ∧ WroteTo world data n r.2

def Writing (world : CopyWorld) (data : List UInt8) (size : Nat) (state : WriteAt) : Prop :=
  state.bytesWritten < size ∧ WroteTo world data state.bytesWritten state.world

theorem WroteTo.call {after : CopyWorld} {k n : Nat} (h : WroteTo world data k after) (hn : 0 < n)
    (hle : n ≤ size-k) : WroteTo world data (k+n) ⟨after.rest,
      after.destination ++ ((data.drop k).take (size-k)).take n,
      after.calls ++ [.write k n]⟩ := by
  refine ⟨h.rest,?_,fun hno => not_failsAtOnce (h.calls hno) ?_⟩
  · rw [h.destination,List.take_take,Nat.min_eq_left hle,List.append_assoc,← List.take_add]
  · rw [ne_eq,SysCall.write.injEq]
    omega

theorem writeAtCurrentPosTurn_keeps (hsize : size ≤ data.length) (state : WriteAt)
    (h : Writing world data size state) :
    ∃ o, writeAtCurrentPosTurn os data size state = some o ∧
      o.Meets (fun next => Writing world data size next ∧
        size-next.bytesWritten < size-state.bytesWritten) (WriteDone world data size) := by
  obtain ⟨hmore,hto⟩ := h
  have hget : get data state.bytesWritten (size-state.bytesWritten) =
      some ((data.drop state.bytesWritten).take (size-state.bytesWritten)) := if_pos (by omega)
  have hlen := length_of_get hget
  rw [writeAtCurrentPosTurn,hget,Option.bind_eq_bind,Option.bind_some]
  rcases sysWrite_cases os state.world state.bytesWritten (by rw [hlen]; omega) with
    hwrite | ⟨n,hn,hle,hwrite⟩
  · rw [hwrite]
    refine ⟨_,rfl,?_⟩
    rcases Nat.eq_zero_or_pos state.bytesWritten with hzero | hpos
    · refine .inl ⟨by rw [hzero]; rfl,hto.rest,?_⟩
      rw [hto.destination,hzero,List.take_zero,List.append_nil]
    · refine .inr ⟨state.bytesWritten,hpos,by omega,bytesOr_pos hpos _,?_⟩
      refine ⟨hto.rest,hto.destination,fun hno => not_failsAtOnce (hto.calls hno) ?_⟩
      rw [ne_eq,SysCall.write.injEq]
      omega
  · rw [hlen] at hle
    have hnext := hto.call hn hle
    have hrv : ¬(n : Int) ≤ 0 := by omega
    rw [hwrite]
    simp only [hrv,if_false,Int.toNat_natCast]
    split
    · rename_i hless
      exact ⟨_,rfl,⟨hless,hnext⟩,by dsimp only; omega⟩
    · exact ⟨_,rfl,.inr ⟨_,by omega,by omega,bytesOr_pos (by omega) _,hnext⟩⟩

theorem writeAtCurrentPos_writes (os : List SysCall → SysAnswer) (world : CopyWorld)
    (hsize : size ≤ data.length) (h : 0 < size) :
    ∃ r, WriteDone world data size r ∧ ∀ fuel, size < fuel →
      writeAtCurrentPos os fuel world data size = some r := by
  have hstart : Writing world data size ⟨0,world⟩ :=
    ⟨h,rfl,by rw [List.take_zero,List.append_nil],id⟩
  obtain ⟨r,hr,hruns⟩ := runLoop_simple (writeAtCurrentPosTurn os data size)
    (fun state => size-state.bytesWritten) (writeAtCurrentPosTurn_keeps hsize) hstart
  refine ⟨r,hr,fun fuel hfuel => ?_⟩
  rw [writeAtCurrentPos,if_neg (by omega),Int.toNat_natCast]
  exact hruns fuel (by dsimp only; omega)

end writing

section copying
variable {os : List SysCall → SysAnswer} {world : CopyWorld} {buffer bytes : List UInt8}

/-- All that was read has been written, or an error has been met behind a first part of it. -/
def BlockDone (world : CopyWorld) (bytes : List UInt8) (r : Bool × CopyWorld) : Prop :=
  if r.1 then WroteTo world bytes bytes.length r.2
  else ∃ n, r.2.rest = world.rest ∧ r.2.destination = world.destination ++ bytes.take n

def InBlock (world : CopyWorld) (bytes : List UInt8) (state : WriteBlock) : Prop :=
  state.bytesWrittenPerRead < bytes.length ∧
    WroteTo world bytes state.bytesWrittenPerRead state.world

theorem WroteTo.more (hbuffer : get buffer 0 bytes.length = some bytes) {k n : Nat}
    {middle after : CopyWorld} (hfirst : WroteTo world bytes k middle)
    (hthen : WroteTo middle (buffer.drop k) n after) (h : k+n ≤ bytes.length) :
    WroteTo world bytes (k+n) after := by
  have hpart := get_part hbuffer h
  rw [Nat.zero_add] at hpart
  obtain ⟨-,hsame⟩ := le_of_get hpart
  refine ⟨hthen.rest.trans hfirst.rest,?_,fun hno => hthen.calls (hfirst.calls hno)⟩
  rw [hthen.destination,hfirst.destination,← hsame,List.append_assoc,← List.take_add]

theorem writeBlockTurn_keeps (hbuffer : get buffer 0 bytes.length = some bytes)
    (state : WriteBlock) (h : InBlock world bytes state) :
    ∃ o, (∀ fuel, bytes.length+1 ≤ fuel →
        writeBlockTurn os buffer bytes.length fuel state = some o) ∧
      o.Meets (fun next => InBlock world bytes next ∧
        bytes.length-next.bytesWrittenPerRead < bytes.length-state.bytesWrittenPerRead)
        (BlockDone world bytes) := by
  obtain ⟨hmore,hto⟩ := h
  obtain ⟨hroom,-⟩ := le_of_get hbuffer
  have hle : bytes.length-state.bytesWrittenPerRead ≤
      (buffer.drop state.bytesWrittenPerRead).length := by
    rw [List.length_drop]
    omega
  obtain ⟨⟨rv,after⟩,hdone,hruns⟩ :=
    writeAtCurrentPos_writes os state.world hle (Nat.sub_pos_of_lt hmore)
  have hsize : (bytes.length : Int)-state.bytesWrittenPerRead =
      (bytes.length-state.bytesWrittenPerRead : Nat) := by omega
  have hturn : ∀ fuel, bytes.length+1 ≤ fuel → writeAtCurrentPos os fuel state.world
      (buffer.drop state.bytesWrittenPerRead)
      ((bytes.length : Int)-state.bytesWrittenPerRead) = some (rv,after) := by
    intro fuel hfuel
    rw [hsize]
    exact hruns fuel (by omega)
  rcases hdone with ⟨hrv,hrest,hdest⟩ | ⟨n,hn,hle,hrv,hwrote⟩
  · dsimp only at hrv
    subst hrv
    refine ⟨.done (false,after),fun fuel hfuel => ?_,?_⟩
    · rw [writeBlockTurn,hturn fuel hfuel]
      rfl
    · exact ⟨state.bytesWrittenPerRead,hrest.trans hto.rest,hdest.trans hto.destination⟩
  · have hall := hto.more hbuffer hwrote (by omega)
    dsimp only at hrv
    subst hrv
    have hnot : ¬(n : Int) < 0 := by omega
    rcases Nat.lt_or_ge (state.bytesWrittenPerRead+n) bytes.length with hless | hge
    · refine ⟨.next ⟨state.bytesWrittenPerRead+n,after⟩,fun fuel hfuel => ?_,⟨hless,hall⟩,?_⟩
      · rw [writeBlockTurn,hturn fuel hfuel]
        simp [hnot,hless]
      · dsimp only
        omega
    · refine ⟨.done (true,after),fun fuel hfuel => ?_,?_⟩
      · rw [writeBlockTurn,hturn fuel hfuel]
        simp [hnot,hge]
      · have hend : state.bytesWrittenPerRead+n = bytes.length := by omega
        rw [hend] at hall
        exact hall

theorem writeBlock_writes (os : List SysCall → SysAnswer) (world : CopyWorld)
    (hbuffer : get buffer 0 bytes.length = some bytes) (h : 0 < bytes.length) :
    ∃ r, BlockDone world bytes r ∧ ∀ fuel, bytes.length < fuel →
      runLoop (writeBlockTurn os buffer bytes.length fuel) fuel ⟨0,world⟩ = some r := by
  have hstart : InBlock world bytes ⟨0,world⟩ :=
    ⟨h,rfl,by rw [List.take_zero,List.append_nil],id⟩
  obtain ⟨r,hr,hruns⟩ := runLoop_rule (writeBlockTurn os buffer bytes.length) (bytes.length+1)
    (fun state => bytes.length-state.bytesWrittenPerRead) (writeBlockTurn_keeps hbuffer) hstart
  exact ⟨r,hr,fun fuel hfuel => hruns fuel fuel hfuel (by dsimp only; omega)⟩

structure Copying (source : List UInt8) (state : CopyState) : Prop where
  buffer : state.buffer.length = kCopyBufferSize
  split : state.world.destination ++ state.world.rest = source
  calls : ¬FailsAtOnce state.world.calls

def Copied (source : List UInt8) (r : Bool × CopyWorld) : Prop :=
  r.2.destination <+: source ∧
    (r.1 = true → r.2.destination = source ∧ ¬FailsAtOnce r.2.calls)

theorem BlockDone.split {source : List UInt8} {after : CopyWorld}
    (h : BlockDone world bytes (true,after))
    (hsplit : world.destination ++ (bytes ++ world.rest) = source) :
    after.destination ++ after.rest = source := by
  have hwrote : WroteTo world bytes bytes.length after := h
  rw [hwrote.destination,hwrote.rest,List.take_length,List.append_assoc,hsplit]

theorem BlockDone.part {source : List UInt8} {after : CopyWorld}
    (h : BlockDone world bytes (false,after))
    (hsplit : world.destination ++ (bytes ++ world.rest) = source) :
    after.destination <+: source := by
  obtain ⟨n,-,hdest⟩ := h
  refine ⟨bytes.drop n ++ world.rest,?_⟩
  dsimp only at hdest
  rw [hdest,← hsplit,List.append_assoc,← List.append_assoc (bytes.take n),List.take_append_drop]

theorem copyTurn_keeps {source : List UInt8} (state : CopyState) (h : Copying source state) :
    ∃ o, (∀ fuel, kCopyBufferSize+1 ≤ fuel → copyTurn os fuel state = some o) ∧
      o.Meets (fun next => Copying source next ∧
        next.world.rest.length < state.world.rest.length) (Copied source) := by
  have hpos : 0 < state.buffer.length := by
    rw [h.buffer]
    decide
  obtain ⟨⟨rv,buffer,world⟩,⟨bytes,hto,hrv⟩,hreads⟩ :=
    readAtCurrentPos_reads os state.world hpos
  dsimp only at hto hrv
  rw [h.buffer] at hto hrv hreads
  have hturn : ∀ fuel, kCopyBufferSize+1 ≤ fuel → readAtCurrentPos os fuel state.world
      state.buffer state.buffer.length = some (rv,buffer,world) := by
    intro fuel hfuel
    rw [h.buffer]
    exact hreads fuel hfuel
  have hsplit : world.destination ++ (bytes ++ world.rest) = source := by
    rw [hto.destination,← hto.rest,h.split]
  have hcalls := hto.calls h.calls
  rcases hrv with hrv | ⟨hrv,hsize,hend⟩
  · subst hrv
    refine ⟨.done (false,world),fun fuel hfuel => ?_,⟨_,hsplit⟩,fun hno => ?_⟩
    · rw [copyTurn,hturn fuel hfuel]
      rfl
    · cases hno
  · subst hrv
    rcases Nat.eq_zero_or_pos bytes.length with hzero | hlen
    · have hnil := List.length_eq_zero_iff.mp hzero
      have hnothing := hto.rest
      rw [hend hnil,hnil] at hnothing
      rw [hnil,← hnothing,List.append_nil] at hsplit
      refine ⟨.done (true,world),fun fuel hfuel => ?_,⟨[],?_⟩,fun _ => ⟨hsplit,hcalls⟩⟩
      · rw [copyTurn,hturn fuel hfuel,hzero]
        rfl
      · rw [List.append_nil]
        exact hsplit
    · obtain ⟨⟨result,after⟩,hdone,hblock⟩ := writeBlock_writes os world hto.got hlen
      have hnot : ¬(bytes.length : Int) < 0 := by omega
      have hne : ¬(bytes.length : Int) = 0 := by omega
      have hwhole : ∀ fuel, kCopyBufferSize+1 ≤ fuel → copyTurn os fuel state =
          if result then some (.next ⟨buffer,after⟩) else some (.done (false,after)) := by
        intro fuel hfuel
        rw [copyTurn,hturn fuel hfuel]
        simp only [Option.bind_eq_bind,Option.bind_some,hnot,hne,if_false,Int.toNat_natCast,
          hblock fuel (by omega)]
        rfl
      cases result with
      | true =>
        have hwrote : WroteTo world bytes bytes.length after := hdone
        refine ⟨.next ⟨buffer,after⟩,hwhole,
          ⟨hto.length,hdone.split hsplit,hwrote.calls hcalls⟩,?_⟩
        dsimp only
        rw [hwrote.rest,hto.rest,List.length_append]
        omega
      | false =>
        refine ⟨.done (false,after),hwhole,hdone.part hsplit,fun hno => ?_⟩
        cases hno

theorem copyLoop_copies (os : List SysCall → SysAnswer) (source : List UInt8) :
    ∃ r, Copied source r ∧ ∀ fuel, kCopyBufferSize+source.length < fuel →
      runLoop (copyTurn os fuel) fuel
        ⟨List.replicate kCopyBufferSize 0,⟨source,[],[]⟩⟩ = some r := by
  have hstart : Copying source ⟨List.replicate kCopyBufferSize 0,⟨source,[],[]⟩⟩ :=
    ⟨List.length_replicate,rfl,List.not_mem_nil⟩
  obtain ⟨r,hr,hruns⟩ := runLoop_rule (copyTurn os) (kCopyBufferSize+1)
    (fun state => state.world.rest.length) copyTurn_keeps hstart
  exact ⟨r,hr,fun fuel hfuel => hruns fuel fuel (by omega) (by dsimp only; omega)⟩

end copying

theorem fileIsValid_eq (path : FilePath) (opens : Bool) : ∃ valid,
    (valid = true → opens = true) ∧
    ∀ fuel, path.value.length+2 ≤ fuel → fileIsValid fuel path opens = some valid := by
  refine ⟨!decide (kParentDirectory ∈ components path.value) && opens,fun h => ?_,?_⟩
  · exact (Bool.and_eq_true_iff.mp h).2
  · intro fuel hfuel
    rw [fileIsValid,path.referencesParent_eq hfuel,Option.map_some]

/-- The copy ends; when it is said to have succeeded it is the source, and it is not when a
`WriteAtCurrentPos` has failed with its first write. -/
theorem copyFile_copies (os : List SysCall → SysAnswer) (fromPath toPath : FilePath)
    (source : Option (List UInt8)) (toOpens : Bool) (old : List UInt8) :
    ∃ result world,
      (∃ turns, ∀ fuel ≥ turns,
        copyFile os fuel fromPath toPath source toOpens old = some (result,world)) ∧
      (result = true → source = some world.destination) ∧
      (FailsAtOnce world.calls → result = false) := by
  obtain ⟨fromValid,hfromOpens,hfrom⟩ := fileIsValid_eq fromPath source.isSome
  obtain ⟨toValid,-,hto⟩ := fileIsValid_eq toPath toOpens
  obtain ⟨r,⟨-,hresult⟩,hcopies⟩ := copyLoop_copies os (source.getD [])
  have hno : ¬FailsAtOnce [] := List.not_mem_nil
  have hruns : ∀ fuel ≥ fromPath.value.length+toPath.value.length+
      kCopyBufferSize+(source.getD []).length+3,
      copyFile os fuel fromPath toPath source toOpens old =
        if fromValid && toValid then some r else some (false,⟨source.getD [],old,[]⟩) := by
    intro fuel hfuel
    rw [copyFile,hfrom fuel (by omega),hto fuel (by omega),hcopies fuel (by omega)]
    cases fromValid <;> cases toValid <;> rfl
  rcases Bool.eq_false_or_eq_true (fromValid && toValid) with hvalid | hvalid
  · rw [hvalid] at hruns
    refine ⟨r.1,r.2,⟨_,hruns⟩,fun htrue => ?_,fun hfails => ?_⟩
    · obtain ⟨content,rfl⟩ := Option.isSome_iff_exists.mp
        (hfromOpens (Bool.and_eq_true_iff.mp hvalid).1)
      rw [(hresult htrue).1]
      rfl
    · rw [← Bool.not_eq_true]
      exact fun htrue => (hresult htrue).2 hfails
  · rw [hvalid] at hruns
    refine ⟨false,_,⟨_,hruns⟩,fun htrue => ?_,fun _ => rfl⟩
    cases htrue

end MprMq.Base
