import MprMq.Base.CopyFile
set_option autoImplicit false

/-! `WriteFile` and `AppendToFile`, over any way in which the system splits the writes, fails and
closes the files. -/

namespace MprMq.Base
open Lib Lib.Buffer

/-- What the system makes of one call: whether it opens the file, what it makes of each write, and
whether `close` succeeds. -/
structure WriteAnswers where
  opens : Bool
  writes : Nat → SysAnswer
  closes : Bool

structure DescriptorState where
  bytesWrittenTotal : Nat
  calls : Nat
  content : List UInt8

def writeFileDecriptorTurn (os : Nat → SysAnswer) (data : List UInt8) (size : Int)
    (state : DescriptorState) : Option (Turn DescriptorState (Bool × List UInt8)) := do
  if state.bytesWrittenTotal < size then
    let bytes ← get data state.bytesWrittenTotal (size.toNat-state.bytesWrittenTotal)
    match os state.calls with
    | .fails => return .done (false,state.content)
    | .upTo n =>
      let bytesWrittenPartial := served n bytes.length
      return .next ⟨state.bytesWrittenTotal+bytesWrittenPartial,state.calls+1,
        state.content ++ bytes.take bytesWrittenPartial⟩
  else return .done (true,state.content)

def writeFileDecriptor (os : Nat → SysAnswer) (fuel : Nat) (content data : List UInt8)
    (size : Int) : Option (Bool × List UInt8) :=
  runLoop (writeFileDecriptorTurn os data size) fuel ⟨0,0,content⟩

/-- `WriteFile`: what it returns, and the file afterwards, which is `none` when there is none. -/
def writeFile (os : WriteAnswers) (fuel : Nat) (file : Option (List UInt8)) (data : List UInt8)
    (size : Int) : Option (Int × Option (List UInt8)) := do
  if !os.opens then return (-1,file)
  let (written,content) ← writeFileDecriptor os.writes fuel [] data size
  let bytesWritten := if written then size else -1
  if !os.closes then return (-1,some content)
  return (bytesWritten,some content)

/-- `AppendToFile`, which makes no file. -/
def appendToFile (os : WriteAnswers) (fuel : Nat) (file : Option (List UInt8))
    (data : List UInt8) (size : Int) : Option (Bool × Option (List UInt8)) := do
  let some content := file | return (false,file)
  if !os.opens then return (false,file)
  let (written,content) ← writeFileDecriptor os.writes fuel content data size
  return (written && os.closes,some content)

section Descriptor
variable {os : Nat → SysAnswer} {content data : List UInt8} {size : Int}

/-- The data is written up to a place, and if it is written up to less than its end, this is
reported. -/
def DescriptorDone (content data : List UInt8) (size : Int) (r : Bool × List UInt8) : Prop :=
  ∃ n, n ≤ size.toNat ∧ r.2 = content ++ data.take n ∧ (r.1 = true ↔ n = size.toNat)

def DescriptorWriting (content data : List UInt8) (size : Int) (state : DescriptorState) : Prop :=
  state.bytesWrittenTotal ≤ size.toNat ∧
    state.content = content ++ data.take state.bytesWrittenTotal

theorem writeFileDecriptorTurn_keeps (hsize : size.toNat ≤ data.length) (state : DescriptorState)
    (h : DescriptorWriting content data size state) :
    ∃ o, writeFileDecriptorTurn os data size state = some o ∧
      o.Meets (fun next => DescriptorWriting content data size next ∧
        size.toNat-next.bytesWrittenTotal < size.toNat-state.bytesWrittenTotal)
        (DescriptorDone content data size) := by
  obtain ⟨hle,hcontent⟩ := h
  unfold writeFileDecriptorTurn
  split
  case isFalse hdone =>
    have hall : state.bytesWrittenTotal = size.toNat := by omega
    exact ⟨_,rfl,state.bytesWrittenTotal,hle,hcontent,iff_of_true rfl hall⟩
  case isTrue hmore =>
    have hget : get data state.bytesWrittenTotal (size.toNat-state.bytesWrittenTotal) =
        some ((data.drop state.bytesWrittenTotal).take (size.toNat-state.bytesWrittenTotal)) :=
      if_pos (by omega)
    have hlen := length_of_get hget
    rw [hget,Option.bind_eq_bind,Option.bind_some,hlen]
    cases os state.calls with
    | fails =>
      exact ⟨_,rfl,state.bytesWrittenTotal,hle,hcontent,iff_of_false Bool.false_ne_true (by omega)⟩
    | upTo n =>
      have hserved : served n (size.toNat-state.bytesWrittenTotal) ≤
          size.toNat-state.bytesWrittenTotal := Nat.min_le_right _ _
      have hpos : 0 < served n (size.toNat-state.bytesWrittenTotal) := by
        unfold served
        omega
      refine ⟨_,rfl,⟨by dsimp only; omega,?_⟩,by dsimp only; omega⟩
      rw [hcontent,List.take_take,Nat.min_eq_left hserved,List.append_assoc,← List.take_add]

theorem writeFileDecriptor_writes (os : Nat → SysAnswer) (content : List UInt8)
    (hsize : size.toNat ≤ data.length) :
    ∃ r, DescriptorDone content data size r ∧ ∀ fuel, size.toNat < fuel →
      writeFileDecriptor os fuel content data size = some r := by
  have hstart : DescriptorWriting content data size ⟨0,0,content⟩ :=
    ⟨Nat.zero_le _,by rw [List.take_zero,List.append_nil]⟩
  obtain ⟨r,hr,hruns⟩ := runLoop_simple (writeFileDecriptorTurn os data size)
    (fun state => size.toNat-state.bytesWrittenTotal) (writeFileDecriptorTurn_keeps hsize) hstart
  exact ⟨r,hr,fun fuel hfuel => hruns fuel (by dsimp only; omega)⟩

end Descriptor

structure FileWrite where
  path : FilePath
  append : Bool
  data : List UInt8
  size : Int
  os : WriteAnswers

abbrev Contents : Type := FilePath → Option (List UInt8)

def FileWrite.run (fuel : Nat) (c : FileWrite) (file : Option (List UInt8)) :
    Option (Bool × Option (List UInt8)) :=
  if c.append then appendToFile c.os fuel file c.data c.size
  else (writeFile c.os fuel file c.data c.size).map fun r => (r.1 ≠ -1,r.2)

def writeRun (fuel : Nat) : List FileWrite → Contents → Option (List Bool × Contents)
  | [], disk => some ([],disk)
  | c :: rest, disk => do
    let (reported,file) ← c.run fuel (disk c.path)
    let (results,disk) ← writeRun fuel rest (Function.update disk c.path file)
    return (reported :: results,disk)

section Runs

/-- A call that has written up to a place, or has not come to its file. -/
structure CutWrite where
  call : FileWrite
  cut : Option Nat
  reported : Bool

def CutWrite.file (w : CutWrite) (old : Option (List UInt8)) : Option (List UInt8) :=
  match w.cut with
  | none => old
  | some n => some ((if w.call.append then old.getD [] else []) ++ w.call.data.take n)

def CutWrite.leave (disk : Contents) (w : CutWrite) : Contents :=
  Function.update disk w.call.path (w.file (disk w.call.path))

/-- What is reported as written has been written to its end. -/
def CutWrite.Sound (w : CutWrite) : Prop :=
  (∀ n, w.cut = some n → n ≤ w.call.size.toNat) ∧
  (w.reported = true → w.cut = some w.call.size.toNat)

theorem CutWrite.sound_refused (c : FileWrite) : CutWrite.Sound ⟨c,none,false⟩ := by
  refine ⟨fun n h => ?_,fun h => ?_⟩
  · cases h
  · cases h

theorem writeFile_cut (os : WriteAnswers) (file : Option (List UInt8)) {data : List UInt8}
    {size : Int} (h : size ≤ data.length) :
    ∃ r : Int × Option (List UInt8), (∀ fuel : Nat, size.toNat < fuel →
        writeFile os fuel file data size = some r) ∧
      (os.opens = false ∧ r = (-1,file) ∨
        ∃ n ≤ size.toNat, r.2 = some (data.take n) ∧ (r.1 = -1 ∨ r.1 = size ∧ n = size.toNat)) := by
  cases hopens : os.opens with
  | false => exact ⟨(-1,file),fun fuel _ => by rw [writeFile,hopens]; rfl,Or.inl ⟨rfl,rfl⟩⟩
  | true =>
    obtain ⟨⟨written,content⟩,⟨n,hn,hcontent,hwritten⟩,hruns⟩ :=
      writeFileDecriptor_writes os.writes [] (by omega : size.toNat ≤ data.length)
    rw [List.nil_append] at hcontent
    dsimp only at hcontent hwritten
    refine ⟨(if os.closes then if written then size else -1 else -1,some content),
      fun fuel hfuel => ?_,Or.inr ⟨n,hn,congrArg some hcontent,?_⟩⟩
    · rw [writeFile,hopens,hruns fuel (by omega)]
      cases os.closes with
      | false => rfl
      | true => rfl
    · cases os.closes with
      | false => exact Or.inl rfl
      | true =>
        cases written with
        | false => exact Or.inl rfl
        | true => exact Or.inr ⟨rfl,hwritten.mp rfl⟩

theorem appendToFile_cut (os : WriteAnswers) (file : Option (List UInt8)) {data : List UInt8}
    {size : Int} (h : size ≤ data.length) :
    ∃ r : Bool × Option (List UInt8), (∀ fuel : Nat, size.toNat < fuel →
        appendToFile os fuel file data size = some r) ∧
      (r = (false,file) ∨ ∃ n ≤ size.toNat, r.2 = some (file.getD [] ++ data.take n) ∧
        (r.1 = true → n = size.toNat)) := by
  cases file with
  | none => exact ⟨(false,none),fun _ _ => rfl,Or.inl rfl⟩
  | some old =>
    cases hopens : os.opens with
    | false => exact ⟨(false,some old),fun fuel _ => by rw [appendToFile,hopens]; rfl,Or.inl rfl⟩
    | true =>
      obtain ⟨⟨written,content⟩,⟨n,hn,hcontent,hwritten⟩,hruns⟩ :=
        writeFileDecriptor_writes os.writes old (by omega : size.toNat ≤ data.length)
      refine ⟨(written && os.closes,some content),fun fuel hfuel => ?_,
        Or.inr ⟨n,hn,congrArg some hcontent,fun hreported => ?_⟩⟩
      · rw [appendToFile,hopens,hruns fuel (by omega)]
        rfl
      · exact hwritten.mp (Bool.and_eq_true_iff.mp hreported).1

theorem FileWrite.run_cut (c : FileWrite) (file : Option (List UInt8))
    (h : c.size ≤ c.data.length) :
    ∃ w : CutWrite, w.call = c ∧ w.Sound ∧
      ∀ fuel : Nat, c.size.toNat < fuel → c.run fuel file = some (w.reported,w.file file) := by
  cases happend : c.append with
  | true =>
    obtain ⟨⟨reported,content⟩,hruns,hrefused | ⟨n,hn,hcontent,hall⟩⟩ :=
      appendToFile_cut c.os file h
    · refine ⟨⟨c,none,false⟩,rfl,CutWrite.sound_refused c,fun fuel hfuel => ?_⟩
      rw [FileWrite.run,if_pos happend,hruns fuel hfuel,hrefused]
      rfl
    · refine ⟨⟨c,some n,reported⟩,rfl,⟨fun m hm => ?_,fun h => congrArg some (hall h)⟩,
        fun fuel hfuel => ?_⟩
      · cases hm
        exact hn
      · rw [FileWrite.run,if_pos happend,hruns fuel hfuel,CutWrite.file]
        dsimp only at hcontent ⊢
        rw [hcontent,if_pos happend]
  | false =>
    have hrun : ∀ fuel, c.run fuel file =
        (writeFile c.os fuel file c.data c.size).map fun r => (decide (r.1 ≠ -1),r.2) :=
      fun fuel => if_neg (by rw [happend]; decide)
    obtain ⟨⟨bytesWritten,content⟩,hruns,⟨-,hrefused⟩ | ⟨n,hn,hcontent,hall⟩⟩ :=
      writeFile_cut c.os file h
    · refine ⟨⟨c,none,false⟩,rfl,CutWrite.sound_refused c,fun fuel hfuel => ?_⟩
      rw [hrun,hruns fuel hfuel,hrefused]
      rfl
    · refine ⟨⟨c,some n,decide (bytesWritten ≠ -1)⟩,rfl,⟨fun m hm => ?_,fun h => ?_⟩,
        fun fuel hfuel => ?_⟩
      · cases hm
        exact hn
      · have hne : bytesWritten ≠ -1 := of_decide_eq_true h
        rcases hall with hfails | ⟨-,hall⟩
        · exact absurd hfails hne
        · exact congrArg some hall
      · rw [hrun,hruns fuel hfuel,CutWrite.file]
        dsimp only at hcontent ⊢
        rw [hcontent,if_neg (by rw [happend]; decide),List.nil_append]
        rfl

/-- Whatever the system does, the files are as if each call had written its data up to a place at
once, after the calls before it: to the end if it reports that it has written. -/
theorem writeRun_cuts (disk : Contents) {calls : List FileWrite} {fuel : Nat}
    (hcalls : ∀ c ∈ calls, c.size ≤ c.data.length ∧ c.size.toNat < fuel) :
    ∃ writes : List CutWrite, writes.map CutWrite.call = calls ∧
      (∀ w ∈ writes, w.Sound) ∧ writeRun fuel calls disk =
        some (writes.map CutWrite.reported,writes.foldl CutWrite.leave disk) := by
  induction calls generalizing disk with
  | nil => exact ⟨[],rfl,by simp,rfl⟩
  | cons c rest ih =>
    obtain ⟨hle,hfuel⟩ := hcalls c List.mem_cons_self
    obtain ⟨w,rfl,hsound,hrun⟩ := c.run_cut (disk c.path) hle
    obtain ⟨writes,hmap,hall,hruns⟩ := ih (w.leave disk)
      fun c hc => hcalls c (List.mem_cons_of_mem _ hc)
    refine ⟨w :: writes,by rw [List.map_cons,hmap],?_,?_⟩
    · intro w' hw'
      rcases List.mem_cons.mp hw' with rfl | hw'
      · exact hsound
      · exact hall w' hw'
    · rw [writeRun,hrun fuel hfuel]
      show (writeRun fuel rest (w.leave disk)).bind _ = _
      rw [hruns]
      rfl

def twoWrites : List FileWrite :=
  [⟨⟨['a'],by decide⟩,false,[1,2,3],3,⟨true,fun _ => .upTo 2,true⟩⟩,
    ⟨⟨['a'],by decide⟩,true,[4,5],2,
      ⟨true,fun calls => if calls = 0 then .upTo 1 else .fails,true⟩⟩]

theorem writeRun_twoWrites : ∃ writes : List CutWrite, writes.map CutWrite.call = twoWrites ∧
    (∀ w ∈ writes, w.Sound) ∧ writeRun 4 twoWrites (fun _ => none) =
      some (writes.map CutWrite.reported,writes.foldl CutWrite.leave fun _ => none) :=
  writeRun_cuts (fun _ => none) (by decide)

end Runs

end MprMq.Base
