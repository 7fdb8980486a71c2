import MprMq.Base.CreateDirectory
import MprMq.Base.ReadFile
import MprMq.Lib.Scoped
set_option autoImplicit false

/-! `File` and the `ScopedFD` in it: who has to close which descriptor, over any use of files. -/

namespace MprMq.Base
open Lib

/-- The descriptors of the process. For the proofs there is beside them which of them are the
callers' to close, how many closes were of no open descriptor or of a caller's one, and whether a
`reset` was given what its object held. -/
structure FileTable where
  isOpen : Nat → Bool
  taken : Nat → Bool
  strayCloses : Nat
  aborted : Bool

def FileTable.opened (t : FileTable) (fd : Nat) : FileTable :=
  { t with isOpen := Function.update t.isOpen fd true, taken := Function.update t.taken fd true }

def FileTable.closed (t : FileTable) (fd : Nat) : FileTable :=
  { t with isOpen := Function.update t.isOpen fd false, taken := Function.update t.taken fd false }

def FileTable.give (t : FileTable) : Option Nat → FileTable
  | some fd => { t with taken := Function.update t.taken fd false }
  | none => t

def FileTable.take (t : FileTable) : Option Nat → FileTable
  | some fd => { t with taken := Function.update t.taken fd true }
  | none => t

abbrev Descriptors (F : Type) : Type := Scoped F Nat FileTable

variable {F : Type} [DecidableEq F]

namespace ScopedFD

def free (fd : Nat) (t : FileTable) : FileTable where
  isOpen := Function.update t.isOpen fd false
  taken := t.taken
  strayCloses := if t.isOpen fd && !t.taken fd then t.strayCloses else t.strayCloses+1
  aborted := t.aborted

def freeIfNecessary (s : Descriptors F) (f : F) : Descriptors F := s.giveBack free f

def reset (s : Descriptors F) (f : F) (value : Option Nat) : Descriptors F :=
  if s.held f ≠ none ∧ s.held f = value then
    { s with keeper := { s.keeper with aborted := true } }
  else
    (freeIfNecessary s f).hold f value ((freeIfNecessary s f).keeper.give value)

def release (s : Descriptors F) (f : F) : Descriptors F :=
  s.hold f none (s.keeper.take (s.held f))

end ScopedFD

/-- `error_details_` is none when it is `FILE_OK`. -/
structure FileDetails where
  errorDetails : Option FileError
  created : Bool
  async : Bool
  deriving DecidableEq

structure Files (F : Type) where
  fds : Descriptors F
  details : F → FileDetails

namespace File

def kOpen : UInt32 := 1
def kCreate : UInt32 := 2
def kOpenAlways : UInt32 := 4
def kCreateAlways : UInt32 := 8
def kOpenTruncated : UInt32 := 16
def kRead : UInt32 := 32
def kWrite : UInt32 := 64
def kAppend : UInt32 := 128
def kExclusiveRead : UInt32 := 256
def kExclusiveWrite : UInt32 := 512
def kAsync : UInt32 := 1024
def kTerminalDevice : UInt32 := 65536

def has (flags flag : UInt32) : Bool := flags &&& flag != 0

/-- The bits of `open_flags`; without any it is `O_RDONLY`. -/
structure OpenFlags where
  creat : Bool
  excl : Bool
  trunc : Bool
  wronly : Bool
  rdwr : Bool
  noctty : Bool
  ndelay : Bool
  append : Bool
  deriving DecidableEq

def kReadOnly : OpenFlags := ⟨false,false,false,false,false,false,false,false⟩

/-- `open_flags` up to the return with `FILE_ERROR_FAILED`; `none` when a `DCHECK` fails. -/
def creationFlags (flags : UInt32) : Option OpenFlags := do
  let openFlags := if has flags kCreate then { kReadOnly with creat := true,excl := true }
    else kReadOnly
  let openFlags ← if has flags kCreateAlways then
      if openFlags = kReadOnly ∧ has flags kWrite then
        some { kReadOnly with creat := true,trunc := true }
      else none
    else some openFlags
  if has flags kOpenTruncated then
    if openFlags = kReadOnly ∧ has flags kWrite then
      some { kReadOnly with creat := true,trunc := true }
    else none
  else some openFlags

def accessFlags (flags : UInt32) (openFlags : OpenFlags) : OpenFlags :=
  let openFlags := if has flags kWrite && has flags kRead then { openFlags with rdwr := true }
    else if has flags kWrite then { openFlags with wronly := true }
    else openFlags
  let openFlags := if has flags kTerminalDevice then
      { openFlags with noctty := true,ndelay := true }
    else openFlags
  if has flags kAppend && has flags kRead then { openFlags with append := true,rdwr := true }
  else if has flags kAppend then { openFlags with append := true,wronly := true }
  else openFlags

inductive OpenAnswer where
  | descriptor (fd : Nat)
  | fails (error : Errno)

/-- The first call of `open` and the second one, and whether this one has `created_` set. -/
def openFile (os : Bool → OpenFlags → OpenAnswer) (flags : UInt32) (openFlags : OpenFlags) :
    OpenAnswer × Bool :=
  match os false openFlags with
  | .descriptor fd => (.descriptor fd,false)
  | .fails error =>
    if has flags kOpenAlways then
      let openFlags := { openFlags with creat := true }
      let openFlags := if has flags kExclusiveRead || has flags kExclusiveWrite then
          { openFlags with excl := true }
        else openFlags
      match os true openFlags with
      | .descriptor fd => (.descriptor fd,true)
      | .fails error => (.fails error,false)
    else (.fails error,false)

def gain (s : Descriptors F) (fd : Nat) : Option (Descriptors F) :=
  if s.keeper.isOpen fd then none else some { s with keeper := s.keeper.opened fd }

def set (s : Files F) (f : F) (details : FileDetails) : Files F :=
  { s with details := Function.update s.details f details }

/-- A file that gets a value of the callers and its details when it is constructed. -/
def make (s : Files F) (f : F) (value : Option Nat) (details : FileDetails) : Files F where
  fds := (s.fds.construct f).hold f value (s.fds.keeper.give value)
  details := Function.update s.details f details

def close (s : Files F) (f : F) : Files F :=
  if s.fds.held f = none then s else { s with fds := ScopedFD.reset s.fds f none }

def takePlatformFile (s : Files F) (f : F) : Files F :=
  { s with fds := ScopedFD.release s.fds f }

def doInitialize (os : Bool → OpenFlags → OpenAnswer) (s : Files F) (f : F) (flags : UInt32) :
    Option (Files F) :=
  if s.fds.held f ≠ none then none
  else match creationFlags flags with
    | none => none
    | some openFlags =>
      let s := set s f { s.details f with created := false }
      if openFlags = kReadOnly ∧ !has flags kOpen ∧ !has flags kOpenAlways then
        some (set s f { s.details f with errorDetails := some .failed })
      else match openFile os flags (accessFlags flags openFlags) with
        | (.fails error,_) =>
          some (set s f { s.details f with errorDetails := some (osErrorToFileError error) })
        | (.descriptor fd,created) => do
          let fds ← gain s.fds fd
          return set { s with fds := ScopedFD.reset fds f (some fd) } f
            ⟨none,created || has flags (kCreateAlways ||| kCreate),has flags kAsync⟩

def fileInitialize (os : Bool → OpenFlags → OpenAnswer) (s : Files F) (f : F) (path : FilePath)
    (flags : UInt32) : Option (Files F) := do
  if ← path.referencesParent (path.value.length+2) then
    return set s f { s.details f with errorDetails := some .accessDenied }
  doInitialize os s f flags

/-- `none` when the `DCHECK` fails. -/
def moveAssign (s : Files F) (f other : F) : Option (Files F) :=
  if f = other then none
  else
    let s := close s f
    let value := s.fds.held other
    let s := takePlatformFile s other
    if s.fds.held f ≠ none then none
    else some (set { s with fds := ScopedFD.reset s.fds f value } f (s.details other))

def duplicate (answer : OpenAnswer) (s : Files F) (f other : F) : Option (Files F) :=
  if s.fds.held other = none then some (make s f none ⟨some .failed,false,false⟩)
  else match answer with
    | .fails error => some (make s f none ⟨some (osErrorToFileError error),false,false⟩)
    | .descriptor fd => do
      let fds ← gain s.fds fd
      return make { s with fds := fds } f (some fd) ⟨none,false,(s.details other).async⟩

end File

/-- What happens to the files; the callers open and close descriptors on their own, too. -/
inductive FileAct (F : Type) where
  | empty (f : F)
  | fromPath (f : F) (path : FilePath) (flags : UInt32)
      (os : Bool → File.OpenFlags → File.OpenAnswer)
  | fromPlatformFile (f : F) (file : Option Nat)
  | fromError (f : F) (error : Option FileError)
  | createForAsyncHandle (f : F) (file : Option Nat)
  | moveConstruct (f other : F)
  | moveAssign (f other : F)
  | fileInitialize (f : F) (path : FilePath) (flags : UInt32)
      (os : Bool → File.OpenFlags → File.OpenAnswer)
  | takePlatformFile (f : F)
  | close (f : F)
  | duplicate (f other : F) (answer : File.OpenAnswer)
  | destroy (f : F)
  | openByCaller (fd : Nat)
  | closeByCaller (fd : Nat)

def FileTable.has (t : FileTable) (value : Option Nat) : Bool := value.all t.taken

def filesStep (s : Files F) : FileAct F → Option (Files F)
  | .empty f =>
    if f ∈ s.fds.live then none else some (File.make s f none ⟨some .failed,false,false⟩)
  | .fromPath f path flags os =>
    if f ∈ s.fds.live then none
    else File.fileInitialize os (File.make s f none ⟨none,false,false⟩) f path flags
  | .fromPlatformFile f file =>
    if f ∈ s.fds.live ∨ !s.fds.keeper.has file then none
    else some (File.make s f file ⟨none,false,false⟩)
  | .fromError f error =>
    if f ∈ s.fds.live then none else some (File.make s f none ⟨error,false,false⟩)
  | .createForAsyncHandle f file =>
    if f ∈ s.fds.live ∨ !s.fds.keeper.has file then none
    else some (File.make s f file ⟨none,false,true⟩)
  | .moveConstruct f other =>
    if f ∈ s.fds.live ∨ other ∉ s.fds.live then none
    else some (File.make (File.takePlatformFile s other) f (s.fds.held other) (s.details other))
  | .moveAssign f other =>
    if f ∉ s.fds.live ∨ other ∉ s.fds.live then none else File.moveAssign s f other
  | .fileInitialize f path flags os =>
    if f ∉ s.fds.live then none else File.fileInitialize os s f path flags
  | .takePlatformFile f => if f ∉ s.fds.live then none else some (File.takePlatformFile s f)
  | .close f => if f ∉ s.fds.live then none else some (File.close s f)
  | .duplicate f other answer =>
    if f ∈ s.fds.live ∨ other ∉ s.fds.live then none else File.duplicate answer s f other
  | .destroy f =>
    if f ∉ s.fds.live then none
    else some { File.close s f with
      fds := (ScopedFD.freeIfNecessary (File.close s f).fds f).drop f }
  | .openByCaller fd => (File.gain s.fds fd).map fun fds => { s with fds := fds }
  | .closeByCaller fd =>
    if !s.fds.keeper.taken fd then none
    else some { s with fds := { s.fds with keeper := s.fds.keeper.closed fd } }

def filesSystem : System (Files F) (FileAct F) :=
  ⟨⟨⟨[],fun _ => none,⟨fun _ => false,fun _ => false,0,false⟩⟩,fun _ => ⟨some .failed,false,false⟩⟩,
    filesStep⟩

section Ownership

def FileTable.count (t : FileTable) (fd : Nat) : Nat := (t.isOpen fd && !t.taken fd).toNat

structure Owned (s : Descriptors F) : Prop where
  balanced : s.Balanced FileTable.count
  strayCloses : s.keeper.strayCloses = 0
  aborted : s.keeper.aborted = false
  taken : ∀ fd, s.keeper.taken fd = true → s.keeper.isOpen fd = true

namespace Owned
variable {s t : Descriptors F} {f : F} {fd : Nat} {value : Option Nat}

omit [DecidableEq F] in
theorem held (h : Owned s) (hf : f ∈ s.live) (hheld : s.held f = some fd) :
    s.keeper.isOpen fd = true ∧ s.keeper.taken fd = false := by
  have hpos := h.balanced.count_pos hf hheld
  simpa [FileTable.count,Nat.pos_iff_ne_zero] using hpos

theorem construct (h : Owned s) (hf : f ∉ s.live) : Owned (s.construct f) :=
  ⟨h.balanced.construct hf,h.strayCloses,h.aborted,h.taken⟩

theorem freeIfNecessary (h : Owned s) (hf : f ∈ s.live) :
    Owned (ScopedFD.freeIfNecessary s f) := by
  have hbalanced : (ScopedFD.freeIfNecessary s f).Balanced FileTable.count := by
    refine h.balanced.giveBack hf fun fd hheld _ x => ?_
    obtain ⟨hopen,htaken⟩ := h.held hf hheld
    by_cases hx : x = fd
    · subst hx
      simp [FileTable.count,ScopedFD.free,hopen,htaken]
    · simp [FileTable.count,ScopedFD.free,Function.update_of_ne hx,Ne.symm hx]
  unfold ScopedFD.freeIfNecessary Scoped.giveBack at hbalanced ⊢
  cases hheld : s.held f with
  | none => exact h
  | some fd =>
    rw [hheld] at hbalanced
    obtain ⟨hopen,htaken⟩ := h.held hf hheld
    refine ⟨hbalanced,?_,h.aborted,fun x hx => ?_⟩
    · show (if s.keeper.isOpen fd && !s.keeper.taken fd then _ else _) = 0
      rw [hopen,htaken]
      exact h.strayCloses
    · have hne : x ≠ fd := fun e => Bool.noConfusion (htaken.symm.trans (e ▸ hx))
      exact (Function.update_of_ne hne _ _).trans (h.taken x hx)

theorem hold (h : Owned s) (hf : f ∈ s.live) (hnone : s.held f = none)
    (hvalue : s.keeper.has value = true) : Owned (s.hold f value (s.keeper.give value)) := by
  cases value with
  | none =>
    exact ⟨h.balanced.hold hf fun x => by simp [hnone,FileTable.give],h.strayCloses,h.aborted,
      h.taken⟩
  | some fd =>
    have htaken : s.keeper.taken fd = true := hvalue
    refine ⟨h.balanced.take hf hnone fun x => ?_,h.strayCloses,h.aborted,fun x hx => ?_⟩
    · by_cases hx : x = fd
      · subst hx
        simp [FileTable.count,FileTable.give,htaken,h.taken x htaken]
      · simp [FileTable.count,FileTable.give,Function.update_of_ne hx,Ne.symm hx]
    · by_cases heq : x = fd
      · exact heq ▸ h.taken fd htaken
      · exact h.taken x ((Function.update_of_ne heq _ _).symm.trans hx)

theorem release (h : Owned s) (hf : f ∈ s.live) : Owned (ScopedFD.release s f) := by
  unfold ScopedFD.release
  cases hheld : s.held f with
  | none =>
    exact ⟨h.balanced.hold hf fun x => by simp [hheld,FileTable.take],h.strayCloses,h.aborted,
      h.taken⟩
  | some fd =>
    obtain ⟨hopen,htaken⟩ := h.held hf hheld
    refine ⟨h.balanced.hold hf fun x => ?_,h.strayCloses,h.aborted,fun x hx => ?_⟩
    · by_cases hx : x = fd
      · subst hx
        simp [FileTable.count,FileTable.take,hheld,hopen,htaken]
      · simp [FileTable.count,FileTable.take,hheld,Function.update_of_ne hx,Ne.symm hx]
    · by_cases heq : x = fd
      · exact heq ▸ hopen
      · exact h.taken x ((Function.update_of_ne heq _ _).symm.trans hx)

omit [DecidableEq F] in
theorem gain (h : Owned s) (hgain : File.gain s fd = some t) :
    Owned t ∧ t.live = s.live ∧ t.held = s.held ∧ t.keeper.taken fd = true := by
  obtain ⟨hopen,⟨⟩⟩ := Option.ite_none_left_eq_some.mp hgain
  have hclosed : s.keeper.isOpen fd = false := by simpa using hopen
  refine ⟨⟨⟨h.balanced.nodup,fun x => (h.balanced.count x).trans ?_⟩,h.strayCloses,h.aborted,?_⟩,
    rfl,rfl,Function.update_self _ _ _⟩
  · by_cases hx : x = fd
    · subst hx
      simp [FileTable.count,FileTable.opened,hclosed]
    · simp [FileTable.count,FileTable.opened,Function.update_of_ne hx]
  · intro x hx
    by_cases heq : x = fd
    · exact heq ▸ Function.update_self _ _ _
    · exact (Function.update_of_ne heq _ _).trans
        (h.taken x ((Function.update_of_ne heq _ _).symm.trans hx))

theorem drop (h : Owned s) (hf : f ∈ s.live) : Owned ((ScopedFD.freeIfNecessary s f).drop f) := by
  have hfreed := h.freeIfNecessary hf
  exact ⟨hfreed.balanced.drop (by simpa [ScopedFD.freeIfNecessary] using hf)
    (by simp [ScopedFD.freeIfNecessary]),hfreed.strayCloses,hfreed.aborted,hfreed.taken⟩

/-- `reset` does not come to its `abort`. -/
theorem reset (h : Owned s) (hf : f ∈ s.live) (hvalue : s.keeper.has value = true) :
    Owned (ScopedFD.reset s f value) := by
  have hother : ¬(s.held f ≠ none ∧ s.held f = value) := by
    rintro ⟨hsome,rfl⟩
    obtain ⟨fd,hheld⟩ := Option.ne_none_iff_exists'.mp hsome
    rw [hheld] at hvalue
    exact Bool.noConfusion ((h.held hf hheld).2.symm.trans hvalue)
  have hkept : (ScopedFD.freeIfNecessary s f).keeper.has value = true := by
    unfold ScopedFD.freeIfNecessary Scoped.giveBack
    cases s.held f with
    | none => exact hvalue
    | some fd => exact hvalue
  rw [ScopedFD.reset,if_neg hother]
  exact (h.freeIfNecessary hf).hold (by simpa [ScopedFD.freeIfNecessary] using hf)
    (by simp [ScopedFD.freeIfNecessary]) hkept

omit [DecidableEq F] in
theorem closeByCaller (h : Owned s) (htaken : s.keeper.taken fd = true) :
    Owned { s with keeper := s.keeper.closed fd } := by
  refine ⟨⟨h.balanced.nodup,fun x => (h.balanced.count x).trans ?_⟩,h.strayCloses,h.aborted,?_⟩
  · by_cases hx : x = fd
    · subst hx
      simp [FileTable.count,FileTable.closed,htaken]
    · simp [FileTable.count,FileTable.closed,Function.update_of_ne hx]
  · intro x hx
    by_cases heq : x = fd
    · exact Bool.noConfusion ((Function.update_self _ _ _).symm.trans (heq ▸ hx))
    · exact (Function.update_of_ne heq _ _).trans
        (h.taken x ((Function.update_of_ne heq _ _).symm.trans hx))

end Owned

@[simp] theorem ScopedFD.reset_live (s : Descriptors F) (f : F) (value : Option Nat) :
    (ScopedFD.reset s f value).live = s.live := by
  unfold ScopedFD.reset
  split
  case isTrue => rfl
  case isFalse => exact Scoped.giveBack_live _ s f

theorem ScopedFD.release_has (s : Descriptors F) (f : F) :
    (ScopedFD.release s f).keeper.has (s.held f) = true := by
  show (s.keeper.take (s.held f)).has (s.held f) = true
  cases s.held f with
  | none => rfl
  | some fd => exact Function.update_self _ _ _

namespace File
variable {s t : Files F} {f other : F}

theorem owned_make (h : Owned s.fds) (hf : f ∉ s.fds.live) {value : Option Nat}
    (hvalue : s.fds.keeper.has value = true) (details : FileDetails) :
    Owned (make s f value details).fds :=
  (h.construct hf).hold List.mem_cons_self (Function.update_self _ _ _) hvalue

@[simp] theorem close_live (s : Files F) (f : F) : (close s f).fds.live = s.fds.live := by
  unfold close
  split
  case isTrue => rfl
  case isFalse => exact ScopedFD.reset_live _ _ _

theorem owned_close (h : Owned s.fds) (hf : f ∈ s.fds.live) : Owned (close s f).fds := by
  unfold close
  split
  case isTrue => exact h
  case isFalse => exact h.reset hf rfl

theorem owned_doInitialize {os : Bool → OpenFlags → OpenAnswer} {flags : UInt32}
    (h : Owned s.fds) (hf : f ∈ s.fds.live) (hstep : doInitialize os s f flags = some t) :
    Owned t.fds := by
  unfold doInitialize at hstep
  split at hstep
  case isTrue => cases hstep
  case isFalse =>
    split at hstep
    case h_1 => cases hstep
    case h_2 openFlags hcreation =>
      dsimp only at hstep
      split at hstep
      case isTrue => exact Option.some.inj hstep ▸ h
      case isFalse =>
        split at hstep
        case h_1 => exact Option.some.inj hstep ▸ h
        case h_2 fd created hopened =>
          obtain ⟨fds,hgain,hreset⟩ := Option.bind_eq_some_iff.mp hstep
          obtain ⟨howned,hlive,-,htaken⟩ := h.gain hgain
          exact Option.some.inj hreset ▸ howned.reset (hlive ▸ hf) htaken

theorem owned_fileInitialize {os : Bool → OpenFlags → OpenAnswer} {path : FilePath}
    {flags : UInt32} (h : Owned s.fds) (hf : f ∈ s.fds.live)
    (hstep : fileInitialize os s f path flags = some t) : Owned t.fds := by
  obtain ⟨refersUp,-,hstep⟩ := Option.bind_eq_some_iff.mp hstep
  cases refersUp with
  | true => exact Option.some.inj hstep ▸ h
  | false => exact owned_doInitialize h hf hstep

theorem owned_moveAssign (h : Owned s.fds) (hf : f ∈ s.fds.live) (hother : other ∈ s.fds.live)
    (hstep : moveAssign s f other = some t) : Owned t.fds := by
  obtain ⟨-,hstep⟩ := Option.ite_none_left_eq_some.mp hstep
  obtain ⟨-,⟨⟩⟩ := Option.ite_none_left_eq_some.mp hstep
  have hreleased : Owned (ScopedFD.release (close s f).fds other) :=
    (owned_close h hf).release (by simpa using hother)
  refine hreleased.reset ?_ (ScopedFD.release_has _ _)
  show f ∈ (close s f).fds.live
  simpa using hf

theorem owned_duplicate {answer : OpenAnswer} (h : Owned s.fds) (hf : f ∉ s.fds.live)
    (hstep : duplicate answer s f other = some t) : Owned t.fds := by
  unfold duplicate at hstep
  split at hstep
  case isTrue => exact Option.some.inj hstep ▸ owned_make h hf rfl _
  case isFalse =>
    split at hstep
    case h_1 => exact Option.some.inj hstep ▸ owned_make h hf rfl _
    case h_2 fd =>
      obtain ⟨fds,hgain,hmake⟩ := Option.bind_eq_some_iff.mp hstep
      obtain ⟨howned,hlive,-,htaken⟩ := h.gain hgain
      exact Option.some.inj hmake ▸ owned_make (s := { s with fds := fds })
        howned (hlive ▸ hf)
        (show FileTable.has _ (some fd) = true from htaken) _

end File

theorem owned_step {s t : Files F} {act : FileAct F} (h : Owned s.fds)
    (hstep : filesStep s act = some t) : Owned t.fds := by
  cases act with
  | empty f =>
    obtain ⟨hf,⟨⟩⟩ := Option.ite_none_left_eq_some.mp hstep
    exact File.owned_make h hf rfl _
  | fromPath f path flags os =>
    obtain ⟨hf,hstep⟩ := Option.ite_none_left_eq_some.mp hstep
    exact File.owned_fileInitialize (File.owned_make h hf rfl _) List.mem_cons_self hstep
  | fromPlatformFile f file =>
    obtain ⟨hf,⟨⟩⟩ := Option.ite_none_left_eq_some.mp hstep
    rw [not_or] at hf
    exact File.owned_make h hf.1 (by simpa using hf.2) _
  | fromError f error =>
    obtain ⟨hf,⟨⟩⟩ := Option.ite_none_left_eq_some.mp hstep
    exact File.owned_make h hf rfl _
  | createForAsyncHandle f file =>
    obtain ⟨hf,⟨⟩⟩ := Option.ite_none_left_eq_some.mp hstep
    rw [not_or] at hf
    exact File.owned_make h hf.1 (by simpa using hf.2) _
  | moveConstruct f other =>
    obtain ⟨hlive,⟨⟩⟩ := Option.ite_none_left_eq_some.mp hstep
    rw [not_or,not_not] at hlive
    have hreleased : Owned (File.takePlatformFile s other).fds := h.release hlive.2
    exact File.owned_make hreleased hlive.1 (ScopedFD.release_has _ _) _
  | moveAssign f other =>
    obtain ⟨hlive,hstep⟩ := Option.ite_none_left_eq_some.mp hstep
    rw [not_or,not_not,not_not] at hlive
    exact File.owned_moveAssign h hlive.1 hlive.2 hstep
  | fileInitialize f path flags os =>
    obtain ⟨hf,hstep⟩ := Option.ite_none_left_eq_some.mp hstep
    exact File.owned_fileInitialize h (not_not.mp hf) hstep
  | takePlatformFile f =>
    obtain ⟨hf,⟨⟩⟩ := Option.ite_none_left_eq_some.mp hstep
    exact h.release (not_not.mp hf)
  | close f =>
    obtain ⟨hf,⟨⟩⟩ := Option.ite_none_left_eq_some.mp hstep
    exact File.owned_close h (not_not.mp hf)
  | duplicate f other answer =>
    obtain ⟨hlive,hstep⟩ := Option.ite_none_left_eq_some.mp hstep
    rw [not_or] at hlive
    exact File.owned_duplicate h hlive.1 hstep
  | destroy f =>
    obtain ⟨hf,⟨⟩⟩ := Option.ite_none_left_eq_some.mp hstep
    exact (File.owned_close h (not_not.mp hf)).drop (by simpa using not_not.mp hf)
  | openByCaller fd =>
    obtain ⟨fds,hgain,rfl⟩ := Option.map_eq_some_iff.mp hstep
    exact (h.gain hgain).1
  | closeByCaller fd =>
    obtain ⟨htaken,⟨⟩⟩ := Option.ite_none_left_eq_some.mp hstep
    exact h.closeByCaller (by simpa using htaken)

theorem owned_run {acts : List (FileAct F)} {s : Files F}
    (hrun : filesSystem.run acts = some s) : Owned s.fds :=
  System.Inductive.run (I := fun s : Files F => Owned s.fds)
    ⟨⟨⟨List.nodup_nil,fun _ => rfl⟩,rfl,rfl,fun _ h => h⟩,fun _ _ _ h hstep => owned_step h hstep⟩
    hrun

/-- Every open descriptor is a caller's or has one file that closes it, never both; no file closes
another's descriptor, and none that is closed. -/
theorem files_closeTheirOwn {acts : List (FileAct F)} {s : Files F}
    (hrun : filesSystem.run acts = some s) :
    s.fds.keeper.strayCloses = 0 ∧ s.fds.keeper.aborted = false ∧
    (∀ fd, s.fds.keeper.isOpen fd = true ↔
      s.fds.keeper.taken fd = true ∨ ∃ f ∈ s.fds.live, s.fds.held f = some fd) ∧
    (∀ fd, ∀ f ∈ s.fds.live, s.fds.held f = some fd → s.fds.keeper.taken fd = false) ∧
    ∀ fd, ∀ f ∈ s.fds.live, ∀ f' ∈ s.fds.live,
      s.fds.held f = some fd → s.fds.held f' = some fd → f = f' := by
  have h := owned_run hrun
  refine ⟨h.strayCloses,h.aborted,fun fd => ⟨fun hopen => ?_,?_⟩,fun fd f hf hheld => ?_,?_⟩
  · by_cases htaken : s.fds.keeper.taken fd = true
    · exact Or.inl htaken
    · have hcount : s.fds.holders fd = 1 := by
        rw [h.balanced.count fd,FileTable.count,hopen,Bool.eq_false_iff.mpr htaken]
        rfl
      have hpos : 0 < s.fds.holders fd := by omega
      obtain ⟨f,hf,hheld⟩ := population_pos.mp hpos
      exact Or.inr ⟨f,hf,by simpa using hheld⟩
  · rintro (htaken | ⟨f,hf,hheld⟩)
    · exact h.taken fd htaken
    · exact (h.held hf hheld).1
  · exact (h.held hf hheld).2
  · intro fd f hf f' hf' hheld hother
    have hone : s.fds.keeper.count fd ≤ 1 := Bool.toNat_le _
    exact h.balanced.unique hone hf hf' hheld hother

/-- A duplicate is moved over the file it was made of; its descriptor is taken out of it. -/
def movedFile : List (FileAct Nat) :=
  [.openByCaller 3,.fromPlatformFile 0 (some 3),.duplicate 1 0 (.descriptor 4),.moveAssign 0 1,
    .takePlatformFile 0,.destroy 0,.fileInitialize 1 ⟨['m'],by decide⟩ (File.kOpen ||| File.kRead)
      fun _ _ => .descriptor 3]

theorem files_movedFile : ∃ s : Files Nat, filesSystem.run movedFile = some s ∧
    s.fds.keeper.strayCloses = 0 ∧ s.fds.keeper.aborted = false ∧
    (∀ fd, s.fds.keeper.isOpen fd = true ↔
      s.fds.keeper.taken fd = true ∨ ∃ f ∈ s.fds.live, s.fds.held f = some fd) ∧
    (∀ fd, ∀ f ∈ s.fds.live, s.fds.held f = some fd → s.fds.keeper.taken fd = false) ∧
    ∀ fd, ∀ f ∈ s.fds.live, ∀ f' ∈ s.fds.live,
      s.fds.held f = some fd → s.fds.held f' = some fd → f = f' := by
  have hrun : (filesSystem.run movedFile).isSome := by decide
  obtain ⟨s,hs⟩ := Option.isSome_iff_exists.mp hrun
  exact ⟨s,hs,files_closeTheirOwn hs⟩

end Ownership

end MprMq.Base
