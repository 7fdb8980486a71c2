import MprMq.Base.Numerals
import MprMq.Base.Time
import MprMq.Db.ConnectionInfo
import MprMq.Lib.Access
set_option autoImplicit false

/-! The results of the two statement classes, and which columns their accessors take. -/

namespace MprMq.Db
open Lib

abbrev Field := Option Text

/-- A MYSQL_RES, whose rows are as wide as it has fields. -/
structure MysqlRes where
  fields : List Text
  rows : List (List Field)
  wide : ∀ row ∈ rows, row.length = fields.length

/-- The libraries that texts are read with: `strtof` and `strtod` with the place where they stop,
and the seconds `mktime` makes of what `strptime` has read. -/
structure Readers (Float Double : Type) where
  strtof : Text → Float × Nat
  strtod : Text → Double × Nat
  strptime : Text → Option Int

inductive FetchType where
  | int16
  | uint16
  | int32
  | uint32
  | int64
  | uint64
  | float
  | double
  | string
  | stream
  | time
  deriving DecidableEq

inductive Fetched (Float Double : Type) where
  | int (v : Int)
  | float (v : Float)
  | double (v : Double)
  | text (v : Text)
  | time (v : Base.Time)

section read
variable {Float Double : Type}

def cString (text : Text) : Text := text.takeWhile (· != '\x00')

def safeStrto {α : Type} (strto : Text → α × Nat) (text : Text) : Bool × α :=
  let str := cString text
  let (value,stop) := strto str
  let rest := if stop = 0 then str else (str.drop stop).dropWhile Base.asciiIsSpace
  (str ≠ [] ∧ rest = [],value)

/-- A conversion to an integer type by way of `strto`; the outcome is cast. -/
def readInt (strto : Text → Int → Option (Bool × Int)) (cast : Int → Int) (text : Text) :
    Access (Bool × Option (Fetched Float Double)) :=
  match strto text 10 with
  | none => .error .overflow
  | some (ret,v) => .ok (ret,some (.int (cast v)))

def parseTimeString (readers : Readers Float Double) (text : Text) :
    Access (Bool × Option (Fetched Float Double)) :=
  if cString text = [] then .ok (false,none)
  else match readers.strptime (cString text) with
    | none => .ok (false,none)
    | some sec => match Base.Time.fromTimeval ⟨sec,0⟩ with
      | none => .error .overflow
      | some t => .ok (true,some (.time t))

/-- What a Fetch overload makes of the text of a column: what it returns, and what it stores. -/
def FetchType.read (readers : Readers Float Double) (text : Text) :
    FetchType → Access (Bool × Option (Fetched Float Double))
  | .int16 => readInt Base.safeStrto32Base (Int.bmod · (2^16)) text
  | .uint16 => readInt Base.safeStrtou32Base (· % 2^16) text
  | .int32 => readInt Base.safeStrto32Base id text
  | .uint32 => readInt Base.safeStrtou32Base id text
  | .int64 => readInt Base.safeStrto64Base id text
  | .uint64 => readInt Base.safeStrtou64Base id text
  | .float =>
    .ok ((safeStrto readers.strtof text).1,some (.float (safeStrto readers.strtof text).2))
  | .double =>
    .ok ((safeStrto readers.strtod text).1,some (.double (safeStrto readers.strtod text).2))
  | .string => .ok (true,some (.text text))
  | .stream => .ok (true,some (.text text))
  | .time => parseTimeString readers text

/-- A Fetch of a column that has been reached. -/
def FetchType.finish (readers : Readers Float Double) (kind : FetchType) :
    Field → Access (Bool × Option (Fetched Float Double))
  | none => .ok (false,none)
  | some text => kind.read readers text

end read

def nameLoop (fields : List Text) (name : Text) (i : Nat) : Nat → Access Int
  | 0 => .ok (-1)
  | n+1 => do
    let field ← index fields i
    if name = field then .ok i else nameLoop fields name (i+1) n

structure MysqlDirectResult where
  nativeResult : Option MysqlRes
  columns : Int
  currentRow : UInt32
  nativeRow : Option (List Field)
  /-- The rows that `mysql_fetch_row` has not got to. -/
  ahead : List (List Field)

/-- What `mysql_store_result` gives, or else the field count. -/
inductive StoreReply where
  | stored (res : MysqlRes)
  | nothing (fieldCount : Nat)

namespace MysqlDirectResult
variable {Float Double : Type}

def new : StoreReply → Access MysqlDirectResult
  | .stored res => .ok ⟨some res,res.fields.length,0,none,res.rows⟩
  | .nothing fieldCount => do
    check (fieldCount ≠ 0)
    .ok ⟨none,fieldCount,0,none,[]⟩

/-- Whether a row has been fetched, and the result. -/
def next (r : MysqlDirectResult) : Bool × MysqlDirectResult :=
  match r.nativeResult with
  | none => (false,r)
  | some _ => (r.ahead ≠ [],
    { r with currentRow := r.currentRow+1, nativeRow := r.ahead.head?, ahead := r.ahead.tail })

def hasNext (r : MysqlDirectResult) : Bool :=
  match r.nativeResult with
  | none => false
  | some res => r.currentRow.toNat < res.rows.length

def field (r : MysqlDirectResult) (col : Int) : Access Field := index (r.nativeRow.getD []) col

def atColumn (r : MysqlDirectResult) (col : Int) : Access Field := do
  check (r.nativeResult.isSome)
  check (0 ≤ col ∧ col < r.columns)
  r.field col

def atLength (r : MysqlDirectResult) (col : Int) : Access Field := do
  check (r.nativeResult.isSome)
  check (0 < col ∧ col < r.columns)
  check (r.nativeRow.isSome)
  r.field col

def fetch (readers : Readers Float Double) (kind : FetchType) (col : Int)
    (r : MysqlDirectResult) : Access (Bool × Option (Fetched Float Double)) := do
  kind.finish readers (← r.atLength col)

def isNull (r : MysqlDirectResult) (col : Int) : Access Bool := do
  .ok (← r.atColumn col).isNone

def columnToName (r : MysqlDirectResult) (col : Int) : Access Text := do
  check (0 ≤ col ∧ col ≤ r.columns)
  match r.nativeResult with
  | none => .error .check
  | some res => index res.fields col

def nameToColumn (r : MysqlDirectResult) (name : Text) : Access Int :=
  match r.nativeResult with
  | none => .error .check
  | some res => nameLoop res.fields name 0 r.columns.toNat

end MysqlDirectResult

/-- A column's buffers in a prepared result: whether it is NULL, and the bytes behind `ptr`. -/
structure BindData where
  isNull : Bool
  value : Text

structure MysqlPreparedResult where
  columns : Int
  metadata : List Text
  currentRow : UInt32
  bindData : List BindData
  ahead : List (List Field)
  /-- What `mysql_stmt_num_rows` gives. -/
  numRows : Nat

namespace MysqlPreparedResult
variable {Float Double : Type}

def new (res : MysqlRes) : MysqlPreparedResult :=
  ⟨res.fields.length,res.fields,0,[],res.rows,res.rows.length⟩

def reset (p : MysqlPreparedResult) : MysqlPreparedResult :=
  { p with bindData := List.replicate p.columns.toNat ⟨false,[]⟩ }

/-- A value too long for its buffer is fetched once more into one of its own length. -/
def next (p : MysqlPreparedResult) : Bool × MysqlPreparedResult :=
  match p.ahead with
  | [] => (false,{ p.reset with currentRow := p.currentRow+1 })
  | row :: ahead => (true,{ p with
      currentRow := p.currentRow+1
      bindData := row.map fun field => ⟨field.isNone,field.getD []⟩
      ahead := ahead })

def hasNext (p : MysqlPreparedResult) : Bool := p.currentRow.toNat < p.numRows

def atColumn (p : MysqlPreparedResult) (col : Int) : Access BindData := do
  check (0 ≤ col ∧ col < p.columns)
  check (p.bindData ≠ [])
  index p.bindData col

def fetch (readers : Readers Float Double) (kind : FetchType) (col : Int)
    (p : MysqlPreparedResult) : Access (Bool × Option (Fetched Float Double)) := do
  let bindData ← p.atColumn col
  if bindData.isNull then .ok (false,none) else kind.read readers bindData.value

def isNull (p : MysqlPreparedResult) (col : Int) : Access Bool := do
  .ok (← p.atColumn col).isNull

def columnToName (p : MysqlPreparedResult) (col : Int) : Access Text := do
  check (0 ≤ col ∧ col < p.columns)
  index p.metadata col

def nameToColumn (p : MysqlPreparedResult) (name : Text) : Access Int :=
  nameLoop p.metadata name 0 p.columns.toNat

end MysqlPreparedResult

structure Accessors (Float Double : Type) where
  columns : Int
  fetch : FetchType → Int → Access (Bool × Option (Fetched Float Double))
  isNull : Int → Access Bool
  columnToName : Int → Access Text
  nameToColumn : Text → Access Int

section columns
variable {Float Double : Type}

def MysqlDirectResult.accessors (readers : Readers Float Double) (r : MysqlDirectResult) :
    Accessors Float Double :=
  ⟨r.columns,fun kind col => r.fetch readers kind col,r.isNull,r.columnToName,r.nameToColumn⟩

def MysqlPreparedResult.accessors (readers : Readers Float Double) (p : MysqlPreparedResult) :
    Accessors Float Double :=
  ⟨p.columns,fun kind col => p.fetch readers kind col,p.isNull,p.columnToName,p.nameToColumn⟩

/-- All accessors take a column just when it is one of the result, and read nothing else. -/
structure Accessors.AgreeAt (a : Accessors Float Double) (col : Int) : Prop where
  fetch : ∀ kind, Passes (a.fetch kind col) ↔ 0 ≤ col ∧ col < a.columns
  isNull : Passes (a.isNull col) ↔ 0 ≤ col ∧ col < a.columns
  columnToName : Passes (a.columnToName col) ↔ 0 ≤ col ∧ col < a.columns
  inside : (∀ kind, Inside (a.fetch kind col)) ∧ Inside (a.isNull col) ∧
    Inside (a.columnToName col)

/-- A column that has been found by its name can be fetched. -/
def Accessors.Usable (a : Accessors Float Double) (name : Text) : Prop :=
  ∃ i, a.nameToColumn name = .ok i ∧ (0 ≤ i → i < a.columns ∧
    (∀ kind, Passes (a.fetch kind i) ∧ Inside (a.fetch kind i)) ∧
    Passes (a.isNull i) ∧ Inside (a.isNull i))

theorem FetchType.read_passes (readers : Readers Float Double) (text : Text) (kind : FetchType) :
    Passes (kind.read readers text) ∧ Inside (kind.read readers text) := by
  have hint (strto : Text → Int → Option (Bool × Int)) (cast : Int → Int) :
      Passes (readInt strto cast text : Access (Bool × Option (Fetched Float Double))) ∧
        Inside (readInt strto cast text : Access (Bool × Option (Fetched Float Double))) := by
    unfold readInt Passes Inside
    split <;> simp
  have htime : Passes (parseTimeString readers text) ∧ Inside (parseTimeString readers text) := by
    unfold parseTimeString Passes Inside
    split
    · simp
    split
    · simp
    split <;> simp
  cases kind with
  | int16 => exact hint _ _
  | uint16 => exact hint _ _
  | int32 => exact hint _ _
  | uint32 => exact hint _ _
  | int64 => exact hint _ _
  | uint64 => exact hint _ _
  | float => exact ⟨ok_passes _,ok_inside _⟩
  | double => exact ⟨ok_passes _,ok_inside _⟩
  | string => exact ⟨ok_passes _,ok_inside _⟩
  | stream => exact ⟨ok_passes _,ok_inside _⟩
  | time => exact htime

/-- The loop stops at the first field of that name, or behind the last. -/
theorem nameLoop_eq (fields : List Text) (name : Text) (n : Nat) {i : Nat}
    (h : i+n ≤ fields.length) : ∃ k, nameLoop fields name i n = .ok k ∧ (0 ≤ k → k < i+n) := by
  induction n generalizing i with
  | zero => exact ⟨-1,rfl,fun h => absurd h (by decide)⟩
  | succ n ih =>
    obtain ⟨field,hfield,-⟩ := index_ok (l := fields) (i := i) (by omega) (by omega)
    rw [nameLoop,hfield]
    by_cases hname : name = field
    · exact ⟨i,if_pos hname,by omega⟩
    · obtain ⟨k,hk,hlt⟩ := ih (i := i+1) (by omega)
      exact ⟨k,(if_neg hname).trans hk,by omega⟩

/-- The results whose last Next has fetched a row. -/
inductive DirectRow (res : MysqlRes) : MysqlDirectResult → Prop where
  | first {start r : MysqlDirectResult} : MysqlDirectResult.new (.stored res) = .ok start →
    start.next = (true,r) → DirectRow res r
  | next {r r' : MysqlDirectResult} : DirectRow res r → r.next = (true,r') → DirectRow res r'

inductive PreparedRow (res : MysqlRes) : MysqlPreparedResult → Prop where
  | first {p : MysqlPreparedResult} : (MysqlPreparedResult.new res).next = (true,p) →
    PreparedRow res p
  | next {p p' : MysqlPreparedResult} : PreparedRow res p → p.next = (true,p') →
    PreparedRow res p'

structure Stored (res : MysqlRes) (r : MysqlDirectResult) : Prop where
  nativeResult : r.nativeResult = some res
  columns : r.columns = res.fields.length
  ahead : ∀ row ∈ r.ahead, row.length = res.fields.length

theorem Stored.next {res : MysqlRes} {r r' : MysqlDirectResult} (h : Stored res r)
    (hnext : r.next = (true,r')) : Stored res r' ∧
      ∃ row, r'.nativeRow = some row ∧ row.length = res.fields.length := by
  unfold MysqlDirectResult.next at hnext
  rw [h.nativeResult] at hnext
  have hahead := h.ahead
  cases hrows : r.ahead with
  | nil => simp [hrows] at hnext
  | cons row rest =>
    rw [hrows] at hnext hahead
    cases hnext
    refine ⟨⟨rfl,h.columns,?_⟩,row,rfl,hahead row List.mem_cons_self⟩
    exact fun row' hrow' => hahead row' (List.mem_cons_of_mem row hrow')

theorem DirectRow.stored {res : MysqlRes} {r : MysqlDirectResult} (h : DirectRow res r) :
    Stored res r ∧ ∃ row, r.nativeRow = some row ∧ row.length = res.fields.length := by
  induction h with
  | first hnew hnext =>
    cases hnew
    exact Stored.next ⟨rfl,rfl,res.wide⟩ hnext
  | next _ hnext ih => exact ih.1.next hnext

theorem FetchType.finish_passes (readers : Readers Float Double) (kind : FetchType)
    (field : Field) : Passes (kind.finish readers field) ∧ Inside (kind.finish readers field) := by
  cases field with
  | none => exact ⟨ok_passes _,ok_inside _⟩
  | some text => exact kind.read_passes readers text

section direct
variable {res : MysqlRes} {r : MysqlDirectResult} {row : List Field}

theorem Stored.atLength_eq (h : Stored res r) (hrow : r.nativeRow = some row) (col : Int) :
    r.atLength col = guarded (0 < col ∧ col < r.columns) row col .ok := by
  simp only [MysqlDirectResult.atLength,MysqlDirectResult.field,h.nativeResult,hrow,guarded,
    check_bind,Option.isSome_some,if_true,Option.getD_some]
  split
  · cases index row col <;> rfl
  · rfl

theorem Stored.atColumn_eq (h : Stored res r) (hrow : r.nativeRow = some row) (col : Int) :
    r.atColumn col = guarded (0 ≤ col ∧ col < r.columns) row col .ok := by
  simp only [MysqlDirectResult.atColumn,MysqlDirectResult.field,h.nativeResult,hrow,guarded,
    check_bind,Option.isSome_some,if_true,Option.getD_some]
  split
  · cases index row col <;> rfl
  · rfl

theorem Stored.columnToName_eq (h : Stored res r) (col : Int) : r.columnToName col =
    if 0 ≤ col ∧ col ≤ r.columns then index res.fields col else .error .check := by
  rw [MysqlDirectResult.columnToName,check_bind,h.nativeResult]

variable (h : Stored res r) (hrow : r.nativeRow = some row)
  (hlength : row.length = res.fields.length)
include h hrow hlength

theorem Stored.fetch_passes (readers : Readers Float Double) (kind : FetchType) (col : Int) :
    (Passes (r.fetch readers kind col) ↔ 0 < col ∧ col < r.columns) ∧
      Inside (r.fetch readers kind col) := by
  have hcolumns := h.columns
  rw [MysqlDirectResult.fetch,h.atLength_eq hrow,guarded_bind]
  exact guarded_passes (fun hcol => by omega) (kind.finish_passes readers)

theorem Stored.isNull_passes (col : Int) :
    (Passes (r.isNull col) ↔ 0 ≤ col ∧ col < r.columns) ∧ Inside (r.isNull col) := by
  have hcolumns := h.columns
  rw [MysqlDirectResult.isNull,h.atColumn_eq hrow,guarded_bind]
  exact guarded_passes (fun hcol => by omega) fun field => ⟨ok_passes _,ok_inside _⟩

theorem Stored.agreeAt_iff (readers : Readers Float Double) (col : Int) :
    (r.accessors readers).AgreeAt col ↔ col ≠ 0 ∧ col ≠ r.columns := by
  have hfetch := h.fetch_passes hrow hlength readers
  have hnull := h.isNull_passes hrow hlength col
  have hname := h.columnToName_eq col
  have hcolumns := h.columns
  constructor
  · intro hagree
    have hinside := hagree.inside.2.2
    have hpasses := hagree.fetch .string
    simp only [MysqlDirectResult.accessors,hname,(hfetch .string col).1] at hinside hpasses
    have hend : col ≠ r.columns := by
      rintro rfl
      rw [if_pos (by omega),index_outside (.inr (by omega))] at hinside
      exact hinside rfl
    exact ⟨by omega,hend⟩
  · rintro ⟨hzero,hend⟩
    have hcheck : (0 < col ∧ col < r.columns) ↔ 0 ≤ col ∧ col < r.columns := by omega
    have hread : (Passes (r.columnToName col) ↔ 0 ≤ col ∧ col < r.columns) ∧
        Inside (r.columnToName col) := by
      rw [hname]
      split
      · obtain ⟨v,hv,-⟩ := index_ok (l := res.fields) (i := col) (by omega) (by omega)
        rw [hv]
        exact ⟨iff_of_true (ok_passes v) (by omega),ok_inside v⟩
      · exact ⟨iff_of_false check_not_passes (by omega),check_inside⟩
    exact ⟨fun kind => (hfetch kind col).1.trans hcheck,hnull.1,hread.1,
      fun kind => (hfetch kind col).2,hnull.2,hread.2⟩

theorem Stored.usable_iff (readers : Readers Float Double) (name : Text) :
    (r.accessors readers).Usable name ↔ r.nameToColumn name ≠ .ok 0 := by
  have hfetch := h.fetch_passes hrow hlength readers
  have hcolumns := h.columns
  obtain ⟨k,hk,hlt⟩ := nameLoop_eq res.fields name r.columns.toNat (i := 0) (by omega)
  have hname : r.nameToColumn name = .ok k := by
    rw [MysqlDirectResult.nameToColumn,h.nativeResult]
    exact hk
  have hzero : (Except.ok k : Access Int) ≠ .ok 0 ↔ k ≠ 0 := by simp
  rw [hname,hzero]
  constructor
  · rintro ⟨i,hi,husable⟩ rfl
    cases hname.symm.trans hi
    have hpasses := ((husable (by decide)).2.1 .string).1
    have hfirst := (hfetch .string 0).1.mp hpasses
    omega
  · intro hne
    refine ⟨k,hname,fun hpos => ?_⟩
    have hk := hlt hpos
    have hcol : 0 < k ∧ k < r.columns := by omega
    have hnull := h.isNull_passes hrow hlength k
    exact ⟨hcol.2,fun kind => ⟨(hfetch kind k).1.mpr hcol,(hfetch kind k).2⟩,
      hnull.1.mpr (by omega),hnull.2⟩

end direct

section prepared
variable {res : MysqlRes} {p : MysqlPreparedResult}

structure Executed (res : MysqlRes) (p : MysqlPreparedResult) : Prop where
  columns : p.columns = res.fields.length
  metadata : p.metadata = res.fields
  ahead : ∀ row ∈ p.ahead, row.length = res.fields.length

theorem Executed.next {p' : MysqlPreparedResult} (h : Executed res p)
    (hnext : p.next = (true,p')) : Executed res p' ∧ p'.bindData.length = res.fields.length := by
  unfold MysqlPreparedResult.next at hnext
  have hahead := h.ahead
  split at hnext
  · cases hnext
  · rename_i row rest hrows
    rw [hrows] at hahead
    cases hnext
    refine ⟨⟨h.columns,h.metadata,?_⟩,?_⟩
    · exact fun row' hrow' => hahead row' (List.mem_cons_of_mem row hrow')
    · rw [List.length_map]
      exact hahead row List.mem_cons_self

theorem PreparedRow.executed (h : PreparedRow res p) :
    Executed res p ∧ p.bindData.length = res.fields.length := by
  induction h with
  | first hnext => exact Executed.next ⟨rfl,rfl,res.wide⟩ hnext
  | next _ hnext ih => exact ih.1.next hnext

theorem Executed.atColumn_eq (h : Executed res p) (hlength : p.bindData.length = res.fields.length)
    (col : Int) :
    p.atColumn col = guarded (0 ≤ col ∧ col < p.columns) p.bindData col .ok := by
  have hcolumns := h.columns
  simp only [MysqlPreparedResult.atColumn,guarded,check_bind]
  split
  · have hne : p.bindData ≠ [] := List.ne_nil_of_length_pos (by omega)
    rw [if_pos hne]
    cases index p.bindData col <;> rfl
  · rfl

variable (h : Executed res p) (hlength : p.bindData.length = res.fields.length)
include h hlength

theorem Executed.fetch_passes (readers : Readers Float Double) (kind : FetchType) (col : Int) :
    (Passes (p.fetch readers kind col) ↔ 0 ≤ col ∧ col < p.columns) ∧
      Inside (p.fetch readers kind col) := by
  have hcolumns := h.columns
  rw [MysqlPreparedResult.fetch,h.atColumn_eq hlength,guarded_bind]
  refine guarded_passes (fun hcol => by omega) fun bindData => ?_
  split
  · exact ⟨ok_passes _,ok_inside _⟩
  · exact kind.read_passes readers bindData.value

theorem Executed.isNull_passes (col : Int) :
    (Passes (p.isNull col) ↔ 0 ≤ col ∧ col < p.columns) ∧ Inside (p.isNull col) := by
  have hcolumns := h.columns
  rw [MysqlPreparedResult.isNull,h.atColumn_eq hlength,guarded_bind]
  exact guarded_passes (fun hcol => by omega) fun bindData => ⟨ok_passes _,ok_inside _⟩

theorem Executed.agreeAt (readers : Readers Float Double) (col : Int) :
    (p.accessors readers).AgreeAt col := by
  have hcolumns := h.columns
  have hfetch := fun kind => h.fetch_passes hlength readers kind col
  have hnull := h.isNull_passes hlength col
  have hname : (Passes (p.columnToName col) ↔ 0 ≤ col ∧ col < p.columns) ∧
      Inside (p.columnToName col) := by
    rw [MysqlPreparedResult.columnToName,h.metadata,check_bind]
    split
    · obtain ⟨v,hv,-⟩ := index_ok (l := res.fields) (i := col) (by omega) (by omega)
      rw [hv]
      exact ⟨iff_of_true (ok_passes v) ‹_›,ok_inside v⟩
    · exact ⟨iff_of_false check_not_passes ‹_›,check_inside⟩
  exact ⟨fun kind => (hfetch kind).1,hnull.1,hname.1,fun kind => (hfetch kind).2,hnull.2,hname.2⟩

theorem Executed.usable (readers : Readers Float Double) (name : Text) :
    (p.accessors readers).Usable name := by
  have hcolumns := h.columns
  obtain ⟨k,hk,hlt⟩ := nameLoop_eq p.metadata name p.columns.toNat (i := 0)
    (by rw [h.metadata]; omega)
  refine ⟨k,hk,fun hpos => ?_⟩
  have hbound := hlt hpos
  have hcol : 0 ≤ k ∧ k < p.columns := by omega
  have hfetch := fun kind => h.fetch_passes hlength readers kind k
  have hnull := h.isNull_passes hlength k
  exact ⟨hcol.2,fun kind => ⟨(hfetch kind).1.mpr hcol,(hfetch kind).2⟩,hnull.1.mpr hcol,hnull.2⟩

end prepared

/-- The accessors of a direct result agree on all columns but the first and the one behind the
last; those of a prepared one on all. -/
theorem result_columns (readers : Readers Float Double) (res : MysqlRes) :
    (∀ r, DirectRow res r →
      (∀ col, (r.accessors readers).AgreeAt col ↔ col ≠ 0 ∧ col ≠ r.columns) ∧
      ∀ name, (r.accessors readers).Usable name ↔ r.nameToColumn name ≠ .ok 0) ∧
    ∀ p, PreparedRow res p →
      (∀ col, (p.accessors readers).AgreeAt col) ∧ ∀ name, (p.accessors readers).Usable name := by
  constructor
  · intro r hr
    obtain ⟨h,row,hrow,hlength⟩ := hr.stored
    exact ⟨h.agreeAt_iff hrow hlength readers,h.usable_iff hrow hlength readers⟩
  · intro p hp
    obtain ⟨h,hlength⟩ := hp.executed
    exact ⟨h.agreeAt hlength readers,h.usable hlength readers⟩

end columns

def noReaders : Readers Unit Unit := ⟨fun _ => ((),0),fun _ => ((),0),fun _ => none⟩

def twoColumns : MysqlRes := ⟨[['i','d'],['n']],[[some ['7'],none]],by decide⟩

theorem second_column_agrees : ∃ r, DirectRow twoColumns r ∧ r.columns = 2 ∧
    (r.accessors noReaders).AgreeAt 1 ∧ (r.accessors noReaders).Usable ['n'] := by
  refine ⟨_,.first rfl rfl,rfl,?_,?_⟩
  · exact (((result_columns noReaders twoColumns).1 _ (.first rfl rfl)).1 1).mpr (by decide)
  · exact (((result_columns noReaders twoColumns).1 _ (.first rfl rfl)).2 ['n']).mpr (by decide)

/-- The first column is found by its name and then refused; the name behind the last is read. -/
theorem first_column_refused : ∃ r, DirectRow twoColumns r ∧ r.columns = 2 ∧
    r.nameToColumn ['i','d'] = .ok 0 ∧ r.isNull 0 = .ok false ∧
    (∀ kind, r.fetch noReaders kind 0 = .error .check) ∧
    r.columnToName 2 = .error .outside := by
  exact ⟨_,.first rfl rfl,rfl,rfl,rfl,fun _ => rfl,rfl⟩

end MprMq.Db
