import MprMq.Db.MysqlDirectResult
import MprMq.Lib.Buffer
import Mathlib.Data.List.Forall2
set_option autoImplicit false

/-! The buffers behind a prepared result, and the values that are read from them. -/

namespace MprMq.Db
open Lib

def kBindDataBufferLength : Nat := 128

abbrev Buf := { bytes : Text // bytes.length = kBindDataBufferLength }

inductive Block where
  | buf
  | vbuf
  deriving DecidableEq

structure BoundData where
  buf : Buf
  vbuf : Text
  ptr : Block
  length : Nat
  isNull : Bool
  error : Bool

structure Bind where
  buffer : Block
  bufferLength : Nat

structure Bound where
  bind : Bind
  data : BoundData

/-- What a new BindData finds in the buffer of each column, which nothing initializes. -/
abbrev Leftover := Nat → Buf

/-- What a call of `mysql_stmt_fetch` comes to: the code 0, MYSQL_DATA_TRUNCATED, MYSQL_NO_DATA or
1, with the row it has delivered. -/
inductive FetchReply where
  | row (fields : List Field)
  | truncated (fields : List Field)
  | noData
  | error

def FetchReply.fields : FetchReply → List Field
  | .row fields => fields
  | .truncated fields => fields
  | .noData => []
  | .error => []

/-- The reply for a row, which tells whether a value is longer than its buffer. -/
def deliver (fields : List Field) : FetchReply :=
  if ∃ field ∈ fields, kBindDataBufferLength < (field.getD []).length then .truncated fields
  else .row fields

namespace BoundData

def put (data : BoundData) (bytes : Text) : Block → Access BoundData
  | .buf =>
    match h : Buffer.put data.buf.1 0 bytes with
    | some buf => .ok { data with buf := ⟨buf,(Buffer.put_length h).trans data.buf.2⟩ }
    | none => .error .outside
  | .vbuf =>
    match Buffer.put data.vbuf 0 bytes with
    | some vbuf => .ok { data with vbuf := vbuf }
    | none => .error .outside

/-- What the client library does to a bound column, from the offset 0. -/
def fill (data : BoundData) (bind : Bind) : Field → Access BoundData
  | none => .ok { data with isNull := true }
  | some value => do
    let data ← data.put (value.take bind.bufferLength) bind.buffer
    .ok { data with
      length := value.length, isNull := false, error := bind.bufferLength < value.length }

def resizeVbuf (data : BoundData) (length : Nat) : BoundData :=
  { data with vbuf := data.vbuf.take length ++ List.replicate (length-data.vbuf.length) '\x00' }

def block (data : BoundData) : Block → Text
  | .buf => data.buf
  | .vbuf => data.vbuf

def value (data : BoundData) : Access Text :=
  if data.length ≤ (data.block data.ptr).length then
    .ok ((data.block data.ptr).take data.length)
  else .error .outside

end BoundData

def Bound.refetch (bound : Bound) (field : Field) : Access Bound :=
  if bound.data.error ∧ ¬ bound.data.isNull ∧ kBindDataBufferLength ≤ bound.data.length then do
    let bind : Bind := ⟨.vbuf,bound.data.length⟩
    let data ← (bound.data.resizeVbuf bound.data.length).fill bind field
    .ok ⟨bind,{ data with ptr := .vbuf }⟩
  else .ok bound

def overRow (f : Bound → Field → Access Bound) : List Bound → List Field → Access (List Bound)
  | b :: bounds, field :: fields => do
    let b ← f b field
    let bounds ← overRow f bounds fields
    .ok (b :: bounds)
  | bounds, _ => .ok bounds

structure PreparedBuffers where
  columns : Int
  metadata : List Text
  currentRow : UInt32
  bounds : List Bound
  numRows : Nat

namespace PreparedBuffers
variable {Float Double : Type}

def new (res : MysqlRes) : PreparedBuffers :=
  ⟨res.fields.length,res.fields,0,[],res.rows.length⟩

def reset (leftover : Leftover) (p : PreparedBuffers) : PreparedBuffers :=
  { p with bounds := (List.range p.columns.toNat).map fun i =>
    ⟨⟨.buf,kBindDataBufferLength⟩,⟨leftover i,[],.buf,0,false,false⟩⟩ }

def next (leftover : Leftover) (reply : FetchReply) (p : PreparedBuffers) :
    Access (Bool × PreparedBuffers) := do
  let p := { p.reset leftover with currentRow := p.currentRow+1 }
  let bounds ← overRow (fun b field => do .ok ⟨b.bind,← b.data.fill b.bind field⟩)
    p.bounds reply.fields
  match reply with
  | .noData => .ok (false,{ p with bounds := bounds })
  | .truncated fields => do
    let bounds ← overRow Bound.refetch bounds fields
    .ok (true,{ p with bounds := bounds })
  | .row _ => .ok (true,{ p with bounds := bounds })
  | .error => .ok (true,{ p with bounds := bounds })

def hasNext (p : PreparedBuffers) : Bool := p.currentRow.toNat < p.numRows

def atColumn (p : PreparedBuffers) (col : Int) : Access BoundData := do
  check (0 ≤ col ∧ col < p.columns)
  check (p.bounds ≠ [])
  .ok (← index p.bounds col).data

def fetch (readers : Readers Float Double) (kind : FetchType) (col : Int)
    (p : PreparedBuffers) : Access (Bool × Option (Fetched Float Double)) := do
  let data ← p.atColumn col
  if data.isNull then .ok (false,none) else kind.read readers (← data.value)

def isNull (p : PreparedBuffers) (col : Int) : Access Bool := do
  .ok (← p.atColumn col).isNull

end PreparedBuffers

/-- The NULL or the bytes of a field, and no others, are behind the pointers of its column. -/
structure BoundData.Shows (data : BoundData) (field : Field) : Prop where
  isNull : data.isNull = field.isNone
  value : data.value = .ok (field.getD [])
  vbuf : data.vbuf = [] ∨ data.vbuf = field.getD []

/-- All columns that At takes show what the row has there. -/
def PreparedBuffers.Shows (p : PreparedBuffers) (row : List Field) : Prop :=
  ∀ (col : Nat) (field : Field), row[col]? = some field →
    ∃ data, p.atColumn col = .ok data ∧ data.Shows field

def Bound.Fresh (b : Bound) : Prop :=
  b.bind = ⟨.buf,kBindDataBufferLength⟩ ∧ ∃ buf, b.data = ⟨buf,[],.buf,0,false,false⟩

def Bound.Filled (b : Bound) : Field → Prop
  | none => ∃ buf, b.data = ⟨buf,[],.buf,0,true,false⟩
  | some value => ∃ buf : Buf,
    b.data = ⟨buf,[],.buf,value.length,false,kBindDataBufferLength < value.length⟩ ∧
      (value.length ≤ kBindDataBufferLength → buf.1.take value.length = value)

namespace BoundData

theorem put_buf (data : BoundData) {bytes : Text} (h : bytes.length ≤ kBindDataBufferLength) :
    ∃ buf : Buf, data.put bytes .buf = .ok { data with buf := buf } ∧
      buf.1.take bytes.length = bytes := by
  have hlength : bytes.length ≤ data.buf.1.length := by
    rw [data.buf.2]
    exact h
  have hput := Buffer.put_at_start hlength
  refine ⟨⟨_,(Buffer.put_length hput).trans data.buf.2⟩,?_,List.take_left⟩
  simp only [put]
  split
  · rename_i heq
    cases heq.symm.trans hput
    rfl
  · rename_i heq
    cases heq.symm.trans hput

/-- A fetch into a `vbuf` of the value's own length. -/
theorem fill_vbuf (data : BoundData) {value : Text} (h : data.vbuf.length = value.length) :
    data.fill ⟨.vbuf,value.length⟩ (some value) = .ok { data with
      vbuf := value, length := value.length, isNull := false, error := false } := by
  have hput : data.put value .vbuf = .ok { data with vbuf := value } := by
    rw [put,Buffer.put_at_start h.ge,← h,List.drop_length,List.append_nil]
  simp only [fill,List.take_length,hput,Nat.lt_irrefl,decide_false]
  rfl

theorem resizeVbuf_length (data : BoundData) (length : Nat) :
    (data.resizeVbuf length).vbuf.length = length := by
  simp only [resizeVbuf,List.length_append,List.length_take,List.length_replicate]
  omega

end BoundData

theorem Bound.Fresh.fill {b : Bound} (h : b.Fresh) (field : Field) :
    ∃ data, b.data.fill b.bind field = .ok data ∧ Bound.Filled ⟨b.bind,data⟩ field := by
  obtain ⟨hbind,buf,hdata⟩ := h
  rw [hbind,hdata]
  cases field with
  | none => exact ⟨_,rfl,buf,rfl⟩
  | some value =>
    have hlength : (value.take kBindDataBufferLength).length ≤ kBindDataBufferLength := by
      rw [List.length_take]
      omega
    obtain ⟨buf',hput,htake⟩ := BoundData.put_buf ⟨buf,[],.buf,0,false,false⟩ hlength
    refine ⟨_,?_,buf',rfl,fun hshort => ?_⟩
    · simp only [BoundData.fill,hput]
      rfl
    · rwa [List.take_of_length_le hshort] at htake

/-- A field that has fitted is shown where it is. -/
theorem Bound.Filled.shows {b : Bound} {field : Field} (h : b.Filled field)
    (hshort : (field.getD []).length ≤ kBindDataBufferLength) : b.data.Shows field := by
  cases field with
  | none =>
    obtain ⟨buf,hdata⟩ := h
    rw [hdata]
    exact ⟨rfl,rfl,.inl rfl⟩
  | some value =>
    obtain ⟨buf,hdata,htake⟩ := h
    rw [hdata]
    refine ⟨rfl,?_,.inl rfl⟩
    have hlength : value.length ≤ buf.1.length := by rw [buf.2]; exact hshort
    simp only [BoundData.value,BoundData.block,if_pos hlength,Option.getD_some,htake hshort]

theorem Bound.Filled.refetch {b : Bound} {field : Field} (h : b.Filled field) :
    ∃ b', b.refetch field = .ok b' ∧ b'.data.Shows field := by
  by_cases hshort : (field.getD []).length ≤ kBindDataBufferLength
  · have hshows := h.shows hshort
    refine ⟨b,if_neg ?_,hshows⟩
    rintro ⟨herror,hnull,-⟩
    cases field with
    | none => exact hnull hshows.isNull
    | some value =>
      obtain ⟨buf,hdata,-⟩ := h
      rw [hdata] at herror
      exact absurd (of_decide_eq_true herror) (Nat.not_lt.mpr hshort)
  · cases field with
    | none => exact absurd (Nat.zero_le _) hshort
    | some value =>
      obtain ⟨buf,hdata,-⟩ := h
      have hlong : kBindDataBufferLength < value.length := Nat.not_le.mp hshort
      have hfill := (b.data.resizeVbuf value.length).fill_vbuf
        (BoundData.resizeVbuf_length b.data value.length)
      have hguard : b.data.error ∧ ¬ b.data.isNull ∧ kBindDataBufferLength ≤ b.data.length := by
        simp [hdata,hlong,hlong.le]
      refine ⟨⟨⟨.vbuf,value.length⟩,⟨buf,value,.vbuf,value.length,false,false⟩⟩,?_,rfl,?_,.inr rfl⟩
      · have hlength : b.data.length = value.length := by rw [hdata]
        rw [Bound.refetch,if_pos hguard]
        simp only [hlength,hfill]
        simp only [BoundData.resizeVbuf,hdata]
        rfl
      · simp [BoundData.value,BoundData.block]

section rows

/-- What is done to each column on its own is done to all of them. -/
theorem overRow_ok {f : Bound → Field → Access Bound} {P Q : Bound → Field → Prop}
    (h : ∀ b field, P b field → ∃ b', f b field = .ok b' ∧ Q b' field) {bounds : List Bound}
    {fields : List Field} (hP : List.Forall₂ P bounds fields) :
    ∃ bounds', overRow f bounds fields = .ok bounds' ∧ List.Forall₂ Q bounds' fields := by
  induction hP with
  | nil => exact ⟨[],rfl,.nil⟩
  | cons hb _ ih =>
    obtain ⟨b',hf,hQ⟩ := h _ _ hb
    obtain ⟨bounds',hrest,hQs⟩ := ih
    refine ⟨b' :: bounds',?_,.cons hQ hQs⟩
    simp only [overRow,hf,hrest]
    rfl

variable {p : PreparedBuffers} {row : List Field}

theorem reset_fresh (leftover : Leftover) (h : p.columns = row.length) :
    List.Forall₂ (fun b _ => b.Fresh) (p.reset leftover).bounds row := by
  refine List.forall₂_of_length_eq_of_get ?_ fun i hi _ => ?_
  · simp [PreparedBuffers.reset,h]
  · simp only [PreparedBuffers.reset,List.get_eq_getElem,List.getElem_map]
    exact ⟨rfl,_,rfl⟩

theorem atColumn_eq {col : Nat} (hcol : col < p.bounds.length)
    (hcolumns : (col : Int) < p.columns) :
    p.atColumn col = .ok p.bounds[col].data := by
  obtain ⟨b,hindex,hget⟩ := index_ok (l := p.bounds) (i := col) (by omega) (by omega)
  have hb : p.bounds[col] = b := by
    rwa [Int.toNat_natCast,List.getElem?_eq_getElem hcol,Option.some.injEq] at hget
  have hne : p.bounds ≠ [] := List.ne_nil_of_length_pos (by omega)
  rw [PreparedBuffers.atColumn,check_bind,if_pos (by omega),check_bind,if_pos hne,hindex,hb]
  rfl

theorem shows_of_forall₂ (hcolumns : p.columns = row.length)
    (h : List.Forall₂ (fun b field => b.data.Shows field) p.bounds row) : p.Shows row := by
  intro col field hfield
  obtain ⟨hcol,rfl⟩ := List.getElem?_eq_some_iff.mp hfield
  have hbound : col < p.bounds.length := by rw [h.length_eq]; exact hcol
  exact ⟨_,atColumn_eq hbound (by omega),(List.forall₂_iff_get.mp h).2 col hbound hcol⟩

/-- Next on a row shows that row, whatever has been there before. -/
theorem next_shows (leftover : Leftover) (h : p.columns = row.length) :
    ∃ bounds, p.next leftover (deliver row) =
        .ok (true,{ p with currentRow := p.currentRow+1, bounds := bounds }) ∧
      List.Forall₂ (fun b field => b.data.Shows field) bounds row := by
  have hfill : ∀ (b : Bound) (field : Field), b.Fresh →
      ∃ b', (do .ok ⟨b.bind,← b.data.fill b.bind field⟩ : Access Bound) = .ok b' ∧
        b'.Filled field := by
    intro b field hb
    obtain ⟨data,hdata,hfilled⟩ := hb.fill field
    exact ⟨_,by rw [hdata]; rfl,hfilled⟩
  obtain ⟨bounds,hbounds,hfilled⟩ := overRow_ok hfill (reset_fresh leftover h)
  unfold deliver
  split
  · obtain ⟨bounds',hbounds',hshows⟩ :=
      overRow_ok (Q := fun b field => b.data.Shows field) (fun _ _ hb => hb.refetch) hfilled
    refine ⟨bounds',?_,hshows⟩
    simp only [PreparedBuffers.next,FetchReply.fields]
    rw [hbounds]
    change (overRow Bound.refetch bounds row >>= _) = _
    rw [hbounds']
    rfl
  · rename_i hshort
    refine ⟨bounds,?_,?_⟩
    · simp only [PreparedBuffers.next,FetchReply.fields]
      rw [hbounds]
      rfl
    · rw [List.forall₂_iff_get] at hfilled ⊢
      refine ⟨hfilled.1,fun i hi hrow => (hfilled.2 i hi hrow).shows ?_⟩
      exact Nat.not_lt.mp fun hlong => hshort ⟨_,List.get_mem row _,hlong⟩

end rows

/-- Each call of Next returns true on its row, and shows it. -/
def PreparedBuffers.ShowsAll (leftover : Nat → Leftover) :
    Nat → List (List Field) → PreparedBuffers → Prop
  | _, [], _ => True
  | k, row :: rows, p => ∃ p', p.next (leftover k) (deliver row) = .ok (true,p') ∧ p'.Shows row ∧
    p'.ShowsAll leftover (k+1) rows

theorem showsAll (leftover : Nat → Leftover) {rows : List (List Field)} {p : PreparedBuffers}
    (hwide : ∀ row ∈ rows, p.columns = row.length) (k : Nat) : p.ShowsAll leftover k rows := by
  induction rows generalizing k p with
  | nil => trivial
  | cons row rows ih =>
    have hrow := hwide row List.mem_cons_self
    obtain ⟨bounds,hnext,hshows⟩ := next_shows (leftover k) hrow
    refine ⟨_,hnext,shows_of_forall₂ hrow hshows,ih (fun row' hrow' => ?_) (k+1)⟩
    exact hwide row' (List.mem_cons_of_mem row hrow')

/-- Whatever the buffers hold before, each row that a result delivers is what is read from them. -/
theorem prepared_rows_shown (res : MysqlRes) (leftover : Nat → Leftover) :
    (PreparedBuffers.new res).ShowsAll leftover 0 res.rows :=
  showsAll leftover (fun row hrow => congrArg Nat.cast (res.wide row hrow).symm) 0

/-- The buffers that the values of a prepared result are in. -/
structure Represents (b : PreparedBuffers) (p : MysqlPreparedResult) : Prop where
  columns : b.columns = p.columns
  metadata : b.metadata = p.metadata
  currentRow : b.currentRow = p.currentRow
  numRows : b.numRows = p.numRows
  ahead : ∀ row ∈ p.ahead, b.columns = row.length
  bounds : List.Forall₂ (fun b v => b.data.isNull = v.isNull ∧ b.data.value = .ok v.value)
    b.bounds p.bindData

theorem new_represents (res : MysqlRes) :
    Represents (PreparedBuffers.new res) (MysqlPreparedResult.new res) :=
  ⟨rfl,rfl,rfl,rfl,fun row hrow => congrArg Nat.cast (res.wide row hrow).symm,.nil⟩

/-- What the library answers to the next fetch of a result. -/
def MysqlPreparedResult.reply (p : MysqlPreparedResult) : FetchReply :=
  match p.ahead with
  | [] => .noData
  | row :: _ => deliver row

theorem Represents.next {b : PreparedBuffers} {p : MysqlPreparedResult} (h : Represents b p)
    (leftover : Leftover) :
    ∃ b', b.next leftover p.reply = .ok (p.next.1,b') ∧ Represents b' p.next.2 := by
  have hwide := h.ahead
  cases hahead : p.ahead with
  | nil =>
    have hnone (bounds : List Bound) (f : Bound → Field → Access Bound) :
        overRow f bounds [] = .ok bounds := by cases bounds <;> rfl
    simp only [MysqlPreparedResult.reply,MysqlPreparedResult.next,hahead]
    refine ⟨_,by rw [PreparedBuffers.next,FetchReply.fields,hnone]; rfl,?_⟩
    refine ⟨h.columns,h.metadata,congrArg (·+1) h.currentRow,h.numRows,h.ahead,?_⟩
    refine List.forall₂_of_length_eq_of_get ?_ fun i hi hv => ?_
    · simp [PreparedBuffers.reset,MysqlPreparedResult.reset,h.columns]
    · simp [PreparedBuffers.reset,MysqlPreparedResult.reset,BoundData.value]
  | cons row ahead =>
    rw [hahead] at hwide
    obtain ⟨bounds,hnext,hshows⟩ := next_shows leftover (hwide row List.mem_cons_self)
    simp only [MysqlPreparedResult.reply,MysqlPreparedResult.next,hahead]
    refine ⟨_,hnext,?_⟩
    refine ⟨h.columns,h.metadata,congrArg (·+1) h.currentRow,h.numRows,fun row' hrow' => ?_,?_⟩
    · exact hwide row' (List.mem_cons_of_mem row hrow')
    · rw [List.forall₂_map_right_iff]
      exact hshows.imp fun b field hb => ⟨hb.isNull,hb.value⟩

theorem index_forall₂ {α β : Type} {R : α → β → Prop} {l : List α} {l' : List β}
    (h : List.Forall₂ R l l') (i : Int) :
    (∃ a b, index l i = .ok a ∧ index l' i = .ok b ∧ R a b) ∨
      (index l i = .error .outside ∧ index l' i = .error .outside) := by
  have hlength := h.length_eq
  by_cases hi : 0 ≤ i ∧ i < l.length
  · left
    obtain ⟨a,ha,hget⟩ := index_ok hi.1 hi.2
    obtain ⟨b,hb,hget'⟩ := index_ok (l := l') hi.1 (by omega)
    obtain ⟨h₁,rfl⟩ := List.getElem?_eq_some_iff.mp hget
    obtain ⟨h₂,rfl⟩ := List.getElem?_eq_some_iff.mp hget'
    exact ⟨_,_,ha,hb,(List.forall₂_iff_get.mp h).2 i.toNat h₁ h₂⟩
  · right
    exact ⟨index_outside (by omega),index_outside (by omega)⟩

/-- At finds the same in the buffers as in the result, or fails alike. -/
theorem Represents.atColumn {b : PreparedBuffers} {p : MysqlPreparedResult}
    (h : Represents b p) (col : Int) :
    (∃ data v, b.atColumn col = .ok data ∧ p.atColumn col = .ok v ∧ data.isNull = v.isNull ∧
      data.value = .ok v.value) ∨
    ∃ fault, b.atColumn col = .error fault ∧ p.atColumn col = .error fault := by
  have hempty : b.bounds ≠ [] ↔ p.bindData ≠ [] := by
    rw [← List.length_pos_iff,← List.length_pos_iff,h.bounds.length_eq]
  simp only [PreparedBuffers.atColumn,MysqlPreparedResult.atColumn,check_bind,h.columns,hempty]
  by_cases hcheck : 0 ≤ col ∧ col < p.columns
  · rw [if_pos hcheck,if_pos hcheck]
    by_cases hfetched : p.bindData ≠ []
    · rw [if_pos hfetched,if_pos hfetched]
      rcases index_forall₂ h.bounds col with ⟨bound,v,hbound,hv,hnull,hvalue⟩ | ⟨hbound,hv⟩
      · rw [hbound,hv]
        exact .inl ⟨_,_,rfl,rfl,hnull,hvalue⟩
      · rw [hbound,hv]
        exact .inr ⟨_,rfl,rfl⟩
    · rw [if_neg hfetched,if_neg hfetched]
      exact .inr ⟨_,rfl,rfl⟩
  · rw [if_neg hcheck,if_neg hcheck]
    exact .inr ⟨_,rfl,rfl⟩

theorem Represents.fetch {Float Double : Type} {b : PreparedBuffers} {p : MysqlPreparedResult}
    (h : Represents b p) (readers : Readers Float Double) (kind : FetchType) (col : Int) :
    b.fetch readers kind col = p.fetch readers kind col := by
  unfold PreparedBuffers.fetch MysqlPreparedResult.fetch
  rcases h.atColumn col with ⟨data,v,hdata,hv,hnull,hvalue⟩ | ⟨fault,hdata,hv⟩
  · rw [hdata,hv]
    change (if data.isNull then _ else _) = if v.isNull then _ else _
    rw [hnull,hvalue]
    rfl
  · rw [hdata,hv]
    rfl

theorem Represents.isNull {b : PreparedBuffers} {p : MysqlPreparedResult}
    (h : Represents b p) (col : Int) : b.isNull col = p.isNull col := by
  unfold PreparedBuffers.isNull MysqlPreparedResult.isNull
  rcases h.atColumn col with ⟨data,v,hdata,hv,hnull,-⟩ | ⟨fault,hdata,hv⟩
  · rw [hdata,hv]
    exact congrArg Except.ok hnull
  · rw [hdata,hv]
    rfl

def PreparedBuffers.nexts (leftover : Nat → Leftover) :
    Nat → PreparedBuffers → MysqlPreparedResult → Access PreparedBuffers
  | 0, b, _ => .ok b
  | n+1, b, p => do
    let (_,b) ← b.next (leftover n) p.reply
    b.nexts leftover n p.next.2

theorem Represents.nexts (leftover : Nat → Leftover) (n : Nat) {b : PreparedBuffers}
    {p : MysqlPreparedResult} (h : Represents b p) :
    ∃ b', b.nexts leftover n p = .ok b' ∧ Represents b' ((fun p => p.next.2)^[n] p) := by
  induction n generalizing b p with
  | zero => exact ⟨b,rfl,h⟩
  | succ n ih =>
    obtain ⟨b₁,hnext,h₁⟩ := h.next (leftover n)
    obtain ⟨b',hnexts,h'⟩ := ih h₁
    refine ⟨b',?_,h'⟩
    rw [PreparedBuffers.nexts,hnext]
    exact hnexts

/-- However many rows have been asked for, the buffers give what the values of the
result give. -/
theorem buffers_read (res : MysqlRes) (leftover : Nat → Leftover) (n : Nat) :
    ∃ b, (PreparedBuffers.new res).nexts leftover n (MysqlPreparedResult.new res) = .ok b ∧
      (∀ {Float Double : Type} (readers : Readers Float Double) (kind : FetchType) (col : Int),
        b.fetch readers kind col =
          ((fun p => p.next.2)^[n] (MysqlPreparedResult.new res)).fetch readers kind col) ∧
      ∀ col, b.isNull col = ((fun p => p.next.2)^[n] (MysqlPreparedResult.new res)).isNull col := by
  obtain ⟨b,hb,h⟩ := (new_represents res).nexts leftover n
  exact ⟨b,hb,fun readers kind col => h.fetch readers kind col,h.isNull⟩

end MprMq.Db
