import MprMq.Db.ColumnByName
import MprMq.Db.NextRow
import MprMq.Base.StringAsValue
set_option autoImplicit false

/-! Reading the next column into an integer, and a tag for NULL. -/

namespace MprMq.Db
open Lib

inductive NullTagType where
  | nullValue
  | notNullValue

/-- What `result >> Into(v, tag)` leaves: what it stores in `v`, the tag and the result. -/
structure Into (Float Double σ : Type) where
  stored : Option (Fetched Float Double)
  tag : NullTagType
  result : Result σ

section read
variable {Float Double σ : Type}

def Result.fetch (accessors : σ → Accessors Float Double) (kind : FetchType) (r : Result σ) :
    Access ((Bool × Option (Fetched Float Double)) × Result σ) :=
  match r.dbResult with
  | none => .error .outside
  | some dbResult => do
    let fetched ← (accessors dbResult).fetch kind r.currentColumn
    .ok (fetched,{ r with currentColumn := r.currentColumn+1 })

def Result.into (accessors : σ → Accessors Float Double) (kind : FetchType) (r : Result σ) :
    Access (Into Float Double σ) := do
  let ((ret,stored),r) ← r.fetch accessors kind
  .ok ⟨stored,if ret then .notNullValue else .nullValue,r⟩

end read

inductive IntTarget where
  | int16
  | uint16
  | int32
  | uint32
  | int64
  | uint64

namespace IntTarget

def fetchType : IntTarget → FetchType
  | .int16 => .int16
  | .uint16 => .uint16
  | .int32 => .int32
  | .uint32 => .uint32
  | .int64 => .int64
  | .uint64 => .uint64

def type : IntTarget → Base.IntType
  | .int16 => .int16
  | .uint16 => .uint16
  | .int32 => .int32
  | .uint32 => .uint32
  | .int64 => .int64
  | .uint64 => .uint64

def Denotes (t : IntTarget) (text : Text) (v : Int) : Prop :=
  ∃ n : Base.Numeral t.type.signed 10, n.text = text ∧ n.value = v ∧
    t.type.min ≤ v ∧ v ≤ t.type.max

end IntTarget

section into
variable {Float Double σ : Type}

/-- The tag tells a NULL and nothing else, and only what a text denotes is stored. -/
structure Into.Right (into : Into Float Double σ) (t : IntTarget) (field : Field) : Prop where
  null : into.tag = .nullValue ↔ field = none
  unchanged : field = none → into.stored = none
  denoted : ∀ text v, field = some text → t.Denotes text v → into.stored = some (.int v)
  kept : ∀ text, field = some text → (∀ v, ¬ t.Denotes text v) → into.stored = none

def IntTarget.Reads (t : IntTarget) (field : Field) : Prop :=
  ∀ text, field = some text → ∃ v, t.Denotes text v

theorem readInt_stores {wide : Base.IntType} {convert : Text → Int → Option (Bool × Int)}
    (h : Base.Converts wide convert) (cast : Int → Int) (text : Text) : ∃ ret v,
    (readInt convert cast text : Access (Bool × Option (Fetched Float Double))) =
        .ok (ret,some (.int (cast v))) ∧
      ∀ n : Base.Numeral wide.signed 10, n.text = text → wide.min ≤ n.value →
        n.value ≤ wide.max → ret = true ∧ v = n.value := by
  obtain ⟨ret,v,hconvert,hret,hv⟩ := h text 10
  refine ⟨ret,v,by rw [readInt,hconvert],fun n hn hmin hmax => ?_⟩
  refine ⟨hret.mpr ⟨n,hn,hmin,hmax⟩,?_⟩
  rw [hv n hn,Base.IntType.nearest,if_neg (Int.not_lt.mpr hmin),if_neg (Int.not_lt.mpr hmax)]

/-- Any text is stored as some integer, and a numeral of the type as its value. -/
theorem read_int (readers : Readers Float Double) (t : IntTarget) (text : Text) : ∃ ret v,
    t.fetchType.read readers text = .ok (ret,some (.int v)) ∧
      ∀ value, t.Denotes text value → ret = true ∧ v = value := by
  have hwide {wide : Base.IntType} {convert : Text → Int → Option (Bool × Int)}
      (h : Base.Converts wide convert) {cast : Int → Int}
      (hcast : ∀ v, t.type.min ≤ v → v ≤ t.type.max → cast v = v)
      (hmin : wide.min ≤ t.type.min) (hmax : t.type.max ≤ wide.max)
      (hsigned : t.type.signed = wide.signed)
      (hread : t.fetchType.read readers text = readInt convert cast text) : ∃ ret v,
      t.fetchType.read readers text = .ok (ret,some (.int v)) ∧
        ∀ value, t.Denotes text value → ret = true ∧ v = value := by
    obtain ⟨ret,v,hstores,hv⟩ := @readInt_stores Float Double _ _ h cast text
    refine ⟨ret,cast v,hread.trans hstores,?_⟩
    unfold IntTarget.Denotes
    rw [hsigned]
    rintro value ⟨n,hn,rfl,hlow,hhigh⟩
    obtain ⟨hret,rfl⟩ := hv n hn (Int.le_trans hmin hlow) (Int.le_trans hhigh hmax)
    exact ⟨hret,hcast _ hlow hhigh⟩
  cases t with
  | int16 =>
    refine hwide Base.int32_converts (fun v hmin hmax => ?_) (by decide) (by decide) rfl rfl
    simp only [IntTarget.type,Base.IntType.int16] at hmin hmax
    exact Int.bmod_eq_of_le (by omega) (by omega)
  | uint16 =>
    refine hwide Base.uint32_converts (fun v hmin hmax => ?_) (by decide) (by decide) rfl rfl
    simp only [IntTarget.type,Base.IntType.uint16] at hmin hmax
    exact Int.emod_eq_of_lt (by omega) (by omega)
  | int32 =>
    exact hwide Base.int32_converts (fun _ _ _ => rfl) (Int.le_refl _) (Int.le_refl _) rfl rfl
  | uint32 =>
    exact hwide Base.uint32_converts (fun _ _ _ => rfl) (Int.le_refl _) (Int.le_refl _) rfl rfl
  | int64 =>
    exact hwide Base.int64_converts (fun _ _ _ => rfl) (Int.le_refl _) (Int.le_refl _) rfl rfl
  | uint64 =>
    exact hwide Base.uint64_converts (fun _ _ _ => rfl) (Int.le_refl _) (Int.le_refl _) rfl rfl

/-- An integer is read by `StringAsValue` of its type. -/
theorem read_stringAsValue (readers : Readers Float Double) (t : IntTarget) (text : Text) :
    t.fetchType.read readers text = (t.type.stringAsValue text).elim (.error .overflow)
      fun stored => .ok (stored.1,some (.int stored.2)) := by
  have hread {convert : Text → Int → Option (Bool × Int)} {cast : Int → Int}
      (hcast : ∀ ok v, convert text 10 = some (ok,v) → cast v = t.type.staticCast v)
      (hvalue : t.type.stringAsValue text =
        (convert text 10).bind fun pair => some (pair.1,t.type.staticCast pair.2)) :
      (readInt convert cast text : Access (Bool × Option (Fetched Float Double))) =
        (t.type.stringAsValue text).elim (.error .overflow)
          fun stored => .ok (stored.1,some (.int stored.2)) := by
    rw [hvalue,readInt]
    cases hconvert : convert text 10 with
    | none => rfl
    | some pair => simp only [Option.bind_some,Option.elim_some,hcast pair.1 pair.2 hconvert]
  cases t with
  | int16 =>
    refine hread (fun ok v _ => ?_) rfl
    change Int.bmod v 65536 = -32768+(v- -32768)%65536
    rw [Int.bmod_def]
    omega
  | uint16 =>
    refine hread (fun ok v _ => ?_) rfl
    change v%65536 = 0+(v-0)%65536
    omega
  | int32 =>
    refine hread (fun ok v h => ?_) rfl
    have hrange := Base.safeIntInternal_range (by decide) h
    exact (Base.IntType.staticCast_eq hrange.1 hrange.2).symm
  | uint32 =>
    refine hread (fun ok v h => ?_) rfl
    have hrange := Base.safeUintInternal_range (by decide) h
    exact (Base.IntType.staticCast_eq hrange.1 hrange.2).symm
  | int64 =>
    refine hread (fun ok v h => ?_) rfl
    have hrange := Base.safeIntInternal_range (by decide) h
    exact (Base.IntType.staticCast_eq hrange.1 hrange.2).symm
  | uint64 =>
    refine hread (fun ok v h => ?_) rfl
    have hrange := Base.safeUintInternal_range (by decide) h
    exact (Base.IntType.staticCast_eq hrange.1 hrange.2).symm

def intoOf (r : Result σ) (fetched : Bool × Option (Fetched Float Double)) :
    Into Float Double σ :=
  ⟨fetched.2,if fetched.1 then .notNullValue else .nullValue,
    { r with currentColumn := r.currentColumn+1 }⟩

/-- A column whose field is fetched is read right where its text denotes a value of the type. -/
theorem finish_right_iff (readers : Readers Float Double) (t : IntTarget) (field : Field)
    (r : Result σ) : (∃ fetched, t.fetchType.finish readers field = .ok fetched ∧
      (intoOf r fetched).Right t field) ↔ t.Reads field := by
  cases field with
  | none =>
    refine iff_of_true ⟨_,rfl,iff_of_true rfl rfl,fun _ => rfl,?_,?_⟩ ?_
    all_goals intro text
    all_goals simp
  | some text =>
    obtain ⟨ret,v,hread,hv⟩ := read_int readers t text
    rw [FetchType.finish,hread]
    constructor
    · rintro ⟨fetched,hfetched,hright⟩ text' htext
      cases hfetched
      cases htext
      by_contra hnone
      cases hright.kept text rfl (fun value hvalue => hnone ⟨value,hvalue⟩)
    · intro hreads
      obtain ⟨value,hvalue⟩ := hreads text rfl
      obtain ⟨rfl,rfl⟩ := hv value hvalue
      refine ⟨_,rfl,⟨fun htag => (by cases htag),fun hnull => (by cases hnull)⟩,
        fun hnull => (by cases hnull),?_,?_⟩
      · intro text' value' htext hvalue'
        cases htext
        rw [intoOf,(hv value' hvalue').2]
      · intro text' htext hnone
        cases htext
        exact absurd hvalue (hnone v)

end into

section drivers
variable {Float Double : Type} {res : MysqlRes} {row : List Field} {field : Field} {k col : Nat}

/-- The row of a direct result after `k+1` calls of Next. -/
theorem direct_row {start r : MysqlDirectResult}
    (hnew : MysqlDirectResult.new (.stored res) = .ok start)
    (hr : afterCalls directResult.next (k+1) start = .ok r) (hrow : res.rows[k]? = some row) :
    Stored res r ∧ r.nativeRow = some row := by
  cases hnew
  have hcolumns : DirectColumns res r :=
    afterCalls_keeps (fun _ _ _ h => h.next) ⟨rfl,rfl⟩ hr
  obtain ⟨u,fetched,hu,hnext⟩ := afterCalls_succ hr
  have hstart : DirectAt res 0 ⟨some res,res.fields.length,0,none,res.rows⟩ := ⟨rfl,rfl,rfl⟩
  obtain ⟨u',hu',hat⟩ := (direct_counts res).after hstart k
  cases hu.symm.trans hu'
  simp only [directResult,MysqlDirectResult.next,hat.nativeResult,hat.ahead] at hnext
  cases hnext
  refine ⟨⟨rfl,hcolumns.2,fun row' hrow' => res.wide row' ?_⟩,?_⟩
  · rw [List.tail_drop] at hrow'
    exact List.mem_of_mem_drop hrow'
  · rw [List.head?_drop]
    exact hrow

theorem prepared_row {p : MysqlPreparedResult}
    (hp : afterCalls preparedResult.next (k+1) (MysqlPreparedResult.new res) = .ok p)
    (hrow : res.rows[k]? = some row) :
    p.columns = res.fields.length ∧
      p.bindData = row.map fun field => ⟨field.isNone,field.getD []⟩ := by
  have hcolumns : PreparedColumns res p :=
    afterCalls_keeps (fun _ _ _ h => h.next) ⟨rfl,rfl⟩ hp
  obtain ⟨u,fetched,hu,hnext⟩ := afterCalls_succ hp
  have hstart : PreparedAt res 0 (MysqlPreparedResult.new res) := ⟨rfl,rfl,rfl⟩
  obtain ⟨u',hu',hat⟩ := (prepared_counts res).after hstart k
  cases hu.symm.trans hu'
  obtain ⟨hk,rfl⟩ := List.getElem?_eq_some_iff.mp hrow
  have hahead := hat.ahead.trans (List.drop_eq_getElem_cons hk)
  simp only [preparedResult,MysqlPreparedResult.next,hahead] at hnext
  cases hnext
  exact ⟨hcolumns.2,rfl⟩

theorem index_eq {α : Type} {l : List α} {v : α} (h : l[col]? = some v) : index l col = .ok v := by
  rw [index,if_neg (by omega),Int.toNat_natCast,h]

/-- Fetch refuses the first column of a direct result, and reads the others. -/
theorem Stored.fetch_eq {r : MysqlDirectResult} (h : Stored res r) (hrow : r.nativeRow = some row)
    (hlength : row.length = res.fields.length) (hfield : row[col]? = some field)
    (readers : Readers Float Double) (kind : FetchType) :
    r.fetch readers kind col = if col = 0 then .error .check else kind.finish readers field := by
  have hcol := (List.getElem?_eq_some_iff.mp hfield).1
  have hcolumns := h.columns
  rw [MysqlDirectResult.fetch,h.atLength_eq hrow,guarded_bind,guarded,check_bind,index_eq hfield]
  by_cases hzero : col = 0
  · rw [if_neg (by omega),if_pos hzero]
  · rw [if_pos (by omega),if_neg hzero]
    rfl

theorem MysqlPreparedResult.fetch_eq {p : MysqlPreparedResult} (hcolumns : p.columns = row.length)
    (hdata : p.bindData = row.map fun field => ⟨field.isNone,field.getD []⟩)
    (hfield : row[col]? = some field) (readers : Readers Float Double) (kind : FetchType) :
    p.fetch readers kind col = kind.finish readers field := by
  have hcol := (List.getElem?_eq_some_iff.mp hfield).1
  have hne : p.bindData ≠ [] := by
    rw [hdata]
    exact List.ne_nil_of_length_pos (by rw [List.length_map]; omega)
  have hindex : index p.bindData col = .ok ⟨field.isNone,field.getD []⟩ :=
    index_eq (by rw [hdata,List.getElem?_map,hfield]; rfl)
  rw [MysqlPreparedResult.fetch,MysqlPreparedResult.atColumn,check_bind,if_pos (by omega),
    check_bind,if_pos hne,hindex]
  cases field <;> rfl

def IntoRight {σ : Type} (accessors : σ → Accessors Float Double) (t : IntTarget) (field : Field)
    (r : Result σ) : Prop :=
  ∃ into, r.into accessors t.fetchType = .ok into ∧ into.Right t field

theorem into_eq {σ : Type} {accessors : σ → Accessors Float Double} {kind : FetchType}
    {r : Result σ} {s : σ} (hres : r.dbResult = some s) :
    r.into accessors kind = ((accessors s).fetch kind r.currentColumn).map (intoOf r) := by
  obtain ⟨eof,fetched,currentColumn,dbResult⟩ := r
  cases hres
  rw [Result.into,Result.fetch]
  dsimp only
  cases (accessors s).fetch kind currentColumn <;> rfl

theorem intoRight_iff {σ : Type} {accessors : σ → Accessors Float Double} {t : IntTarget}
    {r : Result σ} {s : σ} (hres : r.dbResult = some s) :
    IntoRight accessors t field r ↔
      ∃ fetched, (accessors s).fetch t.fetchType r.currentColumn = .ok fetched ∧
        (intoOf r fetched).Right t field := by
  rw [IntoRight,into_eq hres]
  cases (accessors s).fetch t.fetchType r.currentColumn with
  | error fault => simp [Except.map]
  | ok fetched => simp [Except.map]

/-- The tag is right for NULL and for the numerals of the type, but in the first column of a direct
result. -/
theorem into_null_tag (readers : Readers Float Double) (t : IntTarget)
    (hrow : res.rows[k]? = some row) (hfield : row[col]? = some field) :
    (∀ start r, MysqlDirectResult.new (.stored res) = .ok start →
      afterCalls directResult.next (k+1) start = .ok r →
      (IntoRight (MysqlDirectResult.accessors readers) t field ⟨false,true,col,some r⟩ ↔
        col ≠ 0 ∧ t.Reads field)) ∧
    ∀ p, afterCalls preparedResult.next (k+1) (MysqlPreparedResult.new res) = .ok p →
      (IntoRight (MysqlPreparedResult.accessors readers) t field ⟨false,true,col,some p⟩ ↔
        t.Reads field) := by
  have hlength := res.wide row (List.mem_of_getElem? hrow)
  constructor
  · intro start r hnew hr
    obtain ⟨hstored,hnative⟩ := direct_row hnew hr hrow
    have hfetch := hstored.fetch_eq hnative hlength hfield readers t.fetchType
    rw [intoRight_iff rfl,← finish_right_iff readers t field (σ := MysqlDirectResult)
      ⟨false,true,col,some r⟩]
    simp only [MysqlDirectResult.accessors,hfetch]
    by_cases hzero : col = 0
    · simp [hzero]
    · simp [hzero]
  · intro p hp
    obtain ⟨hcolumns,hdata⟩ := prepared_row hp hrow
    have hfetch := MysqlPreparedResult.fetch_eq (hcolumns.trans (congrArg Nat.cast hlength.symm))
      hdata hfield readers t.fetchType
    rw [intoRight_iff rfl,← finish_right_iff readers t field (σ := MysqlPreparedResult)
      ⟨false,true,col,some p⟩]
    simp only [MysqlPreparedResult.accessors,hfetch]

end drivers

theorem null_tagged : ∃ start r, MysqlDirectResult.new (.stored twoColumns) = .ok start ∧
    afterCalls directResult.next 1 start = .ok r ∧
    IntoRight (MysqlDirectResult.accessors noReaders) .int16 none ⟨false,true,1,some r⟩ := by
  have hnull := @into_null_tag Unit Unit twoColumns _ _ 0 1 noReaders .int16 rfl rfl
  exact ⟨_,_,rfl,rfl,(hnull.1 _ _ rfl rfl).mpr ⟨by decide,fun text h => by cases h⟩⟩

def badTexts : MysqlRes := ⟨[['n']],[[some ['7','0','0','0','0']],[some ['x']]],by decide⟩

theorem int16_cut_off : IntTarget.int16.fetchType.read noReaders ['7','0','0','0','0'] =
    .ok (true,some (.int 4464)) := by
  have hread : Base.safeStrto32Base ['7','0','0','0','0'] 10 = some (true,70000) := by decide
  simp only [IntTarget.fetchType,FetchType.read,readInt,hread]
  rfl

theorem not_a_number : IntTarget.int32.fetchType.read noReaders ['x'] =
    .ok (false,some (.int 0)) := by
  have hread : Base.safeStrto32Base ['x'] 10 = some (false,0) := by decide
  simp only [IntTarget.fetchType,FetchType.read,readInt,hread]
  rfl

/-- A number beyond the type is stored cut off, and a text that is none is tagged as NULL. -/
theorem bad_texts_read : ∃ p p',
    afterCalls preparedResult.next 1 (MysqlPreparedResult.new badTexts) = .ok p ∧
    afterCalls preparedResult.next 2 (MysqlPreparedResult.new badTexts) = .ok p' ∧
    (∃ r, (⟨false,true,0,some p⟩ : Result MysqlPreparedResult).into
      (MysqlPreparedResult.accessors noReaders) IntTarget.int16.fetchType =
        .ok ⟨some (.int 4464),.notNullValue,r⟩) ∧
    ∃ r, (⟨false,true,0,some p'⟩ : Result MysqlPreparedResult).into
      (MysqlPreparedResult.accessors noReaders) IntTarget.int32.fetchType =
        .ok ⟨some (.int 0),.nullValue,r⟩ := by
  refine ⟨_,_,rfl,rfl,?_,?_⟩
  · exact ⟨_,(into_eq rfl).trans (congrArg (Except.map (intoOf _)) int16_cut_off)⟩
  · exact ⟨_,(into_eq rfl).trans (congrArg (Except.map (intoOf _)) not_a_number)⟩

end MprMq.Db
