import MprMq.Db.Result
import Mathlib.Data.List.Basic
set_option autoImplicit false

/-! The operations of Result that find a column by its name. -/

namespace MprMq.Db
open Lib

namespace Accessors
variable {Float Double α : Type}

/-- `Result::Index`. The exception that it makes for a missing column is not thrown. -/
def index (a : Accessors Float Double) (name : Text) : Access (Except DBException Int) := do
  .ok (.ok (← a.nameToColumn name))

/-- An access to a column, unless looking for the column has thrown. -/
def atColumn (use : Int → Access α) : Except DBException Int → Access (Except DBException α)
  | .error e => .ok (.error e)
  | .ok col => do .ok (.ok (← use col))

def isNullNamed (a : Accessors Float Double) (name : Text) : Access (Except DBException Bool) := do
  atColumn a.isNull (← a.index name)

/-- The Fetch overloads that take a name. -/
def fetchNamed (a : Accessors Float Double) (kind : FetchType) (name : Text) :
    Access (Except DBException (Bool × Option (Fetched Float Double))) := do
  atColumn (a.fetch kind) (← a.index name)

def orThrow (fetched : Except DBException (Bool × Option (Fetched Float Double))) :
    Except DBException (Option (Fetched Float Double)) := do
  let (ret,v) ← fetched
  if ret then .ok v else .error .nullValueFetch

def get (a : Accessors Float Double) (kind : FetchType) (name : Text) :
    Access (Except DBException (Option (Fetched Float Double))) := do
  .ok (orThrow (← a.fetchNamed kind name))

def getOr (a : Accessors Float Double) (kind : FetchType) (name : Text)
    (default : Fetched Float Double) :
    Access (Except DBException (Option (Fetched Float Double))) := do
  .ok ((← a.fetchNamed kind name).map fun (ret,v) => if ret then v else some default)

/-- Where a name leads: to the first column of that name, or to InvalidColumn. -/
def columnOf (names : List Text) (name : Text) : Except DBException Int :=
  if names.contains name then .ok (names.idxOf name) else .error .invalidColumn

/-- All operations by name act where the name leads, and on no negative column. -/
structure NamesRight (a : Accessors Float Double) (names : List Text) (name : Text) : Prop where
  index : a.index name = .ok (columnOf names name)
  isNull : a.isNullNamed name = atColumn a.isNull (columnOf names name)
  fetch : ∀ kind, a.fetchNamed kind name = atColumn (a.fetch kind) (columnOf names name)
  get : ∀ kind, a.get kind name = do
    .ok (orThrow (← atColumn (a.fetch kind) (columnOf names name)))
  getOr : ∀ kind default, a.getOr kind name default = do
    .ok ((← atColumn (a.fetch kind) (columnOf names name)).map
      fun (ret,v) => if ret then v else some default)
  nonneg : ∀ col, a.index name = .ok (.ok col) → 0 ≤ col

end Accessors

/-- The loop of NameToColumn finds the first column of the name. -/
theorem nameLoop_first {fields : List Text} {name : Text} {i n : Nat} (h : i+n = fields.length) :
    nameLoop fields name i n = .ok (if name ∈ fields.drop i then
      (i : Int)+(fields.drop i).idxOf name else -1) := by
  induction n generalizing i with
  | zero => rw [List.drop_of_length_le (by omega)]; rfl
  | succ n ih =>
    obtain ⟨field,hfield,hget⟩ := index_ok (l := fields) (i := i) (by omega) (by omega)
    rw [Int.toNat_natCast] at hget
    obtain ⟨hi,hget⟩ := List.getElem?_eq_some_iff.mp hget
    have hdrop : fields.drop i = field :: fields.drop (i+1) := by
      rw [List.drop_eq_getElem_cons hi,hget]
    rw [nameLoop,hfield,hdrop]
    change (if name = field then _ else _) = _
    by_cases hname : name = field
    · rw [if_pos hname]
      simp [hname]
    · rw [if_neg hname,ih (by omega)]
      simp only [List.mem_cons,hname,false_or,List.idxOf_cons_ne _ (Ne.symm hname)]
      split
      · congr 1
        omega
      · rfl

theorem nameLoop_all (names : List Text) (name : Text) : nameLoop names name 0 names.length =
    .ok (if name ∈ names then (names.idxOf name : Int) else -1) := by
  rw [nameLoop_first (Nat.zero_add _),List.drop_zero]
  simp

namespace Accessors
variable {Float Double : Type} {a : Accessors Float Double} {names : List Text} {name : Text}

theorem columnOf_of_mem (h : name ∈ names) : columnOf names name = .ok (names.idxOf name) :=
  if_pos (List.contains_iff_mem.mpr h)

theorem columnOf_of_notMem (h : name ∉ names) : columnOf names name = .error .invalidColumn :=
  if_neg (mt List.contains_iff_mem.mp h)

theorem NamesRight.of_index (h : a.index name = .ok (columnOf names name)) :
    a.NamesRight names name where
  index := h
  isNull := by rw [isNullNamed,h]; rfl
  fetch := fun kind => by rw [fetchNamed,h]; rfl
  get := fun kind => by rw [Accessors.get,fetchNamed,h]; rfl
  getOr := fun kind default => by rw [Accessors.getOr,fetchNamed,h]; rfl
  nonneg := by
    intro col hcol
    rw [h,columnOf] at hcol
    split at hcol
    · cases hcol
      omega
    · cases hcol

/-- Index gives -1 where it was to throw. -/
theorem namesRight_iff (h : a.nameToColumn name = nameLoop names name 0 names.length) :
    a.NamesRight names name ↔ name ∈ names := by
  rw [nameLoop_all] at h
  constructor
  · intro hright
    by_contra hname
    have hindex := hright.index
    rw [Accessors.index,h,if_neg hname,columnOf_of_notMem hname] at hindex
    cases hindex
  · intro hname
    refine .of_index ?_
    rw [Accessors.index,h,if_pos hname,columnOf_of_mem hname]
    rfl

end Accessors

def DirectColumns (res : MysqlRes) (r : MysqlDirectResult) : Prop :=
  r.nativeResult = some res ∧ r.columns = res.fields.length

def PreparedColumns (res : MysqlRes) (p : MysqlPreparedResult) : Prop :=
  p.metadata = res.fields ∧ p.columns = res.fields.length

theorem DirectColumns.next {res : MysqlRes} {r r' : MysqlDirectResult} {fetched : Bool}
    (h : DirectColumns res r) (hnext : directResult.next r = .ok (fetched,r')) :
    DirectColumns res r' := by
  simp only [directResult,MysqlDirectResult.next,h.1] at hnext
  cases hnext
  exact ⟨rfl,h.2⟩

theorem PreparedColumns.next {res : MysqlRes} {p p' : MysqlPreparedResult} {fetched : Bool}
    (h : PreparedColumns res p) (hnext : preparedResult.next p = .ok (fetched,p')) :
    PreparedColumns res p' := by
  simp only [preparedResult,MysqlPreparedResult.next] at hnext
  cases hrows : p.ahead with
  | nil | cons =>
    rw [hrows] at hnext
    cases hnext
    exact h

/-- The operations by name are right for the names that are there, and for no others. -/
theorem columns_by_name {Float Double : Type} (readers : Readers Float Double) (res : MysqlRes)
    (k : Nat) (name : Text) :
    (∀ start r, MysqlDirectResult.new (.stored res) = .ok start →
      afterCalls directResult.next k start = .ok r →
      ((r.accessors readers).NamesRight res.fields name ↔ name ∈ res.fields)) ∧
    ∀ p, afterCalls preparedResult.next k (MysqlPreparedResult.new res) = .ok p →
      ((p.accessors readers).NamesRight res.fields name ↔ name ∈ res.fields) := by
  constructor
  · intro start r hnew hr
    cases hnew
    have hstart : DirectColumns res ⟨some res,res.fields.length,0,none,res.rows⟩ := ⟨rfl,rfl⟩
    obtain ⟨hres,hcolumns⟩ := afterCalls_keeps (fun _ _ _ h => h.next) hstart hr
    refine Accessors.namesRight_iff ?_
    simp only [MysqlDirectResult.accessors,MysqlDirectResult.nameToColumn,hres,hcolumns,
      Int.toNat_natCast]
  · intro p hp
    have hstart : PreparedColumns res (MysqlPreparedResult.new res) := ⟨rfl,rfl⟩
    obtain ⟨hmetadata,hcolumns⟩ := afterCalls_keeps (fun _ _ _ h => h.next) hstart hp
    refine Accessors.namesRight_iff ?_
    simp only [MysqlPreparedResult.accessors,MysqlPreparedResult.nameToColumn,hmetadata,hcolumns,
      Int.toNat_natCast]

theorem named_column_found : ∃ start r, MysqlDirectResult.new (.stored twoColumns) = .ok start ∧
    afterCalls directResult.next 1 start = .ok r ∧
    (r.accessors noReaders).NamesRight twoColumns.fields ['n'] := by
  refine ⟨_,_,rfl,rfl,?_⟩
  exact ((columns_by_name noReaders twoColumns 1 ['n']).1 _ _ rfl rfl).mpr (by decide)

/-- For a name that is missing nothing is thrown, and the column -1 is asked for. -/
theorem missing_name_passed_on : ∃ start r,
    MysqlDirectResult.new (.stored twoColumns) = .ok start ∧
    afterCalls directResult.next 1 start = .ok r ∧ ['x'] ∉ twoColumns.fields ∧
    (r.accessors noReaders).index ['x'] = .ok (.ok (-1)) ∧
    (r.accessors noReaders).isNullNamed ['x'] = .error .check := by
  exact ⟨_,_,rfl,rfl,by decide,rfl,rfl⟩

end MprMq.Db
