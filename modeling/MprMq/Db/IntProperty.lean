import MprMq.Db.ConnectionPool
set_option autoImplicit false

/-! The numbers that are read from the properties of a connection. -/

namespace MprMq.Db
open Lib

/-- Get gives one value whatever its local has held: the default where the key is absent. -/
def Determined (info : ConnectionInfo) (key : Text) (default : Int) : Prop :=
  ∃ v, (info.find key = none → v = default) ∧ ∀ raw, info.getInt raw key default = v

def PoolDetermined (info : ConnectionInfo) : Prop :=
  ∃ pool, ∀ rawSize rawIdle, ConnectionPool.create info rawSize rawIdle = pool

def NotBlank (info : ConnectionInfo) (key : Text) : Prop :=
  ∀ text, info.find key = some text → ∃ c ∈ text, isSpace c = false

theorem extractInt_blank {text : Text} (h : ∀ c ∈ text, isSpace c = true) (raw : Int) :
    extractInt raw text = raw := by
  rw [extractInt,List.dropWhile_eq_nil_iff.mpr h]

theorem extractInt_raw {text : Text} (h : ∃ c ∈ text, isSpace c = false) (raw : Int) :
    extractInt raw text = extractInt 0 text := by
  unfold extractInt
  split
  · rename_i hblank
    obtain ⟨c,hc,hspace⟩ := h
    rw [List.dropWhile_eq_nil_iff.mp hblank c hc] at hspace
    cases hspace
  · rfl

theorem getInt_determined {info : ConnectionInfo} {key : Text} (h : NotBlank info key)
    (raw default : Int) : info.getInt raw key default = info.getInt 0 key default := by
  unfold ConnectionInfo.getInt
  cases hfind : info.find key with
  | none => rfl
  | some text => exact extractInt_raw (h text hfind) raw

/-- A blank value gives what the local has held. -/
theorem getInt_blank {info : ConnectionInfo} {key : Text} (h : ¬ NotBlank info key)
    (raw default : Int) : info.getInt raw key default = raw := by
  obtain ⟨text,hfind,hblank⟩ :
      ∃ text, info.find key = some text ∧ ∀ c ∈ text, isSpace c = true := by
    simpa [NotBlank] using h
  rw [ConnectionInfo.getInt,hfind]
  exact extractInt_blank hblank raw

theorem determined_iff (info : ConnectionInfo) (key : Text) (default : Int) :
    Determined info key default ↔ NotBlank info key := by
  constructor
  · rintro ⟨v,-,hv⟩
    by_contra hblank
    have hzero := (getInt_blank hblank 0 default).symm.trans (hv 0)
    have hone := (getInt_blank hblank 1 default).symm.trans (hv 1)
    omega
  · intro h
    refine ⟨info.getInt 0 key default,fun hnone => ?_,fun raw => getInt_determined h raw default⟩
    rw [ConnectionInfo.getInt,hnone]

theorem poolDetermined_iff (info : ConnectionInfo) : PoolDetermined info ↔
    NotBlank info "@pool_size".toList ∧ NotBlank info "@pool_max_idle".toList := by
  constructor
  · rintro ⟨pool,hpool⟩
    constructor
    · by_contra hblank
      have hzero := congrArg ConnectionPool.limit (hpool 0 0)
      have hone := congrArg ConnectionPool.limit (hpool 1 0)
      simp only [ConnectionPool.create,getInt_blank hblank] at hzero hone
      exact absurd (hzero.trans hone.symm) (by decide)
    · by_contra hblank
      have hzero := congrArg ConnectionPool.lifeTime (hpool 0 0)
      have hone := congrArg ConnectionPool.lifeTime (hpool 0 1)
      simp only [ConnectionPool.create,getInt_blank hblank] at hzero hone
      exact absurd (hzero.trans hone.symm) (by decide)
  · rintro ⟨hsize,hidle⟩
    refine ⟨ConnectionPool.create info 0 0,fun rawSize rawIdle => ?_⟩
    simp only [ConnectionPool.create,getInt_determined hsize rawSize,
      getInt_determined hidle rawIdle]

/-- An integer is read from a property just when its text is not blank, and so is a pool built from
a limit and an idle time. -/
theorem int_properties_determined (info : ConnectionInfo) :
    (∀ key default, Determined info key default ↔ NotBlank info key) ∧
    (PoolDetermined info ↔
      NotBlank info "@pool_size".toList ∧ NotBlank info "@pool_max_idle".toList) :=
  ⟨determined_iff info,poolDetermined_iff info⟩

/-- The limit of a pool is whatever has been in memory. -/
theorem blank_pool_size : ∃ info, ConnectionInfo.init "mysql:@pool_size=".toList = some info ∧
    ∀ raw, info.getInt raw "@pool_size".toList 16 = raw :=
  ⟨_,rfl,fun _ => rfl⟩

end MprMq.Db
