import MprMq.Lib.Population
import MprMq.Lib.Run
set_option autoImplicit false

/-! Objects that hold at most one thing each, pass it on when they are moved and give it back when
they are done with it. -/

namespace MprMq.Lib

/-- The objects that are alive, what each of them holds, and the keeper of what is held. -/
structure Scoped (ι ρ κ : Type) where
  live : List ι
  held : ι → Option ρ
  keeper : κ

namespace Scoped
variable {ι ρ κ : Type} [DecidableEq ι] [DecidableEq ρ]

def holders (s : Scoped ι ρ κ) (r : ρ) : Nat := population s.held (· = some r) s.live

def construct (s : Scoped ι ρ κ) (i : ι) : Scoped ι ρ κ :=
  { s with live := i :: s.live, held := Function.update s.held i none }

def hold (s : Scoped ι ρ κ) (i : ι) (x : Option ρ) (keeper : κ) : Scoped ι ρ κ :=
  { s with held := Function.update s.held i x, keeper := keeper }

/-- What an object holds, if it holds something, goes back to the keeper. -/
def giveBack (free : ρ → κ → κ) (s : Scoped ι ρ κ) (i : ι) : Scoped ι ρ κ :=
  match s.held i with
  | some r => s.hold i none (free r s.keeper)
  | none => s

def swap (s : Scoped ι ρ κ) (i j : ι) : Scoped ι ρ κ :=
  { s with held := Function.update (Function.update s.held i (s.held j)) j (s.held i) }

def drop (s : Scoped ι ρ κ) (i : ι) : Scoped ι ρ κ := { s with live := s.live.erase i }

omit [DecidableEq ρ] in
@[simp] theorem giveBack_live (free : ρ → κ → κ) (s : Scoped ι ρ κ) (i : ι) :
    (s.giveBack free i).live = s.live := by
  unfold giveBack
  split
  · rfl
  · rfl

omit [DecidableEq ρ] in
@[simp] theorem giveBack_held (free : ρ → κ → κ) (s : Scoped ι ρ κ) (i : ι) :
    (s.giveBack free i).held = Function.update s.held i none := by
  unfold giveBack
  split
  case h_1 => rfl
  case h_2 hnone => rw [← hnone,Function.update_eq_self]

/-- The keeper has given out as much as the objects hold. -/
structure Balanced (count : κ → ρ → Nat) (s : Scoped ι ρ κ) : Prop where
  nodup : s.live.Nodup
  count : ∀ r, s.holders r = count s.keeper r

variable {count : κ → ρ → Nat} {s : Scoped ι ρ κ} {i j : ι} {r : ρ}

theorem Balanced.construct (h : s.Balanced count) (hi : i ∉ s.live) :
    (s.construct i).Balanced count where
  nodup := List.nodup_cons.mpr ⟨hi,h.nodup⟩
  count r := by
    refine Eq.trans ?_ (h.count r)
    rw [holders,Scoped.construct,population_cons,population_update_of_notMem _ hi]
    simp [holders]

/-- One object takes something from the keeper in the place of what it holds. -/
theorem holders_hold (hn : s.live.Nodup) (hi : i ∈ s.live) (x : Option ρ) (keeper : κ) (r : ρ) :
    (s.hold i x keeper).holders r + (decide (s.held i = some r)).toNat =
      s.holders r + (decide (x = some r)).toNat :=
  population_update s.held (fun y => decide (y = some r)) x hn hi

theorem Balanced.hold (h : s.Balanced count) (hi : i ∈ s.live) {x : Option ρ} {keeper : κ}
    (hcount : ∀ r, count keeper r + (decide (s.held i = some r)).toNat =
      count s.keeper r + (decide (x = some r)).toNat) : (s.hold i x keeper).Balanced count where
  nodup := h.nodup
  count r := by
    have hheld := holders_hold h.nodup hi x keeper r
    have hkeeper := hcount r
    rw [h.count r] at hheld
    show _ = count keeper r
    omega

theorem Balanced.take (h : s.Balanced count) (hi : i ∈ s.live) (hnone : s.held i = none)
    {keeper : κ} (hcount : ∀ x, count keeper x = count s.keeper x + (decide (r = x)).toNat) :
    (s.hold i (some r) keeper).Balanced count :=
  h.hold hi fun x => by simp [hnone,hcount x]

theorem Balanced.giveBack (h : s.Balanced count) (hi : i ∈ s.live) {free : ρ → κ → κ}
    (hcount : ∀ r, s.held i = some r → 0 < count s.keeper r →
      ∀ x, count (free r s.keeper) x + (decide (r = x)).toNat = count s.keeper x) :
    (s.giveBack free i).Balanced count := by
  unfold Scoped.giveBack
  split
  case h_1 r hheld =>
    have hpos : 0 < s.holders r := population_pos.mpr ⟨i,hi,by simpa using hheld⟩
    rw [h.count r] at hpos
    exact h.hold hi fun x => by simpa [hheld] using hcount r hheld hpos x
  case h_2 => exact h

theorem Balanced.swap (h : s.Balanced count) (hi : i ∈ s.live) (hj : j ∈ s.live) :
    (s.swap i j).Balanced count where
  nodup := h.nodup
  count r := by
    refine Eq.trans ?_ (h.count r)
    have hfirst := population_update s.held (fun y => decide (y = some r)) (s.held j) h.nodup hi
    have hthen := population_update (Function.update s.held i (s.held j))
      (fun y => decide (y = some r)) (s.held i) h.nodup hj
    have hmiddle : Function.update s.held i (s.held j) j = s.held j := by
      by_cases hne : j = i
      · rw [hne,Function.update_self]
      · rw [Function.update_of_ne hne]
    rw [hmiddle] at hthen
    show population (Function.update (Function.update s.held i (s.held j)) j (s.held i))
      (fun y => decide (y = some r)) s.live =
        population s.held (fun y => decide (y = some r)) s.live
    omega

theorem Balanced.drop (h : s.Balanced count) (hi : i ∈ s.live) (hnone : s.held i = none) :
    (s.drop i).Balanced count where
  nodup := h.nodup.erase i
  count r := by
    have herase := population_erase s.held (fun y => decide (y = some r)) hi
    refine Eq.trans ?_ (h.count r)
    rw [hnone] at herase
    exact herase

omit [DecidableEq ι] in
theorem Balanced.count_pos (h : s.Balanced count) (hi : i ∈ s.live) (hheld : s.held i = some r) :
    0 < count s.keeper r := by
  rw [← h.count r]
  exact population_pos.mpr ⟨i,hi,by simpa using hheld⟩

/-- Two objects that hold the same thing are one, if the keeper gives it out only once. -/
theorem Balanced.unique (h : s.Balanced count) (hone : count s.keeper r ≤ 1) (hi : i ∈ s.live)
    (hj : j ∈ s.live) (hheld : s.held i = some r) (hother : s.held j = some r) : i = j := by
  by_contra hne
  have hrest : j ∈ s.live.erase i := (List.mem_erase_of_ne fun e => hne e.symm).mpr hj
  have herase := population_erase s.held (fun y => decide (y = some r)) hi
  have hpos : 0 < population s.held (fun y => decide (y = some r)) (s.live.erase i) :=
    population_pos.mpr ⟨j,hrest,by simpa using hother⟩
  have hcount := h.count r
  rw [holders] at hcount
  rw [hheld] at herase
  simp only [decide_true,Bool.toNat_true] at herase
  omega

end Scoped

/-- What a request to the keeper comes to; one that waits is made again later. -/
inductive Reply (κ : Type) where
  | waits
  | fails
  | gets (keeper : κ)

/-- The life of an object that asks for something when it is constructed and can be moved. -/
inductive GuardAct (ι τ : Type) where
  | construct (i : ι) (request : τ)
  | moveConstruct (i other : ι)
  | moveAssign (i other : ι)
  | release (i : ι)
  | destroy (i : ι)

/-- Who keeps what objects ask for. -/
structure Keeper (τ ρ κ : Type) where
  target : τ → ρ
  reply : τ → κ → Reply κ
  free : ρ → κ → κ

namespace Keeper
variable {ι τ ρ κ : Type} [DecidableEq ι] [DecidableEq ρ] (K : Keeper τ ρ κ)

def construct (s : Scoped ι ρ κ) (i : ι) (request : τ) : Option (Scoped ι ρ κ) :=
  match K.reply request s.keeper with
  | .waits => none
  | .fails => some (s.construct i)
  | .gets keeper => some ((s.construct i).hold i (some (K.target request)) keeper)

def moveAssign (s : Scoped ι ρ κ) (i other : ι) : Scoped ι ρ κ :=
  if other = i then s else (s.giveBack K.free i).swap i other

def step (s : Scoped ι ρ κ) : GuardAct ι τ → Option (Scoped ι ρ κ)
  | .construct i request => if i ∈ s.live then none else K.construct s i request
  | .moveConstruct i other =>
    if i ∈ s.live ∨ other ∉ s.live then none else some (K.moveAssign (s.construct i) i other)
  | .moveAssign i other =>
    if i ∉ s.live ∨ other ∉ s.live then none else some (K.moveAssign s i other)
  | .release i => if i ∉ s.live then none else some (s.giveBack K.free i)
  | .destroy i => if i ∉ s.live then none else some ((s.giveBack K.free i).drop i)

def system (keeper : κ) : System (Scoped ι ρ κ) (GuardAct ι τ) :=
  ⟨⟨[],fun _ => none,keeper⟩,K.step⟩

/-- The count goes up by what is asked for and down by what is given back, in all states of the
keeper that are to be met with. -/
structure Counts (count : κ → ρ → Nat) (J : κ → Prop) : Prop where
  gets : ∀ request keeper keeper', J keeper → K.reply request keeper = .gets keeper' →
    J keeper' ∧ ∀ x, count keeper' x =
      count keeper x + (decide (K.target request = x)).toNat
  free : ∀ r keeper, J keeper → 0 < count keeper r → J (K.free r keeper) ∧
    ∀ x, count (K.free r keeper) x + (decide (r = x)).toNat = count keeper x

variable {K} {count : κ → ρ → Nat} {J : κ → Prop} {s t : Scoped ι ρ κ}

omit [DecidableEq ρ] in
theorem giveBack_keeper {i : ι} (h : ∀ r, s.held i = some r → J (K.free r s.keeper))
    (hs : J s.keeper) : J (s.giveBack K.free i).keeper := by
  unfold Scoped.giveBack
  split
  case h_1 r hheld => exact h r hheld
  case h_2 => exact hs

theorem Counts.giveBack (h : K.Counts count J) (hs : s.Balanced count ∧ J s.keeper) {i : ι}
    (hi : i ∈ s.live) :
    (s.giveBack K.free i).Balanced count ∧ J (s.giveBack K.free i).keeper :=
  ⟨hs.1.giveBack hi fun r _ hpos => (h.free r s.keeper hs.2 hpos).2,
    giveBack_keeper (fun r hheld => (h.free r s.keeper hs.2 (hs.1.count_pos hi hheld)).1) hs.2⟩

theorem Counts.moveAssign (h : K.Counts count J) (hs : s.Balanced count ∧ J s.keeper)
    {i other : ι} (hi : i ∈ s.live) (hother : other ∈ s.live) :
    (K.moveAssign s i other).Balanced count ∧ J (K.moveAssign s i other).keeper := by
  unfold Keeper.moveAssign
  split
  case isTrue => exact hs
  case isFalse =>
    obtain ⟨hback,hkeeper⟩ := h.giveBack hs hi
    exact ⟨hback.swap (by simpa using hi) (by simpa using hother),hkeeper⟩

theorem Counts.step (h : K.Counts count J) (hs : s.Balanced count ∧ J s.keeper)
    {act : GuardAct ι τ} (hstep : K.step s act = some t) : t.Balanced count ∧ J t.keeper := by
  cases act with
  | construct i request =>
    obtain ⟨hi,hnew⟩ := Option.ite_none_left_eq_some.mp hstep
    have hfresh := hs.1.construct hi
    unfold Keeper.construct at hnew
    split at hnew
    case h_1 => cases hnew
    case h_2 => exact Option.some.inj hnew ▸ ⟨hfresh,hs.2⟩
    case h_3 keeper hreply =>
      obtain ⟨hkeeper,hcount⟩ := h.gets request s.keeper keeper hs.2 hreply
      exact Option.some.inj hnew ▸
        ⟨hfresh.take List.mem_cons_self (by simp [Scoped.construct]) hcount,hkeeper⟩
  | moveConstruct i other =>
    obtain ⟨hlive,⟨⟩⟩ := Option.ite_none_left_eq_some.mp hstep
    rw [not_or,not_not] at hlive
    exact h.moveAssign ⟨hs.1.construct hlive.1,hs.2⟩ List.mem_cons_self
      (List.mem_cons_of_mem i hlive.2)
  | moveAssign i other =>
    obtain ⟨hlive,⟨⟩⟩ := Option.ite_none_left_eq_some.mp hstep
    rw [not_or,not_not,not_not] at hlive
    exact h.moveAssign hs hlive.1 hlive.2
  | release i =>
    obtain ⟨hlive,⟨⟩⟩ := Option.ite_none_left_eq_some.mp hstep
    exact h.giveBack hs (not_not.mp hlive)
  | destroy i =>
    obtain ⟨hlive,⟨⟩⟩ := Option.ite_none_left_eq_some.mp hstep
    obtain ⟨hback,hkeeper⟩ := h.giveBack hs (not_not.mp hlive)
    exact ⟨hback.drop (by simpa using hlive) (by simp),hkeeper⟩

/-- Whatever the objects do, they hold what the keeper has given out. -/
theorem Counts.run (h : K.Counts count J) {keeper : κ} (hinit : J keeper)
    (hzero : ∀ r, count keeper r = 0) {acts : List (GuardAct ι τ)}
    (hrun : (K.system keeper).run acts = some s) : s.Balanced count ∧ J s.keeper :=
  System.Inductive.run (I := fun s => s.Balanced count ∧ J s.keeper)
    ⟨⟨⟨List.nodup_nil,fun r => (hzero r).symm⟩,hinit⟩,fun _ _ _ hs hstep => h.step hs hstep⟩ hrun

end Keeper

end MprMq.Lib
