import Mathlib.Logic.Basic
set_option autoImplicit false

/-! Labelled transition systems whose step is an executable partial function.
All nondeterminism (which thread moves, what a clock shows, what memory held)
is carried by the label, so a list of labels fixes a run. -/

namespace MprMq.Lib

/-- `step s a = none` means that `a` cannot happen in `s`. -/
structure System (σ α : Type) where
  init : σ
  step : σ → α → Option σ

def System.runFrom {σ α : Type} (S : System σ α) : σ → List α → Option σ
  | s, [] => some s
  | s, a :: as =>
    match S.step s a with
    | some t => S.runFrom t as
    | none => none

def System.run {σ α : Type} (S : System σ α) (as : List α) : Option σ :=
  S.runFrom S.init as

/-- `R s a t` holds of every step `s --a--> t` the labels take from the state;
the labels after one that cannot happen take no step. -/
def System.AlongFrom {σ α : Type} (S : System σ α) (R : σ → α → σ → Prop) :
    σ → List α → Prop
  | _, [] => True
  | s, a :: as => ∀ t, S.step s a = some t → R s a t ∧ S.AlongFrom R t as

def System.Along {σ α : Type} (S : System σ α) (R : σ → α → σ → Prop)
    (as : List α) : Prop := S.AlongFrom R S.init as

def System.Always {σ α : Type} (S : System σ α) (P : σ → Prop) (as : List α) : Prop :=
  P S.init ∧ S.Along (fun _ _ t => P t) as

/-- The one induction behind every invariant of a system. -/
structure System.Inductive {σ α : Type} (S : System σ α) (I : σ → Prop) : Prop where
  init : I S.init
  step : ∀ s a t, I s → S.step s a = some t → I t

theorem System.runFrom_append {σ α : Type} (S : System σ α) (s : σ) (as bs : List α) :
    S.runFrom s (as ++ bs) = (S.runFrom s as).bind fun t => S.runFrom t bs := by
  induction as generalizing s with
  | nil => rfl
  | cons a as ih =>
    simp only [List.cons_append,System.runFrom]
    cases S.step s a with
    | none => rfl
    | some u => exact ih u

/-- A property that the steps with the labels of a run keep is kept by the run. -/
theorem System.runFrom_keeps {σ α : Type} {S : System σ α} {I : σ → Prop} {as : List α}
    (h : ∀ s a t, a ∈ as → I s → S.step s a = some t → I t) {s t : σ} (hs : I s)
    (hr : S.runFrom s as = some t) : I t := by
  induction as generalizing s with
  | nil =>
    simp only [System.runFrom,Option.some.injEq] at hr
    subst t
    exact hs
  | cons a as ih =>
    simp only [System.runFrom] at hr
    cases ha : S.step s a with
    | none => simp [ha] at hr
    | some u =>
      rw [ha] at hr
      exact ih (fun s b t hb => h s b t (List.mem_cons_of_mem a hb))
        (h s a u List.mem_cons_self hs ha) hr

theorem System.Inductive.runFrom {σ α : Type} {S : System σ α} {I : σ → Prop}
    (hi : S.Inductive I) {s t : σ} (as : List α) (h : I s)
    (hr : S.runFrom s as = some t) : I t :=
  System.runFrom_keeps (fun s a t _ => hi.step s a t) h hr

theorem System.Inductive.run {σ α : Type} {S : System σ α} {I : σ → Prop}
    (hi : S.Inductive I) {t : σ} {as : List α} (hr : S.run as = some t) : I t :=
  hi.runFrom as hi.init hr

/-- Two step properties that an invariant makes equivalent hold along the same runs. -/
theorem System.alongFrom_congr {σ α : Type} {S : System σ α} {I : σ → Prop}
    {Q R : σ → α → σ → Prop} (hi : S.Inductive I)
    (h : ∀ s a t, I s → S.step s a = some t → (Q s a t ↔ R s a t))
    {s : σ} (hs : I s) (as : List α) : S.AlongFrom Q s as ↔ S.AlongFrom R s as := by
  induction as generalizing s with
  | nil => exact Iff.rfl
  | cons a as ih =>
    have hstep : ∀ t, S.step s a = some t →
        ((Q s a t ∧ S.AlongFrom Q t as) ↔ (R s a t ∧ S.AlongFrom R t as)) :=
      fun t ht => and_congr (h s a t hs ht) (ih (hi.step s a t hs ht))
    exact forall_congr' (fun t => forall_congr' (fun ht => hstep t ht))

theorem System.along_congr {σ α : Type} {S : System σ α} {I : σ → Prop}
    {Q R : σ → α → σ → Prop} (hi : S.Inductive I)
    (h : ∀ s a t, I s → S.step s a = some t → (Q s a t ↔ R s a t))
    (as : List α) : S.Along Q as ↔ S.Along R as :=
  System.alongFrom_congr hi h hi.init as

/-- An invariant kept by the steps that meet `C` gives `R` along every run whose
steps all meet `C`. -/
theorem System.AlongFrom.guarded {σ α : Type} {S : System σ α} {I : σ → Prop}
    {C R : σ → α → σ → Prop}
    (h : ∀ s a t, I s → S.step s a = some t → C s a t → I t ∧ R s a t)
    {s : σ} (hs : I s) {as : List α} (hc : S.AlongFrom C s as) : S.AlongFrom R s as := by
  induction as generalizing s with
  | nil => trivial
  | cons a as ih =>
    intro t ht
    obtain ⟨hca,hcs⟩ := hc t ht
    obtain ⟨hit,hr⟩ := h s a t hs ht hca
    exact ⟨hr,ih hit hcs⟩

/-- What is known of the labels of a run can be added to what is known of its steps. -/
theorem System.AlongFrom.labelled {σ α : Type} {S : System σ α} {R : σ → α → σ → Prop}
    {A : α → Prop} {s : σ} {as : List α} (ha : ∀ a ∈ as, A a) (h : S.AlongFrom R s as) :
    S.AlongFrom (fun s a t => A a ∧ R s a t) s as := by
  induction as generalizing s with
  | nil => trivial
  | cons a as ih =>
    intro t ht
    obtain ⟨hr,hrs⟩ := h t ht
    exact ⟨⟨ha a List.mem_cons_self,hr⟩,ih (fun b hb => ha b (List.mem_cons_of_mem a hb)) hrs⟩

/-- Where an invariant makes `R` say of a step what `C` says, and `C` keeps the
invariant, the two hold along the same runs. -/
theorem System.alongFrom_iff {σ α : Type} {S : System σ α} {I : σ → Prop}
    {C R : σ → α → σ → Prop} {as : List α}
    (h : ∀ s a t, a ∈ as → I s → S.step s a = some t → (R s a t ↔ C s a t) ∧ (C s a t → I t))
    {s : σ} (hs : I s) : S.AlongFrom R s as ↔ S.AlongFrom C s as := by
  induction as generalizing s with
  | nil => exact Iff.rfl
  | cons a as ih =>
    have hrest : ∀ t, I t → (S.AlongFrom R t as ↔ S.AlongFrom C t as) :=
      fun t ht => ih (fun s b t hb => h s b t (List.mem_cons_of_mem a hb)) ht
    have hstep : ∀ t, S.step s a = some t →
        ((R s a t ∧ S.AlongFrom R t as) ↔ (C s a t ∧ S.AlongFrom C t as)) := by
      intro t ht
      obtain ⟨hiff,hkeep⟩ := h s a t List.mem_cons_self hs ht
      rw [hiff]
      exact and_congr_right (fun hc => hrest t (hkeep hc))
    exact forall_congr' (fun t => forall_congr' (fun ht => hstep t ht))

theorem System.AlongFrom.after {σ α : Type} {S : System σ α} {R : σ → α → σ → Prop}
    {s u t : σ} {a : α} {post : List α} (pre : List α)
    (h : S.AlongFrom R s (pre ++ a :: post)) (hr : S.runFrom s pre = some u)
    (hs : S.step u a = some t) : R u a t := by
  induction pre generalizing s with
  | nil =>
    simp only [System.runFrom,Option.some.injEq] at hr
    subst u
    exact (h t hs).1
  | cons b pre ih =>
    simp only [System.runFrom] at hr
    cases hb : S.step s b with
    | none => simp [hb] at hr
    | some v =>
      rw [hb] at hr
      exact ih (h v hb).2 hr

def System.checkFrom {σ α : Type} (S : System σ α) (check : σ → α → Bool) : σ → List α → Bool
  | _, [] => true
  | s, a :: as =>
    match S.step s a with
    | some t => check s a && S.checkFrom check t as
    | none => true

theorem System.alongFrom_of_check {σ α : Type} {S : System σ α} (check : σ → α → Bool) {s : σ}
    {as : List α} (h : S.checkFrom check s as = true) :
    S.AlongFrom (fun s a _ => check s a) s as := by
  induction as generalizing s with
  | nil => trivial
  | cons a as ih =>
    intro t ht
    simp only [System.checkFrom,ht,Bool.and_eq_true] at h
    exact ⟨h.1,ih h.2⟩

theorem System.Inductive.along {σ α : Type} {S : System σ α} {I : σ → Prop}
    {R : σ → α → σ → Prop} (hi : S.Inductive I)
    (h : ∀ s a t, I s → S.step s a = some t → R s a t) (as : List α) : S.Along R as := by
  have hc : S.AlongFrom (fun _ _ _ => True) S.init as := by
    generalize S.init = s
    induction as generalizing s with
    | nil => trivial
    | cons a as ih => exact fun t _ => ⟨trivial,ih t⟩
  exact hc.guarded (I := I)
    (fun s a t hs ht _ => ⟨hi.step s a t hs ht,h s a t hs ht⟩) hi.init

theorem System.Inductive.always {σ α : Type} {S : System σ α} {I P : σ → Prop}
    (hi : S.Inductive I) (h : ∀ s, I s → P s) (as : List α) : S.Always P as :=
  ⟨h _ hi.init,hi.along (fun s a t hs ht => h t (hi.step s a t hs ht)) as⟩

/-- What the labels alone make of the steps. -/
theorem System.alongFrom_of_labels {σ α : Type} {S : System σ α} {R : σ → α → σ → Prop}
    {A : α → Prop} (h : ∀ s a t, A a → R s a t) {s : σ} {as : List α} (ha : ∀ a ∈ as, A a) :
    S.AlongFrom R s as := by
  induction as generalizing s with
  | nil => trivial
  | cons a as ih =>
    exact fun t _ => ⟨h s a t (ha a List.mem_cons_self),
      ih (fun b hb => ha b (List.mem_cons_of_mem a hb))⟩

/-- The invariant of the runs whose labels are all among `A`. -/
theorem System.alongFrom_labelled {σ α : Type} {S : System σ α} {I P : σ → Prop} {A : α → Prop}
    (hstep : ∀ s a t, A a → I s → S.step s a = some t → I t) (h : ∀ s, I s → P s) {s : σ}
    (hs : I s) {as : List α} (ha : ∀ a ∈ as, A a) : S.AlongFrom (fun _ _ t => P t) s as := by
  induction as generalizing s with
  | nil => trivial
  | cons a as ih =>
    intro t ht
    have hit := hstep s a t (ha a List.mem_cons_self) hs ht
    exact ⟨h t hit,ih hit (fun b hb => ha b (List.mem_cons_of_mem a hb))⟩

theorem System.always_labelled {σ α : Type} {S : System σ α} {I P : σ → Prop} {A : α → Prop}
    (hinit : I S.init) (hstep : ∀ s a t, A a → I s → S.step s a = some t → I t)
    (h : ∀ s, I s → P s) {as : List α} (ha : ∀ a ∈ as, A a) : S.Always P as :=
  ⟨h _ hinit,System.alongFrom_labelled hstep h hinit ha⟩

/-- What holds along a run and along all that can follow it. -/
theorem System.AlongFrom.append {σ α : Type} {S : System σ α} {R : σ → α → σ → Prop} {s : σ}
    {pre post : List α} (h : S.AlongFrom R s pre)
    (hrest : ∀ t, S.runFrom s pre = some t → S.AlongFrom R t post) :
    S.AlongFrom R s (pre ++ post) := by
  induction pre generalizing s with
  | nil => exact hrest s rfl
  | cons a pre ih =>
    intro t ht
    obtain ⟨hr,hrs⟩ := h t ht
    refine ⟨hr,ih hrs (fun u hu => hrest u ?_)⟩
    simp only [System.runFrom,ht]
    exact hu

/-- The end of a run whose steps all meet `C`. -/
theorem System.AlongFrom.keeps {σ α : Type} {S : System σ α} {I : σ → Prop}
    {C : σ → α → σ → Prop} (h : ∀ s a t, I s → S.step s a = some t → C s a t → I t) {s t : σ}
    (hs : I s) {as : List α} (hc : S.AlongFrom C s as) (hr : S.runFrom s as = some t) : I t := by
  induction as generalizing s with
  | nil =>
    simp only [System.runFrom,Option.some.injEq] at hr
    subst t
    exact hs
  | cons a as ih =>
    simp only [System.runFrom] at hr
    cases ha : S.step s a with
    | none => simp [ha] at hr
    | some u =>
      rw [ha] at hr
      obtain ⟨hca,hcs⟩ := hc u ha
      exact ih (h s a u hs ha hca) hcs hr

/-- An invariant of the state and of what has happened. -/
theorem System.run_history {σ α : Type} {S : System σ α} {P : List α → σ → Prop}
    (hinit : P [] S.init)
    (hstep : ∀ as s a t, P as s → S.step s a = some t → P (as ++ [a]) t) {as : List α} {t : σ}
    (hr : S.run as = some t) : P as t := by
  have hfrom : ∀ as past s, P past s → S.runFrom s as = some t → P (past ++ as) t := by
    intro as
    induction as with
    | nil =>
      intro past s hs hr
      simp only [System.runFrom,Option.some.injEq] at hr
      subst t
      rw [List.append_nil]
      exact hs
    | cons a as ih =>
      intro past s hs hr
      simp only [System.runFrom] at hr
      cases ha : S.step s a with
      | none => simp [ha] at hr
      | some u =>
        rw [ha] at hr
        have hrest := ih (past ++ [a]) u (hstep past s a u hs ha) hr
        rwa [List.append_assoc] at hrest
  exact hfrom as [] S.init hinit hr

/-- Add a history variable: it watches every step and blocks none. -/
def System.watch {σ α η : Type} (S : System σ α) (start : η) (see : η → σ → α → σ → η) :
    System (σ × η) α where
  init := (S.init,start)
  step := fun s a => (S.step s.1 a).map (fun t => (t,see s.2 s.1 a t))

theorem System.watch_step {σ α η : Type} {S : System σ α} {start : η}
    {see : η → σ → α → σ → η} {s t : σ × η} {a : α}
    (h : (S.watch start see).step s a = some t) :
    S.step s.1 a = some t.1 ∧ t.2 = see s.2 s.1 a t.1 := by
  simp only [watch,Option.map_eq_some_iff] at h
  obtain ⟨u,hu,rfl⟩ := h
  exact ⟨hu,rfl⟩

end MprMq.Lib
