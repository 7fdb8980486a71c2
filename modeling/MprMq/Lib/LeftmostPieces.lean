import Mathlib.Data.List.Basic
import Mathlib.Data.Nat.Find
set_option autoImplicit false

/-! A list cut at the leftmost occurrences of a pattern, none of which overlaps another. -/

namespace MprMq.Lib
variable {α : Type}

/-- The pieces between the occurrences: up to the first one, and then those of what follows it. -/
inductive LeftmostPieces (pat : List α) : List α → List (List α) → Prop where
  | rest {s : List α} : (∀ i, ¬ pat <+: s.drop i) → LeftmostPieces pat s [s]
  | cut {p s : List α} {ps : List (List α)} :
      (∀ i < p.length, ¬ pat <+: (p ++ pat ++ s).drop i) → LeftmostPieces pat s ps →
      LeftmostPieces pat (p ++ pat ++ s) (p :: ps)

theorem prefix_at (p pat s : List α) : pat <+: (p ++ pat ++ s).drop p.length := by
  rw [List.append_assoc,List.drop_left]
  exact List.prefix_append _ _

theorem prefix_before {pat x y : List α} {i : Nat} (h : pat <+: (x ++ y).drop i)
    (hlen : i+pat.length ≤ x.length) : pat <+: x.drop i := by
  rw [List.drop_append_of_le_length (by omega)] at h
  refine List.prefix_of_prefix_length_le h (List.prefix_append _ _) ?_
  rw [List.length_drop]
  omega

/-- An occurrence cannot run over an element that the pattern does not have. -/
theorem prefix_before_cons {pat x y : List α} {c : α} {i : Nat} (hc : c ∉ pat)
    (h : pat <+: (x ++ c :: y).drop i) (hi : i ≤ x.length) : pat <+: x.drop i := by
  by_cases hlen : i+pat.length ≤ x.length
  · exact prefix_before h hlen
  · rw [List.drop_append_of_le_length hi] at h
    have htake : pat = (x.drop i ++ c :: y).take pat.length := List.prefix_iff_eq_take.mp h
    refine absurd ?_ hc
    rw [htake,List.take_append,List.mem_append]
    refine .inr ?_
    rw [List.length_drop]
    obtain ⟨k,hk⟩ : ∃ k, pat.length-(x.length-i) = k+1 := ⟨pat.length-(x.length-i)-1,by omega⟩
    rw [hk,List.take_succ_cons]
    exact List.mem_cons_self

/-- No end of the pattern is also how it begins, so that two occurrences cannot overlap. -/
def Unbordered (pat : List α) : Prop := ∀ k < pat.length, 0 < k → ¬ pat.drop k <+: pat

theorem unbordered_of_notMem {c : α} {t : List α} (h : c ∉ t) : Unbordered (c :: t) := by
  intro k hk hpos hpre
  obtain ⟨n,rfl⟩ := Nat.exists_eq_succ_of_ne_zero (Nat.ne_of_gt hpos)
  rw [List.drop_succ_cons] at hpre
  cases hdrop : t.drop n with
  | nil =>
    rw [List.drop_eq_nil_iff] at hdrop
    rw [List.length_cons] at hk
    omega
  | cons d rest =>
    rw [hdrop,List.cons_prefix_cons] at hpre
    refine h (List.mem_of_mem_drop (i := n) ?_)
    rw [hdrop,hpre.1]
    exact List.mem_cons_self

theorem Unbordered.prefix_before {pat x y : List α} {i : Nat} (hp : Unbordered pat)
    (h : pat <+: (x ++ (pat ++ y)).drop i) (hi : i < x.length) : pat <+: x.drop i := by
  by_cases hlen : i+pat.length ≤ x.length
  · exact Lib.prefix_before h hlen
  · have hx : (x.drop i).length = x.length-i := List.length_drop
    rw [List.drop_append_of_le_length (by omega)] at h
    have hpre : x.drop i <+: pat :=
      List.prefix_of_prefix_length_le (List.prefix_append _ _) h (by omega)
    obtain ⟨t,ht⟩ := hpre
    have htail : t <+: pat ++ y := by
      rw [← ht,List.prefix_append_right_inj,ht] at h
      exact h
    have htlen := congrArg List.length ht
    rw [List.length_append,hx] at htlen
    have hdrop : pat.drop (x.length-i) = t := by
      rw [← ht,← hx,List.drop_left]
    refine absurd ?_ (hp (x.length-i) (by omega) (by omega))
    rw [hdrop]
    exact List.prefix_of_prefix_length_le htail (List.prefix_append _ _) (by omega)

namespace LeftmostPieces
variable {pat s : List α} {ps : List (List α)}

theorem ne_nil (h : LeftmostPieces pat s ps) : ps ≠ [] := by
  cases h <;> exact List.cons_ne_nil _ _

theorem exists_pieces (hne : pat ≠ []) (s : List α) : ∃ ps, LeftmostPieces pat s ps := by
  induction hn : s.length using Nat.strong_induction_on generalizing s with
  | _ n ih =>
    by_cases h : ∃ i, pat <+: s.drop i
    · classical
      obtain ⟨i,hi⟩ : ∃ i, Nat.find h = i := ⟨_,rfl⟩
      obtain ⟨⟨t,ht⟩,hfirst⟩ := (Nat.find_eq_iff h).mp hi
      have hpat : 0 < pat.length := List.length_pos_iff.mpr hne
      have hlen := congrArg List.length ht
      rw [List.length_append,List.length_drop] at hlen
      obtain ⟨ps,hps⟩ := ih t.length (by omega) t rfl
      have hs : s.take i ++ pat ++ t = s := by
        rw [List.append_assoc,ht,List.take_append_drop]
      have hcut : LeftmostPieces pat (s.take i ++ pat ++ t) (s.take i :: ps) := by
        refine .cut (fun j hj => ?_) hps
        rw [hs]
        rw [List.length_take] at hj
        exact hfirst j (by omega)
      rw [hs] at hcut
      exact ⟨s.take i :: ps,hcut⟩
    · exact ⟨[s],.rest (not_exists.mp h)⟩

/-- The first occurrence is where it is, so there is one way to cut. -/
theorem unique {qs : List (List α)} (h : LeftmostPieces pat s ps) (h' : LeftmostPieces pat s qs) :
    ps = qs := by
  induction h generalizing qs with
  | rest hnone =>
    cases h' with
    | rest => rfl
    | @cut q s qs hfirst htail =>
      exact absurd (prefix_at q pat s) (hnone q.length)
  | @cut p s ps hfirst htail ih =>
    generalize hx : p ++ pat ++ s = x at h' hfirst
    have hp : pat <+: x.drop p.length := hx ▸ prefix_at p pat s
    cases h' with
    | rest hnone => exact absurd hp (hnone p.length)
    | @cut q t qs hfirst' htail' =>
      have hlen : p.length = q.length := by
        rcases Nat.lt_trichotomy p.length q.length with hlt | heq | hgt
        · exact absurd hp (hfirst' _ hlt)
        · exact heq
        · exact absurd (prefix_at q pat t) (hfirst _ hgt)
      rw [List.append_assoc,List.append_assoc] at hx
      obtain ⟨rfl,hrest⟩ := List.append_inj hx hlen
      rw [ih (List.append_cancel_left hrest ▸ htail')]

theorem intercalate_cons (h : LeftmostPieces pat s ps) (r p : List α) :
    r.intercalate (p :: ps) = p ++ r ++ r.intercalate ps :=
  List.intercalate_cons_of_ne_nil h.ne_nil

theorem intercalate_pat (h : LeftmostPieces pat s ps) : pat.intercalate ps = s := by
  induction h with
  | rest => exact List.intercalate_singleton
  | cut _ htail ih => rw [htail.intercalate_cons,ih]

theorem none_before_append {x : List α} {n : Nat}
    (hx : ∀ i < x.length, ¬ pat <+: (x ++ s).drop i) (hs : ∀ i < n, ¬ pat <+: s.drop i) :
    ∀ i < x.length+n, ¬ pat <+: (x ++ s).drop i := by
  intro i hi
  by_cases hlt : i < x.length
  · exact hx i hlt
  · obtain ⟨j,rfl⟩ := Nat.exists_eq_add_of_le (Nat.le_of_not_lt hlt)
    rw [List.drop_length_add_append]
    exact hs j (by omega)

/-- Elements in front, where no occurrence begins, join the first piece. -/
theorem push {x : List α} (h : LeftmostPieces pat s ps)
    (hx : ∀ i < x.length, ¬ pat <+: (x ++ s).drop i) :
    ∃ qs, LeftmostPieces pat (x ++ s) qs ∧
      ∀ r : List α, r.intercalate qs = x ++ r.intercalate ps := by
  cases h with
  | rest hnone =>
    refine ⟨[x ++ s],.rest fun i => ?_,fun r => by simp only [List.intercalate_singleton]⟩
    exact none_before_append (n := i+1) hx (fun j _ => hnone j) i (by omega)
  | @cut p s ps hfirst htail =>
    refine ⟨(x ++ p) :: ps,?_,fun r => ?_⟩
    · have hassoc : x ++ (p ++ pat ++ s) = x ++ p ++ pat ++ s := by
        simp only [List.append_assoc]
      rw [hassoc]
      refine .cut (fun i hi => ?_) htail
      rw [← hassoc]
      rw [List.length_append] at hi
      exact none_before_append hx hfirst i hi
    · simp only [htail.intercalate_cons,List.append_assoc]

/-- What follows an element that the pattern does not have is cut on its own. -/
theorem append_cons {t : List α} {qs : List (List α)} {c : α} (hc : c ∉ pat)
    (h : LeftmostPieces pat s ps) (h' : LeftmostPieces pat t qs) :
    ∃ rs, LeftmostPieces pat (s ++ c :: t) rs ∧
      ∀ r : List α, r.intercalate rs = r.intercalate ps ++ c :: r.intercalate qs := by
  induction h with
  | @rest s hnone =>
    obtain ⟨rs,hrs,hjoin⟩ := h'.push (x := s ++ [c]) (fun i hi => by
      rw [List.length_append,List.length_singleton] at hi
      rw [List.append_assoc,List.singleton_append]
      exact fun hpre => hnone i (prefix_before_cons hc hpre (by omega)))
    refine ⟨rs,?_,fun r => ?_⟩
    · simpa only [List.append_assoc,List.singleton_append] using hrs
    · simpa only [List.append_assoc,List.singleton_append,List.intercalate_singleton] using hjoin r
  | @cut p s ps hfirst htail ih =>
    obtain ⟨rs,hrs,hjoin⟩ := ih
    refine ⟨p :: rs,?_,fun r => ?_⟩
    · rw [List.append_assoc]
      refine .cut (fun i hi => ?_) hrs
      rw [← List.append_assoc]
      refine fun hpre => hfirst i hi (prefix_before hpre ?_)
      simp only [List.length_append]
      omega
    · simp only [hrs.intercalate_cons,htail.intercalate_cons,hjoin,List.append_assoc]

theorem append_apart {t mid : List α} {qs : List (List α)} (hmid : ∀ c ∈ mid, c ∉ pat)
    (hnil : mid ≠ []) (hne : pat ≠ []) (h : LeftmostPieces pat s ps)
    (h' : LeftmostPieces pat t qs) :
    ∃ rs, LeftmostPieces pat (s ++ mid ++ t) rs ∧
      ∀ r : List α, r.intercalate rs = r.intercalate ps ++ mid ++ r.intercalate qs := by
  induction mid generalizing s ps with
  | nil => exact absurd rfl hnil
  | cons c mid ih =>
    rw [List.forall_mem_cons] at hmid
    by_cases hlast : mid = []
    · subst hlast
      obtain ⟨rs,hrs,hjoin⟩ := h.append_cons hmid.1 h'
      exact ⟨rs,by simpa using hrs,by simpa using hjoin⟩
    · have hempty : LeftmostPieces pat [] [[]] := .rest (by simpa using hne)
      obtain ⟨us,hus,hjoin⟩ := ih hmid.2 hlast hempty
      obtain ⟨rs,hrs,hjoin'⟩ := h.append_cons hmid.1 hus
      exact ⟨rs,by simpa using hrs,by simpa [hjoin] using hjoin'⟩

/-- Every occurrence of a pattern that cannot overlap itself is one to cut at. -/
theorem append_pat {t : List α} {qs : List (List α)} (hp : Unbordered pat)
    (h : LeftmostPieces pat s ps) (h' : LeftmostPieces pat t qs) :
    LeftmostPieces pat (s ++ pat ++ t) (ps ++ qs) := by
  induction h with
  | rest hnone =>
    refine .cut (fun i hi => ?_) h'
    rw [List.append_assoc]
    exact fun hpre => hnone i (hp.prefix_before hpre hi)
  | @cut p s ps hfirst htail ih =>
    rw [List.append_assoc (p ++ pat ++ s),List.append_assoc (p ++ pat),← List.append_assoc s]
    refine .cut (fun i hi => ?_) ih
    rw [List.append_assoc s,← List.append_assoc (p ++ pat)]
    refine fun hpre => hfirst i hi (Lib.prefix_before hpre ?_)
    simp only [List.length_append]
    omega

theorem intercalate_append {t : List α} {qs : List (List α)} (h : LeftmostPieces pat s ps)
    (h' : LeftmostPieces pat t qs) (r : List α) :
    r.intercalate (ps ++ qs) = r.intercalate ps ++ r ++ r.intercalate qs := by
  induction h with
  | rest => rw [List.singleton_append,h'.intercalate_cons,List.intercalate_singleton]
  | cut _ htail ih =>
    have hne := List.append_ne_nil_of_left_ne_nil htail.ne_nil qs
    rw [List.cons_append,List.intercalate_cons_of_ne_nil hne,ih,htail.intercalate_cons]
    simp only [List.append_assoc]

end LeftmostPieces

end MprMq.Lib
