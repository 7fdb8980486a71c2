import Mathlib.Data.List.Nodup
import Mathlib.Data.List.Infix
import Mathlib.Data.List.Perm.Basic
set_option autoImplicit false

/-! Finite trees of named leaves and branches, and orders in which a branch stands in front of
what is inside it. -/

namespace MprMq.Lib

/-- The nodes of one branch, in their order; leaves and branches have labels. -/
inductive Forest (ν φ δ : Type) where
  | nil
  | leaf (name : ν) (label : φ) (rest : Forest ν φ δ)
  | branch (name : ν) (label : δ) (inside rest : Forest ν φ δ)

/-- A node by its place, the names from the root down to its own. -/
abbrev TreeNode (ν φ δ : Type) : Type := List ν × (φ ⊕ δ)

namespace Forest
variable {ν φ δ : Type}

def top (dir : List ν) : Forest ν φ δ → List (TreeNode ν φ δ)
  | nil => []
  | leaf name label rest => (dir ++ [name],.inl label) :: rest.top dir
  | branch name label _ rest => (dir ++ [name],.inr label) :: rest.top dir

def insides (dir : List ν) : Forest ν φ δ → List (List ν × Forest ν φ δ)
  | nil => []
  | leaf _ _ rest => rest.insides dir
  | branch name _ inside rest => (dir ++ [name],inside) :: rest.insides dir

def nodes (dir : List ν) : Forest ν φ δ → List (TreeNode ν φ δ)
  | nil => []
  | leaf name label rest => (dir ++ [name],.inl label) :: rest.nodes dir
  | branch name label inside rest =>
    (dir ++ [name],.inr label) :: (inside.nodes (dir ++ [name]) ++ rest.nodes dir)

def names : Forest ν φ δ → List ν
  | nil => []
  | leaf name _ rest => name :: rest.names
  | branch name _ _ rest => name :: rest.names

def Distinct : Forest ν φ δ → Prop
  | nil => True
  | leaf name _ rest => name ∉ rest.names ∧ rest.Distinct
  | branch name _ inside rest => name ∉ rest.names ∧ inside.Distinct ∧ rest.Distinct

def branches : Forest ν φ δ → Nat
  | nil => 0
  | leaf _ _ rest => rest.branches
  | branch _ _ inside rest => inside.branches+rest.branches+1

variable {forest : Forest ν φ δ} {dir : List ν}

/-- The nodes are those on top and those below them. -/
theorem nodes_perm (forest : Forest ν φ δ) (dir : List ν) :
    (forest.nodes dir).Perm
      (forest.top dir ++ (forest.insides dir).flatMap fun b => b.2.nodes b.1) := by
  induction forest with
  | nil => exact .refl _
  | leaf name label rest ih => exact ih.cons _
  | branch name label inside rest _ ih =>
    rw [nodes,top,insides,List.flatMap_cons,List.cons_append]
    refine .cons _ ((ih.append_left _).trans ?_)
    rw [← List.append_assoc,← List.append_assoc]
    exact List.perm_append_comm.append_right _

theorem nodes_perm_reverse (forest : Forest ν φ δ) (dir : List ν) :
    (forest.top dir ++ (forest.insides dir).reverse.flatMap fun b => b.2.nodes b.1).Perm
      (forest.nodes dir) := by
  have hreverse := (List.reverse_perm (forest.insides dir)).flatMap_right fun b => b.2.nodes b.1
  exact (hreverse.append_left (forest.top dir)).trans (forest.nodes_perm dir).symm

theorem place_of_top {x : TreeNode ν φ δ} (h : x ∈ forest.top dir) :
    ∃ name, x.1 = dir ++ [name] := by
  induction forest with
  | nil => cases h
  | leaf name label rest ih =>
    rcases List.mem_cons.mp h with rfl | h
    · exact ⟨name,rfl⟩
    · exact ih h
  | branch name label inside rest _ ih =>
    rcases List.mem_cons.mp h with rfl | h
    · exact ⟨name,rfl⟩
    · exact ih h

/-- The branches that have something inside are nodes on top. -/
theorem top_of_insides {b : List ν × Forest ν φ δ} (h : b ∈ forest.insides dir) :
    b.1 ∈ (forest.top dir).map Prod.fst := by
  induction forest with
  | nil => cases h
  | leaf name label rest ih => exact List.mem_cons_of_mem _ (ih h)
  | branch name label inside rest _ ih =>
    rcases List.mem_cons.mp h with rfl | h
    · exact List.mem_cons_self
    · exact List.mem_cons_of_mem _ (ih h)

theorem nodes_of_insides {b : List ν × Forest ν φ δ} (h : b ∈ forest.insides dir)
    {x : TreeNode ν φ δ} (hx : x ∈ b.2.nodes b.1) : x ∈ forest.nodes dir :=
  (forest.nodes_perm dir).mem_iff.mpr
    (List.mem_append_right _ (List.mem_flatMap.mpr ⟨b,h,hx⟩))

theorem leaf_or_inside {name : ν} (h : name ∈ forest.names) (dir : List ν) :
    (∃ label, (dir ++ [name],.inl label) ∈ forest.nodes dir) ∨
      ∃ inside, (dir ++ [name],inside) ∈ forest.insides dir := by
  induction forest with
  | nil => cases h
  | leaf other label rest ih =>
    rcases List.mem_cons.mp h with rfl | h
    · exact .inl ⟨label,List.mem_cons_self⟩
    · exact (ih h).imp_left fun ⟨label,hmem⟩ => ⟨label,List.mem_cons_of_mem _ hmem⟩
  | branch other label inside rest _ ih =>
    rcases List.mem_cons.mp h with rfl | h
    · exact .inr ⟨inside,List.mem_cons_self⟩
    · refine (ih h).imp ?_ ?_
      · exact fun ⟨label,hmem⟩ =>
          ⟨label,List.mem_cons_of_mem _ (List.mem_append_right _ hmem)⟩
      · exact fun ⟨deeper,hmem⟩ => ⟨deeper,List.mem_cons_of_mem _ hmem⟩

theorem node_of_name {name : ν} (h : name ∈ forest.names) (dir : List ν) :
    ∃ label, (dir ++ [name],label) ∈ forest.nodes dir := by
  rcases leaf_or_inside h dir with ⟨label,hmem⟩ | ⟨inside,hmem⟩
  · exact ⟨.inl label,hmem⟩
  · obtain ⟨⟨place,label⟩,hx,rfl⟩ := List.mem_map.mp (top_of_insides hmem)
    exact ⟨label,(forest.nodes_perm dir).mem_iff.mpr (List.mem_append_left _ hx)⟩

/-- A node is one on top or inside a branch there. -/
theorem place_of_mem {x : TreeNode ν φ δ} (h : x ∈ forest.nodes dir) :
    ∃ name ∈ forest.names, dir ++ [name] <+: x.1 := by
  induction forest generalizing dir with
  | nil => cases h
  | leaf name label rest ih =>
    rcases List.mem_cons.mp h with rfl | h
    · exact ⟨name,List.mem_cons_self,List.prefix_rfl⟩
    · obtain ⟨other,hother,hplace⟩ := ih h
      exact ⟨other,List.mem_cons_of_mem _ hother,hplace⟩
  | branch name label inside rest ihInside ih =>
    rcases List.mem_cons.mp h with rfl | h
    · exact ⟨name,List.mem_cons_self,List.prefix_rfl⟩
    rcases List.mem_append.mp h with h | h
    · obtain ⟨deeper,-,hplace⟩ := ihInside h
      exact ⟨name,List.mem_cons_self,(List.prefix_append _ _).trans hplace⟩
    · obtain ⟨other,hother,hplace⟩ := ih h
      exact ⟨other,List.mem_cons_of_mem _ hother,hplace⟩

theorem same_name {place : List ν} {name other : ν} (h : dir ++ [name] <+: place)
    (hother : dir ++ [other] <+: place) : name = other := by
  have hlen : (dir ++ [name]).length = (dir ++ [other]).length := by simp
  have heq := (List.prefix_of_prefix_length_le h hother (Nat.le_of_eq hlen)).eq_of_length hlen
  exact List.singleton_inj.mp (List.append_cancel_left heq)

/-- Every node has a place of its own. -/
theorem places_nodup (h : forest.Distinct) : ((forest.nodes dir).map Prod.fst).Nodup := by
  induction forest generalizing dir with
  | nil => exact .nil
  | leaf name label rest ih =>
    obtain ⟨hname,hrest⟩ := h
    rw [nodes,List.map_cons,List.nodup_cons]
    refine ⟨fun hmem => ?_,ih hrest⟩
    obtain ⟨x,hx,hplace⟩ := List.mem_map.mp hmem
    obtain ⟨other,hother,hahead⟩ := place_of_mem hx
    rw [hplace] at hahead
    exact hname (same_name hahead List.prefix_rfl ▸ hother)
  | branch name label inside rest ihInside ih =>
    obtain ⟨hname,hinside,hrest⟩ := h
    have hother : ∀ x ∈ rest.nodes dir, ¬dir ++ [name] <+: x.1 := by
      intro x hx hplace
      obtain ⟨other,hother,hahead⟩ := place_of_mem hx
      exact hname (same_name hahead hplace ▸ hother)
    rw [nodes,List.map_cons,List.nodup_cons,List.map_append,List.nodup_append']
    refine ⟨fun hmem => ?_,ihInside hinside,ih hrest,fun place hmem hmem' => ?_⟩
    · rw [List.mem_append] at hmem
      rcases hmem with hmem | hmem
      · obtain ⟨x,hx,hplace⟩ := List.mem_map.mp hmem
        obtain ⟨deeper,-,hahead⟩ := place_of_mem hx
        have hlen := hahead.length_le
        rw [hplace] at hlen
        simp only [List.length_append,List.length_singleton] at hlen
        omega
      · obtain ⟨x,hx,hplace⟩ := List.mem_map.mp hmem
        exact hother x hx (by rw [hplace])
    · obtain ⟨x,hx,rfl⟩ := List.mem_map.mp hmem
      obtain ⟨y,hy,hplace⟩ := List.mem_map.mp hmem'
      obtain ⟨deeper,-,hahead⟩ := place_of_mem hx
      refine hother y hy ?_
      rw [hplace]
      exact (List.prefix_append _ _).trans hahead

end Forest

section order
variable {ν φ δ : Type}

/-- Every node stands behind the branch that it is in. -/
def Outwards (order : List (TreeNode ν φ δ)) : Prop := ∀ pre x post, order = pre ++ x :: post →
  ∃ dir name, x.1 = dir ++ [name] ∧ (dir = [] ∨ dir ∈ pre.map Prod.fst)

variable {order : List (TreeNode ν φ δ)}

theorem Outwards.nil : Outwards ([] : List (TreeNode ν φ δ)) := by
  intro pre x post heq
  exact absurd heq.symm (List.append_ne_nil_of_right_ne_nil _ (List.cons_ne_nil _ _))

theorem Outwards.snoc (h : Outwards order) {x : TreeNode ν φ δ} {dir : List ν} {name : ν}
    (hx : x.1 = dir ++ [name]) (hdir : dir = [] ∨ dir ∈ order.map Prod.fst) :
    Outwards (order ++ [x]) := by
  intro pre y post heq
  rcases List.eq_nil_or_concat post with rfl | ⟨front,last,rfl⟩
  · obtain ⟨rfl,hy⟩ := List.append_inj' heq rfl
    rw [← List.singleton_inj.mp hy]
    exact ⟨dir,name,hx,hdir⟩
  · rw [List.concat_eq_append,← List.cons_append,← List.append_assoc] at heq
    obtain ⟨heq,-⟩ := List.append_inj' heq rfl
    exact h pre y front heq

/-- And so behind every branch around it. -/
theorem Outwards.before (h : Outwards order) (hnodup : (order.map Prod.fst).Nodup)
    {pre post : List (TreeNode ν φ δ)} {x d : TreeNode ν φ δ} (heq : order = pre ++ x :: post)
    (hd : d ∈ order) (hplace : d.1 <+: x.1) (hne : d.1 ≠ x.1) : d ∈ pre := by
  induction hlen : x.1.length using Nat.strongRecOn generalizing pre x post with
  | _ n ih =>
    obtain ⟨dir,name,hx,hdir⟩ := h pre x post heq
    rw [hx] at hplace hne
    have hup : d.1 <+: dir := (List.prefix_concat_iff.mp hplace).resolve_left hne
    have hnotRoot : d.1 ≠ [] := by
      obtain ⟨pre',post',hsplit⟩ := List.append_of_mem hd
      obtain ⟨dir',name',hd',-⟩ := h pre' d post' hsplit
      rw [hd']
      exact List.append_ne_nil_of_right_ne_nil _ (List.cons_ne_nil _ _)
    have hnil : dir ≠ [] := fun hnil => hnotRoot (List.prefix_nil.mp (hnil ▸ hup))
    obtain ⟨y,hy,hyDir⟩ := List.mem_map.mp (hdir.resolve_left hnil)
    by_cases hsame : d.1 = dir
    · have hyOrder : y ∈ order := heq ▸ List.mem_append_left _ hy
      rwa [List.inj_on_of_nodup_map hnodup hd hyOrder (hsame.trans hyDir.symm)]
    · obtain ⟨pre',post',rfl⟩ := List.append_of_mem hy
      have hshorter : y.1.length < n := by
        rw [← hlen,hyDir,hx,List.length_append,List.length_singleton]
        omega
      rw [List.append_assoc,List.cons_append] at heq
      have hmem := ih y.1.length hshorter heq (hyDir ▸ hup) (hyDir ▸ hsame) rfl
      exact List.mem_append_left _ hmem

/-- What stands in front is not inside what stands behind it. -/
theorem Outwards.pairwise (h : Outwards order) (hnodup : (order.map Prod.fst).Nodup) :
    order.Pairwise fun x y => ¬y.1 <+: x.1 := by
  induction order using List.reverseRecOn with
  | nil => exact .nil
  | append_singleton front y ih =>
    have hfront : Outwards front := by
      intro pre x post heq
      refine h pre x (post ++ [y]) ?_
      rw [heq,List.append_assoc,List.cons_append]
    have hparts := hnodup
    rw [List.map_append,List.map_singleton,List.nodup_append'] at hparts
    obtain ⟨hnodupFront,-,hdisjoint⟩ := hparts
    have hy : y.1 ∉ front.map Prod.fst := fun hmem => hdisjoint hmem List.mem_cons_self
    rw [List.pairwise_append]
    refine ⟨ih hfront hnodupFront,List.pairwise_singleton _ _,?_⟩
    intro x hx z hz hplace
    rw [List.mem_singleton.mp hz] at hplace
    have hne : y.1 ≠ x.1 := fun heq => hy (heq ▸ List.mem_map_of_mem hx)
    obtain ⟨pre,post,rfl⟩ := List.append_of_mem hx
    rw [List.append_assoc,List.cons_append] at h hnodup
    have hlast : y ∈ pre ++ x :: (post ++ [y]) := by simp
    have hmem := h.before hnodup rfl hlast hplace hne
    exact hy (List.mem_map_of_mem (List.mem_append_left _ hmem))

end order

end MprMq.Lib
