import Mathlib.Data.List.Perm.Basic
import Mathlib.Data.List.Nodup
import MprMq.Lib.Recency
import MprMq.Lib.SizeT
set_option autoImplicit false

/-! `DBStatementCache::Data`: a map from query texts to statements and a list of
iterators into that map, most recently inserted first. Nodes of both containers
carry an address, and an operation through an iterator whose node is gone is
undefined (`none`), so a stale iterator cannot go unnoticed. -/

namespace MprMq.Db
open MprMq.Lib

abbrev Query := List Char

/-- A `DBStatement*`: the object and the query text it was made from. -/
structure DBStatement where
  id : Nat
  sqlQuery : Query
  deriving DecidableEq, Repr

/-- A node of `DBStatementsType`, with the two fields of its `Entry`. -/
structure MapNode where
  it : Nat
  key : Query
  dbStatement : DBStatement
  lruPtr : Nat
  deriving DecidableEq, Repr

/-- A node of `LruType`: its own address and the map iterator stored in it. -/
structure LruNode where
  ptr : Nat
  it : Nat
  deriving DecidableEq, Repr

structure Data where
  dbStatements : List MapNode
  lru : List LruNode
  size : Nat
  maxSize : Nat
  fresh : Nat
  deriving DecidableEq, Repr

def Data.new (maxSize : Nat) : Data := ⟨[],[],0,maxSize,0⟩

def Data.find (d : Data) (query : Query) : Option MapNode :=
  d.dbStatements.find? (fun n => n.key = query)

def Data.node (d : Data) (it : Nat) : Option MapNode :=
  d.dbStatements.find? (fun n => n.it = it)

def Data.eraseNode (d : Data) (it : Nat) : Option Data :=
  (d.node it).map (fun _ =>
    { d with dbStatements := d.dbStatements.filter (fun n => n.it ≠ it) })

def Data.eraseLru (d : Data) (ptr : Nat) : Option Data :=
  (d.lru.find? (fun n => n.ptr = ptr)).map (fun _ =>
    { d with lru := d.lru.filter (fun n => n.ptr ≠ ptr) })

def Data.update (d : Data) (it : Nat) (f : MapNode → MapNode) : Data :=
  { d with dbStatements := d.dbStatements.map (fun n => if n.it = it then f n else n) }

def Data.pushFront (d : Data) (it : Nat) : Data :=
  { d with lru := ⟨d.fresh,it⟩ :: d.lru, fresh := d.fresh+1 }.update it
    (fun n => { n with lruPtr := d.fresh })

/-- The eviction branch of `Insert`, with the statement it lets go. -/
def Data.evict (d : Data) : Option (Data × List DBStatement) :=
  if d.size > 0 ∧ d.size ≥ d.maxSize then do
    let back ← d.lru.getLast?
    let node ← d.node back.it
    let d ← d.eraseNode back.it
    pure ({ d with lru := d.lru.dropLast, size := SizeT.dec d.size },[node.dbStatement])
  else some (d,[])

/-- `Insert`, with the statement whose reference the cache lets go: the one
replaced under the same query, or the one evicted. -/
def Data.insert (d : Data) (statement : DBStatement) :
    Option (Data × List DBStatement) :=
  match d.find statement.sqlQuery with
  | some node => do
    let d := d.update node.it (fun n => { n with dbStatement := statement })
    let d ← d.eraseLru node.lruPtr
    pure (d.pushFront node.it,[node.dbStatement])
  | none => do
    let (d,dropped) ← d.evict
    let it := d.fresh
    let d := { d with
      dbStatements := ⟨it,statement.sqlQuery,statement,0⟩ :: d.dbStatements, fresh := it+1 }
    let d := d.pushFront it
    pure ({ d with size := d.size+1 },dropped)

def Data.fetch (d : Data) (query : Query) : Option (Data × List DBStatement) :=
  match d.find query with
  | none => some (d,[])
  | some node => do
    let d ← d.eraseLru node.lruPtr
    let d ← d.eraseNode node.it
    pure ({ d with size := SizeT.dec d.size },[node.dbStatement])

def Data.clear (d : Data) : Data := { d with lru := [], dbStatements := [], size := 0 }

inductive DataOp where
  | insert : DBStatement → DataOp
  | fetch : Query → DataOp
  | clear : DataOp
  deriving DecidableEq, Repr

def Data.step (d : Data) : DataOp → Option (Data × List DBStatement)
  | .insert statement => d.insert statement
  | .fetch query => d.fetch query
  | .clear => some (d.clear,[])

def Data.exec : Data → List DataOp → Option (Data × List (List DBStatement))
  | d, [] => some (d,[])
  | d, op :: ops => do
    let (d,out) ← d.step op
    let (d,outs) ← d.exec ops
    pure (d,out :: outs)

/-- The queries and statements the cache holds, read by following `lru`. -/
def Data.recency (d : Data) : List (Query × DBStatement) :=
  d.lru.filterMap (fun l => (d.node l.it).map (fun n => (n.key,n.dbStatement)))

def DataOp.abstract : DataOp → Recency.Op Query DBStatement
  | .insert statement => .insert statement.sqlQuery statement
  | .fetch query => .fetch query
  | .clear => .clear

/-- `ns` lists the map's nodes in the order of `lru`; every pointer between the
two containers is there and goes both ways. -/
structure Data.Linked (d : Data) (ns : List MapNode) : Prop where
  perm : d.dbStatements.Perm ns
  lru : d.lru = ns.map (fun n => ⟨n.lruPtr,n.it⟩)
  keys : (ns.map MapNode.key).Nodup
  its : (ns.map MapNode.it).Nodup
  ptrs : (ns.map MapNode.lruPtr).Nodup
  it_lt : ∀ n ∈ ns, n.it < d.fresh
  ptr_lt : ∀ n ∈ ns, n.lruPtr < d.fresh
  query : ∀ n ∈ ns, n.dbStatement.sqlQuery = n.key
  size : d.size = ns.length

def pairs (ns : List MapNode) : List (Query × DBStatement) :=
  ns.map (fun n => (n.key,n.dbStatement))

/-- With distinct values of `f`, the first match of a member's value is the member. -/
theorem find_of_nodup {β : Type} [DecidableEq β] {f : MapNode → β} {ns : List MapNode}
    (hd : (ns.map f).Nodup) {n : MapNode} (hn : n ∈ ns) :
    ns.find? (fun m => f m = f n) = some n := by
  induction ns with
  | nil => simp at hn
  | cons m ns ih =>
    simp only [List.map_cons,List.nodup_cons] at hd
    by_cases h : f m = f n
    · rcases List.mem_cons.mp hn with rfl | hn
      · simp
      · exact absurd (h ▸ List.mem_map_of_mem hn) hd.1
    · rcases List.mem_cons.mp hn with rfl | hn
      · exact absurd rfl h
      · simpa [h] using ih hd.2 hn

theorem find_perm {β : Type} [DecidableEq β] {f : MapNode → β} {ms ns : List MapNode}
    (hp : ms.Perm ns) (hd : (ns.map f).Nodup) (b : β) :
    ms.find? (fun m => f m = b) = ns.find? (fun m => f m = b) := by
  have hd' : (ms.map f).Nodup := (hp.map f).nodup_iff.mpr hd
  cases h : ns.find? (fun m => f m = b) with
  | none =>
    rw [List.find?_eq_none] at h ⊢
    exact fun m hm => h m (hp.subset hm)
  | some n =>
    have hb : f n = b := by simpa using List.find?_some h
    subst hb
    exact find_of_nodup hd' (hp.symm.subset (List.mem_of_find?_eq_some h))

theorem filter_ne_congr {β γ : Type} [DecidableEq β] [DecidableEq γ] {f : MapNode → β}
    {g : MapNode → γ} {ns : List MapNode} (hf : (ns.map f).Nodup) (hg : (ns.map g).Nodup)
    {n : MapNode} (hn : n ∈ ns) :
    ns.filter (fun m => f m ≠ f n) = ns.filter (fun m => g m ≠ g n) := by
  apply List.filter_congr
  intro m hm
  have h : f m = f n ↔ g m = g n := by
    constructor
    · intro h; rw [List.inj_on_of_nodup_map hf hm hn h]
    · intro h; rw [List.inj_on_of_nodup_map hg hm hn h]
  simp [h]

def others (n : MapNode) (ns : List MapNode) : List MapNode :=
  ns.filter (fun m => m.it ≠ n.it)

theorem perm_others {n : MapNode} {ns : List MapNode} (hd : (ns.map MapNode.it).Nodup)
    (hn : n ∈ ns) : ns.Perm (n :: others n ns) := by
  have hf : others n ns = ns.erase n := by
    rw [List.Nodup.erase_eq_filter (List.Nodup.of_map _ hd)]
    apply List.filter_congr
    intro m hm
    have h : m.it = n.it ↔ m = n := by
      constructor
      · exact List.inj_on_of_nodup_map hd hm hn
      · intro h; rw [h]
    by_cases hmn : m = n
    · simp [hmn]
    · simp [h,hmn]
  rw [hf]
  exact List.perm_cons_erase hn

theorem others_of_not_mem {n : MapNode} {ns : List MapNode}
    (h : ∀ m ∈ ns, m.it ≠ n.it) : others n ns = ns :=
  List.filter_eq_self.mpr (fun m hm => by simpa using h m hm)

/-- Changing the one node with a given address, seen from the recency order. -/
theorem map_update_perm {n : MapNode} {ns : List MapNode} (hd : (ns.map MapNode.it).Nodup)
    (hn : n ∈ ns) (f : MapNode → MapNode) :
    (ns.map (fun m => if m.it = n.it then f m else m)).Perm (f n :: others n ns) := by
  have hp := (perm_others hd hn).map (fun m => if m.it = n.it then f m else m)
  have ho : (others n ns).map (fun m => if m.it = n.it then f m else m) = others n ns := by
    conv_rhs => rw [← List.map_id (others n ns)]
    apply List.map_congr_left
    intro m hm
    have hne : m.it ≠ n.it := by simpa [others] using (List.mem_filter.mp hm).2
    simp [hne]
  simpa [ho] using hp

theorem Data.Linked.node {d : Data} {ns : List MapNode} (h : d.Linked ns) {n : MapNode}
    (hn : n ∈ ns) : d.node n.it = some n := by
  rw [Data.node,find_perm h.perm h.its]
  exact find_of_nodup h.its hn

theorem Data.Linked.find {d : Data} {ns : List MapNode} (h : d.Linked ns) (query : Query) :
    d.find query = ns.find? (fun n => n.key = query) := find_perm h.perm h.keys query

theorem Data.Linked.recency {d : Data} {ns : List MapNode} (h : d.Linked ns) :
    d.recency = pairs ns := by
  rw [Data.recency,h.lru,List.filterMap_map,pairs,← List.filterMap_eq_map]
  apply List.filterMap_congr
  intro n hn
  simp [h.node hn]

theorem Data.Linked.not_mem_keys {d : Data} {ns : List MapNode} (h : d.Linked ns)
    {query : Query} (hf : d.find query = none) : query ∉ ns.map MapNode.key := by
  rw [h.find,List.find?_eq_none] at hf
  intro hm
  obtain ⟨n,hn,hk⟩ := List.mem_map.mp hm
  exact absurd hk (by simpa using hf n hn)

theorem Data.Linked.mem_of_find {d : Data} {ns : List MapNode} (h : d.Linked ns)
    {query : Query} {n : MapNode} (hf : d.find query = some n) : n ∈ ns ∧ n.key = query := by
  rw [h.find] at hf
  exact ⟨List.mem_of_find?_eq_some hf,by simpa using List.find?_some hf⟩

theorem Data.Linked.eraseLru {d : Data} {ns : List MapNode} (h : d.Linked ns) {n : MapNode}
    (hn : n ∈ ns) : d.eraseLru n.lruPtr =
      some { d with lru := (others n ns).map (fun m => ⟨m.lruPtr,m.it⟩) } := by
  have hmem : (⟨n.lruPtr,n.it⟩ : LruNode) ∈ d.lru := by
    rw [h.lru]
    exact List.mem_map_of_mem hn
  have hfind : ∃ l, d.lru.find? (fun m => m.ptr = n.lruPtr) = some l := by
    cases hf : d.lru.find? (fun m => m.ptr = n.lruPtr) with
    | some l => exact ⟨l,rfl⟩
    | none =>
      rw [List.find?_eq_none] at hf
      have hne := hf _ hmem
      simp at hne
  obtain ⟨l,hl⟩ := hfind
  have hfilter : d.lru.filter (fun m => m.ptr ≠ n.lruPtr) =
      (others n ns).map (fun m => ⟨m.lruPtr,m.it⟩) := by
    rw [h.lru,List.filter_map,others,filter_ne_congr h.its h.ptrs hn]
    rfl
  simp only [Data.eraseLru,hl,Option.map_some,hfilter]

theorem pairs_others {n : MapNode} {ns : List MapNode} (hi : (ns.map MapNode.it).Nodup)
    (hk : (ns.map MapNode.key).Nodup) (hn : n ∈ ns) :
    pairs (others n ns) = Recency.erase n.key (pairs ns) := by
  rw [others,filter_ne_congr hi hk hn,pairs,pairs,Recency.erase,List.filter_map]
  rfl

theorem keys_pairs (ns : List MapNode) : Recency.keys (pairs ns) = ns.map MapNode.key := by
  simp [Recency.keys,pairs,Function.comp_def]

theorem value_pairs {n : MapNode} {ns : List MapNode} (hk : (ns.map MapNode.key).Nodup)
    (hn : n ∈ ns) : Recency.value n.key (pairs ns) = some n.dbStatement := by
  have h := find_of_nodup hk hn
  simp only [Recency.value,pairs,List.find?_map,Function.comp_def,h,Option.map_some]

theorem Data.Linked.remove {d : Data} {ns : List MapNode} (h : d.Linked ns) {n : MapNode}
    (hn : n ∈ ns) {ms : List MapNode} (hms : ms.Perm (others n ns)) :
    ({ d with dbStatements := ms, lru := (others n ns).map (fun m => ⟨m.lruPtr,m.it⟩),
              size := SizeT.dec d.size } : Data).Linked (others n ns) := by
  have hsub : (others n ns).Sublist ns := List.filter_sublist
  have hlen : ns.length = (others n ns).length+1 := by
    simpa using (perm_others h.its hn).length_eq
  exact {
    perm := hms
    lru := rfl
    keys := h.keys.sublist (hsub.map _)
    its := h.its.sublist (hsub.map _)
    ptrs := h.ptrs.sublist (hsub.map _)
    it_lt := fun m hm => h.it_lt m (hsub.subset hm)
    ptr_lt := fun m hm => h.ptr_lt m (hsub.subset hm)
    query := fun m hm => h.query m (hsub.subset hm)
    size := by simp [h.size,hlen] }

theorem Data.Linked.fetch {d : Data} {ns : List MapNode} (h : d.Linked ns) (query : Query) :
    ∃ d' ns', d.fetch query = some (d',(Recency.value query (pairs ns)).toList) ∧
      d'.Linked ns' ∧ pairs ns' = Recency.erase query (pairs ns) ∧ d'.maxSize = d.maxSize := by
  cases hf : d.find query with
  | none =>
    have hk := h.not_mem_keys hf
    rw [← keys_pairs] at hk
    refine ⟨d,ns,?_,h,(Recency.erase_of_not_mem hk).symm,rfl⟩
    simp [Data.fetch,hf,Recency.value_of_not_mem hk]
  | some n =>
    obtain ⟨hn,rfl⟩ := h.mem_of_find hf
    have hr := h.remove hn (h.perm.filter (fun m => m.it ≠ n.it))
    refine ⟨_,others n ns,?_,hr,pairs_others h.its h.keys hn,rfl⟩
    have hnode : ({ d with lru := (others n ns).map (fun m => ⟨m.lruPtr,m.it⟩) } : Data).node
        n.it = some n := h.node hn
    simp [Data.fetch,hf,h.eraseLru hn,Data.eraseNode,hnode,value_pairs h.keys hn]

/-- A node at the front of both containers, over a linked rest. -/
theorem Data.Linked.front {d d' : Data} {ns : List MapNode} {n : MapNode} (h : d.Linked ns)
    (hp : d'.dbStatements.Perm (n :: ns)) (hl : d'.lru = ⟨n.lruPtr,n.it⟩ :: d.lru)
    (hk : n.key ∉ ns.map MapNode.key) (hi : n.it ∉ ns.map MapNode.it)
    (hit : n.it < d'.fresh) (hold : d.fresh ≤ n.lruPtr) (hptr : n.lruPtr < d'.fresh)
    (hq : n.dbStatement.sqlQuery = n.key) (hs : d'.size = ns.length+1) :
    d'.Linked (n :: ns) where
  perm := hp
  lru := by rw [hl,h.lru,List.map_cons]
  keys := List.nodup_cons.mpr ⟨hk,h.keys⟩
  its := List.nodup_cons.mpr ⟨hi,h.its⟩
  ptrs := by
    refine List.nodup_cons.mpr ⟨?_,h.ptrs⟩
    intro hp
    obtain ⟨m,hm,hp⟩ := List.mem_map.mp hp
    have hlt := h.ptr_lt m hm
    omega
  it_lt := by
    intro m hm
    rcases List.mem_cons.mp hm with rfl | hm
    · exact hit
    · have hlt := h.it_lt m hm
      omega
  ptr_lt := by
    intro m hm
    rcases List.mem_cons.mp hm with rfl | hm
    · exact hptr
    · have hlt := h.ptr_lt m hm
      omega
  query := by
    intro m hm
    rcases List.mem_cons.mp hm with rfl | hm
    · exact hq
    · exact h.query m hm
  size := hs

/-- `Insert` under a query the map holds: the node moves to the front. -/
theorem Data.Linked.replace {d : Data} {ns : List MapNode} (h : d.Linked ns)
    {statement : DBStatement} {n : MapNode} (hf : d.find statement.sqlQuery = some n) :
    ∃ d', d.insert statement = some (d',[n.dbStatement]) ∧ d'.maxSize = d.maxSize ∧
      d'.Linked ({ n with dbStatement := statement, lruPtr := d.fresh } :: others n ns) := by
  obtain ⟨hn,hq⟩ := h.mem_of_find hf
  have hperm := perm_others h.its hn
  have hrest := h.remove hn (h.perm.filter (fun m => m.it ≠ n.it))
  let d₁ : Data := (d.update n.it (fun m => { m with dbStatement := statement }))
  let d₂ : Data := { d₁ with lru := (others n ns).map (fun m => ⟨m.lruPtr,m.it⟩) }
  have herase : d₁.eraseLru n.lruPtr = some d₂ := by
    have he := h.eraseLru hn
    simp only [Data.eraseLru,Option.map_eq_some_iff,Data.mk.injEq] at he
    obtain ⟨l,hl,he⟩ := he
    have hl₁ : d₁.lru.find? (fun m => m.ptr = n.lruPtr) = some l := hl
    simp only [Data.eraseLru,hl₁,Option.map_some,d₂,← he.2.1]
    rfl
  have hms : (d₂.pushFront n.it).dbStatements.Perm
      ({ n with dbStatement := statement, lruPtr := d.fresh } :: others n ns) := by
    have hm := map_update_perm h.its hn
      (fun m => { m with dbStatement := statement, lruPtr := d.fresh })
    refine List.Perm.trans (List.Perm.of_eq ?_) ((h.perm.map _).trans hm)
    simp only [Data.pushFront,Data.update,d₂,d₁,List.map_map]
    apply List.map_congr_left
    intro m hm
    by_cases hi : m.it = n.it
    · simp [hi]
    · simp [hi]
  refine ⟨d₂.pushFront n.it,?_,rfl,hrest.front hms rfl ?_ ?_ ?_ ?_ ?_ ?_ ?_⟩
  · simp only [Data.insert,hf]
    change (do
      let d ← d₁.eraseLru n.lruPtr
      pure (d.pushFront n.it,[n.dbStatement])) = _
    rw [herase]
    rfl
  · exact (List.nodup_cons.mp ((hperm.map MapNode.key).nodup_iff.mp h.keys)).1
  · exact (List.nodup_cons.mp ((hperm.map MapNode.it).nodup_iff.mp h.its)).1
  · exact Nat.lt_succ_of_lt (h.it_lt n hn)
  · exact Nat.le_refl d.fresh
  · exact Nat.lt_succ_self d.fresh
  · exact hq.symm
  · have hs := hperm.length_eq
    simpa [Data.pushFront,Data.update,d₂,d₁,h.size] using hs

/-- The eviction branch drops the last node of the recency order when the cache
is full and nothing otherwise. -/
theorem Data.Linked.evict {d : Data} {ns : List MapNode} (h : d.Linked ns) :
    ∃ d' ns', d'.Linked ns' ∧ d'.maxSize = d.maxSize ∧ d'.fresh = d.fresh ∧
      (∀ n ∈ ns', n ∈ ns) ∧
      d.evict = some (d',if max 1 d.maxSize ≤ ns.length
        then ((pairs ns).getLast?.map Prod.snd).toList else []) ∧
      pairs ns' = if max 1 d.maxSize ≤ ns.length then (pairs ns).dropLast else pairs ns := by
  have hsize := h.size
  by_cases hfull : max 1 d.maxSize ≤ ns.length
  · have hpos : d.size > 0 ∧ d.size ≥ d.maxSize := by omega
    have hne : ns ≠ [] := by
      intro hn
      simp [hn] at hfull
    obtain ⟨init,n,rfl⟩ := (List.eq_nil_or_concat' ns).resolve_left hne
    have hn : n ∈ init ++ [n] := by simp
    have ho : others n (init ++ [n]) = init := by
      have hd := h.its
      rw [List.map_append,List.nodup_append] at hd
      have hinit : others n init = init := others_of_not_mem (fun m hm =>
        hd.2.2 m.it (List.mem_map_of_mem hm) n.it (by simp))
      simp only [others] at hinit
      rw [others,List.filter_append,hinit]
      simp
    have hr := h.remove hn (h.perm.filter (fun m => m.it ≠ n.it))
    rw [ho] at hr
    refine ⟨_,init,hr,rfl,rfl,fun m hm => by simp [hm],?_,?_⟩
    · rw [if_pos hfull]
      simp [Data.evict,hpos,h.node hn,Data.eraseNode,h.lru,pairs]
    · rw [if_pos hfull]
      simp [pairs]
  · have hpos : ¬ (d.size > 0 ∧ d.size ≥ d.maxSize) := by omega
    exact ⟨d,ns,h,rfl,rfl,fun m hm => hm,by simp [Data.evict,hpos,hfull],by simp [hfull]⟩

theorem Data.Linked.add {d : Data} {ns : List MapNode} (h : d.Linked ns)
    {statement : DBStatement} (hk : statement.sqlQuery ∉ ns.map MapNode.key) :
    let d₁ : Data := { d with
      dbStatements := ⟨d.fresh,statement.sqlQuery,statement,0⟩ :: d.dbStatements,
      fresh := d.fresh+1 }
    let d₂ := d₁.pushFront d.fresh
    ({ d₂ with size := d₂.size+1 } : Data).Linked
      (⟨d.fresh,statement.sqlQuery,statement,d.fresh+1⟩ :: ns) := by
  intro d₁ d₂
  have hms : d₂.dbStatements =
      ⟨d.fresh,statement.sqlQuery,statement,d.fresh+1⟩ :: d.dbStatements := by
    have hrest : d.dbStatements.map
        (fun m => if m.it = d.fresh then { m with lruPtr := d.fresh+1 } else m) =
        d.dbStatements := by
      conv_rhs => rw [← List.map_id d.dbStatements]
      apply List.map_congr_left
      intro m hm
      have hlt := h.it_lt m (h.perm.subset hm)
      have hne : m.it ≠ d.fresh := by omega
      simp [hne]
    simpa [d₂,d₁,Data.pushFront,Data.update] using hrest
  refine h.front ?_ rfl hk ?_ ?_ ?_ ?_ rfl ?_
  · rw [hms]
    exact h.perm.cons _
  · intro hi
    obtain ⟨m,hm,hi⟩ := List.mem_map.mp hi
    have hlt := h.it_lt m hm
    simp only at hi
    omega
  · change d.fresh < d.fresh+1+1
    omega
  · exact Nat.le_succ d.fresh
  · exact Nat.lt_succ_self (d.fresh+1)
  · simp [d₂,d₁,Data.pushFront,Data.update,h.size]

theorem Data.Linked.insert {d : Data} {ns : List MapNode} (h : d.Linked ns)
    (statement : DBStatement) :
    ∃ d' ns', d.insert statement = some (d',(Recency.insert (max 1 d.maxSize)
        statement.sqlQuery statement (pairs ns)).2) ∧ d'.Linked ns' ∧
      pairs ns' = (Recency.insert (max 1 d.maxSize) statement.sqlQuery statement
        (pairs ns)).1 ∧ d'.maxSize = d.maxSize := by
  cases hf : d.find statement.sqlQuery with
  | some n =>
    obtain ⟨hn,hq⟩ := h.mem_of_find hf
    obtain ⟨d',hi,hmax,hl⟩ := h.replace hf
    have hk : statement.sqlQuery ∈ Recency.keys (pairs ns) := by
      rw [keys_pairs,← hq]
      exact List.mem_map_of_mem hn
    have hv := value_pairs h.keys hn
    have ho := pairs_others h.its h.keys hn
    rw [hq] at hv ho
    refine ⟨d',_,?_,hl,?_,hmax⟩
    · simp [hi,Recency.insert,hk,hv]
    · simp only [Recency.insert,hk,if_true,← ho]
      simp [pairs,hq]
  | none =>
    have hk := h.not_mem_keys hf
    obtain ⟨d₀,ns₀,hl₀,hmax,hfresh,hsub,hevict,hpairs⟩ := h.evict
    have hk₀ : statement.sqlQuery ∉ ns₀.map MapNode.key := by
      intro hm
      obtain ⟨m,hm,hq⟩ := List.mem_map.mp hm
      exact hk (List.mem_map.mpr ⟨m,hsub m hm,hq⟩)
    have hadd := hl₀.add hk₀
    have hlen : (pairs ns).length = ns.length := by simp [pairs]
    rw [← keys_pairs] at hk
    refine ⟨_,_,?_,hadd,?_,?_⟩
    · by_cases hfull : max 1 d.maxSize ≤ ns.length
      · simp only [hfull,if_true] at hevict
        simp only [Data.insert,hf,hevict,Recency.insert,hk,if_false,hlen,hfull,if_true]
        rfl
      · simp only [hfull,if_false] at hevict
        simp only [Data.insert,hf,hevict,Recency.insert,hk,if_false,hlen,hfull]
        rfl
    · by_cases hfull : max 1 d.maxSize ≤ ns.length
      · simp only [hfull,if_true] at hpairs
        simp only [Recency.insert,hk,if_false,hlen,hfull,if_true]
        rw [← hpairs]
        rfl
      · simp only [hfull,if_false] at hpairs
        simp only [Recency.insert,hk,if_false,hlen,hfull]
        rw [← hpairs]
        rfl
    · simpa [Data.pushFront,Data.update] using hmax

theorem Data.Linked.new (maxSize : Nat) : (Data.new maxSize).Linked [] where
  perm := List.Perm.nil
  lru := rfl
  keys := List.nodup_nil
  its := List.nodup_nil
  ptrs := List.nodup_nil
  it_lt := by simp
  ptr_lt := by simp
  query := by simp
  size := rfl

theorem Data.Linked.clear (d : Data) : d.clear.Linked [] where
  perm := List.Perm.nil
  lru := rfl
  keys := List.nodup_nil
  its := List.nodup_nil
  ptrs := List.nodup_nil
  it_lt := by simp
  ptr_lt := by simp
  query := by simp
  size := rfl

/-- One operation on the two containers is one operation on the recency list. -/
theorem Data.Linked.step {d : Data} {ns : List MapNode} (h : d.Linked ns) (op : DataOp) :
    ∃ d' ns', d.step op =
        some (d',(Recency.step (max 1 d.maxSize) (pairs ns) op.abstract).2) ∧ d'.Linked ns' ∧
      pairs ns' = (Recency.step (max 1 d.maxSize) (pairs ns) op.abstract).1 ∧
      d'.maxSize = d.maxSize := by
  cases op with
  | insert statement => exact h.insert statement
  | fetch query => exact h.fetch query
  | clear => exact ⟨d.clear,[],rfl,Data.Linked.clear d,rfl,rfl⟩

theorem Data.Linked.exec {d : Data} {ns : List MapNode} (h : d.Linked ns)
    (ops : List DataOp) :
    ∃ d' ns', d.exec ops = some (d',(Recency.exec (max 1 d.maxSize) (pairs ns)
        (ops.map DataOp.abstract)).2) ∧ d'.Linked ns' ∧
      pairs ns' = (Recency.exec (max 1 d.maxSize) (pairs ns) (ops.map DataOp.abstract)).1 := by
  induction ops generalizing d ns with
  | nil => exact ⟨d,ns,rfl,h,rfl⟩
  | cons op ops ih =>
    obtain ⟨d₁,ns₁,hstep,hl₁,hp₁,hmax⟩ := h.step op
    obtain ⟨d₂,ns₂,hexec,hl₂,hp₂⟩ := ih hl₁
    rw [hmax,hp₁] at hexec hp₂
    refine ⟨d₂,ns₂,?_,hl₂,hp₂⟩
    simp [Data.exec,hstep,hexec,Recency.exec]

/-- The counter and both containers agree, and each node of `lru` points to a
map node of its own that points back. -/
structure Data.WellLinked (d : Data) : Prop where
  entries : d.size = d.dbStatements.length
  nodes : d.size = d.lru.length
  queries : (d.dbStatements.map MapNode.key).Nodup
  distinct : (d.lru.map LruNode.it).Nodup
  back : ∀ l ∈ d.lru, ∃ n ∈ d.dbStatements, n.it = l.it ∧ n.lruPtr = l.ptr

theorem Data.Linked.wellLinked {d : Data} {ns : List MapNode} (h : d.Linked ns) :
    d.WellLinked where
  entries := by rw [h.size,h.perm.length_eq]
  nodes := by rw [h.size,h.lru,List.length_map]
  queries := (h.perm.map MapNode.key).nodup_iff.mpr h.keys
  distinct := by simpa [h.lru,Function.comp_def] using h.its
  back := by
    intro l hl
    rw [h.lru] at hl
    obtain ⟨n,hn,rfl⟩ := List.mem_map.mp hl
    exact ⟨n,h.perm.symm.subset hn,rfl,rfl⟩

theorem exec_recency (maxSize : Nat) (ops : List DataOp) :
    ∃ d outs, (Data.new maxSize).exec ops = some (d,outs) ∧ d.WellLinked ∧
      Recency.exec (max 1 maxSize) [] (ops.map DataOp.abstract) = (d.recency,outs) := by
  obtain ⟨d,ns,hexec,hl,hp⟩ := (Data.Linked.new maxSize).exec ops
  refine ⟨d,_,hexec,hl.wellLinked,?_⟩
  rw [hl.recency,hp]
  rfl

/-- Every sequence of operations is defined, returns what a recency list of
capacity `max 1 max_size` returns, and leaves the cache holding that list: a
beginning of all queries inserted and not fetched or cleared since, each with
the statement last inserted for it. -/
theorem data_refines_recency (maxSize : Nat) (ops : List DataOp) :
    ∃ d outs, (Data.new maxSize).exec ops = some (d,outs) ∧ d.WellLinked ∧
      Recency.exec (max 1 maxSize) [] (ops.map DataOp.abstract) = (d.recency,outs) ∧
      d.recency.length ≤ max 1 maxSize ∧
      d.recency <+: Recency.recent [] (ops.map DataOp.abstract) := by
  obtain ⟨d,outs,hexec,hl,hrec⟩ := exec_recency maxSize ops
  have hkept : d.recency =
      (Recency.exec (max 1 maxSize) [] (ops.map DataOp.abstract)).1 := by rw [hrec]
  refine ⟨d,outs,hexec,hl,hrec,?_,?_⟩
  · rw [hkept]
    exact Recency.exec_length_le (by omega) _ (by simp)
  · rw [hkept]
    exact Recency.exec_prefix_recent _ _ List.prefix_rfl

end MprMq.Db
