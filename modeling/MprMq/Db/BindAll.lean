import Mathlib.Algebra.Group.Nat.Even
import MprMq.Db.MysqlDirectStatement
set_option autoImplicit false

/-! What BindAll writes, told position by position. -/

namespace MprMq.Db

/-- A question mark behind an even number of quotes. -/
def isPlaceholder (query : Text) (i : Nat) : Bool :=
  query[i]? = some '?' ∧ Even ((query.take i).count quote)

/-- How many placeholders stand before a position. -/
def ordinal (query : Text) (i : Nat) : Nat := (List.range i).countP (isPlaceholder query)

/-- What is sent for a position of the query: the parameter of a placeholder, or the character. -/
def placed (query : Text) (params : List Text) (i : Nat) : Text :=
  if isPlaceholder query i then params.getD (ordinal query i) [] else query[i]?.toList

def substituted (query : Text) (params : List Text) : Text :=
  (List.range query.length).flatMap (placed query params)

def placeholdersFrom (query : Text) (i : Nat) : List Nat :=
  (List.range' i (query.length-i)).filter (isPlaceholder query)

theorem isPlaceholder_here (pre : Text) (c : Char) (text : Text) :
    isPlaceholder (pre ++ c :: text) pre.length = decide (c = '?' ∧ Even (pre.count quote)) := by
  simp [isPlaceholder]

theorem placeholdersFrom_end (query : Text) : placeholdersFrom query query.length = [] := by
  rw [placeholdersFrom,Nat.sub_self]
  rfl

theorem placeholdersFrom_next {query : Text} {i : Nat} (h : i < query.length) :
    placeholdersFrom query i =
      if isPlaceholder query i then i :: placeholdersFrom query (i+1)
      else placeholdersFrom query (i+1) := by
  have hlength : query.length-i = query.length-(i+1)+1 := by omega
  rw [placeholdersFrom,hlength,List.range'_succ,List.filter_cons]
  rfl

theorem count_quote (pre : Text) : (pre ++ [quote]).count quote = pre.count quote+1 := by
  rw [List.count_append,List.count_singleton_self]

theorem count_other (pre : Text) {c : Char} (h : c ≠ quote) :
    (pre ++ [c]).count quote = pre.count quote := by
  simp [List.count_append,h]

def scanned (pre : Text) (marks : List Nat) : Scan :=
  ⟨!decide (Even (pre.count quote)),marks.length,marks⟩

theorem scanned_toggle (pre : Text) (c : Char) (marks : List Nat) :
    (scanned pre marks).toggle c = scanned (pre ++ [c]) marks := by
  unfold Scan.toggle scanned
  split
  · rename_i hc
    rw [hc,count_quote]
    by_cases heven : Even (pre.count quote) <;> simp [heven,Nat.even_add_one]
  · rw [count_other pre ‹_›]

theorem scanned_mark (pre : Text) (c : Char) (text : Text) (marks : List Nat) :
    (scanned (pre ++ [c]) marks).mark pre.length c = scanned (pre ++ [c])
      (if isPlaceholder (pre ++ c :: text) pre.length then marks ++ [pre.length] else marks) := by
  have hiff : (c = '?' ∧ (scanned (pre ++ [c]) marks).insideText = false) ↔
      isPlaceholder (pre ++ c :: text) pre.length = true := by
    rw [isPlaceholder_here,decide_eq_true_iff]
    refine and_congr_right fun hc => ?_
    rw [hc,scanned,count_other pre (by decide)]
    simp
  unfold Scan.mark
  by_cases hmark : isPlaceholder (pre ++ c :: text) pre.length = true
  · rw [if_pos (hiff.mpr hmark),if_pos hmark]
    simp [scanned]
  · rw [if_neg (mt hiff.mp hmark),if_neg hmark]

theorem scan_placeholders (pre text : Text) (marks : List Nat) :
    scan (scanned pre marks) pre.length text =
      scanned (pre ++ text) (marks ++ placeholdersFrom (pre ++ text) pre.length) := by
  induction text generalizing pre marks with
  | nil => rw [List.append_nil,placeholdersFrom_end,List.append_nil]; rfl
  | cons c text ih =>
    have hpre : pre ++ c :: text = (pre ++ [c]) ++ text := by rw [List.append_assoc]; rfl
    have hlength : (pre ++ [c]).length = pre.length+1 := List.length_append
    have hhere : pre.length < (pre ++ c :: text).length := by simp
    have hrest := ih (pre ++ [c])
      (if isPlaceholder (pre ++ c :: text) pre.length then marks ++ [pre.length] else marks)
    rw [hlength,← hpre] at hrest
    rw [scan,scanned_toggle,scanned_mark pre c text marks,hrest,
      placeholdersFrom_next hhere]
    split
    · rw [List.append_assoc]
      rfl
    · rfl

theorem ordinal_next (query : Text) (i : Nat) :
    ordinal query (i+1) = ordinal query i+(if isPlaceholder query i then 1 else 0) := by
  rw [ordinal,List.range_succ,List.countP_append,List.countP_singleton]
  rfl

theorem take_next (query : Text) {pos i : Nat} (hpos : pos ≤ i) :
    (query.drop pos).take (i+1-pos) = (query.drop pos).take (i-pos) ++ query[i]?.toList := by
  have hlength : i+1-pos = (i-pos)+1 := by omega
  rw [hlength,List.take_add_one,List.getElem?_drop]
  congr 3
  omega

theorem splice_from (query : Text) (params : List Text) (n : Nat) {pos i : Nat} (hpos : pos ≤ i)
    (hi : i+n = query.length)
    (hparams : ordinal query i+(placeholdersFrom query i).length = params.length) :
    MysqlDirectStatement.splice query pos
        ((placeholdersFrom query i).zip (params.drop (ordinal query i))) =
      (query.drop pos).take (i-pos) ++ (List.range' i n).flatMap (placed query params) := by
  induction n generalizing pos i with
  | zero =>
    obtain rfl : i = query.length := by omega
    rw [placeholdersFrom_end,List.zip_nil_left,MysqlDirectStatement.splice,
      List.take_of_length_le (by rw [List.length_drop])]
    simp
  | succ n ih =>
    have hnext := ordinal_next query i
    rw [placeholdersFrom_next (by omega)] at hparams ⊢
    rw [List.range'_succ,List.flatMap_cons]
    by_cases hmark : isPlaceholder query i = true
    · rw [if_pos hmark] at hnext hparams ⊢
      rw [List.length_cons] at hparams
      have hk : ordinal query i < params.length := by omega
      rw [List.drop_eq_getElem_cons hk,List.zip_cons_cons,MysqlDirectStatement.splice,← hnext,
        ih (Nat.le_refl (i+1)) (by omega) (by omega),placed,if_pos hmark,
        List.getD_eq_getElem?_getD,List.getElem?_eq_getElem hk,Option.getD_some,Nat.sub_self,
        List.take_zero,List.nil_append,List.append_assoc]
    · rw [if_neg hmark] at hnext hparams ⊢
      rw [Nat.add_zero (ordinal query i)] at hnext
      rw [← hnext] at hparams ⊢
      rw [ih (by omega) (by omega) (by omega),take_next query hpos,placed,
        if_neg hmark,List.append_assoc]

theorem ordinal_zero (query : Text) : ordinal query 0 = 0 := rfl

theorem ordinal_length (query : Text) :
    (placeholdersFrom query 0).length = ordinal query query.length := by
  rw [placeholdersFrom,ordinal,List.countP_eq_length_filter,List.range_eq_range',Nat.sub_zero]

/-- The statements that the calls on a new statement of a query lead to. -/
inductive Prepared (query : Text) : MysqlDirectStatement → Prop where
  | new {st : MysqlDirectStatement} : MysqlDirectStatement.new query = some st → Prepared query st
  | bind {Time Double : Type} {client : Client Time Double} {now : Memory} {col : Int}
      {arg : Arg Time Double} {st st' : MysqlDirectStatement} : Prepared query st →
      st.bind client now col arg = some st' → Prepared query st'
  | query {st : MysqlDirectStatement} : Prepared query st → Prepared query st.query.2
  | execute {st : MysqlDirectStatement} : Prepared query st → Prepared query st.execute.2
  | reset {st : MysqlDirectStatement} : Prepared query st → Prepared query st.reset

structure Laid (query : Text) (st : MysqlDirectStatement) : Prop where
  sqlQuery : st.sqlQuery = query
  binders : st.binders = placeholdersFrom query 0
  paramsNo : st.paramsNo = ordinal query query.length
  params : st.params.length = ordinal query query.length

theorem new_laid {query : Text} {st : MysqlDirectStatement}
    (h : MysqlDirectStatement.new query = some st) : Laid query st := by
  have hscan : scan ⟨false,0,[]⟩ 0 query = scanned query (placeholdersFrom query 0) :=
    scan_placeholders [] query []
  simp only [MysqlDirectStatement.new,hscan] at h
  split at h
  · cases h
  · cases h
    exact ⟨rfl,rfl,ordinal_length query,List.length_replicate.trans (ordinal_length query)⟩

theorem new_isSome (query : Text) :
    (∃ st, MysqlDirectStatement.new query = some st) ↔ Even (query.count quote) := by
  have hscan : scan ⟨false,0,[]⟩ 0 query = scanned query (placeholdersFrom query 0) :=
    scan_placeholders [] query []
  simp only [MysqlDirectStatement.new,hscan]
  by_cases heven : Even (query.count quote) <;> simp [scanned,heven]

theorem Prepared.laid {query : Text} {st : MysqlDirectStatement} (h : Prepared query st) :
    Laid query st := by
  induction h with
  | new h => exact new_laid h
  | bind _ hbind ih =>
    obtain ⟨i,-,rfl⟩ := Option.map_eq_some_iff.mp hbind
    exact ⟨ih.sqlQuery,ih.binders,ih.paramsNo,List.length_set.trans ih.params⟩
  | query _ ih => exact ih
  | execute _ ih =>
    exact ⟨ih.sqlQuery,ih.binders,ih.paramsNo,List.length_replicate.trans ih.paramsNo⟩
  | reset _ ih => exact ih

theorem Laid.bindAll {query : Text} {st : MysqlDirectStatement} (h : Laid query st)
    {params : List Text} (hparams : params.length = st.params.length) :
    MysqlDirectStatement.bindAll { st with params := params } = substituted query params := by
  have hsplice := splice_from query params query.length (Nat.le_refl 0) (Nat.zero_add _)
    (by rw [ordinal_zero,Nat.zero_add,ordinal_length,hparams,h.params])
  rw [ordinal_zero,List.drop_zero,Nat.sub_zero,List.take_zero,List.nil_append] at hsplice
  rw [MysqlDirectStatement.bindAll,MysqlDirectStatement.markers,h.sqlQuery,h.binders,hsplice,
    substituted,List.range_eq_range']

/-- What BindAll sends is the query with each placeholder replaced by its parameter. -/
theorem bindAll_substitutes (query : Text) (hquotes : Even (query.count quote)) :
    (∃ st, MysqlDirectStatement.new query = some st) ∧ ∀ st, Prepared query st →
      st.binders.Pairwise (· < ·) ∧ (∀ marker ∈ st.binders, marker < query.length) ∧
      st.binders.length = st.params.length ∧
      ∀ params : List Text, params.length = st.params.length →
        MysqlDirectStatement.bindAll { st with params := params } = substituted query params := by
  refine ⟨(new_isSome query).mpr hquotes,fun st hst => ?_⟩
  have h := hst.laid
  refine ⟨?_,?_,?_,fun params hparams => h.bindAll hparams⟩
  · rw [h.binders]
    exact List.Pairwise.filter _ List.pairwise_lt_range'
  · intro marker hmarker
    rw [h.binders,placeholdersFrom,List.mem_filter,List.mem_range'_1] at hmarker
    omega
  · rw [h.binders,ordinal_length,h.params]

theorem quoted_mark_stays :
    (∃ st, MysqlDirectStatement.new [quote,'?',quote,'?'] = some st) ∧
      ∀ st, Prepared [quote,'?',quote,'?'] st →
        st.binders.Pairwise (· < ·) ∧ (∀ marker ∈ st.binders, marker < 4) ∧
        st.binders.length = st.params.length ∧
        ∀ params : List Text, params.length = st.params.length →
          MysqlDirectStatement.bindAll { st with params := params } =
            substituted [quote,'?',quote,'?'] params :=
  bindAll_substitutes [quote,'?',quote,'?'] (by decide)

example : substituted [quote,'?',quote,'?'] [['?']] = [quote,'?',quote,'?'] := by decide

example : substituted ['?','a','?'] [[quote],['?','?']] = [quote,'a','?','?'] := by decide

end MprMq.Db
