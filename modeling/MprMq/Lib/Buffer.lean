import Mathlib.Data.List.TakeDrop
import Mathlib.Tactic.Common
set_option autoImplicit false

/-! Writes into a buffer of fixed size, and what is read back. -/

namespace MprMq.Lib.Buffer
variable {α : Type}

/-- Overwrite from a position on; `none` is a write that would leave the buffer. -/
def put (buf : List α) (pos : Nat) (data : List α) : Option (List α) :=
  if pos+data.length ≤ buf.length then
    some (buf.take pos ++ data ++ buf.drop (pos+data.length))
  else none

theorem put_eq {buf : List α} {pos : Nat} {data : List α} (h : pos+data.length ≤ buf.length) :
    put buf pos data = some (buf.take pos ++ data ++ buf.drop (pos+data.length)) := if_pos h

theorem exists_put (buf : List α) (pos : Nat) (data : List α)
    (h : pos+data.length ≤ buf.length) : ∃ buf', put buf pos data = some buf' := ⟨_,put_eq h⟩

theorem put_length {buf buf' : List α} {pos : Nat} {data : List α}
    (h : put buf pos data = some buf') : buf'.length = buf.length := by
  unfold put at h
  split at h
  · cases h
    simp only [List.length_append,List.length_take,List.length_drop]
    omega
  · cases h

theorem le_of_put {buf buf' : List α} {pos : Nat} {data : List α}
    (h : put buf pos data = some buf') : pos+data.length ≤ buf.length := by
  unfold put at h
  split at h
  · assumption
  · cases h

/-- Two writes side by side are one. -/
theorem put_append (buf : List α) (pos : Nat) (a b : List α) :
    (put buf pos a).bind (fun buf' => put buf' (pos+a.length) b) = put buf pos (a ++ b) := by
  unfold put
  by_cases ha : pos+a.length ≤ buf.length
  · have hlength : (buf.take pos ++ a ++ buf.drop (pos+a.length)).length = buf.length := by
      simp only [List.length_append,List.length_take,List.length_drop]
      omega
    rw [if_pos ha,Option.bind_some,hlength,List.length_append,← Nat.add_assoc]
    by_cases hb : pos+a.length+b.length ≤ buf.length
    · have hpos : (buf.take pos ++ a).length = pos+a.length := by
        simp only [List.length_append,List.length_take]
        omega
      rw [if_pos hb,if_pos hb,List.take_left' hpos,List.drop_append,hpos,
        List.drop_of_length_le (by omega),List.nil_append,Nat.add_sub_cancel_left,List.drop_drop]
      simp only [List.append_assoc]
    · rw [if_neg hb,if_neg hb]
  · rw [if_neg ha,if_neg (by rw [List.length_append]; omega)]
    rfl

theorem put_at_start {buf data : List α} (h : data.length ≤ buf.length) :
    put buf 0 data = some (data ++ buf.drop data.length) := by
  rw [put_eq (by omega),List.take_zero,List.nil_append,Nat.zero_add]

/-- What stands at a position; `none` is a read that would leave the buffer. -/
def get (buf : List α) (pos n : Nat) : Option (List α) :=
  if pos+n ≤ buf.length then some ((buf.drop pos).take n) else none

theorem le_of_get {buf data : List α} {pos n : Nat} (h : get buf pos n = some data) :
    pos+n ≤ buf.length ∧ data = (buf.drop pos).take n := by
  unfold get at h
  split at h
  · exact ⟨‹_›,(Option.some.inj h).symm⟩
  · cases h

theorem get_all (buf : List α) : get buf 0 buf.length = some buf := by
  rw [get,if_pos (by omega),List.drop_zero,List.take_length]

theorem length_of_get {buf data : List α} {pos n : Nat} (h : get buf pos n = some data) :
    data.length = n := by
  obtain ⟨hle,rfl⟩ := le_of_get h
  rw [List.length_take,List.length_drop]
  omega

theorem get_part {buf data : List α} {pos n i k : Nat} (h : get buf pos n = some data)
    (hk : i+k ≤ n) : get buf (pos+i) k = some ((data.drop i).take k) := by
  obtain ⟨hle,rfl⟩ := le_of_get h
  rw [get,if_pos (by omega),List.drop_take,List.take_take,List.drop_drop,
    Nat.min_eq_left (by omega)]

/-- Two buffers that begin alike. -/
theorem get_same {buf buf' data : List α} {n i k : Nat} (h : get buf 0 n = some data)
    (h' : get buf' 0 n = some data) (hk : i+k ≤ n) : get buf' i k = get buf i k := by
  have hpart := get_part h hk
  have hpart' := get_part h' hk
  rw [Nat.zero_add] at hpart hpart'
  rw [hpart,hpart']

theorem get_append {buf a b : List α} {pos n m : Nat} (ha : get buf pos n = some a)
    (hb : get buf (pos+n) m = some b) : get buf pos (n+m) = some (a ++ b) := by
  obtain ⟨hle,rfl⟩ := le_of_get ha
  obtain ⟨hle',rfl⟩ := le_of_get hb
  rw [get,if_pos (by omega),List.take_add,List.drop_drop]

theorem get_put {buf buf' data : List α} {pos : Nat} (h : put buf pos data = some buf') :
    get buf' pos data.length = some data := by
  have hle := le_of_put h
  have hlength := put_length h
  rw [put_eq hle] at h
  rw [get,if_pos (by omega)]
  cases h
  have hpos : (buf.take pos).length = pos := by
    rw [List.length_take]
    omega
  rw [List.append_assoc,List.drop_left' hpos,List.take_left]

theorem get_put_before {buf buf' data : List α} {pos i n : Nat} (h : put buf pos data = some buf')
    (hi : i+n ≤ pos) : get buf' i n = get buf i n := by
  have hle := le_of_put h
  have hlength := put_length h
  rw [put_eq hle] at h
  rw [get,get,if_pos (by omega),if_pos (by omega)]
  cases h
  rw [List.append_assoc,List.drop_append_of_le_length (by rw [List.length_take]; omega),
    List.take_append_of_le_length (by rw [List.length_drop,List.length_take]; omega),
    List.drop_take,List.take_take,Nat.min_eq_left (by omega)]

theorem get_put_after {buf buf' data : List α} {pos i n : Nat} (h : put buf pos data = some buf')
    (hi : pos+data.length ≤ i) : get buf' i n = get buf i n := by
  have hle := le_of_put h
  have hlength := put_length h
  rw [put_eq hle] at h
  have hdrop : buf'.drop i = buf.drop i := by
    cases h
    have hpos : (buf.take pos ++ data).length = pos+data.length := by
      rw [List.length_append,List.length_take]
      omega
    rw [List.drop_append,hpos,List.drop_of_length_le (by omega),List.nil_append,List.drop_drop]
    congr 1
    omega
  rw [get,get,hlength,hdrop]

def resize (fill : α) (buf : List α) (n : Nat) : List α :=
  buf.take n ++ List.replicate (n-buf.length) fill

@[simp] theorem length_resize (fill : α) (buf : List α) (n : Nat) :
    (resize fill buf n).length = n := by
  rw [resize,List.length_append,List.length_take,List.length_replicate]
  omega

theorem get_resize {fill : α} {buf data : List α} {pos k n : Nat}
    (h : get buf pos k = some data) (hn : pos+k ≤ n) :
    get (resize fill buf n) pos k = some data := by
  obtain ⟨hle,rfl⟩ := le_of_get h
  rw [get,length_resize,if_pos hn,resize,
    List.drop_append_of_le_length (by rw [List.length_take]; omega),
    List.take_append_of_le_length (by rw [List.length_drop,List.length_take]; omega),
    List.drop_take,List.take_take,Nat.min_eq_left (by omega)]

def uninitialized (garbage : Nat → α) (n : Nat) : List α := (List.range n).map garbage

@[simp] theorem length_uninitialized (garbage : Nat → α) (n : Nat) :
    (uninitialized garbage n).length = n := by simp [uninitialized]

end MprMq.Lib.Buffer
