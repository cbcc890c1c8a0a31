import Mathlib

/-!
# A list as a row of cells

A file of equally long cells, numbered from one, as the function that gives their contents. Resizing
and overwriting one cell in place are the obvious operations on that function.
-/

namespace List

variable {α : Type}

/-- Cuts a list off, or fills it up. -/
def resize (l : List α) (length : Nat) (fill : α) : List α :=
  l.take length ++ replicate (length - l.length) fill

/-- Overwrites a part of a list. -/
def splice (l : List α) (offset : Nat) (data : List α) : List α :=
  l.take offset ++ (data ++ l.drop (offset + data.length))

theorem splice_append_left {l l' data : List α} (h : offset + data.length ≤ l.length) :
    (l ++ l').splice offset data = l.splice offset data ++ l' := by
  rw [splice, splice, take_append_of_le_length (by omega), drop_append_of_le_length h,
    append_assoc, append_assoc]

theorem splice_append_right {l c data : List α} (h : data.length = c.length) :
    (l ++ c).splice l.length data = l ++ data := by
  rw [splice, take_left, h, ← length_append, drop_length, append_nil]

/-- Overwriting the middle of three parts. -/
theorem splice_append_middle {l c l' data : List α} (hl : l.length = offset)
    (h : data.length = c.length) : (l ++ (c ++ l')).splice offset data = l ++ (data ++ l') := by
  rw [splice, take_left' hl, ← append_assoc l c, drop_left' (by rw [length_append, hl, h])]

/-- The first `count` cells, one after another. -/
def ofCells (cells : Nat → List α) (count : Nat) : List α :=
  (range count).flatMap fun i => cells (i + 1)

variable {cells : Nat → List α} {size : Nat}

@[simp] theorem ofCells_zero : ofCells cells 0 = [] := rfl

theorem ofCells_succ (count : Nat) :
    ofCells cells (count + 1) = ofCells cells count ++ cells (count + 1) := by
  rw [ofCells, range_succ, flatMap_append]
  simp [ofCells]

theorem ofCells_congr {count : Nat} (h : ∀ n, 0 < n → n ≤ count → cells n = cells' n) :
    ofCells cells count = ofCells cells' count := by
  induction count with
  | zero => rfl
  | succ count ih =>
    rw [ofCells_succ, ofCells_succ, ih fun n h₀ hn => h n h₀ (by omega),
      h (count + 1) (by omega) le_rfl]

section
variable (h : ∀ n, (cells n).length = size)
include h

theorem length_ofCells (count : Nat) : (ofCells cells count).length = count * size := by
  induction count with
  | zero => rw [ofCells_zero, length_nil, Nat.zero_mul]
  | succ count ih => rw [ofCells_succ, length_append, ih, h, Nat.succ_mul]

theorem take_ofCells {m count : Nat} (hm : m ≤ count) :
    (ofCells cells count).take (m * size) = ofCells cells m := by
  induction count with
  | zero =>
    obtain rfl : m = 0 := by omega
    rw [ofCells_zero, take_nil]
  | succ count ih =>
    rcases Nat.lt_or_ge count m with hlt | hge
    · obtain rfl : m = count + 1 := by omega
      rw [← length_ofCells h, take_length]
    · rw [ofCells_succ, take_append_of_le_length, ih hge]
      rw [length_ofCells h]
      exact Nat.mul_le_mul_right size hge

/-- Resizing to a number of cells. -/
theorem resize_ofCells (count count' : Nat) (fill : α) :
    (ofCells cells count).resize (count' * size) fill
      = ofCells (fun n => if n ≤ count then cells n else replicate size fill) count' := by
  rcases Nat.le_total count' count with hle | hge
  · rw [resize, take_ofCells h hle, length_ofCells h,
      Nat.sub_eq_zero_of_le (Nat.mul_le_mul_right size hle), replicate_zero, append_nil]
    exact ofCells_congr fun n _ hn => by rw [if_pos (by omega)]
  · rw [resize, length_ofCells h, take_of_length_le]
    · induction count', hge using Nat.le_induction with
      | base =>
        rw [Nat.sub_self, replicate_zero, append_nil]
        exact ofCells_congr fun n _ hn => by rw [if_pos hn]
      | succ m hm ih =>
        have hlen : (m + 1) * size - count * size = (m * size - count * size) + size := by
          have := Nat.mul_le_mul_right size hm
          rw [Nat.succ_mul]
          omega
        rw [ofCells_succ, ← ih, if_neg (by omega), hlen, replicate_add, append_assoc]
    · rw [length_ofCells h]
      exact Nat.mul_le_mul_right size hge

/-- Overwriting one cell. -/
theorem splice_ofCells {n count : Nat} (h₀ : 0 < n)
    (hn : n ≤ count) {data : List α} (hdata : data.length = size) :
    (ofCells cells count).splice ((n - 1) * size) data
      = ofCells (Function.update cells n data) count := by
  induction count with
  | zero => omega
  | succ count ih =>
    rw [ofCells_succ, ofCells_succ]
    rcases Nat.lt_or_ge count n with hlt | hge
    · obtain rfl : n = count + 1 := by omega
      rw [Nat.add_sub_cancel, ← length_ofCells h, splice_append_right (by rw [hdata, h]),
        Function.update_self]
      congr 1
      exact ofCells_congr fun k _ hk => (Function.update_of_ne (by omega) _ _).symm
    · rw [splice_append_left, ih hge, Function.update_of_ne (by omega)]
      rw [hdata, length_ofCells h, ← Nat.succ_mul]
      exact Nat.mul_le_mul_right size (by omega)

end

end List
