import Magisk.Bytes

namespace Magisk

open List

/-- `b` stands at `off` in `m`. -/
def At (m : Bytes) (off : ℕ) (b : Bytes) : Prop :=
  ∀ i (h : i < b.length), m[off + i]? = some b[i]

/-- The `n` bytes at `off`; fewer when `m` ends before. -/
def view (m : Bytes) (off n : ℕ) : Bytes := (m.drop off).take n

/-- The bytes of `m` with `b` written over the ones at `off`; what does not fit is dropped. -/
def overwrite (m : Bytes) (off : ℕ) (b : Bytes) : Bytes :=
  (m.take off ++ (b ++ m.drop (off + b.length))).take m.length

def zeros (n : ℕ) : Bytes := List.replicate n 0

@[simp] theorem zeros_length (n : ℕ) : (zeros n).length = n := length_replicate

@[simp] theorem zeros_zero : zeros 0 = [] := rfl

theorem at_nil (m : Bytes) (off : ℕ) : At m off [] := by
  intro i h
  cases h

variable {m b c : Bytes} {off i : ℕ}

theorem At.le_length (h : At m off b) (hb : b ≠ []) : off + b.length ≤ m.length := by
  have hpos : 0 < b.length := length_pos_iff.mpr hb
  have hi : b.length - 1 < b.length := by omega
  have hlast := h (b.length - 1) hi
  obtain ⟨hlt, -⟩ := List.getElem?_eq_some_iff.mp hlast
  omega

theorem getElem?_view (m : Bytes) (off n i : ℕ) :
    (view m off n)[i]? = if i < n then m[off + i]? else none := by
  unfold view
  rw [getElem?_take, getElem?_drop]

theorem view_ext {m m' : Bytes} {off n : ℕ}
    (h : ∀ x, off ≤ x → x < off + n → m'[x]? = m[x]?) : view m' off n = view m off n := by
  apply ext_getElem?
  intro i
  rw [getElem?_view, getElem?_view]
  split_ifs with hi
  · exact h (off + i) (by omega) (by omega)
  · rfl

theorem view_length (m : Bytes) (off n : ℕ) : (view m off n).length = min n (m.length - off) := by
  simp [view]

theorem view_view (m : Bytes) (off : ℕ) {n i k : ℕ} (h : i + k ≤ n) :
    view (view m off n) i k = view m (off + i) k := by
  apply ext_getElem?
  intro j
  simp only [getElem?_view]
  by_cases hj : j < k
  · simp only [hj, if_true, show i + j < n by omega, add_assoc]
  · simp only [hj, if_false]

theorem view_eq_iff : view m off b.length = b ↔ At m off b := by
  constructor
  · intro h i hi
    have hv := getElem?_view m off b.length i
    rw [h, if_pos hi, getElem?_eq_getElem hi] at hv
    exact hv.symm
  · intro h
    apply ext_getElem?
    intro i
    rw [getElem?_view]
    split_ifs with hi
    · rw [h i hi, getElem?_eq_getElem hi]
    · rw [getElem?_eq_none (by omega)]

theorem At.view_eq (h : At m off b) : view m off b.length = b :=
  view_eq_iff.mpr h

theorem at_view (m : Bytes) (off n : ℕ) : At m off (view m off n) := by
  intro i hi
  have hn : i < n := by
    rw [view_length] at hi
    omega
  rw [← getElem?_eq_getElem hi, getElem?_view, if_pos hn]

theorem at_append_left (h : At m off b) (post : Bytes) : At (m ++ post) off b := by
  intro i hi
  have hm := h i hi
  obtain ⟨hlt, -⟩ := List.getElem?_eq_some_iff.mp hm
  rw [getElem?_append_left hlt, hm]

theorem at_append_self (pre b post : Bytes) : At (pre ++ (b ++ post)) pre.length b := by
  intro i hi
  rw [getElem?_append_right (by omega), Nat.add_sub_cancel_left,
    getElem?_append_left hi, getElem?_eq_getElem hi]

theorem At.sub (hb : At m off b) (hc : At b i c) : At m (off + i) c := by
  intro j hj
  have hcj := hc j hj
  obtain ⟨hlt, he⟩ := List.getElem?_eq_some_iff.mp hcj
  rw [add_assoc, hb _ hlt, he]

theorem At.within (hb : At m off b) (hc : At m (off + i) c)
    (hle : i + c.length ≤ b.length) : At b i c := by
  intro j hj
  have hj' : i + j < b.length := by omega
  rw [← hc j hj, add_assoc, hb (i + j) hj', getElem?_eq_getElem hj']

@[simp] theorem overwrite_length (m : Bytes) (off : ℕ) (b : Bytes) :
    (overwrite m off b).length = m.length := by
  simp only [overwrite, length_take, length_append, length_drop]
  omega

theorem getElem?_overwrite_of_not_mem (m : Bytes)
    (h : i < off ∨ off + b.length ≤ i) : (overwrite m off b)[i]? = m[i]? := by
  by_cases hi : i < m.length
  swap
  · rw [getElem?_eq_none (by rw [overwrite_length]; omega), getElem?_eq_none (by omega)]
  rw [overwrite, getElem?_take, if_pos hi]
  rcases h with h | h
  · rw [getElem?_append_left (by rw [length_take]; omega), getElem?_take, if_pos h]
  · rw [getElem?_append_right (by rw [length_take]; omega), length_take,
      Nat.min_eq_left (by omega), getElem?_append_right (by omega), getElem?_drop]
    congr 1
    omega

theorem getElem?_overwrite_of_mem (m : Bytes) (h : i < b.length)
    (hm : off + i < m.length) : (overwrite m off b)[off + i]? = b[i]? := by
  rw [overwrite, getElem?_take, if_pos hm,
    getElem?_append_right (by rw [length_take]; omega), length_take,
    Nat.min_eq_left (by omega), Nat.add_sub_cancel_left, getElem?_append_left h]

theorem at_overwrite_self (h : off + b.length ≤ m.length) : At (overwrite m off b) off b := by
  intro i hi
  rw [getElem?_overwrite_of_mem m hi (by omega), getElem?_eq_getElem hi]

theorem at_overwrite_of_disjoint {off o : ℕ} (h : o + c.length ≤ off ∨ off + b.length ≤ o) :
    At (overwrite m off b) o c ↔ At m o c := by
  have he : ∀ i, i < c.length → (overwrite m off b)[o + i]? = m[o + i]? := by
    intro i hi
    apply getElem?_overwrite_of_not_mem
    omega
  constructor
  · intro ha i hi
    rw [← he i hi, ha i hi]
  · intro ha i hi
    rw [he i hi, ha i hi]

theorem view_overwrite_of_disjoint {off o n : ℕ}
    (h : o + n ≤ off ∨ off + b.length ≤ o) : view (overwrite m off b) o n = view m o n := by
  apply view_ext
  intro x hle hlt
  apply getElem?_overwrite_of_not_mem
  omega

theorem view_overwrite_self (h : off + b.length ≤ m.length) :
    view (overwrite m off b) off b.length = b := (at_overwrite_self h).view_eq

theorem At.overwrite_inside (h : At m off b) (i : ℕ) (c : Bytes) :
    At (overwrite m (off + i) c) off (overwrite b i c) := by
  intro j hj
  rw [overwrite_length] at hj
  have hm := h j hj
  obtain ⟨hlt, -⟩ := List.getElem?_eq_some_iff.mp hm
  rw [← getElem?_eq_getElem]
  by_cases hin : j < i ∨ i + c.length ≤ j
  · rw [getElem?_overwrite_of_not_mem m (by omega), getElem?_overwrite_of_not_mem b hin, hm,
      getElem?_eq_getElem]
  · obtain ⟨k, rfl⟩ : ∃ k, j = i + k := ⟨j - i, by omega⟩
    rw [← add_assoc, getElem?_overwrite_of_mem m (by omega) (by omega),
      getElem?_overwrite_of_mem b (by omega) hj]

theorem At.overwrite_eq (h : At m off b) : overwrite m off b = m := by
  apply ext_getElem?
  intro i
  by_cases hi : i < off ∨ off + b.length ≤ i
  · exact getElem?_overwrite_of_not_mem m hi
  · obtain ⟨j, rfl⟩ : ∃ j, i = off + j := ⟨i - off, by omega⟩
    have hj : j < b.length := by omega
    have hm := h j hj
    obtain ⟨hlt, -⟩ := List.getElem?_eq_some_iff.mp hm
    rw [getElem?_overwrite_of_mem m hj hlt, hm, getElem?_eq_getElem hj]

end Magisk
