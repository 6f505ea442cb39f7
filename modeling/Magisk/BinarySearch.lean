import Mathlib

namespace Magisk

open List Option

/-- The loop `while size > 1`, with the comparison of the element at each index. -/
def searchBase (f : ℕ → Ordering) (base size : ℕ) : ℕ :=
  if 1 < size then
    searchBase f (if f (base + size / 2) = .gt then base else base + size / 2) (size - size / 2)
  else base
termination_by size

/-- The comparison of the element at an index. -/
def compareAt {α : Type*} (l : List α) (f : α → Ordering) (i : ℕ) : Ordering :=
  (l[i]?.map f).getD .gt

/-- `binary_search_by`: the index of an equal element, or else where one would be inserted. -/
def binarySearchBy {α : Type*} (l : List α) (f : α → Ordering) : Except ℕ ℕ :=
  if l = [] then .error 0
  else
    let base := searchBase (compareAt l f) 0 l.length
    match compareAt l f base with
    | .eq => .ok base
    | .lt => .error (base + 1)
    | .gt => .error base

/-- Where the loop ends: everything behind it is greater, and it is not greater itself unless
everything is. -/
structure SearchEnd (f : ℕ → Ordering) (n base : ℕ) : Prop where
  lt : base < n
  not_gt : base = 0 ∨ f base ≠ .gt
  gt : ∀ i, base < i → i < n → f i = .gt

/-- In an ordered list everything behind a greater element is greater. -/
def GtClosed (f : ℕ → Ordering) (n : ℕ) : Prop := ∀ i j, i ≤ j → j < n → f i = .gt → f j = .gt

theorem searchBase_end {f : ℕ → Ordering} {n : ℕ} (hf : GtClosed f n) {base size : ℕ}
    (hsize : 0 < size) (hn : base + size ≤ n) (hbase : base = 0 ∨ f base ≠ .gt)
    (hgt : ∀ i, base + size ≤ i → i < n → f i = .gt) : SearchEnd f n (searchBase f base size) := by
  induction size using Nat.strong_induction_on generalizing base with
  | _ size ih =>
    rw [searchBase]
    split_ifs with h1 hmid
    · refine ih _ (by omega) (by omega) (by omega) hbase fun i hi hin => ?_
      exact hf _ i (by omega) hin hmid
    · exact ih _ (by omega) (by omega) (by omega) (Or.inr hmid)
        fun i hi hin => hgt i (by omega) hin
    · exact ⟨by omega, hbase, fun i hi hin => hgt i (by omega) hin⟩

section Search

variable {α : Type*} {f : α → Ordering} {l less greater : List α}

theorem compareAt_left (r : List α) {o : Ordering} (h : ∀ a ∈ l, f a = o) {i : ℕ}
    (hi : i < l.length) : compareAt (l ++ r) f i = o := by
  rw [compareAt, getElem?_append_left hi, getElem?_eq_getElem hi, map_some,
    getD_some, h _ (getElem_mem hi)]

theorem compareAt_right (hgreater : ∀ a ∈ greater, f a = .gt) {i : ℕ} (hi : l.length ≤ i) :
    compareAt (l ++ greater) f i = .gt := by
  rw [compareAt, getElem?_append_right hi]
  cases hg : greater[i - l.length]? with
  | none => rfl
  | some a => rw [map_some, getD_some, hgreater a (mem_of_getElem? hg)]

theorem compareAt_mid (x : α) : compareAt (less ++ x :: greater) f less.length = f x := by
  simp [compareAt]

theorem searchEnd_of_append (hl : l ++ greater ≠ []) (hless : ∀ a ∈ l, f a ≠ .gt)
    (hgreater : ∀ a ∈ greater, f a = .gt) :
    SearchEnd (compareAt (l ++ greater) f) (l ++ greater).length
      (searchBase (compareAt (l ++ greater) f) 0 (l ++ greater).length) := by
  refine searchBase_end ?_ (length_pos_iff.mpr hl) (by omega) (Or.inl rfl) (by omega)
  intro i j hij hj hi
  apply compareAt_right hgreater
  by_contra hlt
  have hil : i < l.length := by omega
  rw [compareAt, getElem?_append_left hil, getElem?_eq_getElem hil, map_some,
    getD_some] at hi
  exact hless _ (getElem_mem hil) hi

theorem binarySearchBy_error (hless : ∀ a ∈ less, f a = .lt) (hgreater : ∀ a ∈ greater, f a = .gt) :
    binarySearchBy (less ++ greater) f = .error less.length := by
  unfold binarySearchBy
  split_ifs with hl
  · rw [(append_eq_nil_iff.mp hl).1]
    rfl
  have hne : ∀ a ∈ less, f a ≠ .gt := fun a ha => by rw [hless a ha]; decide
  obtain ⟨hlt, hngt, hgt⟩ := searchEnd_of_append hl hne hgreater
  generalize searchBase (compareAt (less ++ greater) f) 0 (less ++ greater).length = base at *
  dsimp only
  by_cases hbase : base < less.length
  · -- the last element that is less
    have hlast : base + 1 = less.length := by
      by_contra hne
      have hnext := hgt (base + 1) (by omega) (by rw [length_append]; omega)
      rw [compareAt_left greater hless (by omega)] at hnext
      cases hnext
    rw [compareAt_left greater hless hbase, ← hlast]
  · have hg : compareAt (less ++ greater) f base = .gt := compareAt_right hgreater (by omega)
    have h0 : base = 0 := hngt.resolve_right fun h => h hg
    rw [hg]
    dsimp only
    congr 1
    omega

theorem binarySearchBy_ok {x : α} (hless : ∀ a ∈ less, f a = .lt) (hx : f x = .eq)
    (hgreater : ∀ a ∈ greater, f a = .gt) :
    binarySearchBy (less ++ x :: greater) f = .ok less.length := by
  have hl : less ++ x :: greater ≠ [] := by simp
  have hsplit : less ++ x :: greater = (less ++ [x]) ++ greater := by simp
  have hend : SearchEnd (compareAt (less ++ x :: greater) f) (less ++ x :: greater).length
      (searchBase (compareAt (less ++ x :: greater) f) 0 (less ++ x :: greater).length) := by
    rw [hsplit]
    refine searchEnd_of_append (by simp) (fun a ha => ?_) hgreater
    rcases mem_append.mp ha with ha | ha
    · rw [hless a ha]
      decide
    · rw [mem_singleton.mp ha, hx]
      decide
  obtain ⟨hlt, hngt, hgt⟩ := hend
  unfold binarySearchBy
  rw [if_neg hl]
  generalize searchBase (compareAt (less ++ x :: greater) f) 0 (less ++ x :: greater).length =
    base at *
  have hge : less.length ≤ base := by
    by_contra hltl
    have hmid := hgt less.length (by omega) (by simp)
    rw [compareAt_mid, hx] at hmid
    cases hmid
  have hle : base ≤ less.length := by
    by_contra hltl
    have hg : compareAt (less ++ x :: greater) f base = .gt := by
      rw [hsplit]
      exact compareAt_right hgreater (by simp; omega)
    have h0 : base = 0 := hngt.resolve_right fun h => h hg
    omega
  obtain rfl : base = less.length := le_antisymm hle hge
  dsimp only
  rw [compareAt_mid, hx]

end Search

theorem insertIdx_length_append {α : Type*} (l r : List α) (x : α) :
    (l ++ r).insertIdx l.length x = l ++ x :: r := by
  induction l with
  | nil => rfl
  | cons a l ih =>
    rw [cons_append, length_cons, insertIdx_succ_cons, ih, cons_append]

theorem modify_length_append {α : Type*} (l r : List α) (x : α) (f : α → α) :
    (l ++ x :: r).modify l.length f = l ++ f x :: r := by
  induction l with
  | nil => rfl
  | cons a l ih =>
    rw [cons_append, length_cons, modify_succ_cons, ih, cons_append]

end Magisk
