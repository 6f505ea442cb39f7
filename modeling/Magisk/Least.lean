import Mathlib

namespace Magisk

open List

variable {α : Type*} (cmp : α → α → Ordering)

/-- The scan with the element it has so far. -/
def leastFrom (acc : α) : List α → α
  | [] => acc
  | t :: l => leastFrom (if cmp t acc = .lt then t else acc) l

def selectLeast : List α → Option α
  | [] => none
  | a :: l => some (leastFrom cmp a l)

/-- The comparator is a total preorder on the elements of `l`. -/
structure PreorderOn (l : List α) : Prop where
  swap : ∀ a ∈ l, ∀ b ∈ l, cmp b a = (cmp a b).swap
  trans : ∀ a ∈ l, ∀ b ∈ l, ∀ c ∈ l, cmp a b ≠ .gt → cmp b c ≠ .gt → cmp a c ≠ .gt

variable {cmp}

theorem PreorderOn.of_subset {l l' : List α} (h : PreorderOn cmp l) (hs : l' ⊆ l) :
    PreorderOn cmp l' where
  swap a ha b hb := h.swap a (hs ha) b (hs hb)
  trans a ha b hb c hc := h.trans a (hs ha) b (hs hb) c (hs hc)

variable {l : List α} {a : α}

theorem PreorderOn.refl (h : PreorderOn cmp l) (ha : a ∈ l) : cmp a a ≠ .gt := by
  have hs := h.swap a ha a ha
  intro hgt
  rw [hgt] at hs
  cases hs

theorem leastFrom_eq_self (h : ∀ t ∈ l, cmp t a ≠ .lt) : leastFrom cmp a l = a := by
  induction l with
  | nil => rfl
  | cons t l ih =>
    rw [forall_mem_cons] at h
    rw [leastFrom, if_neg h.1, ih h.2]

theorem leastFrom_mem (a : α) (l : List α) : leastFrom cmp a l ∈ a :: l := by
  induction l generalizing a with
  | nil => exact mem_cons_self
  | cons t l ih =>
    rw [leastFrom]
    split_ifs with ht
    · exact mem_cons_of_mem a (ih t)
    · rcases mem_cons.mp (ih a) with h | h
      · rw [h]
        exact mem_cons_self
      · exact mem_cons_of_mem a (mem_cons_of_mem t h)

theorem leastFrom_le (h : PreorderOn cmp (a :: l)) :
    ∀ t ∈ a :: l, cmp (leastFrom cmp a l) t ≠ .gt := by
  induction l generalizing a with
  | nil =>
    intro t ht
    rw [mem_singleton.mp ht]
    exact h.refl mem_cons_self
  | cons b l ih =>
    have ha : a ∈ a :: b :: l := mem_cons_self
    have hb : b ∈ a :: b :: l := mem_cons_of_mem a mem_cons_self
    -- the better of the first two is not after either of them
    set m := if cmp b a = .lt then b else a with hm
    have hma : cmp m a ≠ .gt ∧ cmp m b ≠ .gt := by
      rw [hm]
      split_ifs with hlt
      · exact ⟨by rw [hlt]; decide, h.refl hb⟩
      · refine ⟨h.refl ha, fun hgt => hlt ?_⟩
        rw [h.swap a ha b hb, hgt]
        rfl
    have hml : m :: l ⊆ a :: b :: l := by
      intro t ht
      rcases mem_cons.mp ht with rfl | ht
      · rw [hm]
        split_ifs
        · exact hb
        · exact ha
      · exact mem_cons_of_mem a (mem_cons_of_mem b ht)
    have hle := ih (h.of_subset hml)
    have hr : leastFrom cmp m l ∈ a :: b :: l := hml (leastFrom_mem m l)
    have hm0 := hle m mem_cons_self
    have hmm := hml mem_cons_self
    rw [leastFrom, ← hm]
    intro t ht
    rcases mem_cons.mp ht with rfl | ht
    · exact h.trans _ hr _ hmm _ ha hm0 hma.1
    · rcases mem_cons.mp ht with rfl | ht
      · exact h.trans _ hr _ hmm _ hb hm0 hma.2
      · exact hle t (mem_cons_of_mem m ht)

theorem selectLeast_eq_some {c : α} (h : selectLeast cmp l = some c) : c ∈ l := by
  cases l with
  | nil => cases h
  | cons a l => exact Option.some.inj h ▸ leastFrom_mem a l

theorem selectLeast_le (h : PreorderOn cmp l) {c : α}
    (hc : selectLeast cmp l = some c) {t : α} (ht : t ∈ l) : cmp c t ≠ .gt := by
  cases l with
  | nil => cases hc
  | cons a l => exact Option.some.inj hc ▸ leastFrom_le h t ht

end Magisk
