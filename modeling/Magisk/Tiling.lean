import Magisk.Memory

namespace Magisk

open List

theorem view_zero (m : Bytes) (off : ℕ) : view m off 0 = [] := take_zero

theorem view_add (m : Bytes) (off a b : ℕ) :
    view m off (a + b) = view m off a ++ view m (off + a) b := by
  unfold view
  rw [take_add, drop_drop]

/-- The parts follow one another from `i` to `j`. -/
inductive Tiles : ℕ → List (ℕ × ℕ) → ℕ → Prop
  | nil (i : ℕ) : Tiles i [] i
  | cons (i n : ℕ) {ps : List (ℕ × ℕ)} {j : ℕ} (h : Tiles (i + n) ps j) : Tiles i ((i, n) :: ps) j

namespace Tiles

variable {i j k : ℕ} {ps qs : List (ℕ × ℕ)}

theorem le (h : Tiles i ps j) : i ≤ j := by
  induction h with
  | nil i => exact le_rfl
  | cons i n h ih => omega

theorem append (h : Tiles i ps j) (h' : Tiles j qs k) : Tiles i (ps ++ qs) k := by
  induction h with
  | nil i => exact h'
  | cons i n h ih => exact .cons i n (ih h')

theorem single (i n : ℕ) : Tiles i [(i, n)] (i + n) := .cons i n (.nil _)

theorem bounds (h : Tiles i ps j) {p : ℕ × ℕ} (hp : p ∈ ps) : i ≤ p.1 ∧ p.1 + p.2 ≤ j := by
  induction h with
  | nil i => cases hp
  | cons i n h ih =>
    cases mem_cons.mp hp with
    | inl he =>
      rw [he]
      exact ⟨le_rfl, h.le⟩
    | inr hp =>
      have := ih hp
      exact ⟨by omega, this.2⟩

theorem flatMap_view (h : Tiles i ps j) (m : Bytes) :
    (ps.flatMap fun p => view m p.1 p.2) = view m i (j - i) := by
  induction h with
  | nil i => rw [Nat.sub_self, view_zero, flatMap_nil]
  | @cons i n ps j h ih =>
    have hle := h.le
    have hj : j - i = n + (j - (i + n)) := by omega
    rw [flatMap_cons, ih, hj, view_add]

end Tiles

end Magisk
