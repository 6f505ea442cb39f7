import Mathlib

namespace Magisk

structure MultiMap (K V : Type) where
  nodes : List (K × V)

namespace MultiMap

variable {K V : Type} [DecidableEq K]

/-- The values under a key, in the order a search finds them. -/
def find (t : MultiMap K V) (k : K) : List V :=
  (t.nodes.filter fun n => n.1 = k).map Prod.snd

def set (t : MultiMap K V) (k : K) (vs : List V) : MultiMap K V :=
  ⟨vs.map (k, ·) ++ t.nodes.filter fun n => n.1 ≠ k⟩

theorem find_set (t : MultiMap K V) (k a : K) (vs : List V) :
    (t.set k vs).find a = if a = k then vs else t.find a := by
  have hf : ∀ n : K × V, a ≠ k → (decide (n.1 = a) && !decide (n.1 = k)) = decide (n.1 = a) := by
    intro n h
    by_cases hn : n.1 = a
    · simp [hn, h]
    · simp [hn]
  unfold find set
  rw [List.filter_append, List.map_append, List.filter_filter, List.filter_map]
  split_ifs with h
  · simp [h, Function.comp_def]
  · simp [hf _ h, Function.comp_def, Ne.symm h]

end MultiMap
end Magisk
