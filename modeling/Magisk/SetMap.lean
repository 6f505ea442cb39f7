import Magisk.OrderedMap

namespace Magisk

structure SetMap (K V : Type) [Ord K] [Std.TransOrd K] where
  map : Std.ExtTreeMap K (Finset V) compare
  nonempty : ∀ (k : K) (s : Finset V), map[k]? = some s → s.Nonempty

namespace SetMap

variable {K V : Type} [Ord K] [Std.TransOrd K] [Std.LawfulEqOrd K] [DecidableEq K] [DecidableEq V]

instance : EmptyCollection (SetMap K V) := ⟨⟨∅, by simp⟩⟩

def find (m : SetMap K V) (k : K) : Finset V := m.map[k]?.getD ∅

def keys (m : SetMap K V) : List K := m.map.keys

/-- The map with another set under one key, and without the key if that is empty. -/
def set (m : SetMap K V) (k : K) (s : Finset V) : SetMap K V where
  map := if s = ∅ then m.map.erase k else m.map.insert k s
  nonempty a u h := by
    split_ifs at h with hs
    · rw [OrderedMap.getElem?_erase_eq] at h
      split_ifs at h
      exact m.nonempty a u h
    · rw [OrderedMap.getElem?_insert_eq] at h
      split_ifs at h
      · rw [← Option.some.inj h]
        exact Finset.nonempty_iff_ne_empty.mpr hs
      · exact m.nonempty a u h

def add (m : SetMap K V) (k : K) (v : V) : SetMap K V := m.set k (insert v (m.find k))

def remove (m : SetMap K V) (k : K) (v : V) : SetMap K V := m.set k ((m.find k).erase v)

def erase (m : SetMap K V) (k : K) : SetMap K V := m.set k ∅

omit [Std.LawfulEqOrd K] [DecidableEq K] [DecidableEq V] in
@[simp] theorem find_empty (k : K) : (∅ : SetMap K V).find k = ∅ := by
  change (∅ : Std.ExtTreeMap K (Finset V) compare)[k]?.getD ∅ = ∅
  simp

theorem find_set (m : SetMap K V) (k a : K) (s : Finset V) :
    (m.set k s).find a = if k = a then s else m.find a := by
  unfold find set
  by_cases hs : s = ∅
  · simp only [if_pos hs, OrderedMap.getElem?_erase_eq]
    split_ifs
    · exact hs.symm
    · rfl
  · simp only [if_neg hs, OrderedMap.getElem?_insert_eq]
    split_ifs <;> rfl

variable {m : SetMap K V} {k a : K}

theorem mem_add {v b : V} : b ∈ (m.add k v).find a ↔ k = a ∧ b = v ∨ b ∈ m.find a := by
  rw [add, find_set]
  split_ifs with h
  · simp [h]
  · simp [h]

theorem mem_remove {v b : V} : b ∈ (m.remove k v).find a ↔ b ∈ m.find a ∧ ¬ (k = a ∧ b = v) := by
  rw [remove, find_set]
  split_ifs with h
  · simp [h, and_comm]
  · simp [h]

theorem mem_erase {b : V} : b ∈ (m.erase k).find a ↔ b ∈ m.find a ∧ k ≠ a := by
  rw [erase, find_set]
  split_ifs with h
  · simp [h]
  · simp [h]

omit [DecidableEq K] [DecidableEq V] in
theorem mem_keys : k ∈ m.keys ↔ (m.find k).Nonempty := by
  unfold keys find
  rw [Std.ExtTreeMap.mem_keys, OrderedMap.mem_iff_exists]
  constructor
  · rintro ⟨s, hs⟩
    rw [hs]
    exact m.nonempty k s hs
  · rintro ⟨v, hv⟩
    cases hs : m.map[k]? with
    | none => simp [hs] at hv
    | some s => exact ⟨s, rfl⟩

omit [DecidableEq K] [DecidableEq V] in
theorem ext_find {m' : SetMap K V} (h : ∀ k, m.find k = m'.find k) : m = m' := by
  have hmap : m.map = m'.map := by
    refine Std.ExtTreeMap.ext_getElem? fun {k} => ?_
    have hk := h k
    unfold find at hk
    cases hs : m.map[k]? with
    | none =>
      cases hs' : m'.map[k]? with
      | none => rfl
      | some s' =>
        rw [hs, hs'] at hk
        exact absurd hk.symm (m'.nonempty k s' hs').ne_empty
    | some s =>
      cases hs' : m'.map[k]? with
      | none =>
        rw [hs, hs'] at hk
        exact absurd hk (m.nonempty k s hs).ne_empty
      | some s' =>
        rw [hs, hs'] at hk
        exact congrArg some hk
  cases m
  cases m'
  congr

end SetMap

end Magisk
