import Mathlib

namespace Magisk.OrderedMap

open List

variable {K V K' V' : Type} [Ord K] [Std.TransOrd K] [Std.LawfulEqOrd K] [DecidableEq K]
  [Ord K'] [Std.TransOrd K'] [Std.LawfulEqOrd K'] [DecidableEq K']

omit [Std.LawfulEqOrd K] [DecidableEq K] in
theorem mem_iff_exists {t : Std.ExtTreeMap K V compare} {k : K} :
    k ∈ t ↔ ∃ v, t[k]? = some v := by
  rw [Std.ExtTreeMap.mem_iff_isSome_getElem?, Option.isSome_iff_exists]

omit [Std.LawfulEqOrd K] [DecidableEq K] in
theorem getElem?_eq_none_iff {t : Std.ExtTreeMap K V compare} {k : K} :
    t[k]? = none ↔ k ∉ t := by
  rw [mem_iff_exists, not_exists]
  cases t[k]? <;> simp

theorem getElem?_insert_eq (t : Std.ExtTreeMap K V compare) (k a : K) (v : V) :
    (t.insert k v)[a]? = if k = a then some v else t[a]? := by
  rw [Std.ExtTreeMap.getElem?_insert]
  simp only [Std.LawfulEqCmp.compare_eq_iff_eq]

theorem getElem?_erase_eq (t : Std.ExtTreeMap K V compare) (k a : K) :
    (t.erase k)[a]? = if k = a then none else t[a]? := by
  rw [Std.ExtTreeMap.getElem?_erase]
  simp only [Std.LawfulEqCmp.compare_eq_iff_eq]

theorem getElem?_insertMany_of_ne (t : Std.ExtTreeMap K V compare) {l : List (K × V)} {k : K}
    (h : ∀ p ∈ l, p.1 ≠ k) : (t.insertMany l)[k]? = t[k]? := by
  apply Std.ExtTreeMap.getElem?_insertMany_list_of_contains_eq_false
  simp only [contains_eq_mem, decide_eq_false_iff_not, List.mem_map, not_exists, not_and]
  exact h

theorem getElem?_insertMany_last (t : Std.ExtTreeMap K V compare) (l l' : List (K × V)) {k : K}
    (v : V) (h : ∀ p ∈ l', p.1 ≠ k) : (t.insertMany (l ++ (k, v) :: l'))[k]? = some v := by
  induction l generalizing t with
  | nil =>
    rw [nil_append, Std.ExtTreeMap.insertMany_cons, getElem?_insertMany_of_ne _ h]
    simp
  | cons p l ih =>
    rw [cons_append, Std.ExtTreeMap.insertMany_cons]
    exact ih _

theorem getElem?_insertMany_toList (t u : Std.ExtTreeMap K V compare) (k : K) :
    (t.insertMany u.toList)[k]? = u[k]?.or t[k]? := by
  cases hk : u[k]? with
  | some v =>
    exact Std.ExtTreeMap.getElem?_insertMany_list_of_mem Std.ReflCmp.compare_self
      Std.ExtTreeMap.distinct_keys_toList (Std.ExtTreeMap.mem_toList_iff_getElem?_eq_some.mpr hk)
  | none =>
    apply getElem?_insertMany_of_ne
    rintro ⟨a, v⟩ hm rfl
    rw [Std.ExtTreeMap.mem_toList_iff_getElem?_eq_some.mp hm] at hk
    cases hk

theorem mem_insertMany_toList {t u : Std.ExtTreeMap K V compare} {k : K} :
    k ∈ t.insertMany u.toList ↔ k ∈ u ∨ k ∈ t := by
  simp only [mem_iff_exists, getElem?_insertMany_toList]
  cases u[k]? <;> simp

omit [DecidableEq K] in
theorem flatMap_of_one_key {α : Type} (t : Std.ExtTreeMap K V compare) (f : K × V → List α) (k : K)
    (h : ∀ a v, a ≠ k → f (a, v) = []) :
    t.toList.flatMap f = (t[k]?.map fun v => f (k, v)).getD [] := by
  cases hk : t[k]? with
  | none =>
    refine flatMap_eq_nil_iff.mpr fun ⟨a, v⟩ ha => h a v ?_
    rintro rfl
    rw [Std.ExtTreeMap.mem_toList_iff_getElem?_eq_some.mp ha] at hk
    cases hk
  | some v =>
    obtain ⟨l, l', hl⟩ :=
      append_of_mem (Std.ExtTreeMap.mem_toList_iff_getElem?_eq_some.mpr hk)
    have hs : t.toList.Pairwise fun a b => ¬ compare a.1 b.1 = .eq :=
      Std.ExtTreeMap.distinct_keys_toList
    simp only [Std.LawfulEqCmp.compare_eq_iff_eq] at hs
    rw [hl, pairwise_append, pairwise_cons] at hs
    have hleft : l.flatMap f = [] :=
      flatMap_eq_nil_iff.mpr fun a ha => h a.1 a.2 (hs.2.2 a ha (k, v) (by simp))
    have hright : l'.flatMap f = [] :=
      flatMap_eq_nil_iff.mpr fun a ha => h a.1 a.2 (Ne.symm (hs.2.1.1 a ha))
    simp [hl, hleft, hright]

section Collect

variable (t : Std.ExtTreeMap K V compare) (t' : Std.ExtTreeMap K' V' compare)
  (g : K × V → Option (K' × V'))

omit [DecidableEq K] in
theorem collect_none {k : K'} (h : ∀ a v, t[a]? = some v → ∀ v', g (a, v) ≠ some (k, v')) :
    (t'.insertMany (t.toList.filterMap g))[k]? = t'[k]? := by
  apply getElem?_insertMany_of_ne
  rintro ⟨b, v'⟩ hm rfl
  obtain ⟨⟨a, v⟩, ha, hg⟩ := mem_filterMap.mp hm
  exact h a v (Std.ExtTreeMap.mem_toList_iff_getElem?_eq_some.mp ha) v' hg

omit [DecidableEq K] in
theorem collect_some {a : K} {v : V} {k : K'} {v' : V'} (ha : t[a]? = some v)
    (hg : g (a, v) = some (k, v'))
    (hlast : ∀ b w, t[b]? = some w → compare a b = .lt → ∀ w', g (b, w) ≠ some (k, w')) :
    (t'.insertMany (t.toList.filterMap g))[k]? = some v' := by
  obtain ⟨l, l', hl⟩ := append_of_mem (Std.ExtTreeMap.mem_toList_iff_getElem?_eq_some.mpr ha)
  have hs : t.toList.Pairwise fun a b => compare a.1 b.1 = .lt :=
    Std.ExtTreeMap.ordered_keys_toList
  rw [hl, filterMap_append, filterMap_cons_some hg]
  apply getElem?_insertMany_last
  rintro ⟨b, w'⟩ hm rfl
  obtain ⟨⟨c, w⟩, hc, hw⟩ := mem_filterMap.mp hm
  rw [hl, pairwise_append, pairwise_cons] at hs
  exact hlast c w (Std.ExtTreeMap.mem_toList_iff_getElem?_eq_some.mp (by rw [hl]; simp [hc]))
    (hs.2.1.1 _ hc) w' hw

omit [DecidableEq K] in
theorem mem_collect {k : K'} : k ∈ t'.insertMany (t.toList.filterMap g) ↔
    (∃ a v v', t[a]? = some v ∧ g (a, v) = some (k, v')) ∨ k ∈ t' := by
  rw [Std.ExtTreeMap.mem_insertMany_list, or_comm, contains_iff_mem]
  refine or_congr_left ?_
  simp only [List.mem_map, mem_filterMap, Prod.exists, ↓existsAndEq,
    Std.ExtTreeMap.mem_toList_iff_getElem?_eq_some, and_true]
  constructor
  · rintro ⟨v', a, v, h⟩
    exact ⟨a, v, v', h⟩
  · rintro ⟨a, v, v', h⟩
    exact ⟨v', a, v, h⟩

end Collect

end Magisk.OrderedMap
