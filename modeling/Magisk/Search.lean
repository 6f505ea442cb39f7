import Magisk.Memory

namespace Magisk

open List

variable {m b needle : Bytes} {i j off n : ℕ}

theorem at_zero_iff : At m 0 b ↔ b <+: m := by
  rw [← view_eq_iff, prefix_iff_eq_take, view, drop_zero, eq_comm]

theorem at_drop : At (m.drop off) i b ↔ At m (off + i) b := by
  unfold At
  simp only [getElem?_drop, add_assoc]

theorem at_cons_succ (x : UInt8) : At (x :: m) (i + 1) b ↔ At m i b := by
  rw [add_comm i 1, ← at_drop, drop_one, tail_cons]

theorem find_of_at_zero (h : At m 0 needle) : find m needle = some 0 := by
  have hstart : needle.isPrefixOf m := isPrefixOf_iff_prefix.mpr (at_zero_iff.mp h)
  rw [find.eq_def, if_pos hstart]

theorem not_isPrefixOf (h : ¬ At m 0 needle) : ¬ needle.isPrefixOf m := by
  intro hstart
  have hpre := isPrefixOf_iff_prefix.mp hstart
  exact h (at_zero_iff.mpr hpre)

theorem find_nil (h : ¬ At [] 0 needle) : find [] needle = none := by
  rw [find.eq_def, if_neg (not_isPrefixOf h)]

theorem find_cons {x : UInt8} (h : ¬ At (x :: m) 0 needle) :
    find (x :: m) needle = (find m needle).map (· + 1) := by
  rw [find.eq_def, if_neg (not_isPrefixOf h)]

theorem first_zero_iff (h : At m 0 needle) :
    some 0 = some i ↔ At m i needle ∧ ∀ j < i, ¬ At m j needle := by
  rw [Option.some.injEq]
  constructor
  · rintro rfl
    exact ⟨h, fun j hj => absurd hj (Nat.not_lt_zero j)⟩
  · rintro ⟨-, hfirst⟩
    by_contra hne
    exact hfirst 0 (by omega) h

theorem find_eq_some_iff : find m needle = some i ↔ At m i needle ∧ ∀ j < i, ¬ At m j needle := by
  induction m generalizing i with
  | nil =>
    by_cases h0 : At [] 0 needle
    · rw [find_of_at_zero h0, first_zero_iff h0]
    · have hne : needle ≠ [] := fun he => h0 (he ▸ at_nil [] 0)
      rw [find_nil h0]
      refine iff_of_false nofun fun h => ?_
      have hle := h.1.le_length hne
      have hpos := length_pos_iff.mpr hne
      rw [length_nil] at hle
      omega
  | cons x m ih =>
    by_cases h0 : At (x :: m) 0 needle
    · rw [find_of_at_zero h0, first_zero_iff h0]
    · rw [find_cons h0, Option.map_eq_some_iff]
      constructor
      · rintro ⟨k, hk, rfl⟩
        obtain ⟨hat, hfirst⟩ := ih.mp hk
        refine ⟨(at_cons_succ x).mpr hat, fun j hj hx => ?_⟩
        cases j with
        | zero => exact h0 hx
        | succ j => exact hfirst j (by omega) ((at_cons_succ x).mp hx)
      · rintro ⟨hat, hfirst⟩
        cases i with
        | zero => exact absurd hat h0
        | succ k =>
          refine ⟨k, ih.mpr ⟨(at_cons_succ x).mp hat, fun j hj hx => ?_⟩, rfl⟩
          exact hfirst (j + 1) (by omega) ((at_cons_succ x).mpr hx)

theorem find_eq_none_iff : find m needle = none ↔ ∀ j, ¬ At m j needle := by
  constructor
  · intro h j hj
    obtain ⟨hat, hleast⟩ := isLeast_csInf (s := {j | At m j needle}) ⟨j, hj⟩
    have hfound := find_eq_some_iff.mpr ⟨hat, fun k hk hx => absurd (hleast hx) (Nat.not_le.mpr hk)⟩
    rw [h] at hfound
    cases hfound
  · intro h
    cases hf : find m needle with
    | none => rfl
    | some i => exact absurd (find_eq_some_iff.mp hf).1 (h i)

theorem find_drop_eq_some_iff :
    find (m.drop off) needle = some i ↔ IsLeast {j | off ≤ j ∧ At m j needle} (off + i) := by
  rw [find_eq_some_iff, at_drop]
  constructor
  · rintro ⟨hat, hfirst⟩
    refine ⟨⟨by omega, hat⟩, ?_⟩
    rintro j ⟨hle, hj⟩
    by_contra hlt
    apply hfirst (j - off) (by omega)
    rwa [at_drop, Nat.add_sub_cancel' hle]
  · rintro ⟨⟨-, hat⟩, hleast⟩
    refine ⟨hat, fun j hj hx => ?_⟩
    have := hleast ⟨Nat.le_add_right off j, at_drop.mp hx⟩
    omega

theorem find_drop_eq_none_iff :
    find (m.drop off) needle = none ↔ ∀ j, off ≤ j → ¬ At m j needle := by
  rw [find_eq_none_iff]
  constructor
  · intro h j hle hj
    apply h (j - off)
    rwa [at_drop, Nat.add_sub_cancel' hle]
  · intro h j hj
    exact h (off + j) (Nat.le_add_right off j) (at_drop.mp hj)

/-- The candidates that a scan from a position on comes to. Behind one that is not valid it goes on
with the stride `d`. -/
inductive Visits (cand valid : ℕ → Prop) (d : ℕ) : ℕ → ℕ → Prop
  | here {a i : ℕ} (h : IsLeast {j | a ≤ j ∧ cand j} i) : Visits cand valid d a i
  | later {a i c : ℕ} (h : IsLeast {j | a ≤ j ∧ cand j} i) (hi : ¬ valid i)
      (hc : Visits cand valid d (i + d) c) : Visits cand valid d a c

namespace Visits

variable {cand valid : ℕ → Prop} {d a c c' : ℕ}

theorem cand_of (h : Visits cand valid d a c) : cand c := by
  induction h with
  | here h => exact h.1.2
  | later h hi hc ih => exact ih

theorem le (h : Visits cand valid d a c) : a ≤ c := by
  induction h with
  | here h => exact h.1.1
  | later h hi hc ih =>
    have := h.1.1
    omega

theorem iff_of_isLeast {i : ℕ} (hi : IsLeast {j | a ≤ j ∧ cand j} i) :
    Visits cand valid d a c ↔ c = i ∨ ¬ valid i ∧ Visits cand valid d (i + d) c := by
  constructor
  · intro h
    cases h with
    | here h => exact .inl (h.unique hi)
    | later h hv hc =>
      rw [h.unique hi] at hv hc
      exact .inr ⟨hv, hc⟩
  · rintro (rfl | ⟨hv, hc⟩)
    · exact .here hi
    · exact .later hi hv hc

theorem add_le (h : Visits cand valid d a c) (h' : Visits cand valid d a c') (hc : ¬ valid c)
    (hc' : valid c') : c + d ≤ c' := by
  induction h with
  | here h =>
    rcases (iff_of_isLeast h).mp h' with rfl | ⟨-, h'⟩
    · exact absurd hc' hc
    · exact h'.le
  | later h hi _ ih =>
    rcases (iff_of_isLeast h).mp h' with rfl | ⟨-, h'⟩
    · exact absurd hc' hi
    · exact ih h' hc

theorem valid_unique (h : Visits cand valid d a c) (h' : Visits cand valid d a c') (hc : valid c)
    (hc' : valid c') : c = c' := by
  induction h with
  | here h =>
    rcases (iff_of_isLeast h).mp h' with rfl | ⟨hi, -⟩
    · rfl
    · exact absurd hc hi
  | later h hi _ ih =>
    rcases (iff_of_isLeast h).mp h' with rfl | ⟨-, h'⟩
    · exact absurd hc' hi
    · exact ih h' hc

theorem exists_of_valid (hd : 0 < d) (hcand : ∀ i, valid i → cand i) {i : ℕ} (hi : valid i)
    (ha : a ≤ i) : (∃ c ≤ i, Visits cand valid d a c ∧ valid c) ∨
      ∃ c, Visits cand valid d a c ∧ ¬ valid c ∧ c < i ∧ i < c + d := by
  induction hn : i - a using Nat.strong_induction_on generalizing a with
  | _ n ih =>
    have hcandi : a ≤ i ∧ cand i := ⟨ha, hcand i hi⟩
    obtain ⟨j, hfirst⟩ : ∃ j, IsLeast {j | a ≤ j ∧ cand j} j := ⟨_, isLeast_csInf ⟨i, hcandi⟩⟩
    have hle : j ≤ i := hfirst.2 hcandi
    have hge : a ≤ j := hfirst.1.1
    by_cases hv : valid j
    · exact .inl ⟨j, hle, .here hfirst, hv⟩
    have hlt : j < i := lt_of_le_of_ne hle fun he => hv (he ▸ hi)
    by_cases hd' : i < j + d
    · exact .inr ⟨j, .here hfirst, hv, hlt, hd'⟩
    rcases ih (i - (j + d)) (by omega) (by omega) rfl with
      ⟨c, hc, hvis, hcv⟩ | ⟨c, hvis, hcv, hlt⟩
    · exact .inl ⟨c, hc, .later hfirst hv hvis, hcv⟩
    · exact .inr ⟨c, .later hfirst hv hvis, hcv, hlt⟩

/-- If nothing valid is passed over, the valid candidate at which the scan ends is the least one. -/
theorem isLeast (hd : 0 < d) (hcand : ∀ i, valid i → cand i)
    (hskip : ∀ c i, Visits cand valid d 0 c → ¬ valid c → valid i → c < i → c + d ≤ i)
    (h : Visits cand valid d 0 c) (hc : valid c) : IsLeast {i | valid i} c := by
  refine ⟨hc, fun i hi => ?_⟩
  rcases exists_of_valid hd hcand hi (Nat.zero_le i) with ⟨c', hle, hvis, hv⟩ | ⟨c', hvis, hv, hlt⟩
  · rw [h.valid_unique hvis hc hv]
    exact hle
  · have := hskip c' i hvis hv hi hlt.1
    omega

end Visits

/-- The places of a needle from `a` on, from left to right, each the first one behind the last. -/
inductive Leftmost (m needle : Bytes) : ℕ → List ℕ → Prop
  | nil {a : ℕ} (h : ∀ j, a ≤ j → ¬ At m j needle) : Leftmost m needle a []
  | cons {a v : ℕ} {vs : List ℕ} (hv : IsLeast {j | a ≤ j ∧ At m j needle} v)
      (hvs : Leftmost m needle (v + needle.length) vs) : Leftmost m needle a (v :: vs)

namespace Leftmost

variable {a : ℕ} {vs : List ℕ}

theorem le_of_mem (h : Leftmost m needle a vs) {v : ℕ} (hv : v ∈ vs) : a ≤ v := by
  induction h with
  | nil _ => cases hv
  | cons hw _ ih =>
    rcases mem_cons.mp hv with rfl | hv
    · exact hw.1.1
    · have hle := ih hv
      have hw' := hw.1.1
      omega

theorem at_of_mem (h : Leftmost m needle a vs) {v : ℕ} (hv : v ∈ vs) : At m v needle := by
  induction h with
  | nil _ => cases hv
  | cons hw _ ih =>
    rcases mem_cons.mp hv with rfl | hv
    · exact hw.1.2
    · exact ih hv

theorem pairwise (h : Leftmost m needle a vs) : vs.Pairwise fun v w => v + needle.length ≤ w := by
  induction h with
  | nil _ => exact .nil
  | cons _ hvs ih => exact .cons (fun w hw => hvs.le_of_mem hw) ih

theorem congr {m' : Bytes} (h : Leftmost m needle a vs)
    (he : ∀ j, a ≤ j → (At m' j needle ↔ At m j needle)) : Leftmost m' needle a vs := by
  induction h with
  | nil hn => exact .nil fun j hj => (he j hj).not.mpr (hn j hj)
  | cons hv _ ih =>
    have hset : ∀ j, (_ ≤ j ∧ At m' j needle) ↔ (_ ≤ j ∧ At m j needle) := fun j =>
      and_congr_right (he j)
    refine .cons ?_ (ih fun j hj => he j ?_)
    · simpa only [hset] using hv
    · have hle := hv.1.1
      omega

end Leftmost

end Magisk
