import Mathlib

namespace Magisk

open List

variable {α : Type*}

/-- On a list that is not empty, a match has at least one element and ends inside. -/
def Bounded (m : List α → Option ℕ) : Prop :=
  ∀ l n, l ≠ [] → m l = some n → 1 ≤ n ∧ n ≤ l.length

def dropMatches (m : List α → Option ℕ) : List α → List α
  | [] => []
  | a :: l =>
    match m (a :: l) with
    | some n => dropMatches m (l.drop (n - 1))
    | none => a :: dropMatches m l
termination_by l => l.length
decreasing_by
  · rw [length_drop, length_cons]
    omega
  · rw [length_cons]
    omega

variable {m : List α → Option ℕ}

@[simp] theorem dropMatches_nil : dropMatches m [] = [] := by
  rw [dropMatches]

theorem dropMatches_of_none {a : α} {l : List α} (h : m (a :: l) = none) :
    dropMatches m (a :: l) = a :: dropMatches m l := by
  rw [dropMatches, h]

theorem dropMatches_of_some {l : List α} {n : ℕ} (hn : 1 ≤ n) (h : m l = some n) :
    dropMatches m l = dropMatches m (l.drop n) := by
  cases l with
  | nil => rw [drop_nil]
  | cons a l =>
    obtain ⟨k, rfl⟩ := Nat.exists_eq_add_of_le' hn
    rw [dropMatches, h, drop_succ_cons]
    rfl

theorem dropMatches_sublist (m : List α → Option ℕ) (l : List α) : (dropMatches m l).Sublist l := by
  fun_induction dropMatches m l with
  | case1 => exact List.Sublist.refl []
  | case2 a l n h ih => exact (ih.trans (drop_sublist _ l)).cons a
  | case3 a l h ih => exact ih.cons_cons a

theorem dropMatches_length_le (m : List α → Option ℕ) (l : List α) :
    (dropMatches m l).length ≤ l.length :=
  (dropMatches_sublist m l).length_le

theorem dropMatches_length_lt {l t : List α} (ht : t ≠ []) (hs : t <:+ l) (hm : m t ≠ none) :
    (dropMatches m l).length < l.length := by
  induction l with
  | nil => exact absurd (suffix_nil.mp hs) ht
  | cons a l ih =>
    rw [length_cons]
    cases h : m (a :: l) with
    | some n =>
      rw [dropMatches, h]
      have hle := dropMatches_length_le m (l.drop (n - 1))
      rw [length_drop] at hle
      dsimp only
      omega
    | none =>
      rw [dropMatches_of_none h, length_cons]
      have hne : t ≠ a :: l := by
        intro he
        rw [he] at hm
        exact hm h
      have := ih ((suffix_cons_iff.mp hs).resolve_left hne)
      omega

theorem dropMatches_eq_self_iff {l : List α} :
    dropMatches m l = l ↔ ∀ t, t ≠ [] → t <:+ l → m t = none := by
  constructor
  · intro h t ht hs
    by_contra hm
    have := dropMatches_length_lt ht hs hm
    rw [h] at this
    exact lt_irrefl _ this
  · intro h
    induction l with
    | nil => exact dropMatches_nil
    | cons a l ih =>
      rw [dropMatches_of_none (h _ (cons_ne_nil a l) suffix_rfl)]
      rw [ih fun t ht hs => h t ht (hs.trans (suffix_cons a l))]

section Words

variable {K : α → Prop} {l t : List α}

/-- Nothing that is in `K` stands behind a match. -/
def MatchesEnd (m : List α → Option ℕ) (K : α → Prop) (l : List α) : Prop :=
  ∀ t, t <:+ l → t ≠ [] → ∀ n, m t = some n → ∀ a ∈ (t.drop n).head?, ¬ K a

theorem head_dropMatches (hb : Bounded m) (h : MatchesEnd m K l) (ht : t <:+ l) (hne : t ≠ [])
    (hm : m t ≠ none) : ∀ a ∈ (dropMatches m t).head?, ¬ K a := by
  induction hlen : t.length using Nat.strong_induction_on generalizing t with
  | _ k ih =>
    obtain ⟨n, hn⟩ := Option.ne_none_iff_exists'.mp hm
    obtain ⟨h1, h2⟩ := hb t n hne hn
    rw [dropMatches_of_some h1 hn]
    have hend := h t ht hne n hn
    cases hrest : t.drop n with
    | nil => simp
    | cons a r =>
      rw [hrest] at hend
      by_cases hnext : m (a :: r) = none
      · rwa [dropMatches_of_none hnext]
      · -- the next match follows at once, and it is shorter
        have hsuf : a :: r <:+ t := hrest ▸ drop_suffix n t
        have hlt : (a :: r).length < k := by
          rw [← hlen, ← hrest, length_drop]
          omega
        exact ih _ hlt (hsuf.trans ht) (cons_ne_nil a r) hnext rfl

/-- A word in what is left has been a word before, and the scan has kept it. -/
theorem dropMatches_word (hb : Bounded m) (h : MatchesEnd m K l) (ht : t <:+ l) {w : List α}
    (hw : ∀ a ∈ w, K a) (hp : w <+: dropMatches m t) :
    ∃ s, t = w ++ s ∧ dropMatches m t = w ++ dropMatches m s ∧ (w ≠ [] → m t = none) := by
  induction w generalizing t with
  | nil => exact ⟨t, rfl, rfl, fun h => absurd rfl h⟩
  | cons a w ih =>
    obtain ⟨r, hr⟩ := hp
    cases t with
    | nil => simp at hr
    | cons b t =>
      by_cases hm : m (b :: t) = none
      · rw [dropMatches_of_none hm] at hr ⊢
        obtain ⟨rfl, htail⟩ := cons.inj hr
        obtain ⟨s, rfl, hs, -⟩ := ih ((suffix_cons a t).trans ht)
          (fun c hc => hw c (mem_cons_of_mem a hc)) ⟨r, htail⟩
        exact ⟨s, rfl, by rw [hs]; rfl, fun _ => hm⟩
      · have hhead := head_dropMatches hb h ht (cons_ne_nil b t) hm
        rw [← hr] at hhead
        exact absurd (hw a mem_cons_self) (hhead a rfl)

theorem exists_suffix_dropMatches {u : List α} (hu : u <:+ dropMatches m l) :
    ∃ t, t <:+ l ∧ u = dropMatches m t := by
  fun_induction dropMatches m l with
  | case1 => exact ⟨[], suffix_rfl, by rw [suffix_nil.mp hu, dropMatches_nil]⟩
  | case2 a l n h ih =>
    obtain ⟨t, ht, rfl⟩ := ih hu
    exact ⟨t, (ht.trans (drop_suffix _ l)).trans (suffix_cons a l), rfl⟩
  | case3 a l h ih =>
    rcases suffix_cons_iff.mp hu with rfl | hu
    · exact ⟨a :: l, suffix_rfl, (dropMatches_of_none h).symm⟩
    · obtain ⟨t, ht, rfl⟩ := ih hu
      exact ⟨t, ht.trans (suffix_cons a l), rfl⟩

end Words

end Magisk
