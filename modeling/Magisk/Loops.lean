import Mathlib

namespace Magisk

open List Option

section Before

variable {α : Type*} (ok : α → Prop)

/-- A loop that goes on behind each `ok` element comes to `x`. -/
def Before (l : List α) (x : α) : Prop := ∃ pre post, l = pre ++ x :: post ∧ ∀ y ∈ pre, ok y

variable {ok}

theorem not_before_nil (x : α) : ¬ Before ok [] x := by
  rintro ⟨pre, post, h, -⟩
  simp at h

theorem before_cons {a : α} {l : List α} {x : α} :
    Before ok (a :: l) x ↔ x = a ∨ ok a ∧ Before ok l x := by
  constructor
  · rintro ⟨pre, post, h, hok⟩
    cases pre with
    | nil =>
      rw [nil_append, cons.injEq] at h
      exact Or.inl h.1.symm
    | cons b pre =>
      obtain ⟨rfl, rfl⟩ := h
      exact Or.inr ⟨hok a mem_cons_self, pre, post, rfl,
        fun y hy => hok y (mem_cons_of_mem a hy)⟩
  · rintro (rfl | ⟨ha, pre, post, rfl, hok⟩)
    · exact ⟨[], l, rfl, by simp⟩
    · refine ⟨a :: pre, post, rfl, ?_⟩
      intro y hy
      rcases mem_cons.mp hy with rfl | hy
      · exact ha
      · exact hok y hy

theorem Before.mem {l : List α} {x : α} (h : Before ok l x) : x ∈ l := by
  obtain ⟨pre, post, rfl, -⟩ := h
  simp

theorem not_before_iff {l : List α} (hn : l.Nodup) {x : α} (hx : x ∈ l) :
    ¬ Before ok l x ↔ ∃ pre y post, l = pre ++ y :: post ∧ ¬ ok y ∧ x ∈ post := by
  induction l with
  | nil => cases hx
  | cons a l ih =>
    rw [nodup_cons] at hn
    rw [before_cons]
    constructor
    · intro h
      rw [not_or, not_and] at h
      have hxl : x ∈ l := (mem_cons.mp hx).resolve_left h.1
      by_cases ha : ok a
      · obtain ⟨pre, y, post, rfl, hy, hxp⟩ := (ih hn.2 hxl).mp (h.2 ha)
        exact ⟨a :: pre, y, post, rfl, hy, hxp⟩
      · exact ⟨[], a, l, rfl, ha, hxl⟩
    · rintro ⟨pre, y, post, he, hy, hxp⟩
      cases pre with
      | nil =>
        obtain ⟨rfl, rfl⟩ := cons.inj he
        rintro (rfl | ⟨ha, -⟩)
        · exact hn.1 hxp
        · exact hy ha
      | cons b pre =>
        obtain ⟨rfl, rfl⟩ := cons.inj he
        have hxl : x ∈ pre ++ y :: post := by simp [hxp]
        rintro (rfl | ⟨-, hb⟩)
        · exact hn.1 hxl
        · exact (ih hn.2 hxl).mpr ⟨pre, y, post, rfl, hy, hxp⟩ hb

end Before

section Runs

variable {σ α : Type*} (step : σ → α → Option σ)

/-- `P` holds at every state of the run. The run ends early at an event that cannot happen. -/
def Throughout (P : σ → Prop) : σ → List α → Prop
  | s, [] => P s
  | s, a :: l => P s ∧ ∀ s', step s a = some s' → Throughout P s' l

/-- Every event of the run happens at a state where it is `Ok`. -/
def Along (Ok : σ → α → Prop) : σ → List α → Prop
  | _, [] => True
  | s, a :: l => ∀ s', step s a = some s' → Ok s a ∧ Along Ok s' l

/-- The state at the end of a run in which every event can happen. -/
def runAll : σ → List α → Option σ
  | s, [] => some s
  | s, a :: l => (step s a).bind fun s' => runAll s' l

variable {step} {I P Q : σ → Prop} {Ok : σ → α → Prop}

variable {s : σ} {l : List α}

theorem Throughout.start (h : Throughout step P s l) : P s := by
  cases l with
  | nil => exact h
  | cons a l => exact h.1

theorem Throughout.runAll {s s' : σ} (h : Throughout step P s l)
    (hr : runAll step s l = some s') : P s' := by
  induction l generalizing s with
  | nil =>
    rw [← some.inj hr]
    exact h
  | cons a l ih =>
    obtain ⟨s₁, h₁, hr⟩ := bind_eq_some_iff.mp hr
    exact ih (h.2 s₁ h₁) hr

theorem runAll_append (s : σ) (l l' : List α) :
    Magisk.runAll step s (l ++ l') =
      (Magisk.runAll step s l).bind fun s' => Magisk.runAll step s' l' := by
  induction l generalizing s with
  | nil => rfl
  | cons a l ih =>
    cases h : step s a with
    | none => simp [Magisk.runAll, h]
    | some s' => simp [Magisk.runAll, h, ih]

theorem throughout_of_invariant (hstep : ∀ s a s', I s → step s a = some s' → I s') (hs : I s)
    (l : List α) : Throughout step I s l := by
  induction l generalizing s with
  | nil => exact hs
  | cons a l ih => exact ⟨hs, fun s' h => ih (hstep s a s' hs h)⟩

theorem throughout_and :
    Throughout step (fun s => P s ∧ Q s) s l ↔ Throughout step P s l ∧ Throughout step Q s l := by
  induction l generalizing s with
  | nil => rfl
  | cons a l ih =>
    simp only [Throughout, ih]
    constructor
    · rintro ⟨⟨hp, hq⟩, h⟩
      exact ⟨⟨hp, fun s' hs => (h s' hs).1⟩, hq, fun s' hs => (h s' hs).2⟩
    · rintro ⟨⟨hp, h⟩, hq, h'⟩
      exact ⟨⟨hp, hq⟩, fun s' hs => ⟨h s' hs, h' s' hs⟩⟩

theorem along_or (p : Prop) : Along step (fun s a => p ∨ Ok s a) s l ↔ p ∨ Along step Ok s l := by
  by_cases hp : p
  · apply iff_of_true _ (Or.inl hp)
    induction l generalizing s with
    | nil => trivial
    | cons a l ih => exact fun s' _ => ⟨Or.inl hp, ih⟩
  · simp only [hp, false_or]

theorem Throughout.mono (hPQ : ∀ s, P s → Q s)
    (h : Throughout step P s l) : Throughout step Q s l := by
  induction l generalizing s with
  | nil => exact hPQ s h
  | cons a l ih => exact ⟨hPQ s h.1, fun s' hs => ih (h.2 s' hs)⟩

/-- If a step out of a state with `P` is `Fair` and keeps `P` exactly when it is `Ok`, then a run is
fair with `P` throughout exactly if all its steps are. -/
theorem along_and_throughout_iff (Fair : σ → α → Prop)
    (hI : ∀ s a s', I s → P s → step s a = some s' → I s')
    (hP : ∀ s a s', I s → P s → step s a = some s' → (Fair s a ∧ P s' ↔ Ok s a)) (his : I s)
    (hps : P s) (l : List α) :
    Along step Fair s l ∧ Throughout step P s l ↔ Along step Ok s l := by
  induction l generalizing s with
  | nil => exact iff_of_true ⟨trivial, hps⟩ trivial
  | cons a l ih =>
    constructor
    · rintro ⟨hfair, -, h⟩ s' hs
      have hps' := (h s' hs).start
      have hok := (hP s a s' his hps hs).mp ⟨(hfair s' hs).1, hps'⟩
      exact ⟨hok, (ih (hI s a s' his hps hs) hps').mp ⟨(hfair s' hs).2, h s' hs⟩⟩
    · intro h
      have hnext (s' : σ) (hs : step s a = some s') :
          Fair s a ∧ Along step Fair s' l ∧ Throughout step P s' l := by
        obtain ⟨hfair, hps'⟩ := (hP s a s' his hps hs).mpr (h s' hs).1
        exact ⟨hfair, (ih (hI s a s' his hps hs) hps').mpr (h s' hs).2⟩
      exact ⟨fun s' hs => ⟨(hnext s' hs).1, (hnext s' hs).2.1⟩, hps, fun s' hs => (hnext s' hs).2.2⟩

theorem along_true (s : σ) (l : List α) : Along step (fun _ _ => True) s l := by
  induction l generalizing s with
  | nil => trivial
  | cons a l ih => exact fun s' _ => ⟨trivial, ih s'⟩

theorem throughout_iff_along (hI : ∀ s a s', I s → P s → step s a = some s' → I s')
    (hP : ∀ s a s', I s → P s → step s a = some s' → (P s' ↔ Ok s a)) (his : I s) (hps : P s)
    (l : List α) :
    Throughout step P s l ↔ Along step Ok s l := by
  have h := along_and_throughout_iff (fun _ _ => True) hI
    (fun s a s' his hps hs => by rw [true_and]; exact hP s a s' his hps hs) his hps l
  rwa [and_iff_right (along_true s l)] at h

end Runs

section Walk

variable {σ : Type*} (next : σ → Option σ)

/-- The state after `n` rounds, if the walk has not ended by then. -/
def walk : ℕ → σ → Option σ
  | 0, s => some s
  | n + 1, s => (next s).bind (walk n)

variable {next}

theorem walk_add (m n : ℕ) (s : σ) : walk next (m + n) s = (walk next m s).bind (walk next n) := by
  induction m generalizing s with
  | zero => rw [zero_add, walk, bind_some]
  | succ m ih =>
    rw [Nat.succ_add, walk, walk, bind_assoc]
    cases next s with
    | none => rfl
    | some t => exact ih t

theorem walk_one (s : σ) : walk next 1 s = next s := by
  rw [walk]
  cases next s <;> rfl

theorem walk_eq_none_of_le {m n : ℕ} {s : σ} (h : walk next m s = none) (hle : m ≤ n) :
    walk next n s = none := by
  obtain ⟨d, rfl⟩ := Nat.exists_eq_add_of_le hle
  rw [walk_add, h, bind_none]

/-- A walk that ends never comes back to a state. So it takes no more rounds than there are
states. -/
theorem walk_card_eq_none {s : σ} {S : Finset σ} (hS : ∀ n t, walk next n s = some t → t ∈ S)
    (h : ∃ n, walk next n s = none) : walk next S.card s = none := by
  classical
  refine walk_eq_none_of_le (Nat.find_spec h) ?_
  have hmin : ∀ i, i < Nat.find h → walk next i s ≠ none := fun i => Nat.find_min h
  suffices (Finset.range (Nat.find h)).card ≤ (S.map Function.Embedding.some).card by
    rwa [Finset.card_range, Finset.card_map] at this
  apply Finset.card_le_card_of_injOn fun i => walk next i s
  · intro i hi
    obtain ⟨t, ht⟩ := ne_none_iff_exists'.mp (hmin i (Finset.mem_range.mp hi))
    simp only [ht, Finset.coe_map, Set.mem_image]
    exact ⟨t, hS i t ht, rfl⟩
  · -- from equal states on, the earlier one would end before the end
    have hlt : ∀ i j, i < j → j < Nat.find h → walk next i s ≠ walk next j s := by
      intro i j hij hj he
      apply hmin (i + (Nat.find h - j)) (by omega)
      rw [walk_add, he, ← walk_add, Nat.add_sub_cancel' hj.le]
      exact Nat.find_spec h
    intro i hi j hj he
    rcases Nat.lt_trichotomy i j with hij | hij | hij
    · exact absurd he (hlt i j hij (Finset.mem_range.mp hj))
    · exact hij
    · exact absurd he.symm (hlt j i hij (Finset.mem_range.mp hi))

theorem walk_ne_none_of_invariant {P : σ → Prop} (h : ∀ t, P t → ∃ t', next t = some t' ∧ P t')
    {s : σ} (hs : P s) (n : ℕ) : walk next n s ≠ none := by
  induction n generalizing s with
  | zero => exact some_ne_none s
  | succ n ih =>
    obtain ⟨t, ht, hP⟩ := h s hs
    rw [walk, ht, bind_some]
    exact ih hP

/-- A walk along which a measure falls ends. -/
theorem walk_ends_of_lt {μ : σ → ℕ} {s : σ}
    (h : ∀ n t t', walk next n s = some t → next t = some t' → μ t' < μ t) :
    ∃ n, walk next n s = none := by
  have hfalls (n : ℕ) (t : σ) (ht : walk next n s = some t) : μ t + n ≤ μ s := by
    induction n generalizing t with
    | zero =>
      obtain rfl := some.inj ht
      exact le_rfl
    | succ n ih =>
      rw [walk_add] at ht
      obtain ⟨u, hu, hnext⟩ := bind_eq_some_iff.mp ht
      rw [walk_one] at hnext
      have hlt := h n u t hu hnext
      have hle := ih u hu
      omega
  refine ⟨μ s + 1, eq_none_iff_forall_ne_some.mpr fun t ht => ?_⟩
  have hle := hfalls _ t ht
  omega

end Walk

end Magisk
