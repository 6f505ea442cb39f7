import Magisk.Bytes

namespace Magisk

open List

/-- `Path::components` of an absolute path, the root left out. -/
def components (s : Str) : List Str :=
  (s.splitOn '/').filter fun n => n ≠ [] ∧ n ≠ ['.']

structure IsName (n : Str) : Prop where
  ne_nil : n ≠ []
  no_slash : '/' ∉ n
  ne_dot : n ≠ ['.']

def render (names : List Str) : Str := if names = [] then ['/'] else names.flatMap ('/' :: ·)

/-- A text that is a path without empty names. -/
def IsPath (s : Str) : Prop := ∃ names, (∀ n ∈ names, IsName n) ∧ s = render names

theorem flatMap_slash (names : List Str) :
    names.flatMap ('/' :: ·) = ['/'].intercalate ([] :: names) := by
  induction names with
  | nil => rfl
  | cons n names ih =>
    rw [flatMap_cons, ih, intercalate_cons_cons]
    cases names with
    | nil => simp
    | cons m names => simp [intercalate_cons_cons]

theorem components_render {names : List Str} (h : ∀ n ∈ names, IsName n) :
    components (render names) = names := by
  unfold render
  split_ifs with h0
  · rw [h0]
    decide
  · have hs : ∀ l ∈ [] :: names, '/' ∉ l :=
      forall_mem_cons.mpr ⟨not_mem_nil, fun n hn => (h n hn).no_slash⟩
    rw [components, flatMap_slash, splitOn_intercalate _ hs (cons_ne_nil _ _),
      filter_cons_of_neg (by simp), filter_eq_self]
    intro n hn
    simpa using ⟨(h n hn).ne_nil, (h n hn).ne_dot⟩

variable {s n t : Str}

theorem mem_splitOn {x : Char} {l p : Str} (h : p ∈ l.splitOn x) : x ∉ p ∧ ∀ y ∈ p, y ∈ l := by
  induction l generalizing p with
  | nil =>
    rw [splitOn_nil, mem_singleton] at h
    simp [h]
  | cons a l ih =>
    rw [splitOn_cons_eq_if_modifyHead] at h
    split_ifs at h with ha
    · rcases mem_cons.mp h with rfl | h
      · simp
      · exact ⟨(ih h).1, fun y hy => mem_cons_of_mem _ ((ih h).2 y hy)⟩
    · obtain ⟨q, qs, hq⟩ := exists_cons_of_ne_nil (splitOn_ne_nil x l)
      rw [hq, modifyHead_cons] at h
      rcases mem_cons.mp h with rfl | h
      · have hq := ih (p := q) (by rw [hq]; simp)
        have ha : x ≠ a := fun hx => ha (by simp [hx])
        simp only [mem_cons, not_or]
        exact ⟨⟨ha, hq.1⟩, fun y hy => hy.imp_right (hq.2 y)⟩
      · have hp := ih (p := p) (by rw [hq]; simp [h])
        exact ⟨hp.1, fun y hy => mem_cons_of_mem _ (hp.2 y hy)⟩

theorem mem_of_mem_intercalate {α : Type} {x : α} {sep : List α} {ls : List (List α)}
    (h : x ∈ List.intercalate sep ls) : x ∈ sep ∨ ∃ l ∈ ls, x ∈ l := by
  induction ls with
  | nil => simp at h
  | cons l ls ih =>
    cases ls with
    | nil =>
      rw [intercalate_singleton] at h
      exact .inr ⟨l, by simp, h⟩
    | cons l' ls =>
      rw [intercalate_cons_cons, append_assoc] at h
      rcases mem_append.mp h with h | h
      · exact .inr ⟨l, by simp, h⟩
      · rcases mem_append.mp h with h | h
        · exact .inl h
        · exact (ih h).imp_right fun ⟨m, hm, hx⟩ => ⟨m, mem_cons_of_mem _ hm, hx⟩

theorem isName_of_mem_components (h : n ∈ components s) : IsName n := by
  rw [components, mem_filter, decide_eq_true_eq] at h
  exact ⟨h.2.1, (mem_splitOn h.1).1, h.2.2⟩

theorem isPath_iff : IsPath s ↔ render (components s) = s := by
  constructor
  · rintro ⟨names, hn, rfl⟩
    rw [components_render hn]
  · intro h
    exact ⟨components s, fun n => isName_of_mem_components, h.symm⟩

instance (s : Str) : Decidable (IsPath s) := decidable_of_iff _ isPath_iff.symm

theorem IsPath.render_components (h : IsPath s) : render (components s) = s :=
  isPath_iff.mp h

theorem IsPath.ext (hs : IsPath s) (ht : IsPath t) (h : components s = components t) : s = t := by
  rw [← hs.render_components, ← ht.render_components, h]

def ProperAncestor (s t : Str) : Prop :=
  components s <+: components t ∧ components s ≠ components t

instance (s t : Str) : Decidable (ProperAncestor s t) := inferInstanceAs (Decidable (_ ∧ _))

theorem ProperAncestor.ne (h : ProperAncestor s t) : s ≠ t :=
  fun he => h.2 (congrArg components he)

theorem ProperAncestor.trans {s t u : Str} (h : ProperAncestor s t) (h' : ProperAncestor t u) :
    ProperAncestor s u := by
  refine ⟨h.1.trans h'.1, fun he => h.2 ?_⟩
  apply h.1.eq_of_length_le
  rw [he]
  exact h'.1.length_le

theorem ProperAncestor.of_prefix {p s t : Str} (h : components p <+: components s)
    (hst : ProperAncestor s t) : ProperAncestor p t := by
  refine ⟨h.trans hst.1, fun he => hst.2 (hst.1.eq_of_length_le ?_)⟩
  rw [← he]
  exact h.length_le

theorem takeWhile_name (hn : '/' ∉ n) (names : List Str) :
    (n ++ names.flatMap ('/' :: ·)).takeWhile (· ≠ '/') = n := by
  have hall : ∀ c ∈ n, decide (c ≠ '/') := by
    intro c hc
    simp only [decide_eq_true_eq]
    rintro rfl
    exact hn hc
  rw [takeWhile_append_of_pos hall]
  cases names <;> simp

theorem exists_append_of_flatMap {a b : List Str} (ha : ∀ n ∈ a, '/' ∉ n) (hb : ∀ n ∈ b, '/' ∉ n)
    {x : Str} (h : a.flatMap ('/' :: ·) ++ '/' :: x = b.flatMap ('/' :: ·)) :
    ∃ r, r ≠ [] ∧ b = a ++ r := by
  induction a generalizing b with
  | nil =>
    refine ⟨b, ?_, rfl⟩
    rintro rfl
    cases h
  | cons n a ih =>
    cases b with
    | nil => cases h
    | cons m b =>
      rw [forall_mem_cons] at ha hb
      have h' : n ++ (a.flatMap ('/' :: ·) ++ '/' :: x) = m ++ b.flatMap ('/' :: ·) := by
        simpa using h
      -- the first names end at the next slash
      have hn : n = m := by
        have hx : n ++ (a.flatMap ('/' :: ·) ++ '/' :: x) =
            n ++ (a ++ [x]).flatMap ('/' :: ·) := by simp
        rw [← takeWhile_name ha.1 (a ++ [x]), ← hx, h', takeWhile_name hb.1]
      subst hn
      obtain ⟨r, hr, rfl⟩ := ih ha.2 hb.2 (append_cancel_left h')
      exact ⟨r, hr, rfl⟩

theorem properAncestor_iff (hs : IsPath s) (ht : IsPath t) (h0 : s ≠ ['/']) :
    ProperAncestor s t ↔ s ++ ['/'] <+: t := by
  obtain ⟨a, ha, rfl⟩ := hs
  obtain ⟨b, hb, rfl⟩ := ht
  have ha0 : a ≠ [] := by
    rintro rfl
    exact h0 rfl
  have hsl {l : List Str} (h : ∀ n ∈ l, IsName n) : ∀ n ∈ l, '/' ∉ n := fun n hn => (h n hn).no_slash
  rw [ProperAncestor, components_render ha, components_render hb, render, if_neg ha0]
  constructor
  · rintro ⟨⟨r, rfl⟩, hne⟩
    have hr : r ≠ [] := by
      rintro rfl
      exact hne (append_nil a).symm
    obtain ⟨n, r, rfl⟩ := exists_cons_of_ne_nil hr
    exact ⟨n ++ r.flatMap ('/' :: ·), by simp [render]⟩
  · rintro ⟨x, hx⟩
    have hb0 : b ≠ [] := by
      rintro rfl
      have hl := congrArg List.length hx
      obtain ⟨n, a, rfl⟩ := exists_cons_of_ne_nil ha0
      simp [render] at hl
    rw [render, if_neg hb0, append_assoc, singleton_append] at hx
    obtain ⟨r, hr, rfl⟩ := exists_append_of_flatMap (hsl ha) (hsl hb) hx
    refine ⟨prefix_append a r, ?_⟩
    simpa using hr

theorem root_prefix (ht : IsPath t) : ['/'] <+: t := by
  obtain ⟨b, -, rfl⟩ := ht
  unfold render
  cases b <;> simp

theorem ProperAncestor.lt (hs : IsPath s) (ht : IsPath t) (h : ProperAncestor s t) : s < t := by
  have hp : s <+: t := by
    by_cases h0 : s = ['/']
    · rw [h0]
      exact root_prefix ht
    · exact (prefix_append s ['/']).trans ((properAncestor_iff hs ht h0).mp h)
  exact lt_of_le_of_ne (not_lt.mp hp.le) h.ne

end Magisk
