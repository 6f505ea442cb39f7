import Magisk.Bytes

namespace Magisk

open List

/-- `char::is_whitespace`, the property `White_Space` of Unicode. -/
def isWhitespace (c : Char) : Bool :=
  let n := c.toNat
  (9 ≤ n ∧ n ≤ 13) ∨ n = 0x20 ∨ n = 0x85 ∨ n = 0xA0 ∨ n = 0x1680 ∨ (0x2000 ≤ n ∧ n ≤ 0x200A) ∨
    n = 0x2028 ∨ n = 0x2029 ∨ n = 0x202F ∨ n = 0x205F ∨ n = 0x3000

variable {c : Char} {s a b w : Str}

theorem not_isWhitespace_of_isDigit (h : c.isDigit) : ¬ isWhitespace c := by
  have h' : 48 ≤ c.toNat ∧ c.toNat ≤ 57 := by simpa [Char.isDigit, UInt32.le_iff_toNat_le] using h
  simp only [isWhitespace, decide_eq_true_eq]
  omega

/-- `split_whitespace`, after the characters `word` of a word. -/
def splitWords (word : Str) : Str → List Str
  | [] => if word = [] then [] else [word]
  | c :: s =>
    if isWhitespace c then (if word = [] then [] else [word]) ++ splitWords [] s
    else splitWords (word ++ [c]) s

def splitWhitespace (s : Str) : List Str := splitWords [] s

def trim (s : Str) : Str := (s.dropWhile isWhitespace).rdropWhile isWhitespace

/-- The word before and after the first `c`. -/
def splitAtChar (s : Str) (c : Char) : Option (Str × Str) :=
  if c ∈ s then some (s.takeWhile (· ≠ c), (s.dropWhile (· ≠ c)).tail) else none

theorem splitAtChar_eq_some (h : splitAtChar s c = some (a, b)) : s = a ++ c :: b := by
  unfold splitAtChar at h
  split_ifs at h with hc
  obtain ⟨rfl, rfl⟩ := Prod.mk.inj (Option.some.inj h)
  have hne : s.dropWhile (· ≠ c) ≠ [] := by
    intro hd
    have hall := dropWhile_eq_nil_iff.mp hd c hc
    simp at hall
  obtain ⟨d, r, hd⟩ := exists_cons_of_ne_nil hne
  have hdc : d = c := by
    have hh := head?_dropWhile_not (fun x => decide (x ≠ c)) s
    rw [hd] at hh
    simpa using hh
  conv_lhs => rw [← takeWhile_append_dropWhile (p := fun x => decide (x ≠ c)) (l := s)]
  rw [hd, hdc, tail_cons]

/-- What stands between white space. -/
def Word (s : Str) : Prop := s ≠ [] ∧ ∀ c ∈ s, ¬ isWhitespace c

theorem not_isWhitespace_of_any (h : s.any isWhitespace = false) : ∀ c ∈ s, ¬ isWhitespace c := by
  simpa using h

theorem splitWords_append (hw : ∀ c ∈ w, ¬ isWhitespace c) (v s : Str) :
    splitWords v (w ++ s) = splitWords (v ++ w) s := by
  induction w generalizing v with
  | nil => rw [nil_append, append_nil]
  | cons c w ih =>
    rw [forall_mem_cons] at hw
    rw [cons_append, splitWords, if_neg hw.1, ih hw.2, append_assoc, singleton_append]

theorem splitWords_space (hc : isWhitespace c) (hw : w ≠ []) (s : Str) :
    splitWords w (c :: s) = w :: splitWords [] s := by
  rw [splitWords, if_pos hc, if_neg hw, singleton_append]

theorem splitWhitespace_intercalate {words : List Str} (h : ∀ w ∈ words, Word w) :
    splitWhitespace ([' '].intercalate words ++ ['\n']) = words := by
  induction words with
  | nil => rfl
  | cons w words ih =>
    rw [forall_mem_cons] at h
    obtain ⟨⟨h0, hw⟩, h⟩ := h
    unfold splitWhitespace at *
    cases words with
    | nil =>
      rw [intercalate_singleton, splitWords_append hw, nil_append,
        splitWords_space (by decide) h0]
      rfl
    | cons v words =>
      rw [intercalate_cons_cons, append_assoc, append_assoc, splitWords_append hw,
        nil_append, singleton_append, splitWords_space (by decide) h0, ih h]

theorem word_of_mem_last {v w : Str} (hv : ∀ c ∈ v, ¬ isWhitespace c)
    (h : w ∈ if v = [] then [] else [v]) : Word w := by
  split_ifs at h with h0
  · cases h
  · rw [mem_singleton.mp h]
    exact ⟨h0, hv⟩

theorem word_of_mem_splitWords {v s w : Str} (hv : ∀ c ∈ v, ¬ isWhitespace c)
    (h : w ∈ splitWords v s) : Word w := by
  induction s generalizing v with
  | nil => exact word_of_mem_last hv h
  | cons c s ih =>
    rw [splitWords] at h
    by_cases hc : isWhitespace c
    · rw [if_pos hc] at h
      rcases mem_append.mp h with h | h
      · exact word_of_mem_last hv h
      · exact ih (forall_mem_nil _) h
    · rw [if_neg hc] at h
      exact ih (forall_mem_append.mpr ⟨hv, forall_mem_singleton.mpr hc⟩) h

theorem word_append {a b : Str} (ha : ∀ c ∈ a, ¬ isWhitespace c) (hb : Word b) : Word (a ++ b) :=
  ⟨by simp [hb.1], forall_mem_append.mpr ⟨ha, hb.2⟩⟩

theorem flatMap_eq_map_iff {α β : Type} {f : α → List β} {g : α → β} {l : List α}
    (hf : ∀ a ∈ l, f a ≠ []) : l.flatMap f = l.map g ↔ ∀ a ∈ l, f a = [g a] := by
  induction l with
  | nil => simp
  | cons a l ih =>
    have hl : ∀ a' ∈ l, f a' ≠ [] := fun a' h => hf a' (mem_cons_of_mem a h)
    have hlen : l.length ≤ (l.flatMap f).length := by
      have h1 : ∀ n ∈ l.map fun a => (f a).length, 1 ≤ n := by
        intro n hn
        obtain ⟨a', ha', rfl⟩ := List.mem_map.mp hn
        exact length_pos_iff.mpr (hl a' ha')
      simpa using card_nsmul_le_sum _ 1 h1
    rw [forall_mem_cons, ← ih hl, flatMap_cons, map_cons]
    constructor
    · intro h
      obtain ⟨x, r, hx⟩ := exists_cons_of_ne_nil (hf a mem_cons_self)
      have hn := congrArg List.length h
      rw [hx, cons_append] at h hn
      simp only [length_append, length_cons, length_map] at hn
      obtain rfl : r = [] := eq_nil_of_length_eq_zero (by omega)
      obtain ⟨rfl, hl⟩ := cons.inj h
      exact ⟨hx, hl⟩
    · rintro ⟨ha, h⟩
      rw [ha, h, singleton_append]

end Magisk
