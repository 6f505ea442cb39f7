import Magisk.ReadLines
import Magisk.Utf8
import Magisk.Words

namespace Magisk

open List Option

def propOf (line : Str) : Option (Str × Str) :=
  let line := trim line
  if line.head? = some '#' then none
  else (splitAtChar line '=').map fun p => (trim p.1, trim p.2)

/-- The properties that `for_each_prop` comes to when its callback goes on. -/
def readProps (text : Bytes) : List (Str × Str) := (readLines text).filterMap propOf

section Trim

variable {α : Type*} {p : α → Bool} {a : α}

theorem dropWhile_append_cons (h : p a = false) (l r : List α) :
    (l ++ a :: r).dropWhile p = l.dropWhile p ++ a :: r := by
  rw [dropWhile_append]
  split_ifs with he
  · rw [List.isEmpty_iff.mp he, dropWhile_cons_of_neg (by simp [h]), nil_append]
  · rfl

theorem rdropWhile_append_cons (h : p a = false) (l r : List α) :
    (l ++ a :: r).rdropWhile p = l ++ a :: r.rdropWhile p := by
  unfold List.rdropWhile
  rw [reverse_append, reverse_cons, append_assoc, singleton_append,
    dropWhile_append_cons h]
  simp

theorem trim_of_forall {s : Str} (h : ∀ c ∈ s, isWhitespace c = false) : trim s = s := by
  have hd : s.dropWhile isWhitespace = s := by
    cases s with
    | nil => rfl
    | cons c s => exact dropWhile_cons_of_neg (by simp [h c mem_cons_self])
  rw [trim, hd, rdropWhile_eq_self_iff]
  intro hne
  simp [h _ (getLast_mem hne)]

theorem trim_rdropWhile (s : Str) : trim (s.rdropWhile isWhitespace) = trim s := by
  unfold trim
  cases hd : s.dropWhile isWhitespace with
  | nil =>
    have hr : s.rdropWhile isWhitespace = [] :=
      rdropWhile_eq_nil_iff.mpr (dropWhile_eq_nil_iff.mp hd)
    rw [hr, dropWhile_nil]
  | cons x t =>
    have hx : isWhitespace x = false := by
      have hh := head?_dropWhile_not isWhitespace s
      rw [hd] at hh
      simpa using hh
    have hs : s = s.takeWhile isWhitespace ++ x :: t := by
      rw [← hd, takeWhile_append_dropWhile]
    have hw : (s.takeWhile isWhitespace).dropWhile isWhitespace = [] :=
      dropWhile_eq_nil_iff.mpr fun c hc => mem_takeWhile_imp hc
    have hcons := rdropWhile_append_cons hx [] t
    have hidem := rdropWhile_append_cons hx [] (t.rdropWhile isWhitespace)
    simp only [nil_append] at hcons hidem
    rw [hs, rdropWhile_append_cons hx, dropWhile_append_cons hx, hw, nil_append, hidem, hcons,
      rdropWhile_idempotent]

theorem exists_eq_append_trim (s : Str) : ∃ a b, s = a ++ (trim s ++ b) :=
  ⟨s.takeWhile isWhitespace, (s.dropWhile isWhitespace).rtakeWhile isWhitespace, by
    rw [trim, rdropWhile_append_rtakeWhile, takeWhile_append_dropWhile]⟩

theorem splitAtChar_append {c : Char} {k : Str} (h : c ∉ k) (v : Str) :
    splitAtChar (k ++ c :: v) c = some (k, v) := by
  have hk : ∀ d ∈ k, decide (d ≠ c) := by
    intro d hd
    have hne : d ≠ c := fun he => h (he ▸ hd)
    exact decide_eq_true hne
  rw [splitAtChar, if_pos (by simp), takeWhile_append_of_pos hk,
    dropWhile_append_of_pos hk]
  simp

end Trim

/-- A key that is read back: not empty, no comment, in ASCII and without blanks and equals signs. -/
@[mk_iff]
structure IsKey (key : Str) : Prop where
  ne_nil : key ≠ []
  no_comment : key.head? ≠ some '#'
  no_equals : '=' ∉ key
  no_blank : ∀ c ∈ key, isWhitespace c = false
  ascii : ∀ c ∈ key, c.toNat < 128

theorem propOf_line {key : Str} (h : IsKey key) (value : Str) :
    propOf (key ++ '=' :: (value ++ ['\n'])) = some (key, trim value) := by
  have htrim : trim (key ++ '=' :: (value ++ ['\n'])) =
      key ++ '=' :: value.rdropWhile isWhitespace := by
    obtain ⟨c, k, rfl⟩ := exists_cons_of_ne_nil h.ne_nil
    have hc := h.no_blank c mem_cons_self
    rw [trim, cons_append, dropWhile_cons_of_neg (by simp [hc]), ← cons_append,
      rdropWhile_append_cons (by decide), rdropWhile_concat_pos _ _ _ (by decide)]
  have hhead : (key ++ '=' :: value.rdropWhile isWhitespace).head? ≠ some '#' := by
    rw [head?_append_of_ne_nil _ h.ne_nil]
    exact h.no_comment
  rw [propOf, htrim, if_neg hhead, splitAtChar_append h.no_equals, map_some,
    trim_of_forall h.no_blank, trim_rdropWhile]

theorem exists_byte_of_ascii {c : Char} (h : c.toNat < 128) :
    ∃ x, String.utf8EncodeChar c = [x] ∧ ∀ d, x ∈ String.utf8EncodeChar d → d = c := by
  have hone : String.utf8EncodeChar c = [UInt8.ofNat c.toNat] := by
    unfold String.utf8EncodeChar
    dsimp only
    rw [if_pos (by unfold Char.toNat at h; omega)]
    rfl
  have hx : (UInt8.ofNat c.toNat).toNat = c.toNat := by
    rw [UInt8.toNat_ofNat']
    omega
  refine ⟨_, hone, fun d hd => ?_⟩
  rw [ascii_mem_utf8EncodeChar (by omega), hx] at hd
  exact Char.toNat_inj.mp hd

theorem fromUtf8_append_newline (b : Bytes) :
    fromUtf8 (b ++ [10]) = (fromUtf8 b).map (· ++ ['\n']) := by
  ext t
  rw [map_eq_some_iff]
  simp only [fromUtf8_eq_some_iff]
  constructor
  · intro ht
    obtain ⟨x, hx, hother⟩ := exists_byte_of_ascii (c := '\n') (by decide)
    obtain rfl : x = 10 := singleton_inj.mp hx.symm
    rcases eq_nil_or_concat' t with rfl | ⟨u, c, rfl⟩
    · simp [asBytes] at ht
    · have hc : asBytes [c] = String.utf8EncodeChar c := by simp [asBytes]
      rw [asBytes_append, hc] at ht
      -- the last byte is one of the last character
      have hmem : (10 : UInt8) ∈ String.utf8EncodeChar c := by
        have hlast := congrArg List.getLast? ht
        rw [getLast?_append_of_ne_nil _ String.utf8EncodeChar_ne_nil,
          getLast?_concat] at hlast
        exact mem_of_getLast? hlast
      obtain rfl := hother c hmem
      rw [hx] at ht
      exact ⟨u, append_cancel_right ht, rfl⟩
  · rintro ⟨u, hu, rfl⟩
    rw [asBytes_append, hu]
    rfl

theorem trim_eq_self_of_length_le {s : Str} (h : (asBytes s).length ≤ (asBytes (trim s)).length) :
    trim s = s := by
  obtain ⟨a, b, hs⟩ := exists_eq_append_trim s
  have hlen := congrArg (fun t => (asBytes t).length) hs
  simp only [asBytes_append, length_append] at hlen
  have hnil : ∀ t : Str, (asBytes t).length = 0 → t = [] := fun t ht =>
    asBytes_injective (length_eq_zero_iff.mp ht)
  rw [hnil a (by omega), hnil b (by omega), nil_append, append_nil] at hs
  exact hs.symm

theorem mem_of_mem_trim {s : Str} {c : Char} (h : c ∈ trim s) : c ∈ s := by
  obtain ⟨a, b, hs⟩ := exists_eq_append_trim s
  rw [hs]
  exact mem_append_right _ (mem_append_left _ h)

def propLine (p : Str × Bytes) : Bytes := asBytes (p.1 ++ ['=']) ++ p.2

theorem fromUtf8_propLine (p : Str × Bytes) :
    fromUtf8 (propLine p ++ [10]) =
      (fromUtf8 p.2).map fun s => p.1 ++ '=' :: (s ++ ['\n']) := by
  rw [propLine, append_assoc, fromUtf8_append, fromUtf8_append_newline, Option.map_map]
  congr 1
  funext s
  simp

theorem newline_not_mem_asBytes {s : Str} (h : ∀ c ∈ s, isWhitespace c = false) :
    10 ∉ asBytes s := by
  intro hm
  obtain ⟨c, hc, hb⟩ := mem_flatMap.mp hm
  rw [ascii_mem_utf8EncodeChar (by decide)] at hb
  obtain rfl : c = '\n' := Char.toNat_inj.mp hb
  exact absurd (h _ hc) (by decide)

theorem newline_not_mem_propLine {p : Str × Bytes} (h : IsKey p.1) (hv : 10 ∉ p.2) :
    10 ∉ propLine p := by
  have hkey : ∀ c ∈ p.1 ++ ['='], isWhitespace c = false := by
    rw [forall_mem_append]
    exact ⟨h.no_blank, by simp [isWhitespace]⟩
  rw [propLine, mem_append, not_or]
  exact ⟨newline_not_mem_asBytes hkey, hv⟩

theorem readProps_flatMap {ps : List (Str × Bytes)} (h : ∀ p ∈ ps, IsKey p.1 ∧ 10 ∉ p.2) :
    readProps (ps.flatMap fun p => propLine p ++ [10]) =
      mapWhile (fun p => (fromUtf8 p.2).map fun s => (p.1, trim s)) ps := by
  rw [readProps, readLines,
    splitLines_flatMap fun p hp => newline_not_mem_propLine (h p hp).1 (h p hp).2]
  induction ps with
  | nil => rfl
  | cons p ps ih =>
    rw [forall_mem_cons] at h
    have hline := fromUtf8_propLine p
    cases hv : fromUtf8 p.2 with
    | none =>
      rw [hv, map_none] at hline
      rw [map_cons, mapWhile_cons_none hline, mapWhile_cons_none (by rw [hv]; rfl),
        filterMap_nil]
    | some s =>
      rw [hv, map_some] at hline
      rw [map_cons, mapWhile_cons_some hline, mapWhile_cons_some (by rw [hv]; rfl),
        filterMap_cons_some (propOf_line h.1.1 s), ih h.2]

end Magisk
