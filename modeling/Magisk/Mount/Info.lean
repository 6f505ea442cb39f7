import Magisk.Path
import Magisk.ReadLines
import Magisk.Words

namespace Magisk.Mount

open List Option

/-- A device number has 12 bits for the major and 20 for the minor one, also in a `dev_t` of 64. -/
def makedev (ma mi : BitVec 32) : BitVec 32 :=
  ((ma &&& 0xfff#32) <<< 8) ||| (mi &&& 0xff#32) ||| ((mi &&& 0xfff00#32) <<< 12)

def major (dev : BitVec 32) : BitVec 32 := (dev >>> 8) &&& 0xfff#32

def minor (dev : BitVec 32) : BitVec 32 := (dev &&& 0xff#32) ||| ((dev >>> 12) &&& 0xfff00#32)

theorem getLsbD_mask {lo hi : ℕ} {m : BitVec 32}
    (h : ∀ j : Fin 32, m.getLsbD j = decide (lo ≤ j.val ∧ j.val < hi)) (i : ℕ) (h32 : i < 32) :
    m.getLsbD i = decide (lo ≤ i ∧ i < hi) :=
  h ⟨i, h32⟩

theorem makedev_major_minor (dev : BitVec 32) : makedev (major dev) (minor dev) = dev := by
  have hma : ∀ i, i < 32 → (0xfff#32).getLsbD i = decide (0 ≤ i ∧ i < 12) :=
    getLsbD_mask (by decide)
  have hmi : ∀ i, i < 32 → (0xfff00#32).getLsbD i = decide (8 ≤ i ∧ i < 20) :=
    getLsbD_mask (by decide)
  have hmi' : ∀ i, i < 32 → (0xff#32).getLsbD i = decide (0 ≤ i ∧ i < 8) :=
    getLsbD_mask (by decide)
  apply BitVec.eq_of_getLsbD_eq
  intro i hi
  have h12 : i - 12 < 32 := by omega
  have h8 : i - 8 < 32 := by omega
  unfold makedev major minor
  simp only [BitVec.getLsbD_or, BitVec.getLsbD_and, BitVec.getLsbD_shiftLeft,
    BitVec.getLsbD_ushiftRight, hmi _ hi, hmi' _ hi, hma _ h8, hmi _ h12, hmi' _ h12]
  -- each bit comes from one of the three parts
  clear hma hmi hmi'
  grind

/-- A mount, with strings of type `σ`: text after parsing, bytes in the kernel. -/
@[ext]
structure MountInfo (σ : Type) where
  id : BitVec 32
  parent : BitVec 32
  device : BitVec 32
  root : σ
  target : σ
  vfsOption : σ
  shared : BitVec 32
  master : BitVec 32
  propagationFrom : BitVec 32
  unbindable : Bool
  fsType : σ
  source : σ
  fsOption : σ
  deriving DecidableEq

namespace MountInfo

variable {σ τ : Type}

def map (f : σ → τ) (m : MountInfo σ) : MountInfo τ :=
  { m with
    root := f m.root
    target := f m.target
    vfsOption := f m.vfsOption
    fsType := f m.fsType
    source := f m.source
    fsOption := f m.fsOption }

def strings (m : MountInfo σ) : List σ :=
  [m.root, m.target, m.vfsOption, m.fsType, m.source, m.fsOption]

theorem map_eq_self_iff {f : σ → σ} {m : MountInfo σ} :
    m.map f = m ↔ ∀ s ∈ m.strings, f s = s := by
  simp [map, strings, MountInfo.ext_iff]

end MountInfo

/-- `str::parse` for `u32`: decimal digits after an optional plus. -/
def parseU32 (s : Str) : Option (BitVec 32) :=
  let digits := if s.head? = some '+' then s.tail else s
  if digits ≠ [] ∧ digits.all Char.isDigit then
    let n := Nat.ofDigitChars 10 digits 0
    if n < 2 ^ 32 then some (BitVec.ofNat 32 n) else none
  else none

def stripPrefix (p s : Str) : Option Str :=
  if p.isPrefixOf s then some (s.drop p.length) else none

/-- The fields of a line that may be missing. -/
structure Optional where
  shared : BitVec 32
  master : BitVec 32
  propagationFrom : BitVec 32
  unbindable : Bool
  deriving DecidableEq

/-- The loop over the optional fields, up to the word that ends them. -/
def parseOptional (o : Optional) : List Str → Option (Optional × List Str)
  | [] => none
  | word :: rest =>
    if word = "-".toList then some (o, rest)
    else match stripPrefix "master:".toList word with
      | some peer => do
        let n ← parseU32 peer
        parseOptional { o with master := n } rest
      | none =>
        match stripPrefix "shared:".toList word with
        | some peer => do
          let n ← parseU32 peer
          parseOptional { o with shared := n } rest
        | none =>
          match stripPrefix "propagate_from:".toList word with
          | some peer => do
            let n ← parseU32 peer
            parseOptional { o with propagationFrom := n } rest
          | none =>
            if word = "unbindable".toList then parseOptional { o with unbindable := true } rest
            else parseOptional o rest

def parseDevice (word : Str) : Option (BitVec 32) := do
  let (maj, min) ← splitAtChar word ':'
  let maj ← parseU32 maj
  let min ← parseU32 min
  return makedev maj min

def parseWords : List Str → Option (MountInfo Str)
  | id :: parent :: device :: root :: target :: vfsOption :: words => do
    let id ← parseU32 id
    let parent ← parseU32 parent
    let device ← parseDevice device
    let (o, words) ← parseOptional ⟨0, 0, 0, false⟩ words
    match words with
    | fsType :: source :: fsOption :: _ =>
      return { id, parent, device, root, target, vfsOption, shared := o.shared,
               master := o.master, propagationFrom := o.propagationFrom,
               unbindable := o.unbindable, fsType, source, fsOption }
    | _ => none
  | _ => none

def parseMountInfoLine (line : Str) : Option (MountInfo Str) := parseWords (splitWhitespace line)

/-- A line that the parser refuses ends the loop over the lines. -/
def parseMountInfo (text : Bytes) : List (MountInfo Str) :=
  mapWhile parseMountInfoLine (readLines text)

def decimal (n : BitVec 32) : Str := Nat.toDigits 10 n.toNat

/-- The bytes that are written as octal escapes. -/
def special : List UInt8 := [32, 9, 10, 92, 35]

def octal (b : UInt8) : Bytes := [92, 48 + b / 64, 48 + b / 8 % 8, 48 + b % 8]

def escape (s : Bytes) : Bytes := s.flatMap fun b => if b ∈ special then octal b else [b]

def Optional.fields (o : Optional) : List Str :=
  (if o.shared = 0 then [] else ["shared:".toList ++ decimal o.shared]) ++
  (if o.master = 0 then [] else ["master:".toList ++ decimal o.master]) ++
  (if o.propagationFrom = 0 then [] else ["propagate_from:".toList ++ decimal o.propagationFrom]) ++
  (if o.unbindable then ["unbindable".toList] else [])

/-- The fields of a line; `text` is how the kernel's own words are written. -/
def MountInfo.fields {σ : Type} (text : Str → σ) (m : MountInfo σ) : List σ :=
  [text (decimal m.id), text (decimal m.parent),
    text (decimal (major m.device) ++ ':' :: decimal (minor m.device)), m.root, m.target,
    m.vfsOption] ++
  (Optional.fields ⟨m.shared, m.master, m.propagationFrom, m.unbindable⟩).map text ++
  [text "-".toList, m.fsType, m.source, m.fsOption]

def mountLine (m : MountInfo Bytes) : Bytes :=
  [32].intercalate ((m.map escape).fields asBytes) ++ [10]

def mountinfoText (ms : List (MountInfo Bytes)) : Bytes := ms.flatMap mountLine

variable {s w : Str} {c : Char} {m : MountInfo Str}

theorem parseOptional_subset {o o' : Optional} {words rest : List Str}
    (h : parseOptional o words = some (o', rest)) : rest ⊆ words := by
  induction words generalizing o with
  | nil => cases h
  | cons word words ih =>
    have hsub {o : Optional} (h : parseOptional o words = some (o', rest)) :
        rest ⊆ word :: words := subset_cons_of_subset word (ih h)
    rw [parseOptional] at h
    split at h
    · cases h
      exact subset_cons_self word _
    · split at h
      · obtain ⟨n, -, h⟩ := bind_eq_some_iff.mp h
        exact hsub h
      · split at h
        · obtain ⟨n, -, h⟩ := bind_eq_some_iff.mp h
          exact hsub h
        · split at h
          · obtain ⟨n, -, h⟩ := bind_eq_some_iff.mp h
            exact hsub h
          · split at h
            · exact hsub h
            · exact hsub h

theorem strings_subset_of_parseWords {words : List Str}
    (h : parseWords words = some m) : m.strings ⊆ words := by
  unfold parseWords at h
  split at h
  next id parent device root target vfsOption words =>
    obtain ⟨_, -, h⟩ := bind_eq_some_iff.mp h
    obtain ⟨_, -, h⟩ := bind_eq_some_iff.mp h
    obtain ⟨_, -, h⟩ := bind_eq_some_iff.mp h
    obtain ⟨⟨o, rest⟩, ho, h⟩ := bind_eq_some_iff.mp h
    have hsub := parseOptional_subset ho
    dsimp only at h
    split at h
    next fsType source fsOption rest =>
      cases h
      simp only [cons_subset] at hsub
      obtain ⟨h1, h2, h3, -⟩ := hsub
      simp [MountInfo.strings, h1, h2, h3]
    next => cases h
  next => cases h

theorem word_of_parseMountInfoLine {line : Str}
    (h : parseMountInfoLine line = some m) (hs : s ∈ m.strings) : Word s :=
  word_of_mem_splitWords (forall_mem_nil _) (strings_subset_of_parseWords h hs)

theorem isDigit_of_mem_decimal {n : BitVec 32} (h : c ∈ decimal n) : c.isDigit :=
  Nat.isDigit_of_mem_toDigits (by decide) (by decide) h

theorem word_decimal (n : BitVec 32) : Word (decimal n) :=
  ⟨Nat.toDigits_ne_nil, fun _ hc => not_isWhitespace_of_isDigit (isDigit_of_mem_decimal hc)⟩

theorem not_mem_decimal {n : BitVec 32} (hc : ¬ c.isDigit) : c ∉ decimal n :=
  fun h => hc (isDigit_of_mem_decimal h)

theorem parseU32_decimal (n : BitVec 32) : parseU32 (decimal n) = some n := by
  have hplus : (decimal n).head? ≠ some '+' := by
    intro h
    exact not_mem_decimal (by decide) (mem_of_mem_head? h)
  have hall : (decimal n).all Char.isDigit := List.all_eq_true.mpr fun c => isDigit_of_mem_decimal
  have hval : Nat.ofDigitChars 10 (decimal n) 0 = n.toNat := Nat.ofDigitChars_ten_toDigits
  simp only [parseU32, if_neg hplus, hval]
  rw [if_pos ⟨Nat.toDigits_ne_nil, hall⟩, if_pos n.isLt, BitVec.ofNat_toNat, BitVec.setWidth_eq]

theorem parseDevice_decimal (dev : BitVec 32) :
    parseDevice (decimal (major dev) ++ ':' :: decimal (minor dev)) = some dev := by
  have hcolon : ∀ c ∈ decimal (major dev), decide (c ≠ ':') := by
    intro c hc
    simp only [decide_eq_true_eq]
    rintro rfl
    exact not_mem_decimal (by decide) hc
  have hs : splitAtChar (decimal (major dev) ++ ':' :: decimal (minor dev)) ':' =
      some (decimal (major dev), decimal (minor dev)) := by
    rw [splitAtChar, if_pos (by simp), takeWhile_append_of_pos hcolon,
      dropWhile_append_of_pos hcolon]
    simp
  simp [parseDevice, hs, parseU32_decimal, makedev_major_minor]

section Fields

variable (o : Optional) (rest : List Str)

theorem parseOptional_shared (n : BitVec 32) (h : o.shared = 0) :
    parseOptional o ((if n = 0 then [] else ["shared:".toList ++ decimal n]) ++ rest) =
      parseOptional { o with shared := n } rest := by
  split_ifs with hn
  · rw [hn, ← h, nil_append]
  · simp [parseOptional, stripPrefix, parseU32_decimal]

theorem parseOptional_master (n : BitVec 32) (h : o.master = 0) :
    parseOptional o ((if n = 0 then [] else ["master:".toList ++ decimal n]) ++ rest) =
      parseOptional { o with master := n } rest := by
  split_ifs with hn
  · rw [hn, ← h, nil_append]
  · simp [parseOptional, stripPrefix, parseU32_decimal]

theorem parseOptional_propagationFrom (n : BitVec 32) (h : o.propagationFrom = 0) :
    parseOptional o ((if n = 0 then [] else ["propagate_from:".toList ++ decimal n]) ++ rest) =
      parseOptional { o with propagationFrom := n } rest := by
  split_ifs with hn
  · rw [hn, ← h, nil_append]
  · simp [parseOptional, stripPrefix, parseU32_decimal]

theorem parseOptional_unbindable (b : Bool) (h : o.unbindable = false) :
    parseOptional o ((if b then ["unbindable".toList] else []) ++ rest) =
      parseOptional { o with unbindable := b } rest := by
  cases b with
  | false =>
    have ho : { o with unbindable := false } = o := by rw [← h]
    rw [ho]
    rfl
  | true => simp [parseOptional, stripPrefix]

theorem parseOptional_fields :
    parseOptional ⟨0, 0, 0, false⟩ (o.fields ++ "-".toList :: rest) = some (o, rest) := by
  rw [Optional.fields, append_assoc, append_assoc, append_assoc,
    parseOptional_shared _ _ _ rfl, parseOptional_master _ _ _ rfl,
    parseOptional_propagationFrom _ _ _ rfl, parseOptional_unbindable _ _ _ rfl]
  simp [parseOptional]

end Fields

theorem parseWords_fields (m : MountInfo Str) : parseWords (m.fields id) = some m := by
  simp only [MountInfo.fields, List.map_id, cons_append, nil_append, id_eq, parseWords,
    parseU32_decimal, parseDevice_decimal, parseOptional_fields]
  rfl

theorem word_of_mem_optional {o : Optional} (h : w ∈ o.fields) : Word w := by
  have hd (p : Str) (hp : ∀ c ∈ p, ¬ isWhitespace c) {n : BitVec 32}
      (h : w ∈ if n = 0 then [] else [p ++ decimal n]) : Word w := by
    split_ifs at h
    · cases h
    · rw [mem_singleton.mp h]
      exact word_append hp (word_decimal n)
  rw [Optional.fields, mem_append, mem_append, mem_append] at h
  rcases h with ((h | h) | h) | h
  · exact hd _ (not_isWhitespace_of_any rfl) h
  · exact hd _ (not_isWhitespace_of_any rfl) h
  · exact hd _ (not_isWhitespace_of_any rfl) h
  · split_ifs at h
    · rw [mem_singleton.mp h]
      exact ⟨by decide, not_isWhitespace_of_any rfl⟩
    · cases h

theorem mem_fields {σ : Type} {text : Str → σ} {m : MountInfo σ} {s : σ}
    (h : s ∈ m.fields text) : s ∈ m.strings ∨ ∃ w, Word w ∧ s = text w := by
  have hdev : Word (decimal (major m.device) ++ ':' :: decimal (minor m.device)) := by
    apply word_append (word_decimal _).2
    exact word_append (a := [':']) (not_isWhitespace_of_any rfl) (word_decimal _)
  have hdash : Word "-".toList := ⟨by decide, not_isWhitespace_of_any rfl⟩
  simp only [MountInfo.fields, cons_append, nil_append, mem_cons, mem_append,
    List.mem_map, not_mem_nil, or_false] at h
  simp only [MountInfo.strings, mem_cons, not_mem_nil, or_false]
  rcases h with h | h | h | h | h | h | ⟨w, hw, rfl⟩ | h | h | h | h
  · exact Or.inr ⟨_, word_decimal _, h⟩
  · exact Or.inr ⟨_, word_decimal _, h⟩
  · exact Or.inr ⟨_, hdev, h⟩
  · tauto
  · tauto
  · tauto
  · exact Or.inr ⟨w, word_of_mem_optional hw, rfl⟩
  · exact Or.inr ⟨_, hdash, h⟩
  · tauto
  · tauto
  · tauto

theorem parseMountInfoLine_fields (h : ∀ s ∈ m.strings, Word s) :
    parseMountInfoLine ([' '].intercalate (m.fields id) ++ ['\n']) = some m := by
  have hw : ∀ s ∈ m.fields id, Word s := by
    intro s hs
    rcases mem_fields hs with hs | ⟨w, hw, rfl⟩
    · exact h s hs
    · exact hw
  rw [parseMountInfoLine, splitWhitespace_intercalate hw, parseWords_fields]

def specialChars : List Char := [' ', '\t', '\n', '\\', '#']

def octalText (c : Char) : Str := (octal (UInt8.ofNat c.toNat)).map fun b => Char.ofNat b.toNat

def escapeText (s : Str) : Str := s.flatMap fun c => if c ∈ specialChars then octalText c else [c]

theorem mem_specialChars_of_mem {b : UInt8} (hb : b ∈ special)
    (hc : b ∈ String.utf8EncodeChar c) : c ∈ specialChars := by
  have hs : ∀ b ∈ special, b.toNat < 128 ∧ Char.ofNat b.toNat ∈ specialChars := by
    simp only [special, mem_cons, forall_eq_or_imp, not_mem_nil, false_imp_iff, implies_true]
    decide
  rw [ascii_mem_utf8EncodeChar (hs b hb).1] at hc
  rw [← Char.ofNat_toNat c, hc]
  exact (hs b hb).2

theorem escape_char (c : Char) : escape (String.utf8EncodeChar c) =
    asBytes (if c ∈ specialChars then octalText c else [c]) := by
  have hoct : ∀ c ∈ specialChars, escape (String.utf8EncodeChar c) = asBytes (octalText c) := by
    simp only [specialChars, mem_cons, forall_eq_or_imp, not_mem_nil, false_imp_iff,
      implies_true]
    decide
  by_cases hc : c ∈ specialChars
  · rw [if_pos hc, hoct c hc]
  · rw [if_neg hc, escape, asBytes, flatMap_singleton]
    have hne : ∀ b ∈ String.utf8EncodeChar c, (if b ∈ special then octal b else [b]) = [b] :=
      fun b hb => if_neg fun hs => hc (mem_specialChars_of_mem hs hb)
    rw [flatMap_congr hne, flatMap_singleton']

theorem escape_asBytes (s : Str) : escape (asBytes s) = asBytes (escapeText s) := by
  induction s with
  | nil => rfl
  | cons c s ih =>
    have hc : asBytes (c :: s) = String.utf8EncodeChar c ++ asBytes s := flatMap_cons
    rw [hc, escape, flatMap_append, escapeText, flatMap_cons, asBytes_append]
    exact congrArg₂ (· ++ ·) (escape_char c) ih

theorem escapeText_eq_self_iff : escapeText s = s ↔ ∀ c ∈ s, c ∉ specialChars := by
  have hne : ∀ c ∈ s, (if c ∈ specialChars then octalText c else [c]) ≠ [] := by
    intro c _
    split_ifs <;> simp [octalText, octal]
  have h := flatMap_eq_map_iff (g := id) hne
  rw [List.map_id] at h
  rw [escapeText, h]
  refine forall₂_congr fun c _ => ?_
  by_cases hc : c ∈ specialChars
  · simp [hc, octalText, octal]
  · simp [hc]

theorem word_escapeText (h : Word s) : Word (escapeText s) := by
  have hoct : ∀ c ∈ specialChars, octalText c ≠ [] ∧ (octalText c).any isWhitespace = false := by
    simp only [specialChars, mem_cons, forall_eq_or_imp, not_mem_nil, false_imp_iff,
      implies_true]
    decide
  refine ⟨?_, ?_⟩
  · obtain ⟨c, t, rfl⟩ := exists_cons_of_ne_nil h.1
    simp only [escapeText, flatMap_cons, ne_eq, append_eq_nil_iff, not_and]
    intro h0
    split_ifs at h0 with hc
    exact absurd h0 (hoct c hc).1
  · intro d hd
    obtain ⟨c, hc, hd⟩ := mem_flatMap.mp hd
    split_ifs at hd with hs
    · exact not_isWhitespace_of_any (hoct c hs).2 d hd
    · rw [mem_singleton.mp hd]
      exact h.2 c hc

/-- A word that the kernel prints as it is. -/
def Plain (s : Str) : Prop := Word s ∧ '\\' ∉ s ∧ '#' ∉ s

theorem plain_iff : Plain s ↔ Word s ∧ escapeText s = s := by
  rw [escapeText_eq_self_iff, Plain]
  refine and_congr_right fun hw => ?_
  constructor
  · rintro ⟨hb, hh⟩ c hc hs
    simp only [specialChars, mem_cons, not_mem_nil, or_false] at hs
    rcases hs with rfl | rfl | rfl | rfl | rfl
    · exact hw.2 _ hc (by decide)
    · exact hw.2 _ hc (by decide)
    · exact hw.2 _ hc (by decide)
    · exact hb hc
    · exact hh hc
  · intro h
    exact ⟨fun hc => h _ hc (by decide), fun hc => h _ hc (by decide)⟩

theorem asBytes_intercalate (words : List Str) :
    asBytes ([' '].intercalate words) = [32].intercalate (words.map asBytes) := by
  induction words with
  | nil => rfl
  | cons w words ih =>
    cases words with
    | nil => simp
    | cons v words =>
      rw [intercalate_cons_cons, asBytes_append, asBytes_append, ih]
      simp only [map_cons, intercalate_cons_cons]
      rfl

theorem mountLine_text (m : MountInfo Str) : mountLine (m.map asBytes) =
    asBytes ([' '].intercalate ((m.map escapeText).fields id) ++ ['\n']) := by
  have hf : ((m.map escapeText).fields id).map asBytes =
      ((m.map asBytes).map escape).fields asBytes := by
    simp [MountInfo.fields, MountInfo.map, escape_asBytes]
  rw [asBytes_append, asBytes_intercalate, hf]
  rfl

theorem parse_mountLine (h : ∀ s ∈ m.strings, Word s) :
    (fromUtf8 (mountLine (m.map asBytes))).bind parseMountInfoLine = some (m.map escapeText) := by
  have hw : ∀ s ∈ (m.map escapeText).strings, Word s := by
    intro s hs
    have hs : s ∈ m.strings.map escapeText := hs
    obtain ⟨t, ht, rfl⟩ := List.mem_map.mp hs
    exact word_escapeText (h t ht)
  rw [mountLine_text, fromUtf8_asBytes, bind_some, parseMountInfoLine_fields hw]

theorem map_asBytes_injective : Function.Injective (MountInfo.map asBytes) := by
  intro m m' h
  simp only [MountInfo.map, MountInfo.mk.injEq, asBytes_injective.eq_iff] at h
  exact MountInfo.ext_iff.mpr h

theorem parse_mountLine_iff (m : MountInfo Bytes) :
    ((fromUtf8 (mountLine m)).bind parseMountInfoLine).map (MountInfo.map asBytes) = some m ↔
      ∀ b ∈ m.strings, ∃ s, Plain s ∧ b = asBytes s := by
  constructor
  · intro h
    obtain ⟨info, hinfo, rfl⟩ := map_eq_some_iff.mp h
    obtain ⟨line, -, hline⟩ := bind_eq_some_iff.mp hinfo
    have hw : ∀ s ∈ info.strings, Word s := fun s => word_of_parseMountInfoLine hline
    rw [parse_mountLine hw, map_some, some.injEq, map_asBytes_injective.eq_iff,
      MountInfo.map_eq_self_iff] at h
    intro b hb
    have hb : b ∈ info.strings.map asBytes := hb
    obtain ⟨s, hs, rfl⟩ := List.mem_map.mp hb
    exact ⟨s, plain_iff.mpr ⟨hw s hs, h s hs⟩, rfl⟩
  · intro h
    obtain ⟨info, rfl, hp⟩ : ∃ info : MountInfo Str,
        m = info.map asBytes ∧ ∀ s ∈ info.strings, Plain s := by
      simp only [MountInfo.strings, forall_mem_cons] at h
      obtain ⟨⟨r, hr, hr'⟩, ⟨t, ht, ht'⟩, ⟨v, hv, hv'⟩, ⟨f, hf, hf'⟩, ⟨s, hs, hs'⟩, ⟨o, ho, ho'⟩,
        -⟩ := h
      refine ⟨⟨m.id, m.parent, m.device, r, t, v, m.shared, m.master, m.propagationFrom,
        m.unbindable, f, s, o⟩, ?_, ?_⟩
      · apply MountInfo.ext <;> first | rfl | assumption
      · simp [MountInfo.strings, *]
    have hw : ∀ s ∈ info.strings, Word s := fun s hs => (hp s hs).1
    have he : info.map escapeText = info :=
      MountInfo.map_eq_self_iff.mpr fun s hs => (plain_iff.mp (hp s hs)).2
    rw [parse_mountLine hw, he, map_some]

theorem newline_not_mem_escape (s : Bytes) : 10 ∉ escape s := by
  have hoct : ∀ b ∈ special, 10 ∉ octal b := by
    simp only [special, mem_cons, forall_eq_or_imp, not_mem_nil, false_imp_iff, implies_true]
    decide
  intro h
  obtain ⟨b, -, hb⟩ := mem_flatMap.mp h
  split_ifs at hb with hs
  · exact hoct b hs hb
  · rw [← mem_singleton.mp hb] at hs
    exact hs (by decide)

theorem newline_not_mem_word (h : Word w) : 10 ∉ asBytes w := by
  intro hm
  obtain ⟨c, hc, hb⟩ := mem_flatMap.mp hm
  rw [ascii_mem_utf8EncodeChar (by decide)] at hb
  have hn : c = '\n' := by
    rw [← Char.toNat_inj, hb]
    rfl
  rw [hn] at hc
  exact h.2 _ hc (by decide)

theorem newline_not_mem_fields (m : MountInfo Bytes) :
    10 ∉ [32].intercalate ((m.map escape).fields asBytes) := by
  intro h
  rcases mem_of_mem_intercalate h with h | ⟨w, hw, h⟩
  · exact absurd h (by decide)
  · rcases mem_fields hw with hs | ⟨t, ht, rfl⟩
    · have hs : w ∈ m.strings.map escape := hs
      obtain ⟨s, -, rfl⟩ := List.mem_map.mp hs
      exact newline_not_mem_escape s h
    · exact newline_not_mem_word ht h

theorem parseMountInfo_text (ms : List (MountInfo Bytes)) : parseMountInfo (mountinfoText ms) =
    mapWhile (fun line => (fromUtf8 line).bind parseMountInfoLine) (ms.map mountLine) := by
  have hl : splitLines (mountinfoText ms) = ms.map mountLine :=
    splitLines_flatMap fun m _ => newline_not_mem_fields m
  rw [parseMountInfo, readLines, mapWhile_mapWhile, hl]

/-- The mounts that the kernel prints are read back exactly when every string of each is valid
UTF-8, not empty, and has no white space, backslash or `#`. -/
theorem parseMountInfo_mountinfoText_iff (ms : List (MountInfo Bytes)) :
    (parseMountInfo (mountinfoText ms)).map (MountInfo.map asBytes) = ms ↔
      ∀ m ∈ ms, ∀ b ∈ m.strings, ∃ s, Plain s ∧ b = asBytes s := by
  rw [parseMountInfo_text, mapWhile_map_eq_iff]
  exact forall₂_congr fun m _ => parse_mountLine_iff m

/-- A mount of `tmpfs` on a path with a space in it. -/
def spacedMount : MountInfo Bytes where
  id := 30
  parent := 1
  device := makedev 0 25
  root := lit "/"
  target := lit "/mnt/a b"
  vfsOption := lit "rw"
  shared := 0
  master := 0
  propagationFrom := 0
  unbindable := false
  fsType := lit "tmpfs"
  source := lit "tmpfs"
  fsOption := lit "rw"

/-- The space stays escaped, and a mount without a source hides all that follow. -/
theorem parseMountInfo_spaced :
    (parseMountInfo (mountinfoText [spacedMount])).map (·.target) = ["/mnt/a\\040b".toList] ∧
      parseMountInfo (mountinfoText [{ spacedMount with source := [] }, spacedMount]) = [] := by
  constructor <;> decide

end Magisk.Mount
