import Magisk.Boot.Header
import Magisk.PropFile
import Magisk.Tiling

namespace Magisk.Boot

open List

inductive TextField where
  | name
  | cmdline
  | extraCmdline
  | osVersion
  deriving DecidableEq, Repr

instance : Fintype TextField :=
  .ofList [.name, .cmdline, .extraCmdline, .osVersion] fun f => by cases f <;> decide

def HdrKind.textField (k : HdrKind) : TextField → Option (ℕ × ℕ)
  | .name =>
    match k with
    | v0 | v1 | v2 => some (48, 16)
    | pxa => some (48, 24)
    | v3 | v4 => none
    | vndV3 | vndV4 => some (2080, 16)
  | .cmdline =>
    match k with
    | v0 | v1 | v2 => some (64, 512)
    | pxa => some (72, 512)
    | v3 | v4 => some (44, 512)
    | vndV3 | vndV4 => some (28, 512)
  | .extraCmdline =>
    match k with
    | v0 | v1 | v2 => some (608, 1024)
    | pxa => some (616, 1024)
    | v3 | v4 => some (556, 1024)
    | vndV3 | vndV4 => some (540, 1024)
  | .osVersion =>
    match k with
    | v0 | v1 | v2 => some (44, 4)
    | v3 | v4 => some (16, 4)
    | pxa | vndV3 | vndV4 => none

theorem HdrKind.textField_le : ∀ (k : HdrKind) (f : TextField),
    ∀ x ∈ k.textField f, x.1 + x.2 ≤ k.hdrSize := by
  decide

theorem HdrKind.textField_disjoint : ∀ (k : HdrKind) (f g : TextField), f ≠ g →
    ∀ x ∈ k.textField f, ∀ y ∈ k.textField g, x.1 + x.2 ≤ y.1 ∨ y.1 + y.2 ≤ x.1 := by
  decide

def cstr (b : Bytes) : Bytes := b.takeWhile (· ≠ 0)

/-- The string at `off`, which has to end in the header. -/
def cString (m : Bytes) (off : ℕ) : Except Stop Bytes :=
  let s := cstr (m.drop off)
  if off + s.length < m.length then .ok s else .error .undefined

namespace Hdr

variable (h : Hdr)

def text (f : TextField) : Bytes :=
  match h.kind.textField f with
  | some (o, n) => view h.raw o n
  | none => []

def memcpy (f : TextField) (b : Bytes) : Hdr :=
  match h.kind.textField f with
  | some (o, _) => { h with
      raw := overwrite h.raw o b
      raw_length := by rw [overwrite_length, h.raw_length] }
  | none => h

def name : Bytes := cstr (h.text .name)

/-- The command line with its second part. -/
def cmdline : Bytes := cstr (h.text .cmdline) ++ cstr (h.text .extraCmdline)

def osVersion : BitVec 32 := BitVec.ofNat 32 (leValue (h.text .osVersion))

end Hdr

/-- The version and the patch level as `%d.%d.%d` and `%d-%02d`. -/
def osProps (ver : BitVec 32) : List (Str × Str) :=
  let version := ver >>> 11
  let patchLevel := ver &&& 0x7ff
  let a := (version >>> 14) &&& 0x7f
  let b := (version >>> 7) &&& 0x7f
  let c := version &&& 0x7f
  let y := (patchLevel >>> 4) + 2000
  let m := patchLevel &&& 0xf
  let dec (n : BitVec 32) : Str := Nat.toDigits 10 n.toNat
  [("os_version".toList, dec a ++ '.' :: (dec b ++ '.' :: dec c)),
    ("os_patch_level".toList, dec y ++ '-' :: (dec m).leftpad 2 '0')]

def Hdr.dumpProps (h : Hdr) : Except Stop (List (Str × Bytes)) := do
  let name ← match h.kind.textField .name with
    | some (o, _) => (cString h.raw o).map fun s => [("name".toList, s)]
    | none => .ok []
  let ver := h.osVersion
  return name ++ ("cmdline".toList, h.cmdline) ::
    if ver = 0 then [] else (osProps ver).map fun p => (p.1, asBytes p.2)

def Hdr.dumpHdrFile (h : Hdr) : Except Stop Bytes :=
  h.dumpProps.map fun ps => ps.flatMap fun p => propLine p ++ [10]

def isSpace (c : Char) : Bool := c ∈ [' ', '\t', '\n', '\x0b', '\x0c', '\r']

/-- `%d`, of a value in the range of `int`. -/
def scanInt (s : Str) : Option (ℤ × Str) :=
  let s := s.dropWhile isSpace
  let neg := s.head? = some '-'
  let s := if neg ∨ s.head? = some '+' then s.tail else s
  let digits := s.takeWhile Char.isDigit
  let n : ℤ := Nat.ofDigitChars 10 digits 0
  let n := if neg then -n else n
  if digits = [] ∨ n < -2 ^ 31 ∨ 2 ^ 31 ≤ n then none else some (n, s.dropWhile Char.isDigit)

def scanChar (c : Char) (s : Str) : Option Str := if s.head? = some c then some s.tail else none

/-- `sscanf` with `%d.%d.%d`. -/
def scanVersion (s : Str) : Option (ℤ × ℤ × ℤ) := do
  let (a, s) ← scanInt s
  let s ← scanChar '.' s
  let (b, s) ← scanInt s
  let s ← scanChar '.' s
  let (c, _) ← scanInt s
  return (a, b, c)

/-- `sscanf` with `%d-%d`. -/
def scanPatchLevel (s : Str) : Option (ℤ × ℤ) := do
  let (y, s) ← scanInt s
  let s ← scanChar '-' s
  let (m, _) ← scanInt s
  return (y, m)

def newOsVersion (os : BitVec 32) (a b c : ℤ) : BitVec 32 :=
  let patchLevel := os &&& 0x7ff
  ((BitVec.ofInt 32 a <<< 14 ||| BitVec.ofInt 32 b <<< 7 ||| BitVec.ofInt 32 c) <<< 11) |||
    patchLevel

def newPatchLevel (os : BitVec 32) (y m : ℤ) : BitVec 32 :=
  let osVer := os >>> 11
  osVer <<< 11 ||| (BitVec.ofInt 32 (y - 2000)) <<< 4 ||| BitVec.ofInt 32 m

/-- The callback of `load_hdr_file`. Numbers that `sscanf` does not find have no value. -/
def Hdr.loadProp (h : Hdr) (p : Str × Str) : Except Stop Hdr :=
  let value := asBytes p.2
  if p.1 = "name".toList ∧ (h.kind.textField .name).isSome then
    .ok ((h.memcpy .name (zeros 16)).memcpy .name (value.take 15))
  else if p.1 = "cmdline".toList then
    let h := (h.memcpy .cmdline (zeros 512)).memcpy .extraCmdline (zeros 1024)
    if 512 < value.length then
      .ok ((h.memcpy .cmdline (value.take 512)).memcpy .extraCmdline ((value.drop 512).take 1024))
    else .ok (h.memcpy .cmdline value)
  else if p.1 = "os_version".toList then
    match scanVersion p.2 with
    | some (a, b, c) => .ok (h.memcpy .osVersion (leBytes 4 (newOsVersion h.osVersion a b c).toNat))
    | none => .error .undefined
  else if p.1 = "os_patch_level".toList then
    match scanPatchLevel p.2 with
    | some (y, m) =>
      if y - 2000 < -2 ^ 31 then .error .undefined
      else .ok (h.memcpy .osVersion (leBytes 4 (newPatchLevel h.osVersion y m).toNat))
    | none => .error .undefined
  else .ok h

def Hdr.loadHdrFile (h : Hdr) (text : Bytes) : Except Stop Hdr := (readProps text).foldlM loadProp h

theorem cstr_of_not_mem {v : Bytes} (h : 0 ∉ v) : cstr v = v := by
  rw [cstr, takeWhile_eq_self_iff]
  intro x hx
  simpa using fun he : x = 0 => h (he ▸ hx)

theorem cstr_append_zero {v : Bytes} (h : 0 ∉ v) (b : Bytes) : cstr (v ++ 0 :: b) = v := by
  have hv : ∀ x ∈ v, decide (x ≠ 0) := by
    intro x hx
    simpa using fun he : x = 0 => h (he ▸ hx)
  rw [cstr, takeWhile_append_of_pos hv]
  simp

theorem cstr_append_zeros {v : Bytes} (h : 0 ∉ v) (n : ℕ) : cstr (v ++ zeros n) = v := by
  cases n with
  | zero => rw [zeros_zero, append_nil, cstr_of_not_mem h]
  | succ n => exact cstr_append_zero h (zeros n)

theorem zero_not_mem_cstr (b : Bytes) : 0 ∉ cstr b := by
  intro h
  simpa using mem_takeWhile_imp h

namespace Hdr

variable {h : Hdr} {f g : TextField} {b : Bytes} {o n : ℕ}

@[simp] theorem kind_memcpy (h : Hdr) (f : TextField) (b : Bytes) : (h.memcpy f b).kind = h.kind := by
  unfold memcpy
  split <;> rfl

theorem raw_memcpy (hf : h.kind.textField f = some (o, n)) (b : Bytes) :
    (h.memcpy f b).raw = overwrite h.raw o b := by
  simp only [memcpy, hf]

theorem memcpy_of_none (hf : h.kind.textField f = none) (b : Bytes) : h.memcpy f b = h := by
  simp only [memcpy, hf]

theorem text_eq_view (hf : h.kind.textField f = some (o, n)) : h.text f = view h.raw o n := by
  simp only [text, hf]

theorem text_memcpy_of_ne (hne : f ≠ g) (hb : ∀ x ∈ h.kind.textField f, b.length ≤ x.2) :
    (h.memcpy f b).text g = h.text g := by
  cases hf : h.kind.textField f with
  | none => rw [memcpy_of_none hf]
  | some x =>
    cases hg : h.kind.textField g with
    | none => simp only [text, kind_memcpy, hg]
    | some y =>
      have hd := h.kind.textField_disjoint f g hne x hf y hg
      have hlen := hb x hf
      rw [text_eq_view (by rw [kind_memcpy, hg]), text_eq_view hg, raw_memcpy hf]
      exact view_overwrite_of_disjoint (by omega)

theorem text_memcpy_self (hf : h.kind.textField f = some (o, n)) (hb : b.length ≤ n) :
    (h.memcpy f b).text f = b ++ (h.text f).drop b.length := by
  have hle := h.kind.textField_le f (o, n) hf
  rw [← h.raw_length] at hle
  obtain ⟨k, rfl⟩ := Nat.exists_eq_add_of_le hb
  rw [text_eq_view (by rw [kind_memcpy, hf]), text_eq_view hf, raw_memcpy hf, view_add, view_add,
    view_overwrite_self (by omega), view_overwrite_of_disjoint (by omega),
    drop_left' (by rw [view_length]; omega)]

theorem ext_raw {h h' : Hdr} (hk : h.kind = h'.kind) (hr : h.raw = h'.raw) : h = h' := by
  cases h
  simp_all

theorem memcpy_text (h : Hdr) (f : TextField) : h.memcpy f (h.text f) = h := by
  cases hf : h.kind.textField f with
  | none => exact memcpy_of_none hf _
  | some x =>
    have hraw : (h.memcpy f (h.text f)).raw = h.raw := by
      rw [raw_memcpy hf, text_eq_view hf]
      exact (at_view h.raw x.1 x.2).overwrite_eq
    exact ext_raw (kind_memcpy h f _) hraw

theorem text_memcpy_zeros {k : ℕ} (hf : h.kind.textField f = some (o, n)) (hk : k ≤ n) :
    (h.memcpy f (zeros k)).text f = zeros k ++ (h.text f).drop k := by
  rw [text_memcpy_self hf (by rw [zeros_length]; exact hk), zeros_length]

theorem text_memcpy_of_zeros {k : ℕ} {r : Bytes} (hf : h.kind.textField f = some (o, n)) (hk : k ≤ n)
    (hz : h.text f = zeros k ++ r) (hb : b.length ≤ k) :
    (h.memcpy f b).text f = b ++ (zeros (k - b.length) ++ r) := by
  rw [text_memcpy_self hf (by omega), hz,
    drop_append_of_le_length (by rw [zeros_length]; exact hb), zeros, drop_replicate, zeros]

theorem loadProp_name (hf : h.kind.textField .name = some (o, n)) (hn : 16 ≤ n) {s : Str}
    (h0 : '\x00' ∉ s) : ∃ h', h.loadProp ("name".toList, s) = .ok h' ∧ h'.kind = h.kind ∧
      h'.name = (asBytes s).take 15 ∧ ∀ g ≠ .name, h'.text g = h.text g := by
  refine ⟨(h.memcpy .name (zeros 16)).memcpy .name ((asBytes s).take 15), ?_, ?_, ?_, ?_⟩
  · rw [loadProp, if_pos ⟨rfl, by rw [hf]; rfl⟩]
  · rw [kind_memcpy, kind_memcpy]
  · have hlen : ((asBytes s).take 15).length ≤ 15 := length_take_le _ _
    have hne : 0 ∉ (asBytes s).take 15 := fun hm =>
      h0 ((zero_mem_asBytes s).mp (mem_of_mem_take hm))
    obtain ⟨k, hk⟩ := Nat.exists_eq_add_of_lt (show ((asBytes s).take 15).length < 16 by omega)
    have hz : zeros (16 - ((asBytes s).take 15).length) = 0 :: zeros k := by
      rw [show 16 - ((asBytes s).take 15).length = k + 1 by omega]
      rfl
    rw [name, text_memcpy_of_zeros (by rw [kind_memcpy, hf]) hn (text_memcpy_zeros hf hn) (by omega),
      hz, cons_append, cstr_append_zero hne]
  · intro g hg
    have hsize : ∀ b : Bytes, b.length ≤ 16 → ∀ x ∈ h.kind.textField .name, b.length ≤ x.2 := by
      intro b hb x hx
      cases hf.symm.trans hx
      exact hb.trans hn
    rw [text_memcpy_of_ne hg.symm, text_memcpy_of_ne hg.symm (hsize _ (by rw [zeros_length]))]
    rw [kind_memcpy]
    exact hsize _ (le_trans (length_take_le _ _) (by norm_num))

theorem textField_cmdline (k : HdrKind) : ∃ o, k.textField .cmdline = some (o, 512) := by
  cases k <;> exact ⟨_, rfl⟩

theorem textField_extraCmdline (k : HdrKind) : ∃ o, k.textField .extraCmdline = some (o, 1024) := by
  cases k <;> exact ⟨_, rfl⟩

/-- Both parts of the command line, which are cleared first. -/
def setCmdline (h : Hdr) (a b : Bytes) : Hdr :=
  (((h.memcpy .cmdline (zeros 512)).memcpy .extraCmdline (zeros 1024)).memcpy .cmdline a).memcpy
    .extraCmdline b

theorem text_setCmdline {a b : Bytes} (ha : a.length ≤ 512) (hb : b.length ≤ 1024) :
    (h.setCmdline a b).text .cmdline = a ++ zeros (512 - a.length) ∧
      (h.setCmdline a b).text .extraCmdline = b ++ zeros (1024 - b.length) ∧
      ∀ g, g ≠ .cmdline → g ≠ .extraCmdline → (h.setCmdline a b).text g = h.text g := by
  have hc : ∀ (h : Hdr) (c : Bytes), c.length ≤ 512 → ∀ g ≠ .cmdline,
      (h.memcpy .cmdline c).text g = h.text g := by
    intro h c hlen g hg
    obtain ⟨o, ho⟩ := textField_cmdline h.kind
    apply text_memcpy_of_ne hg.symm
    intro x hx
    cases ho.symm.trans hx
    exact hlen
  have he : ∀ (h : Hdr) (c : Bytes), c.length ≤ 1024 → ∀ g ≠ .extraCmdline,
      (h.memcpy .extraCmdline c).text g = h.text g := by
    intro h c hlen g hg
    obtain ⟨o, ho⟩ := textField_extraCmdline h.kind
    apply text_memcpy_of_ne hg.symm
    intro x hx
    cases ho.symm.trans hx
    exact hlen
  have hfull : ∀ f k, (h.text f).length ≤ k → (h.text f).drop k = [] := fun f k hle =>
    drop_eq_nil_of_le hle
  obtain ⟨oc, hoc⟩ := textField_cmdline h.kind
  obtain ⟨oe, hoe⟩ := textField_extraCmdline h.kind
  have hlc : (h.text .cmdline).length ≤ 512 := by
    rw [text_eq_view hoc, view_length]
    omega
  have hle : (h.text .extraCmdline).length ≤ 1024 := by
    rw [text_eq_view hoe, view_length]
    omega
  have hzc : ((h.memcpy .cmdline (zeros 512)).memcpy .extraCmdline (zeros 1024)).text .cmdline =
      zeros 512 ++ [] := by
    rw [he _ _ (by rw [zeros_length]) _ (by decide), text_memcpy_zeros hoc le_rfl,
      hfull _ _ hlc]
  have hze : ((h.memcpy .cmdline (zeros 512)).memcpy .extraCmdline (zeros 1024)).text .extraCmdline =
      zeros 1024 ++ [] := by
    rw [text_memcpy_zeros (by rw [kind_memcpy, hoe]) le_rfl,
      hc _ _ (by rw [zeros_length]) _ (by decide), hfull _ _ hle]
  unfold setCmdline
  refine ⟨?_, ?_, fun g hgc hge => ?_⟩
  · rw [he _ _ hb _ (by decide), text_memcpy_of_zeros (by simpa using hoc) le_rfl hzc ha,
      append_nil]
  · rw [text_memcpy_of_zeros (by simpa using hoe) le_rfl (by rw [hc _ _ ha _ (by decide), hze]) hb,
      append_nil]
  · rw [he _ _ hb g hge, hc _ _ ha g hgc, he _ _ (by rw [zeros_length]) g hge,
      hc _ _ (by rw [zeros_length]) g hgc]

theorem memcpy_nil (h : Hdr) (f : TextField) : h.memcpy f [] = h := by
  cases hf : h.kind.textField f with
  | none => exact memcpy_of_none hf _
  | some x =>
    apply ext_raw (kind_memcpy h f _)
    rw [raw_memcpy hf]
    exact (at_nil h.raw x.1).overwrite_eq

theorem loadProp_cmdline {s : Str} (h0 : '\x00' ∉ s) :
    ∃ h', h.loadProp ("cmdline".toList, s) = .ok h' ∧ h'.kind = h.kind ∧
      h'.cmdline = (asBytes s).take 1536 ∧
      ∀ g, g ≠ .cmdline → g ≠ .extraCmdline → h'.text g = h.text g := by
  have hload : h.loadProp ("cmdline".toList, s) =
      .ok (h.setCmdline ((asBytes s).take 512) (((asBytes s).drop 512).take 1024)) := by
    have hname : "cmdline".toList ≠ "name".toList := by decide
    rw [loadProp, if_neg fun hn => hname hn.1, if_pos rfl]
    dsimp only
    split_ifs with hlong
    · rfl
    · rw [take_of_length_le (by omega), drop_eq_nil_of_le (by omega), take_nil,
        setCmdline, memcpy_nil]
  obtain ⟨hc, he, hother⟩ := text_setCmdline (h := h) (length_take_le 512 (asBytes s))
    (length_take_le 1024 ((asBytes s).drop 512))
  refine ⟨_, hload, by simp [setCmdline], ?_, hother⟩
  have hz : 0 ∉ asBytes s := fun hm => h0 ((zero_mem_asBytes s).mp hm)
  rw [cmdline, hc, he, cstr_append_zeros fun hm => hz (mem_of_mem_take hm),
    cstr_append_zeros fun hm => hz (mem_of_mem_drop (mem_of_mem_take hm)), ← take_add]

end Hdr

theorem scanInt_digits {ds r : Str} (hne : ds ≠ []) (hd : ∀ c ∈ ds, c.isDigit)
    (hval : Nat.ofDigitChars 10 ds 0 < 2 ^ 31) (hrest : ∀ c ∈ r.head?, c.isDigit = false) :
    scanInt (ds ++ r) = some ((Nat.ofDigitChars 10 ds 0 : ℤ), r) := by
  obtain ⟨c, t, rfl⟩ : ∃ c t, ds = c :: t := exists_cons_of_ne_nil hne
  have hc := hd c mem_cons_self
  have hother : ∀ d ∈ [' ', '\t', '\n', '\x0b', '\x0c', '\r', '-', '+'], d.isDigit = false := by
    simp
  have hspace : ¬ isSpace c := by
    intro hs
    have hmem := mem_append_left ['-', '+'] (of_decide_eq_true hs)
    exact absurd hc (by simp [hother c hmem])
  have hsign : c ≠ '-' ∧ c ≠ '+' :=
    ⟨by rintro rfl; exact absurd hc (by decide), by rintro rfl; exact absurd hc (by decide)⟩
  have htake : (c :: t ++ r).takeWhile Char.isDigit = c :: t := by
    rw [takeWhile_append_of_pos hd]
    cases r with
    | nil => simp
    | cons d l => simp [hrest d rfl]
  have hdrop : (c :: t ++ r).dropWhile Char.isDigit = r := by
    rw [dropWhile_append_of_pos hd]
    cases r with
    | nil => simp
    | cons d l => simp [hrest d rfl]
  have hskip : (c :: t ++ r).dropWhile isSpace = c :: t ++ r :=
    dropWhile_cons_of_neg hspace
  have hhead : (c :: t ++ r).head? = some c := rfl
  unfold scanInt
  simp only [hskip, hhead, Option.some.injEq, hsign.1, hsign.2, or_self, if_false, htake, hdrop]
  rw [if_neg]
  simp only [not_or]
  exact ⟨by simp, by omega, by omega⟩

theorem scanInt_toDigits {n : ℕ} (hn : n < 2 ^ 31) {r : Str}
    (hrest : ∀ c ∈ r.head?, c.isDigit = false) :
    scanInt (Nat.toDigits 10 n ++ r) = some ((n : ℤ), r) := by
  have h := scanInt_digits (r := r) (Nat.toDigits_ne_nil (n := n) (b := 10))
    (fun c hc => Nat.isDigit_of_mem_toDigits (by decide) (by decide) hc)
    (by rwa [Nat.ofDigitChars_ten_toDigits]) hrest
  rwa [Nat.ofDigitChars_ten_toDigits] at h

theorem scanInt_leftpad : ∀ m < 16,
    scanInt ((Nat.toDigits 10 m).leftpad 2 '0') = some ((m : ℤ), []) := by
  decide

theorem newOsVersion_self (v : BitVec 32) : newOsVersion v ((v >>> 11 >>> 14) &&& 0x7f#32).toNat
    ((v >>> 11 >>> 7) &&& 0x7f#32).toNat ((v >>> 11) &&& 0x7f#32).toNat = v := by
  unfold newOsVersion
  simp only [BitVec.ofInt_natCast, BitVec.ofNat_toNat, BitVec.setWidth_eq]
  apply BitVec.eq_of_getLsbD_eq
  intro i hi
  interval_cases i <;> simp

theorem newPatchLevel_self (v : BitVec 32) : newPatchLevel v
    ((((v &&& 0x7ff#32) >>> 4).toNat + 2000 : ℕ) : ℤ) (v &&& 0x7ff#32 &&& 0xf#32).toNat = v := by
  unfold newPatchLevel
  rw [Nat.cast_add, Nat.cast_ofNat, add_sub_cancel_right]
  simp only [BitVec.ofInt_natCast, BitVec.ofNat_toNat, BitVec.setWidth_eq]
  apply BitVec.eq_of_getLsbD_eq
  intro i hi
  interval_cases i <;> simp

theorem scanChar_cons (c : Char) (s : Str) : scanChar c (c :: s) = some s := by
  rw [scanChar, if_pos (by rfl), tail_cons]

theorem scanVersion_toDigits {a b c : ℕ} (ha : a < 2 ^ 31) (hb : b < 2 ^ 31) (hc : c < 2 ^ 31) :
    scanVersion (Nat.toDigits 10 a ++ '.' :: (Nat.toDigits 10 b ++ '.' :: Nat.toDigits 10 c)) =
      some ((a : ℤ), (b : ℤ), (c : ℤ)) := by
  have hdot (r : Str) : ∀ d ∈ ('.' :: r).head?, d.isDigit = false := by simp
  have hlast := scanInt_toDigits hc (r := []) (by simp)
  rw [append_nil] at hlast
  simp only [scanVersion, scanInt_toDigits ha (hdot _), scanInt_toDigits hb (hdot _), hlast,
    scanChar_cons, Option.bind_eq_bind, Option.bind_some]
  rfl

theorem scanPatchLevel_toDigits {y m : ℕ} (hy : y < 2 ^ 31) (hm : m < 16) :
    scanPatchLevel (Nat.toDigits 10 y ++ '-' :: (Nat.toDigits 10 m).leftpad 2 '0') =
      some ((y : ℤ), (m : ℤ)) := by
  have hdash (r : Str) : ∀ d ∈ ('-' :: r).head?, d.isDigit = false := by simp
  simp only [scanPatchLevel, scanInt_toDigits hy (hdash _), scanInt_leftpad m hm, scanChar_cons,
    Option.bind_eq_bind, Option.bind_some]
  rfl

theorem osProps_no_blank {v : BitVec 32} {p : Str × Str} (hp : p ∈ osProps v) :
    ∀ c ∈ p.2, isWhitespace c = false := by
  have hdec : ∀ (n : ℕ), ∀ c ∈ Nat.toDigits 10 n, isWhitespace c = false := by
    intro n c hc
    exact Bool.eq_false_iff.mpr
      (not_isWhitespace_of_isDigit (Nat.isDigit_of_mem_toDigits (by decide) (by decide) hc))
  have hmonth : ∀ c ∈ (Nat.toDigits 10 (v &&& 0x7ff#32 &&& 0xf#32).toNat).leftpad 2 '0',
      isWhitespace c = false := by
    intro c hc
    rw [List.leftpad, mem_append] at hc
    rcases hc with hc | hc
    · rw [eq_of_mem_replicate hc]
      decide
    · exact hdec _ c hc
  simp only [osProps, mem_cons, not_mem_nil, or_false] at hp
  rcases hp with rfl | rfl
  · simp only [forall_mem_append, forall_mem_cons]
    exact ⟨hdec _, by decide, hdec _, by decide, hdec _⟩
  · simp only [forall_mem_append, forall_mem_cons]
    exact ⟨hdec _, by decide, hmonth⟩

theorem isKey_of_mem : ∀ key ∈ ["name".toList, "cmdline".toList, "os_version".toList,
    "os_patch_level".toList], IsKey key := by
  simp [isKey_iff, isWhitespace]

namespace Hdr

variable (h : Hdr)

theorem memcpy_osVersion : h.memcpy .osVersion (leBytes 4 h.osVersion.toNat) = h := by
  cases hf : h.kind.textField .osVersion with
  | none => exact memcpy_of_none hf _
  | some x =>
    have hx : ∀ (k : HdrKind), ∀ x ∈ k.textField .osVersion, x.2 = 4 := by decide
    have hle := h.kind.textField_le _ x hf
    rw [← h.raw_length] at hle
    have hlen : (h.text .osVersion).length = 4 := by
      rw [text_eq_view hf, view_length, hx _ x hf]
      rw [hx _ x hf] at hle
      omega
    have hlt : leValue (h.text .osVersion) < 2 ^ 32 := by
      have hlt := leValue_lt (h.text .osVersion)
      rwa [hlen] at hlt
    have hv : leBytes 4 h.osVersion.toNat = h.text .osVersion := by
      rw [osVersion, BitVec.toNat_ofNat, Nat.mod_eq_of_lt hlt, ← hlen, leBytes_leValue]
    rw [hv, memcpy_text]

theorem loadProp_osVersion {s : Str} {a b c : ℤ} (hs : scanVersion s = some (a, b, c)) :
    h.loadProp ("os_version".toList, s) =
      .ok (h.memcpy .osVersion (leBytes 4 (newOsVersion h.osVersion a b c).toNat)) := by
  have hname : "os_version".toList ≠ "name".toList := by decide
  have hcmdline : "os_version".toList ≠ "cmdline".toList := by decide
  rw [loadProp]
  refine (if_neg fun hn => hname hn.1).trans ((if_neg hcmdline).trans ((if_pos rfl).trans ?_))
  rw [hs]

theorem loadProp_osPatchLevel {s : Str} {y m : ℕ} (hs : scanPatchLevel s = some ((y : ℤ), (m : ℤ))) :
    h.loadProp ("os_patch_level".toList, s) =
      .ok (h.memcpy .osVersion (leBytes 4 (newPatchLevel h.osVersion y m).toNat)) := by
  have hname : "os_patch_level".toList ≠ "name".toList := by decide
  have hcmdline : "os_patch_level".toList ≠ "cmdline".toList := by decide
  have hversion : "os_patch_level".toList ≠ "os_version".toList := by decide
  rw [loadProp]
  refine (if_neg fun hn => hname hn.1).trans ((if_neg hcmdline).trans
    ((if_neg hversion).trans ((if_pos rfl).trans ?_)))
  rw [hs]
  exact if_neg (by omega)

theorem foldlM_osProps : (osProps h.osVersion).foldlM loadProp h = .ok h := by
  have hand : ∀ x y : BitVec 32, (x &&& y).toNat ≤ y.toNat := by
    intro x y
    exact Nat.and_le_right
  have hfield (x : BitVec 32) : (x &&& 0x7f#32).toNat < 2 ^ 31 :=
    lt_of_le_of_lt (hand x 0x7f#32) (by decide)
  have hmonth : (h.osVersion &&& 0x7ff#32 &&& 0xf#32).toNat < 16 :=
    lt_of_le_of_lt (hand _ 0xf#32) (by decide)
  have hlevel : ((h.osVersion &&& 0x7ff#32) >>> 4).toNat < 128 := by
    have hle : (h.osVersion &&& 0x7ff#32).toNat ≤ 0x7ff := hand _ _
    rw [BitVec.toNat_ushiftRight, Nat.shiftRight_eq_div_pow]
    omega
  have hyear : ((h.osVersion &&& 0x7ff#32) >>> 4 + 2000#32).toNat =
      ((h.osVersion &&& 0x7ff#32) >>> 4).toNat + 2000 := by
    have htwo : (2000#32).toNat = 2000 := rfl
    rw [BitVec.toNat_add, htwo, Nat.mod_eq_of_lt]
    omega
  have hver := h.loadProp_osVersion (scanVersion_toDigits (hfield (h.osVersion >>> 11 >>> 14))
    (hfield (h.osVersion >>> 11 >>> 7)) (hfield (h.osVersion >>> 11)))
  rw [newOsVersion_self, memcpy_osVersion] at hver
  have hpatch := h.loadProp_osPatchLevel (scanPatchLevel_toDigits
    (show ((h.osVersion &&& 0x7ff#32) >>> 4).toNat + 2000 < 2 ^ 31 by omega) hmonth)
  rw [newPatchLevel_self, memcpy_osVersion, ← hyear] at hpatch
  exact (congrArg (· >>= _) hver).trans ((congrArg (· >>= _) hpatch).trans rfl)

end Hdr

theorem cString_eq {m : Bytes} {o n : ℕ} (h0 : 0 ∈ view m o n) :
    cString m o = .ok (cstr (view m o n)) := by
  obtain ⟨a, b, hab, ha⟩ := eq_append_cons_of_mem h0
  have hm : m.drop o = a ++ 0 :: (b ++ m.drop (o + n)) := by
    rw [← drop_drop, ← cons_append, ← append_assoc, ← hab, view,
      take_append_drop]
  have hlen := congrArg List.length hm
  rw [length_drop, length_append, length_cons] at hlen
  rw [cString, hm, hab, cstr_append_zero ha, cstr_append_zero ha]
  exact if_pos (by omega)

theorem take_asBytes_trim_eq_iff {s : Str} {n : ℕ} :
    (asBytes (trim s)).take n = asBytes s ↔ trim s = s ∧ (asBytes s).length ≤ n := by
  constructor
  · intro h
    have hlen := congrArg List.length h
    rw [length_take] at hlen
    exact ⟨trim_eq_self_of_length_le (by omega), by omega⟩
  · rintro ⟨ht, hn⟩
    rw [ht, take_of_length_le hn]

def readValue (p : Str × Bytes) : Option (Str × Str) := (fromUtf8 p.2).map fun s => (p.1, trim s)

def restProps (cmdline : Bytes) (ver : BitVec 32) : List (Str × Bytes) :=
  ("cmdline".toList, cmdline) ::
    if ver = 0 then [] else (osProps ver).map fun p => (p.1, asBytes p.2)

theorem mapWhile_osProps (v : BitVec 32) :
    mapWhile readValue ((osProps v).map fun p => (p.1, asBytes p.2)) = osProps v := by
  have h := (mapWhile_map_eq_iff (f := readValue) (g := fun p => (p.1, asBytes p.2)) (v := id)
    (l := osProps v)).mpr
  rw [List.map_id] at h
  apply h
  intro p hp
  rw [readValue, fromUtf8_asBytes, Option.map_some, Option.map_some,
    trim_of_forall (osProps_no_blank hp)]
  rfl

theorem restProps_isKey {b : Bytes} (hb : 10 ∉ b) (v : BitVec 32) :
    ∀ p ∈ restProps b v, IsKey p.1 ∧ 10 ∉ p.2 := by
  intro p hp
  rw [restProps, mem_cons] at hp
  rcases hp with rfl | hp
  · exact ⟨isKey_of_mem _ (by simp), hb⟩
  · split_ifs at hp
    · cases hp
    · obtain ⟨q, hq, rfl⟩ := List.mem_map.mp hp
      refine ⟨isKey_of_mem q.1 ?_, newline_not_mem_asBytes (osProps_no_blank hq)⟩
      simp only [osProps, mem_cons, not_mem_nil, or_false] at hq
      rcases hq with rfl | rfl <;> simp

namespace Hdr

variable {h : Hdr}

theorem dumpProps_of_name {o n : ℕ} (hf : h.kind.textField .name = some (o, n))
    (h0 : 0 ∈ h.text .name) :
    h.dumpProps = .ok (("name".toList, h.name) :: restProps h.cmdline h.osVersion) := by
  rw [text_eq_view hf] at h0
  rw [dumpProps, hf, name, text_eq_view hf]
  dsimp only
  rw [cString_eq h0]
  rfl

theorem dumpProps_of_none (hf : h.kind.textField .name = none) :
    h.dumpProps = .ok (restProps h.cmdline h.osVersion) := by
  rw [dumpProps, hf]
  rfl

theorem zero_not_mem_name : 0 ∉ h.name := zero_not_mem_cstr _

theorem zero_not_mem_cmdline : 0 ∉ h.cmdline := by
  rw [cmdline, mem_append, not_or]
  exact ⟨zero_not_mem_cstr _, zero_not_mem_cstr _⟩

theorem length_cmdline_le : h.cmdline.length ≤ 1536 := by
  obtain ⟨oc, hoc⟩ := textField_cmdline h.kind
  obtain ⟨oe, hoe⟩ := textField_extraCmdline h.kind
  have hc : (cstr (h.text .cmdline)).length ≤ (h.text .cmdline).length :=
    (takeWhile_sublist _).length_le
  have he : (cstr (h.text .extraCmdline)).length ≤ (h.text .extraCmdline).length :=
    (takeWhile_sublist _).length_le
  rw [text_eq_view hoc, view_length] at hc
  rw [text_eq_view hoe, view_length] at he
  rw [cmdline, length_append, text_eq_view hoc, text_eq_view hoe]
  omega

theorem zero_not_mem_trim {b : Bytes} {s : Str} (h0 : 0 ∉ b) (hs : fromUtf8 b = some s) :
    '\x00' ∉ trim s := by
  intro hm
  rw [← asBytes_of_fromUtf8 hs] at h0
  exact h0 ((zero_mem_asBytes s).mpr (mem_of_mem_trim hm))

theorem foldlM_restProps (h : Hdr) :
    ∃ h', (mapWhile readValue (restProps h.cmdline h.osVersion)).foldlM loadProp h = .ok h' ∧
      h'.name = h.name ∧ h'.osVersion = h.osVersion ∧
      (h'.cmdline = h.cmdline ↔ ∀ t, fromUtf8 h.cmdline = some t → trim t = t) := by
  cases ht : fromUtf8 h.cmdline with
  | none =>
    refine ⟨h, ?_, rfl, rfl, by simp⟩
    rw [restProps, mapWhile_cons_none (by rw [readValue, ht]; rfl)]
    rfl
  | some t =>
    obtain ⟨h', hload, hkind, hcmdline, hother⟩ := loadProp_cmdline (h := h) (s := trim t)
      (zero_not_mem_trim zero_not_mem_cmdline ht)
    have hver : h'.osVersion = h.osVersion := by
      rw [osVersion, osVersion, hother .osVersion (by decide) (by decide)]
    have hrest : (mapWhile readValue (if h.osVersion = 0 then [] else
        (osProps h.osVersion).map fun p => (p.1, asBytes p.2))).foldlM loadProp h' = .ok h' := by
      split_ifs
      · rfl
      · rw [mapWhile_osProps, ← hver, foldlM_osProps]
    refine ⟨h', ?_, ?_, hver, ?_⟩
    · rw [restProps, mapWhile_cons_some (b := ("cmdline".toList, trim t))
        (by rw [readValue, ht]; rfl), foldlM_cons, hload]
      exact hrest
    · rw [name, name, hother .name (by decide) (by decide)]
    · have hb := asBytes_of_fromUtf8 ht
      have hlen := h.length_cmdline_le
      rw [hcmdline, ← hb, take_asBytes_trim_eq_iff, hb]
      simp [hlen]

/-- The name ends in its field, and no line ends in the name or the command line. -/
structure HasText (h : Hdr) : Prop where
  name_end : (h.kind.textField .name).isSome → 0 ∈ h.text .name
  name_line : 10 ∉ h.name
  cmdline_line : 10 ∉ h.cmdline

theorem loadHdrFile_eq {ps : List (Str × Bytes)} (hps : ∀ p ∈ ps, IsKey p.1 ∧ 10 ∉ p.2) :
    h.loadHdrFile (ps.flatMap fun p => propLine p ++ [10]) =
      (mapWhile readValue ps).foldlM loadProp h := by
  rw [loadHdrFile, readProps_flatMap hps]
  rfl

/-- The file is read back: a name that is text is cut to 15 bytes and trimmed, and the command
line is trimmed if both are text. -/
theorem exists_loadHdrFile (ht : h.HasText) : ∃ text h', h.dumpHdrFile = .ok text ∧
    h.loadHdrFile text = .ok h' ∧ h'.osVersion = h.osVersion ∧
    (h'.name = h.name ↔ ∀ s, fromUtf8 h.name = some s → trim s = s ∧ h.name.length ≤ 15) ∧
    (h'.cmdline = h.cmdline ↔ ∀ s, fromUtf8 h.name = some s →
      ∀ t, fromUtf8 h.cmdline = some t → trim t = t) := by
  have hrest := restProps_isKey ht.cmdline_line h.osVersion
  cases hf : h.kind.textField .name with
  | none =>
    obtain ⟨h', hload, hname, hver, hcmdline⟩ := h.foldlM_restProps
    have hnil : h.name = asBytes [] := by
      rw [name, text, hf]
      rfl
    have htrim : trim [] = [] := rfl
    refine ⟨_, h', by rw [dumpHdrFile, dumpProps_of_none hf]; rfl, ?_, hver, ?_, ?_⟩
    · rw [loadHdrFile_eq hrest, hload]
    · rw [hname, hnil, fromUtf8_asBytes]
      simp [htrim, asBytes]
    · rw [hcmdline, hnil, fromUtf8_asBytes]
      simp
  | some x =>
    have hdump := dumpProps_of_name hf (ht.name_end (by rw [hf]; rfl))
    have hprops : ∀ p ∈ ("name".toList, h.name) :: restProps h.cmdline h.osVersion,
        IsKey p.1 ∧ 10 ∉ p.2 := by
      rw [forall_mem_cons]
      exact ⟨⟨isKey_of_mem _ (by simp), ht.name_line⟩, hrest⟩
    cases hs : fromUtf8 h.name with
    | none =>
      -- Reading ends at the name, and the copy keeps what it has.
      refine ⟨_, h, by rw [dumpHdrFile, hdump]; rfl, ?_, rfl, by simp, by simp⟩
      rw [loadHdrFile_eq hprops, mapWhile_cons_none (by rw [readValue, hs]; rfl)]
      rfl
    | some s =>
      have hn : ∀ k : HdrKind, ∀ x ∈ k.textField .name, 16 ≤ x.2 := by decide
      obtain ⟨h₁, hload₁, -, hname₁, hother⟩ := loadProp_name hf (hn _ _ hf) (s := trim s)
        (zero_not_mem_trim zero_not_mem_name hs)
      have hcmdline₁ : h₁.cmdline = h.cmdline := by
        rw [cmdline, cmdline, hother .cmdline (by decide), hother .extraCmdline (by decide)]
      have hver₁ : h₁.osVersion = h.osVersion := by
        rw [osVersion, osVersion, hother .osVersion (by decide)]
      obtain ⟨h', hload, hname, hver, hcmdline⟩ := h₁.foldlM_restProps
      rw [hcmdline₁, hver₁] at hload
      rw [hcmdline₁] at hcmdline
      refine ⟨_, h', by rw [dumpHdrFile, hdump]; rfl, ?_, hver.trans hver₁, ?_, ?_⟩
      · rw [loadHdrFile_eq hprops, mapWhile_cons_some (b := ("name".toList, trim s))
          (by rw [readValue, hs]; rfl), foldlM_cons, hload₁]
        exact hload
      · rw [hname, hname₁, ← asBytes_of_fromUtf8 hs, take_asBytes_trim_eq_iff]
        simp
      · rw [hcmdline]
        simp

/-- The header file keeps the texts only when a name that is text has at most 15 bytes and no blanks
at its ends, and then the command line has none there either; a line that is no text ends the
reading. -/
theorem loadHdrFile_preserves_iff (ht : h.HasText) :
    (∃ text h', h.dumpHdrFile = .ok text ∧ h.loadHdrFile text = .ok h' ∧
        h'.name = h.name ∧ h'.cmdline = h.cmdline ∧ h'.osVersion = h.osVersion) ↔
      ∀ s, fromUtf8 h.name = some s →
        trim s = s ∧ h.name.length ≤ 15 ∧ ∀ t, fromUtf8 h.cmdline = some t → trim t = t := by
  obtain ⟨text, h', hdump, hload, hver, hname, hcmdline⟩ := exists_loadHdrFile ht
  constructor
  · rintro ⟨text₂, h₂, hdump₂, hload₂, hname₂, hcmdline₂, -⟩
    obtain rfl : text = text₂ := Except.ok.inj (hdump.symm.trans hdump₂)
    obtain rfl : h' = h₂ := Except.ok.inj (hload.symm.trans hload₂)
    intro s hs
    have hns := hname.mp hname₂ s hs
    exact ⟨hns.1, hns.2, hcmdline.mp hcmdline₂ s hs⟩
  · intro hall
    refine ⟨text, h', hdump, hload, hname.mpr ?_, hcmdline.mpr ?_, hver⟩
    · exact fun s hs => ⟨(hall s hs).1, (hall s hs).2.1⟩
    · exact fun s hs => (hall s hs).2.2

/-- A header with a name and a command line, and with version 14.0.0 of 2024-05. -/
def named (kind : HdrKind) (name cmdline : Bytes) : Hdr :=
  (((⟨kind, zeros kind.hdrSize, zeros_length _⟩ : Hdr).memcpy .name name).memcpy .cmdline
    cmdline).memcpy .osVersion (leBytes 4 0x1c000185)

theorem loadHdrFile_preserves_named : (named .v2 (lit "boot") (lit "ro quiet")).HasText ∧
    ∃ text h', (named .v2 (lit "boot") (lit "ro quiet")).dumpHdrFile = .ok text ∧
      (named .v2 (lit "boot") (lit "ro quiet")).loadHdrFile text = .ok h' ∧
      h'.name = (named .v2 (lit "boot") (lit "ro quiet")).name ∧
      h'.cmdline = (named .v2 (lit "boot") (lit "ro quiet")).cmdline ∧
      h'.osVersion = (named .v2 (lit "boot") (lit "ro quiet")).osVersion := by
  have hname : (named .v2 (lit "boot") (lit "ro quiet")).name = asBytes "boot".toList := by
    decide +kernel
  have hcmdline : (named .v2 (lit "boot") (lit "ro quiet")).cmdline = asBytes "ro quiet".toList := by
    decide +kernel
  have ht : (named .v2 (lit "boot") (lit "ro quiet")).HasText :=
    ⟨by decide +kernel, by rw [hname]; decide +kernel, by rw [hcmdline]; decide +kernel⟩
  refine ⟨ht, (loadHdrFile_preserves_iff ht).mpr ?_⟩
  rw [hname, hcmdline, fromUtf8_asBytes, fromUtf8_asBytes]
  intro s hs
  cases hs
  refine ⟨by decide +kernel, by decide +kernel, fun t ht => ?_⟩
  cases ht
  decide +kernel

/-- A name of 16 bytes in the header for PXA, which has 24 for it, is not read back, and neither is
a blank at the end of a command line. -/
theorem loadHdrFile_not_preserves_named :
    ((named .pxa (lit "sixteen_bytes_xx") []).HasText ∧
      ∃ text h', (named .pxa (lit "sixteen_bytes_xx") []).dumpHdrFile = .ok text ∧
        (named .pxa (lit "sixteen_bytes_xx") []).loadHdrFile text = .ok h' ∧
        h'.name ≠ (named .pxa (lit "sixteen_bytes_xx") []).name) ∧
    ((named .v2 [] (lit "quiet ")).HasText ∧
      ∃ text h', (named .v2 [] (lit "quiet ")).dumpHdrFile = .ok text ∧
        (named .v2 [] (lit "quiet ")).loadHdrFile text = .ok h' ∧
        h'.cmdline ≠ (named .v2 [] (lit "quiet ")).cmdline) := by
  constructor
  · have hname : (named .pxa (lit "sixteen_bytes_xx") []).name =
        asBytes "sixteen_bytes_xx".toList := by
      decide +kernel
    have ht : (named .pxa (lit "sixteen_bytes_xx") []).HasText :=
      ⟨by decide +kernel, by decide +kernel, by decide +kernel⟩
    obtain ⟨text, h', hdump, hload, -, hiff, -⟩ := exists_loadHdrFile ht
    refine ⟨ht, text, h', hdump, hload, fun he => ?_⟩
    have hlen := (hiff.mp he _ (by rw [hname, fromUtf8_asBytes])).2
    rw [hname] at hlen
    exact absurd hlen (by decide +kernel)
  · have hname : (named .v2 [] (lit "quiet ")).name = asBytes [] := by decide +kernel
    have hcmdline : (named .v2 [] (lit "quiet ")).cmdline = asBytes "quiet ".toList := by
      decide +kernel
    have ht : (named .v2 [] (lit "quiet ")).HasText :=
      ⟨by decide +kernel, by decide +kernel, by decide +kernel⟩
    obtain ⟨text, h', hdump, hload, -, -, hiff⟩ := exists_loadHdrFile ht
    refine ⟨ht, text, h', hdump, hload, fun he => ?_⟩
    have htrim := hiff.mp he _ (by rw [hname, fromUtf8_asBytes]) _
      (by rw [hcmdline, fromUtf8_asBytes])
    exact absurd htrim (by decide +kernel)

end Hdr

end Magisk.Boot
