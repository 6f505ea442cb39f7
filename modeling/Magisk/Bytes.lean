import Mathlib

namespace Magisk

open List

abbrev Bytes := List UInt8
abbrev Str := List Char

-- Under these names, as definitions that test for membership refer to them.
instance : LawfulBEq Bytes := inferInstance
instance : LawfulBEq Str := inferInstance
instance : LawfulBEq (Option Str) := inferInstance

def asBytes (s : Str) : Bytes := s.flatMap String.utf8EncodeChar

/-- Decodes UTF-8; `none` when the bytes are not valid. -/
def fromUtf8 (b : Bytes) : Option Str := b.toByteArray.utf8Decode?.map Array.toList

def lit (s : String) : Bytes := asBytes s.toList

@[simp] theorem asBytes_append (s t : Str) : asBytes (s ++ t) = asBytes s ++ asBytes t := by
  simp [asBytes]

theorem fromUtf8_asBytes (s : Str) : fromUtf8 (asBytes s) = some s := by
  have h := utf8Decode?_utf8Encode (l := s)
  unfold List.utf8Encode at h
  simp [fromUtf8, asBytes, h]

theorem asBytes_of_fromUtf8 {b : Bytes} {s : Str} (h : fromUtf8 b = some s) : asBytes s = b := by
  obtain ⟨chars, hc, rfl⟩ := Option.map_eq_some_iff.mp h
  have he := ByteArray.utf8Encode_get_utf8Decode? (b := b.toByteArray) (h := by rw [hc]; rfl)
  simp only [hc, Option.get_some] at he
  have hl := congrArg (fun a => a.data.toList) he
  simpa [List.utf8Encode, asBytes] using hl

theorem asBytes_injective : Function.Injective asBytes := by
  intro s t h
  have hs := fromUtf8_asBytes s
  rw [h, fromUtf8_asBytes] at hs
  exact (Option.some.inj hs).symm

/-- A character is the only one whose encoding has its byte, if it is an ASCII character. -/
theorem ascii_mem_utf8EncodeChar {x : UInt8} (hx : x.toNat < 128) (c : Char) :
    x ∈ String.utf8EncodeChar c ↔ c.toNat = x.toNat := by
  have hv : c.val.toNat < 1114112 := by
    rcases c.valid with hc | hc
    · exact lt_trans hc (by decide)
    · exact hc.2
  have he (n : ℕ) : x = UInt8.ofNat n ↔ n % 256 = x.toNat := by
    rw [← UInt8.toNat_inj, UInt8.toNat_ofNat', eq_comm]
  show x ∈ String.utf8EncodeChar c ↔ c.val.toNat = x.toNat
  unfold String.utf8EncodeChar
  dsimp only
  split_ifs <;> simp only [mem_cons, not_mem_nil, or_false, he] <;> omega

theorem zero_mem_utf8EncodeChar (c : Char) : 0 ∈ String.utf8EncodeChar c ↔ c = '\x00' := by
  rw [ascii_mem_utf8EncodeChar (by decide), ← Char.toNat_inj]
  rfl

theorem zero_mem_asBytes (s : Str) : 0 ∈ asBytes s ↔ '\x00' ∈ s := by
  constructor
  · intro h
    obtain ⟨c, hc, h0⟩ := mem_flatMap.mp h
    rwa [(zero_mem_utf8EncodeChar c).mp h0] at hc
  · intro h
    exact mem_flatMap.mpr ⟨_, h, (zero_mem_utf8EncodeChar _).mpr rfl⟩

/-- How a call ends without a value: an error that it logs and returns, or a panic. -/
inductive Fault where
  | error (msg : String)
  | panic
  deriving DecidableEq, Repr

/-- An operation that panics when it has no value, such as indexing out of range. -/
def orPanic {α : Type*} : Option α → Except Fault α
  | some a => .ok a
  | none => .error .panic

@[simp] theorem orPanic_some {α : Type*} (a : α) : orPanic (some a) = .ok a := rfl
@[simp] theorem orPanic_none {α : Type*} : orPanic (none : Option α) = .error .panic := rfl

theorem bind_eq_ok {ε : Type*} {α β : Type} {x : Except ε α} {f : α → Except ε β} {r : β} :
    x >>= f = .ok r ↔ ∃ a, x = .ok a ∧ f a = .ok r := by
  cases x with
  | error e => simp [bind, Except.bind]
  | ok a => simp [bind, Except.bind]

theorem bind_eq_error {ε : Type*} {α β : Type} {x : Except ε α} {f : α → Except ε β} {e : ε} :
    x >>= f = .error e ↔ x = .error e ∨ ∃ a, x = .ok a ∧ f a = .error e := by
  cases x with
  | error e => simp [bind, Except.bind]
  | ok a => simp [bind, Except.bind]

theorem map_eq_ok {ε α β : Type*} {x : Except ε α} {f : α → β} {r : β} :
    x.map f = .ok r ↔ ∃ a, x = .ok a ∧ f a = r := by
  cases x <;> simp [Except.map]

/-- The bytes `[a, b)`; `none` when the range does not lie inside `m`. -/
def slice (m : Bytes) (a b : ℕ) : Option Bytes :=
  if a ≤ b ∧ b ≤ m.length then some ((m.drop a).take (b - a)) else none

theorem slice_of_le {m : Bytes} {a b : ℕ} (h : a ≤ b) (hb : b ≤ m.length) :
    slice m a b = some ((m.drop a).take (b - a)) :=
  if_pos ⟨h, hb⟩

theorem orPanic_slice_eq_panic {m : Bytes} {a b : ℕ} (h : a ≤ b) :
    orPanic (slice m a b) = .error .panic ↔ m.length < b := by
  by_cases hb : b ≤ m.length
  · rw [slice_of_le h hb, orPanic_some]
    exact iff_of_false (fun he => by cases he) (Nat.not_lt.mpr hb)
  · rw [slice, if_neg fun hs => hb hs.2, orPanic_none]
    exact iff_of_true rfl (Nat.not_le.mp hb)

theorem slice_append (pre m post : Bytes) {a b : ℕ} (ha : a = pre.length)
    (hb : b = pre.length + m.length) : slice (pre ++ (m ++ post)) a b = some m := by
  subst ha hb
  simp [slice]

theorem slice_append_add (pre m : Bytes) (a b : ℕ) :
    slice (pre ++ m) (pre.length + a) (pre.length + b) = slice m a b := by
  have hc : (pre.length + a ≤ pre.length + b ∧ pre.length + b ≤ (pre ++ m).length) ↔
      (a ≤ b ∧ b ≤ m.length) := by
    rw [length_append]
    omega
  simp only [slice, hc, ← drop_drop, drop_left, Nat.add_sub_add_left]

/-- The first position of `needle` in `hay`, as `memmem` finds it. -/
def find (hay needle : Bytes) : Option ℕ :=
  if needle.isPrefixOf hay then some 0
  else match hay with
    | [] => none
    | _ :: t => (find t needle).map (· + 1)

def hexDigit (d : ℕ) : UInt8 := UInt8.ofNat (if d < 10 then 48 + d else 87 + d)

/-- `char::to_digit(16)`, which also takes upper-case digits. -/
def toDigit (c : UInt8) : Option ℕ :=
  let n := c.toNat
  if 48 ≤ n ∧ n ≤ 57 then some (n - 48)
  else if 97 ≤ n ∧ n ≤ 102 then some (n - 87)
  else if 65 ≤ n ∧ n ≤ 70 then some (n - 55)
  else none

/-- `{:08x}`: at least eight digits, more when the value needs them. -/
def fmt08x (n : ℕ) : Bytes := ((Nat.digits 16 n).reverse.leftpad 8 0).map hexDigit

theorem toDigit_hexDigit {d : ℕ} (h : d < 16) : toDigit (hexDigit d) = some d := by
  interval_cases d <;> decide

theorem fmt08x_length {n : ℕ} (h : n < 2 ^ 32) : (fmt08x n).length = 8 := by
  have hd : (Nat.digits 16 n).length ≤ 8 :=
    (Nat.digits_length_le_iff (by norm_num) n).mpr (by norm_num at h ⊢; exact h)
  simp only [fmt08x, length_map, length_leftpad, length_reverse]
  omega

/-- Reads a numeral from its most significant digit on. -/
def hexValue (x : Bytes) : Option ℕ :=
  x.foldlM (fun ret c => (toDigit c).map (ret * 16 + ·)) 0

theorem foldlM_hexDigit (ds : List ℕ) (hd : ∀ d ∈ ds, d < 16) (acc : ℕ) :
    (ds.map hexDigit).foldlM (fun ret c => (toDigit c).map (ret * 16 + ·)) acc =
      some (ds.foldl (fun ret d => ret * 16 + d) acc) := by
  induction ds generalizing acc with
  | nil => rfl
  | cons d ds ih =>
    simp only [map_cons, foldlM_cons, foldl_cons]
    rw [toDigit_hexDigit (hd d (by simp))]
    exact ih (fun x hx => hd x (by simp [hx])) _

theorem hexValue_fmt08x (n : ℕ) : hexValue (fmt08x n) = some n := by
  have hd : ∀ d ∈ (Nat.digits 16 n).reverse.leftpad 8 0, d < 16 := by
    intro d h
    simp only [List.leftpad, mem_append, mem_replicate, mem_reverse] at h
    rcases h with ⟨-, rfl⟩ | h
    · norm_num
    · exact Nat.digits_lt_base (by norm_num) h
  have hz (k : ℕ) : (List.replicate k 0).foldl (fun ret d => ret * 16 + d) 0 = 0 := by
    induction k with
    | zero => rfl
    | succ k ih => simpa [replicate_succ] using ih
  rw [hexValue, fmt08x, foldlM_hexDigit _ hd, List.leftpad, foldl_append, hz,
    foldl_reverse]
  have h := Nat.ofDigits_digits 16 n
  rw [Nat.ofDigits_eq_foldr] at h
  simpa [mul_comm, add_comm] using h

/-- The `n` low bytes of `v`, the lowest first. -/
def leBytes : ℕ → ℕ → Bytes
  | 0, _ => []
  | n + 1, v => UInt8.ofNat v :: leBytes n (v / 256)

def leValue : Bytes → ℕ
  | [] => 0
  | b :: bs => b.toNat + 256 * leValue bs

@[simp] theorem leBytes_length (n v : ℕ) : (leBytes n v).length = n := by
  induction n generalizing v with
  | zero => rfl
  | succ n ih => rw [leBytes, length_cons, ih]

theorem leValue_lt (b : Bytes) : leValue b < 256 ^ b.length := by
  induction b with
  | nil => decide
  | cons x b ih =>
    have hx := x.toNat_lt
    rw [leValue, length_cons, pow_succ']
    omega

theorem leValue_leBytes_mod (n v : ℕ) : leValue (leBytes n v) = v % 256 ^ n := by
  induction n generalizing v with
  | zero =>
    rw [leBytes, leValue, pow_zero]
    omega
  | succ n ih =>
    have hb : (UInt8.ofNat v).toNat = v % 256 := UInt8.toNat_ofNat'
    rw [leBytes, leValue, ih, hb, pow_succ', Nat.mod_mul]

theorem leBytes_leValue (b : Bytes) : leBytes b.length (leValue b) = b := by
  induction b with
  | nil => rfl
  | cons x b ih =>
    have hx := x.toNat_lt
    have h1 : UInt8.ofNat (x.toNat + 256 * leValue b) = x := by
      rw [← UInt8.toNat_inj, UInt8.toNat_ofNat']
      omega
    have h2 : (x.toNat + 256 * leValue b) / 256 = leValue b := by omega
    rw [length_cons, leValue, leBytes, h1, h2, ih]

theorem leValue_leBytes {n v : ℕ} (h : v < 256 ^ n) : leValue (leBytes n v) = v := by
  rw [leValue_leBytes_mod, Nat.mod_eq_of_lt h]

end Magisk
