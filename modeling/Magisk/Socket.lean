import Magisk.Bytes

namespace Magisk

open List

/-- An encoding, with the values it is lossless for. -/
structure Codec (α : Type) where
  encode : α → Bytes
  decode : Bytes → Except Fault (α × Bytes)
  Fits : α → Prop
  decode_encode : ∀ a rest, Fits a → decode (encode a ++ rest) = .ok (a, rest)

namespace Codec

def readExact (n : ℕ) (r : Bytes) : Except Fault (Bytes × Bytes) :=
  if n ≤ r.length then .ok (r.take n, r.drop n) else .error (.error "failed to fill whole buffer")

theorem readExact_append {b : Bytes} (rest : Bytes) {n : ℕ} (h : b.length = n) :
    readExact n (b ++ rest) = .ok (b, rest) := by
  subst h
  simp [readExact]

def u8 : Codec UInt8 where
  encode v := [v]
  decode r := do
    let (b, r) ← readExact 1 r
    return (b.headD 0, r)
  Fits _ := True
  decode_encode v rest _ := by
    rw [readExact_append rest (n := 1) rfl]
    rfl

def u32 : Codec UInt32 where
  encode v := leBytes 4 v.toNat
  decode r := do
    let (b, r) ← readExact 4 r
    return (UInt32.ofNat (leValue b), r)
  Fits _ := True
  decode_encode v rest _ := by
    have hv : leValue (leBytes 4 v.toNat) = v.toNat := leValue_leBytes v.toNat_lt
    rw [readExact_append rest (leBytes_length 4 _)]
    simp only [bind, Except.bind, hv, UInt32.ofNat_toNat]
    rfl

def i32 : Codec Int32 where
  encode v := u32.encode v.toUInt32
  decode r := do
    let (v, r) ← u32.decode r
    return (v.toInt32, r)
  Fits _ := True
  decode_encode v rest _ := by
    rw [u32.decode_encode _ rest trivial]
    rfl

def bool : Codec Bool where
  encode v := u8.encode (if v then 1 else 0)
  decode r := do
    let (v, r) ← u8.decode r
    return (v != 0, r)
  Fits _ := True
  decode_encode v rest _ := by
    rw [u8.decode_encode _ rest trivial]
    cases v <;> rfl

def len (n : ℕ) : Bytes := i32.encode (Int32.ofNat n)

def decodeLen (r : Bytes) : Except Fault (ℕ × Bytes) := do
  let (n, r) ← i32.decode r
  if n < 0 then throw .panic
  return (n.toNatClampNeg, r)

theorem decodeLen_len {n : ℕ} (h : n < 2 ^ 31) (rest : Bytes) :
    decodeLen (len n ++ rest) = .ok (n, rest) := by
  have hn : (Int32.ofNat n).toInt = n := Int32.toInt_ofNat_of_lt h
  have hneg : ¬ Int32.ofNat n < 0 := by
    rw [Int32.lt_iff_toInt_lt, hn]
    exact not_lt.mpr (Int.natCast_nonneg n)
  have hclamp : (Int32.ofNat n).toNatClampNeg = n := by
    rw [Int32.toNatClampNeg, hn, Int.toNat_natCast]
  unfold decodeLen len
  rw [i32.decode_encode _ rest trivial]
  simp only [bind, Except.bind, if_neg hneg, hclamp]
  rfl

variable {α : Type}

def decodeMany (c : Codec α) : ℕ → Bytes → Except Fault (List α × Bytes)
  | 0, r => .ok ([], r)
  | n + 1, r => do
    let (a, r) ← c.decode r
    let (l, r) ← decodeMany c n r
    return (a :: l, r)

theorem decodeMany_flatMap (c : Codec α) (l : List α) (rest : Bytes) (h : ∀ a ∈ l, c.Fits a) :
    decodeMany c l.length (l.flatMap c.encode ++ rest) = .ok (l, rest) := by
  induction l with
  | nil => rfl
  | cons a l ih =>
    rw [length_cons, flatMap_cons, append_assoc, decodeMany,
      c.decode_encode a _ (h a mem_cons_self)]
    simp only [bind, Except.bind, ih fun b hb => h b (mem_cons_of_mem a hb)]
    rfl

def vec (c : Codec α) : Codec (List α) where
  encode l := len l.length ++ l.flatMap c.encode
  decode r := do
    let (n, r) ← decodeLen r
    decodeMany c n r
  Fits l := l.length < 2 ^ 31 ∧ ∀ a ∈ l, c.Fits a
  decode_encode l rest h := by
    rw [append_assoc, decodeLen_len h.1]
    exact decodeMany_flatMap c l rest h.2

-- A stream that ends early gives a shorter string, not an error.
def string : Codec Str where
  encode s := len (asBytes s).length ++ asBytes s
  decode r := do
    let (n, r) ← decodeLen r
    match fromUtf8 (r.take n) with
    | some s => return (s, r.drop n)
    | none => throw (.error "stream did not contain valid UTF-8")
  Fits s := (asBytes s).length < 2 ^ 31
  decode_encode s rest h := by
    rw [append_assoc, decodeLen_len h]
    simp only [bind, Except.bind, take_left, drop_left, fromUtf8_asBytes]
    rfl

end Codec

end Magisk
