import Magisk.Bytes

namespace Magisk.Protobuf

open List Option

/-- A number in groups of seven bits, the lowest first; all but the last have the high bit. -/
def varint (n : ℕ) : Bytes :=
  if n < 128 then [UInt8.ofNat n] else UInt8.ofNat (n % 128 + 128) :: varint (n / 128)
termination_by n

def readVarint : Bytes → Option (ℕ × Bytes)
  | [] => none
  | b :: bs =>
    if b.toNat < 128 then some (b.toNat, bs)
    else (readVarint bs).map fun r => (b.toNat - 128 + 128 * r.1, r.2)

theorem readVarint_varint (n : ℕ) (rest : Bytes) :
    readVarint (varint n ++ rest) = some (n, rest) := by
  induction n using Nat.strong_induction_on with
  | _ n ih =>
    rw [varint]
    split_ifs with h
    · have hn : (UInt8.ofNat n).toNat = n := by
        rw [UInt8.toNat_ofNat']
        omega
      rw [singleton_append, readVarint, hn, if_pos h]
    · have hn : (UInt8.ofNat (n % 128 + 128)).toNat = n % 128 + 128 := by
        rw [UInt8.toNat_ofNat']
        omega
      rw [cons_append, readVarint, hn, if_neg (by omega), ih _ (by omega), map_some]
      congr 2
      omega

theorem readVarint_length {b : Bytes} {r : ℕ × Bytes} (h : readVarint b = some r) :
    r.2.length < b.length := by
  induction b generalizing r with
  | nil => cases h
  | cons x b ih =>
    rw [readVarint] at h
    split_ifs at h with hx
    · obtain rfl := some.inj h
      simp
    · obtain ⟨s, hs, rfl⟩ := map_eq_some_iff.mp h
      exact (ih hs).trans (Nat.lt_succ_self _)

/-- A field with its tag, which is its number and the wire type. -/
structure Field where
  tag : ℕ
  data : Bytes
  deriving DecidableEq, Repr

namespace Field

def bytes (f : Field) : Bytes := varint f.tag ++ (varint f.data.length ++ f.data)

def read (b : Bytes) : Option (Field × Bytes) :=
  (readVarint b).bind fun t => (readVarint t.2).bind fun n =>
    if n.1 ≤ n.2.length then some (⟨t.1, n.2.take n.1⟩, n.2.drop n.1) else none

theorem read_bytes (f : Field) (rest : Bytes) : read (f.bytes ++ rest) = some (f, rest) := by
  rw [read, bytes, append_assoc, readVarint_varint, bind_some, append_assoc,
    readVarint_varint, bind_some, if_pos (by simp), take_left, drop_left]

theorem read_length {b : Bytes} {r : Field × Bytes} (h : read b = some r) :
    r.2.length < b.length := by
  obtain ⟨t, ht, h⟩ := bind_eq_some_iff.mp h
  obtain ⟨n, hn, h⟩ := bind_eq_some_iff.mp h
  have h1 := readVarint_length ht
  have h2 := readVarint_length hn
  split_ifs at h
  obtain rfl := some.inj h
  rw [length_drop]
  omega

end Field

/-- The fields of a message; `none` when it does not consist of fields. -/
def readFields (b : Bytes) : Option (List Field) :=
  if b = [] then some []
  else
    match _h : Field.read b with
    | none => none
    | some r => (readFields r.2).map (r.1 :: ·)
termination_by b.length
decreasing_by exact Field.read_length ‹_›

theorem readFields_flatMap (fs : List Field) : readFields (fs.flatMap Field.bytes) = some fs := by
  induction fs with
  | nil => rw [flatMap_nil, readFields, if_pos rfl]
  | cons f fs ih =>
    have hread := f.read_bytes (fs.flatMap Field.bytes)
    rw [flatMap_cons, readFields, if_neg]
    · split
      · rename_i hnone
        rw [hread] at hnone
        cases hnone
      · rename_i r hr
        rw [hread] at hr
        obtain rfl := some.inj hr
        rw [ih]
        rfl
    · intro hnil
      rw [hnil] at hread
      cases hread

end Magisk.Protobuf
