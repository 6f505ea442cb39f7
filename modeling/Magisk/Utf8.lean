import Magisk.Bytes

namespace Magisk

theorem fromUtf8_eq_some_iff {b : Bytes} {t : Str} : fromUtf8 b = some t ↔ asBytes t = b :=
  ⟨asBytes_of_fromUtf8, fun h => h ▸ fromUtf8_asBytes t⟩

def isUtf8 (b : Bytes) : Bool := (fromUtf8 b).isSome

@[simp] theorem isUtf8_asBytes (s : Str) : isUtf8 (asBytes s) := by
  rw [isUtf8, fromUtf8_asBytes]
  rfl

theorem exists_of_asBytes_append {u s : Str} {b : Bytes} (h : asBytes u ++ b = asBytes s) :
    ∃ v, s = u ++ v ∧ asBytes v = b := by
  have hbytes : u.utf8Encode ++ b.toByteArray = s.utf8Encode := by
    apply ByteArray.ext
    apply Array.toList_inj.mp
    simpa [List.utf8Encode, asBytes] using h
  obtain ⟨v, rfl⟩ := List.isPrefix_of_utf8Encode_append_eq_utf8Encode _ hbytes
  rw [asBytes_append] at h
  exact ⟨v, rfl, (List.append_cancel_left h).symm⟩

theorem fromUtf8_append (s : Str) (b : Bytes) :
    fromUtf8 (asBytes s ++ b) = (fromUtf8 b).map (s ++ ·) := by
  ext t
  rw [Option.map_eq_some_iff]
  simp only [fromUtf8_eq_some_iff]
  constructor
  · intro ht
    obtain ⟨v, rfl, hv⟩ := exists_of_asBytes_append ht.symm
    exact ⟨v, hv, rfl⟩
  · rintro ⟨u, hu, rfl⟩
    rw [asBytes_append, hu]

theorem asBytes_eq_nil_iff {s : Str} : asBytes s = [] ↔ s = [] := by
  constructor
  · intro h
    exact asBytes_injective h
  · rintro rfl
    rfl

/-- The first bytes of a text are text exactly if they are those of its first characters. -/
theorem isSome_fromUtf8_iff {s : Str} {b c : Bytes} (h : b ++ c = asBytes s) :
    (fromUtf8 b).isSome ↔ ∃ k, b = asBytes (s.take k) := by
  rw [Option.isSome_iff_exists]
  constructor
  · rintro ⟨u, hu⟩
    rw [fromUtf8_eq_some_iff] at hu
    rw [← hu] at h
    obtain ⟨v, rfl, -⟩ := exists_of_asBytes_append h
    exact ⟨u.length, by rw [List.take_left, hu]⟩
  · rintro ⟨k, rfl⟩
    exact ⟨_, fromUtf8_asBytes _⟩

end Magisk
