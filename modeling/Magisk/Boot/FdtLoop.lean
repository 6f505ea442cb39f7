import Magisk.Boot.Dtb
import Magisk.Loops
import Magisk.Search

namespace Magisk.Boot

open Option

/-- The tree that the loop finds from `pos` on: where it starts, and its size. -/
def fdtFrom (fdt : FdtReader) (file : Bytes) (pos : ℕ) : Option (ℕ × ℕ) :=
  (find (file.drop pos) dtbMagic).bind fun i =>
    if file.length < pos + i + 40 then none
    else (fdt.new (file.drop (pos + i))).toOption.map fun size => (pos + i, size)

theorem fdtFrom_eq_some_iff {fdt : FdtReader} {file : Bytes} {pos start size : ℕ} :
    fdtFrom fdt file pos = some (start, size) ↔
      IsLeast {j | pos ≤ j ∧ At file j dtbMagic} start ∧ start + 40 ≤ file.length ∧
        fdt.new (file.drop start) = .ok size := by
  rw [fdtFrom, bind_eq_some_iff]
  constructor
  · rintro ⟨i, hi, h⟩
    split_ifs at h with h40
    obtain ⟨n, hn, he⟩ := map_eq_some_iff.mp h
    obtain ⟨rfl, rfl⟩ := Prod.mk.inj he
    refine ⟨find_drop_eq_some_iff.mp hi, by omega, ?_⟩
    cases hnew : fdt.new (file.drop (pos + i)) with
    | error e => rw [hnew] at hn; cases hn
    | ok n' => rw [hnew] at hn; cases hn; rfl
  · rintro ⟨hleast, h40, hnew⟩
    obtain ⟨i, rfl⟩ := Nat.exists_eq_add_of_le hleast.1.1
    refine ⟨i, find_drop_eq_some_iff.mpr hleast, ?_⟩
    rw [if_neg (by omega), hnew]
    rfl

theorem fdtFrom_start {fdt : FdtReader} {file : Bytes} {pos start size : ℕ}
    (h : fdtFrom fdt file pos = some (start, size)) :
    fdtFrom fdt file start = some (start, size) := by
  obtain ⟨hleast, hnew⟩ := fdtFrom_eq_some_iff.mp h
  exact fdtFrom_eq_some_iff.mpr ⟨⟨⟨le_rfl, hleast.1.2⟩, fun j hj => hj.1⟩, hnew⟩

/-- Where the loop is: the number of the next tree, where the rest of the file starts, and the file
with the data of the closure. -/
structure FdtRound (σ : Type) where
  dtbNum : ℕ
  pos : ℕ
  s : Bytes × σ

def FdtRound.left {σ : Type} (t : FdtRound σ) : ℕ := t.s.1.length - t.pos

section Rounds

variable {σ : Type} (fdt : FdtReader) (f : ℕ → ℕ → Bytes × σ → Except DtbFault (Bytes × σ))

/-- A closure that returns, with a file of the same length. -/
def ReturnsOk : Prop := ∀ n pos s, ∃ s', f n pos s = .ok s' ∧ s'.1.length = s.1.length

/-- A round of the loop that calls the closure and goes on. -/
def nextFdt (t : FdtRound σ) : Option (FdtRound σ) :=
  (fdtFrom fdt t.s.1 t.pos).bind fun r =>
    if t.s.1.length < r.1 + r.2 then none
    else (f t.dtbNum r.1 t.s).toOption.map fun s => ⟨t.dtbNum + 1, r.1 + r.2, s⟩

/-- The loop is at `t` after some rounds. -/
def ComesTo (s : Bytes × σ) (t : FdtRound σ) : Prop := ∃ n, walk (nextFdt fdt f) n ⟨0, 0, s⟩ = some t

/-- The loop ends, and every round makes the rest shorter. -/
structure Shortens (s : Bytes × σ) : Prop where
  ends : ∃ fuel, forEachFdt fdt f fuel 0 0 s ≠ .error .hang
  left_lt : ∀ t t', ComesTo fdt f s t → nextFdt fdt f t = some t' → t'.left < t.left

/-- No header that the loop comes to has total size zero. -/
def Sized (s : Bytes × σ) : Prop :=
  ∀ t start size, ComesTo fdt f s t → fdtFrom fdt t.s.1 t.pos = some (start, size) →
    totalSize (t.s.1.drop start) ≠ 0

variable {fdt f} {t t' : FdtRound σ}

theorem nextFdt_eq_some_iff : nextFdt fdt f t = some t' ↔ ∃ start size s,
    fdtFrom fdt t.s.1 t.pos = some (start, size) ∧ start + size ≤ t.s.1.length ∧
      f t.dtbNum start t.s = .ok s ∧ t' = ⟨t.dtbNum + 1, start + size, s⟩ := by
  rw [nextFdt, bind_eq_some_iff]
  constructor
  · rintro ⟨⟨start, size⟩, hfrom, h⟩
    split_ifs at h with hle
    obtain ⟨s, hs, rfl⟩ := map_eq_some_iff.mp h
    refine ⟨start, size, s, hfrom, Nat.not_lt.mp hle, ?_, rfl⟩
    dsimp only at hs
    cases hf : f t.dtbNum start t.s with
    | error e => rw [hf] at hs; cases hs
    | ok s' => rw [hf] at hs; cases hs; rfl
  · rintro ⟨start, size, s, hfrom, hle, hf, rfl⟩
    refine ⟨(start, size), hfrom, ?_⟩
    dsimp only
    rw [if_neg (Nat.not_lt.mpr hle), hf]
    rfl

theorem forEachFdt_succ (fuel : ℕ) (t : FdtRound σ) (hf : ReturnsOk f) :
    (nextFdt fdt f t = none ∧ forEachFdt fdt f (fuel + 1) t.dtbNum t.pos t.s ≠ .error .hang) ∨
      ∃ t', nextFdt fdt f t = some t' ∧ forEachFdt fdt f (fuel + 1) t.dtbNum t.pos t.s =
        forEachFdt fdt f fuel t'.dtbNum t'.pos t'.s := by
  rw [forEachFdt]
  cases hfind : find (t.s.1.drop t.pos) dtbMagic with
  | none =>
    refine .inl ⟨by rw [nextFdt, fdtFrom, hfind]; rfl, ?_⟩
    simp
  | some i =>
    have hlen : (t.s.1.drop (t.pos + i)).length = t.s.1.length - (t.pos + i) := List.length_drop
    dsimp only
    by_cases h40 : (t.s.1.drop (t.pos + i)).length < 40
    · refine .inl ⟨?_, by rw [if_pos h40]; simp⟩
      rw [nextFdt, fdtFrom, hfind, bind_some, if_pos (by omega), bind_none]
    rw [if_neg h40]
    have hfrom : fdtFrom fdt t.s.1 t.pos =
        (fdt.new (t.s.1.drop (t.pos + i))).toOption.map fun size => (t.pos + i, size) := by
      rw [fdtFrom, hfind, bind_some, if_neg (by omega)]
    cases hnew : fdt.new (t.s.1.drop (t.pos + i)) with
    | error e =>
      refine .inl ⟨by rw [nextFdt, hfrom, hnew]; rfl, ?_⟩
      cases e <;> simp
    | ok size =>
      rw [hnew] at hfrom
      obtain ⟨s', hs', -⟩ := hf t.dtbNum (t.pos + i) t.s
      rw [hs']
      by_cases hsize : (t.s.1.drop (t.pos + i)).length < size
      · refine .inl ⟨?_, ?_⟩
        · rw [nextFdt, hfrom]
          exact if_pos (show t.s.1.length < t.pos + i + size by omega)
        · show (if _ then _ else _) ≠ _
          rw [if_pos hsize]
          simp
      · refine .inr ⟨⟨t.dtbNum + 1, t.pos + i + size, s'⟩,
          nextFdt_eq_some_iff.mpr ⟨_, _, s', hfrom, by omega, hs', rfl⟩, ?_⟩
        exact if_neg hsize

theorem forEachFdt_eq_hang_iff (hf : ReturnsOk f) (fuel : ℕ) (t : FdtRound σ) :
    forEachFdt fdt f fuel t.dtbNum t.pos t.s = .error .hang ↔
      walk (nextFdt fdt f) fuel t ≠ none := by
  induction fuel generalizing t with
  | zero => exact iff_of_true rfl (some_ne_none t)
  | succ fuel ih =>
    rcases forEachFdt_succ fuel t hf with ⟨hnext, hne⟩ | ⟨t', hnext, he⟩
    · rw [walk, hnext, bind_none]
      exact iff_of_false hne (not_not_intro rfl)
    · rw [walk, hnext, bind_some, he, ih]

theorem ends_iff (hf : ReturnsOk f) (s : Bytes × σ) :
    (∃ fuel, forEachFdt fdt f fuel 0 0 s ≠ .error .hang) ↔
      ∃ fuel, walk (nextFdt fdt f) fuel ⟨0, 0, s⟩ = none :=
  exists_congr fun fuel => (not_congr (forEachFdt_eq_hang_iff hf fuel ⟨0, 0, s⟩)).trans not_not

theorem left_lt_of_nextFdt (hf : ReturnsOk f) (h : nextFdt fdt f t = some t')
    (hsize : ∀ start size, fdtFrom fdt t.s.1 t.pos = some (start, size) →
      totalSize (t.s.1.drop start) ≠ 0) : t'.left < t.left := by
  obtain ⟨start, size, s, hfrom, hle, hs, rfl⟩ := nextFdt_eq_some_iff.mp h
  obtain ⟨s', hs', hlen⟩ := hf t.dtbNum start t.s
  obtain rfl := Except.ok.inj (hs.symm.trans hs')
  obtain ⟨hleast, h40, hnew⟩ := fdtFrom_eq_some_iff.mp hfrom
  have hpos : t.pos ≤ start := hleast.1.1
  have hne := hsize start size hfrom
  rw [← fdt.size_eq _ _ hnew] at hne
  unfold FdtRound.left
  dsimp only
  omega

/-- If no header that the loop comes to has total size zero, the loop ends and every round makes the
rest shorter. For a closure that does not write to the file this is also necessary. -/
theorem forEachFdt_shortens_iff (fdt : FdtReader) (hf : ReturnsOk f) (s : Bytes × σ) :
    (Sized fdt f s → Shortens fdt f s) ∧
    ((∀ n pos s s', f n pos s = .ok s' → s'.1 = s.1) → (Shortens fdt f s ↔ Sized fdt f s)) := by
  have hshort (hsize : Sized fdt f s) : Shortens fdt f s := by
    have hlt : ∀ t t', ComesTo fdt f s t → nextFdt fdt f t = some t' → t'.left < t.left :=
      fun t t' ht h => left_lt_of_nextFdt hf h fun start size => hsize t start size ht
    refine ⟨(ends_iff hf s).mpr ?_, hlt⟩
    exact walk_ends_of_lt fun n t t' ht h => hlt t t' ⟨n, ht⟩ h
  refine ⟨hshort, fun hread => ⟨fun h t start size ht hfrom h0 => ?_, hshort⟩⟩
  obtain ⟨n, hn⟩ := ht
  obtain ⟨hleast, h40, hnew⟩ := fdtFrom_eq_some_iff.mp hfrom
  obtain rfl : size = 0 := (fdt.size_eq _ _ hnew).trans h0
  -- the round leaves the loop at the header, and the next one finds it again
  obtain ⟨s₁, hs₁, -⟩ := hf t.dtbNum start t.s
  have hfile₁ := hread _ _ _ _ hs₁
  have h₁ : nextFdt fdt f t = some ⟨t.dtbNum + 1, start, s₁⟩ :=
    nextFdt_eq_some_iff.mpr ⟨start, 0, s₁, hfrom, by omega, hs₁, rfl⟩
  obtain ⟨s₂, hs₂, hlen₂⟩ := hf (t.dtbNum + 1) start s₁
  have h₂ : nextFdt fdt f ⟨t.dtbNum + 1, start, s₁⟩ = some ⟨t.dtbNum + 1 + 1, start, s₂⟩ := by
    refine nextFdt_eq_some_iff.mpr ⟨start, 0, s₂, ?_, ?_, hs₂, rfl⟩
    · rw [hfile₁]
      exact fdtFrom_start hfrom
    · rw [hfile₁]
      omega
  have hlt := h.left_lt _ _ ⟨n + 1, by rw [walk_add, hn, bind_some, walk_one, h₁]⟩ h₂
  unfold FdtRound.left at hlt
  dsimp only at hlt
  omega

end Rounds

/-- A header with this total size, and nothing else. -/
def bareFdt (size : ℕ) : Bytes := dtbMagic ++ (leBytes 4 size).reverse ++ zeros 32

def readFdt (_ _ : ℕ) (s : Bytes × Unit) : Except DtbFault (Bytes × Unit) := .ok s

theorem returnsOk_readFdt : ReturnsOk readFdt := fun _ _ s => ⟨s, rfl, rfl⟩

theorem forEachFdt_shortens_bareFdt : Shortens fdtReader readFdt (bareFdt 40, ()) := by
  apply (forEachFdt_shortens_iff fdtReader returnsOk_readFdt _).1
  rintro t start size ⟨n, ht⟩ hfrom
  have hfirst : fdtFrom fdtReader (bareFdt 40) 0 = some (0, 40) := by decide
  have hsecond : fdtFrom fdtReader (bareFdt 40) 40 = none := by decide
  have hnext : nextFdt fdtReader readFdt ⟨0, 0, (bareFdt 40, ())⟩ = some ⟨1, 40, (bareFdt 40, ())⟩ :=
    nextFdt_eq_some_iff.mpr ⟨0, 40, _, hfirst, by decide, rfl, rfl⟩
  have hlast : nextFdt fdtReader readFdt ⟨1, 40, (bareFdt 40, ())⟩ = none := by
    rw [nextFdt, hsecond]
    rfl
  match n with
  | 0 =>
    obtain rfl := some.inj ht
    rw [hfirst] at hfrom
    cases hfrom
    decide
  | 1 =>
    rw [walk_one, hnext] at ht
    obtain rfl := some.inj ht
    rw [hsecond] at hfrom
    cases hfrom
  | n + 2 =>
    rw [walk, hnext, bind_some, walk, hlast] at ht
    cases ht

/-- The loop does not end on a file of 40 bytes, a header with size zero. -/
theorem forEachFdt_hangs_bareFdt : ReturnsOk readFdt ∧
    ∀ fuel, forEachFdt fdtReader readFdt fuel 0 0 (bareFdt 0, ()) = .error .hang := by
  refine ⟨returnsOk_readFdt, fun fuel => ?_⟩
  have hfirst : fdtFrom fdtReader (bareFdt 0) 0 = some (0, 0) := by decide
  refine (forEachFdt_eq_hang_iff returnsOk_readFdt fuel ⟨0, 0, (bareFdt 0, ())⟩).mpr ?_
  apply walk_ne_none_of_invariant (P := fun t => t.pos = 0 ∧ t.s = (bareFdt 0, ())) ?_ ⟨rfl, rfl⟩
  rintro ⟨n, pos, s⟩ ⟨rfl, rfl⟩
  exact ⟨⟨n + 1, 0, (bareFdt 0, ())⟩,
    nextFdt_eq_some_iff.mpr ⟨0, 0, _, hfirst, Nat.zero_le _, rfl, rfl⟩, rfl, rfl⟩

end Magisk.Boot
