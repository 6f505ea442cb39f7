import Magisk.Boot.Parse

namespace Magisk.Boot

open List

/-- Where the first run does not stop, the second one has the same result. -/
def Extends {α : Type} (x y : Except Stop α) : Prop := ∀ v, x = .ok v → y = .ok v

namespace Extends

variable {α β : Type} {x y : Except Stop α} {f g : α → Except Stop β}

theorem refl (x : Except Stop α) : Extends x x := fun _ h => h

theorem bind (h : Extends x y) (hf : ∀ v, Extends (f v) (g v)) : Extends (x >>= f) (y >>= g) := by
  intro w hw
  obtain ⟨v, hv, hw⟩ := bind_eq_ok.mp hw
  exact bind_eq_ok.mpr ⟨v, h v hv, hf v w hw⟩

theorem map (h : Extends x y) (f : α → β) : Extends (x.map f) (y.map f) := by
  intro w hw
  obtain ⟨v, hv, rfl⟩ := map_eq_ok.mp hw
  exact map_eq_ok.mpr ⟨v, h v hv, rfl⟩

theorem ite {c : Prop} [Decidable c] {x' y' : Except Stop α} (h : Extends x y)
    (h' : Extends x' y') : Extends (if c then x else x') (if c then y else y') := by
  split_ifs
  · exact h
  · exact h'

end Extends

variable {mem part : Bytes} {addr : ℕ} (ha : At mem addr part)

include ha

theorem view_within (i n : ℕ) : view part i n <+: view mem (addr + i) n := by
  have hview : part = view mem addr part.length := ha.view_eq.symm
  have hstart : part <+: mem.drop addr := by
    rw [hview]
    exact take_prefix _ _
  have hdrop : part.drop i <+: mem.drop (addr + i) := by
    rw [← drop_drop]
    exact hstart.drop i
  exact hdrop.take n

theorem read_within (i n : ℕ) : Extends (read part i n) (read mem (addr + i) n) := by
  intro b hb
  obtain ⟨hl, hat⟩ := read_eq_ok.mp hb
  exact read_eq_ok.mpr ⟨hl, ha.sub hat⟩

theorem read32_within (i : ℕ) : Extends (read32 part i) (read32 mem (addr + i)) :=
  (read_within ha i 4).map _

theorem readBe_within (n i : ℕ) : Extends (readBe n part i) (readBe n mem (addr + i)) :=
  (read_within ha i n).map _

theorem bufferMatch_within (i : ℕ) (magic : Bytes) :
    Extends (bufferMatch part i magic) (bufferMatch mem (addr + i) magic) := by
  intro c hc
  have hpre := view_within ha i magic.length
  unfold bufferMatch at hc ⊢
  split_ifs at hc with he hstart
  · have hat : At mem (addr + i) magic := ha.sub (view_eq_iff.mp he)
    rw [if_pos hat.view_eq]
    exact hc
  · -- the bytes of the part differ from the magic before they end
    have hno : ¬ (view mem (addr + i) magic.length).isPrefixOf magic := by
      intro h
      have hwhole := isPrefixOf_iff_prefix.mp h
      apply hstart
      exact isPrefixOf_iff_prefix.mpr (hpre.trans hwhole)
    have hne : view mem (addr + i) magic.length ≠ magic := by
      intro h
      apply hstart
      rw [h] at hpre
      exact isPrefixOf_iff_prefix.mpr hpre
    rw [if_neg hne, if_neg hno]
    exact hc

theorem checkedMatch_within (i len : ℕ) (l : List (Bytes × FileFormat)) :
    Extends (checkedMatch part i len l) (checkedMatch mem (addr + i) len l) := by
  induction l with
  | nil => exact .refl _
  | cons p l ih =>
    refine .ite ?_ ih
    refine (bufferMatch_within ha i p.1).bind fun c => ?_
    exact .ite (.refl _) ih

theorem guessLzma_within (i len : ℕ) :
    Extends (guessLzma part i len) (guessLzma mem (addr + i) len) := by
  refine .ite (.refl _) ?_
  refine (bufferMatch_within ha i _).bind fun c => .ite ?_ (.refl _)
  rw [add_assoc, add_assoc]
  refine (read32_within ha _).bind fun dict => .ite (.refl _) ?_
  exact bufferMatch_within ha _ _

theorem checkFmt_within (i len : ℕ) :
    Extends (checkFmt part i len) (checkFmt mem (addr + i) len) := by
  refine (checkedMatch_within ha i len _).bind fun f => ?_
  cases f with
  | some f => exact .refl _
  | none =>
    refine (guessLzma_within ha i len).bind fun c => .ite (.refl _) ?_
    refine (checkedMatch_within ha i len _).bind fun f => ?_
    cases f with
    | some f => exact .refl _
    | none =>
      refine .ite ?_ (.refl _)
      rw [add_assoc]
      exact (bufferMatch_within ha _ _).bind fun c => .refl _

theorem isLz4Lg_within (i sz fuel off : ℕ) :
    Extends (isLz4Lg part i sz fuel off) (isLz4Lg mem (addr + i) sz fuel off) := by
  induction fuel generalizing off with
  | zero => exact .refl _
  | succ fuel ih =>
    refine .ite ?_ (.refl _)
    rw [add_assoc]
    exact (read32_within ha _).bind fun blockSz => .ite (.refl _) (ih _)

theorem checkFmtLg_within (i sz : ℕ) :
    Extends (checkFmtLg part i sz) (checkFmtLg mem (addr + i) sz) := by
  refine (checkFmt_within ha i sz).bind fun fmt => .ite ?_ (.refl _)
  exact (isLz4Lg_within ha i sz _ _).bind fun c => .refl _

theorem findDtb_within (i sz fuel curr : ℕ) :
    Extends (findDtb part i sz fuel curr) (findDtb mem (addr + i) sz fuel curr) := by
  induction fuel generalizing curr with
  | zero => exact .refl _
  | succ fuel ih =>
    unfold findDtb
    refine .ite (.refl _) ?_
    simp only [add_assoc addr i]
    refine (read_within ha _ _).bind fun hay => ?_
    cases find hay dtbMagic with
    | none => exact .refl _
    | some j =>
      refine (readBe_within ha 4 _).bind fun totalsize => .ite (ih _) ?_
      refine (readBe_within ha 4 _).bind fun offDtStruct => .ite (ih _) ?_
      exact (readBe_within ha 4 _).bind fun tag => .ite (ih _) (.refl _)

theorem findPiggy_within (i size n curr : ℕ) :
    Extends (findPiggy part i size n curr) (findPiggy mem (addr + i) size n curr) := by
  induction n generalizing curr with
  | zero => exact .refl _
  | succ n ih =>
    unfold findPiggy
    rw [add_assoc]
    exact (checkFmtLg_within ha _ _).bind fun fmt => .ite (.refl _) (ih _)

end Magisk.Boot
