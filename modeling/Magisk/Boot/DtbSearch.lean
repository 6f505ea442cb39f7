import Magisk.Boot.Format
import Magisk.Search

namespace Magisk.Boot

/-- What `find_dtb_offset` gives, as an `int`. -/
def dtbOffsetInt : Option ℕ → ℤ
  | none => -1
  | some off => if off < 2 ^ 31 then off else off - 2 ^ 32

section

variable (mem : Bytes) (buf sz : ℕ)

/-- The magic of a device tree stands in the buffer. -/
def DtbMagicAt (i : ℕ) : Prop := At (view mem buf sz) i dtbMagic

/-- A device tree: its sizes are not beyond the buffer, and it has the tag of a node at
`off_dt_struct`. -/
def DtbAt (i : ℕ) : Prop :=
  DtbMagicAt mem buf sz i ∧
  ∃ totalsize, readBe 4 mem (buf + (i + 4)) = .ok totalsize ∧ 0x48 < totalsize ∧ totalsize ≤ sz - i ∧
  ∃ offDtStruct, readBe 4 mem (buf + (i + 8)) = .ok offDtStruct ∧ offDtStruct ≤ sz - i ∧
  readBe 4 mem (buf + (i + offDtStruct)) = .ok 1

def checkDtb (curr : ℕ) : Except Stop Bool := do
  let totalsize ← readBe 4 mem (buf + (curr + 4))
  if sz - curr < totalsize ∨ totalsize ≤ 0x48 then return false
  else
    let offDtStruct ← readBe 4 mem (buf + (curr + 8))
    if sz - curr < offDtStruct then return false
    else
      let tag ← readBe 4 mem (buf + (curr + offDtStruct))
      return tag = 1

/-- The fields of the candidate that are read are in memory. -/
def DtbReadable (curr : ℕ) : Prop := ∃ b, checkDtb mem buf sz curr = .ok b

/-- The magics that the search comes to. -/
abbrev DtbVisited : ℕ → ℕ → Prop := Visits (DtbMagicAt mem buf sz) (DtbAt mem buf sz) 40

end

variable {mem : Bytes} {buf sz : ℕ}

theorem DtbMagicAt.lt {i : ℕ} (h : DtbMagicAt mem buf sz i) : i < sz := by
  have hle := At.le_length h (by decide)
  rw [view_length] at hle
  have hlen : dtbMagic.length = 4 := rfl
  omega

theorem DtbAt.lt {i : ℕ} (h : DtbAt mem buf sz i) : i < sz := h.1.lt

theorem checkDtb_eq_true {i : ℕ} (hm : DtbMagicAt mem buf sz i) :
    checkDtb mem buf sz i = .ok true ↔ DtbAt mem buf sz i := by
  unfold checkDtb DtbAt
  simp only [bind_eq_ok, hm, true_and]
  refine exists_congr fun totalsize => and_congr_right fun _ => ?_
  split_ifs with hsize
  · refine iff_of_false nofun ?_
    rintro ⟨hlt, hle, -⟩
    omega
  · simp only [bind_eq_ok]
    constructor
    · rintro ⟨off, hoff, h⟩
      split_ifs at h with hle
      · cases h
      · obtain ⟨tag, htag, h⟩ := bind_eq_ok.mp h
        obtain rfl := of_decide_eq_true (Except.ok.inj h)
        exact ⟨by omega, by omega, off, hoff, by omega, htag⟩
    · rintro ⟨-, -, off, hoff, hle, htag⟩
      refine ⟨off, hoff, ?_⟩
      rw [if_neg (by omega), htag]
      rfl

section

variable {fuel curr i : ℕ} (h : buf + sz ≤ mem.length)

include h

theorem find_hay_eq (hlt : curr < sz) :
    read mem (buf + curr) (sz - curr) = .ok ((view mem buf sz).drop curr) := by
  rw [read_of_le (by omega), view, view, List.drop_take, List.drop_drop]

theorem findDtb_of_isLeast (hi : IsLeast {j | curr ≤ j ∧ DtbMagicAt mem buf sz j} i) :
    findDtb mem buf sz (fuel + 1) curr = checkDtb mem buf sz i >>= fun ok =>
      if ok then .ok (some i) else findDtb mem buf sz fuel (i + 40) := by
  have hlt := hi.1.2.lt
  have hle : curr ≤ i := hi.1.1
  have hfind : find ((view mem buf sz).drop curr) dtbMagic = some (i - curr) := by
    rw [find_drop_eq_some_iff, Nat.add_sub_cancel' hle]
    exact hi
  rw [findDtb, if_neg (by omega), find_hay_eq h (by omega)]
  simp only [bind, Except.bind, hfind, Nat.add_sub_cancel' hle, checkDtb]
  cases readBe 4 mem (buf + (i + 4)) with
  | error e => rfl
  | ok totalsize =>
    dsimp only
    split_ifs
    · rfl
    · cases readBe 4 mem (buf + (i + 8)) with
      | error e => rfl
      | ok off =>
        dsimp only
        split_ifs
        · rfl
        · cases readBe 4 mem (buf + (i + off)) with
          | error e => rfl
          | ok tag =>
            by_cases ht : tag = 1
            · simp [ht, pure, Except.pure]
            · simp [ht, pure, Except.pure]

theorem findDtb_of_not_magic (hn : ∀ j, curr ≤ j → ¬ DtbMagicAt mem buf sz j) :
    findDtb mem buf sz fuel curr = .ok none := by
  cases fuel with
  | zero => rfl
  | succ fuel =>
    rw [findDtb]
    split_ifs with hlt
    · rfl
    · rw [find_hay_eq h (by omega)]
      simp only [bind, Except.bind, find_drop_eq_none_iff.mpr hn]
      rfl

theorem findDtb_eq_ok_iff_of_not_magic (hn : ∀ j, curr ≤ j → ¬ DtbMagicAt mem buf sz j)
    {r : Option ℕ} :
    findDtb mem buf sz fuel curr = .ok r ↔
      (∀ c, DtbVisited mem buf sz curr c → DtbReadable mem buf sz c) ∧
      ∀ c, r = some c ↔ DtbVisited mem buf sz curr c ∧ DtbAt mem buf sz c := by
  have hnone : ∀ c, ¬ DtbVisited mem buf sz curr c := fun c hc => hn c hc.le hc.cand_of
  rw [findDtb_of_not_magic h hn]
  constructor
  · rintro ⟨⟩
    exact ⟨fun c hc => absurd hc (hnone c), fun c => iff_of_false nofun fun hc => hnone c hc.1⟩
  · rintro ⟨-, hr⟩
    cases r with
    | none => rfl
    | some c => exact absurd ((hr c).mp rfl).1 (hnone c)

/-- The search ends well if every magic it comes to can be read, with the one that is a device
tree. -/
theorem findDtb_eq_ok_iff (hfuel : sz ≤ curr + fuel) {r : Option ℕ} :
    findDtb mem buf sz fuel curr = .ok r ↔
      (∀ c, DtbVisited mem buf sz curr c → DtbReadable mem buf sz c) ∧
      ∀ c, r = some c ↔ DtbVisited mem buf sz curr c ∧ DtbAt mem buf sz c := by
  induction fuel generalizing curr with
  | zero =>
    apply findDtb_eq_ok_iff_of_not_magic h
    intro j hle hj
    have := hj.lt
    omega
  | succ fuel ih =>
    by_cases hex : ∃ j, curr ≤ j ∧ DtbMagicAt mem buf sz j
    swap
    · exact findDtb_eq_ok_iff_of_not_magic h fun j hle hj => hex ⟨j, hle, hj⟩
    obtain ⟨i, hi⟩ : ∃ i, IsLeast {j | curr ≤ j ∧ DtbMagicAt mem buf sz j} i :=
      ⟨_, isLeast_csInf hex⟩
    have hle : curr ≤ i := hi.1.1
    have hdtb := checkDtb_eq_true hi.1.2
    simp only [findDtb_of_isLeast h hi, DtbVisited, Visits.iff_of_isLeast hi]
    cases hcheck : checkDtb mem buf sz i with
    | error e =>
      refine iff_of_false nofun fun hr => ?_
      obtain ⟨b, hb⟩ := hr.1 i (.inl rfl)
      cases hcheck.symm.trans hb
    | ok b =>
      have hread : DtbReadable mem buf sz i := ⟨b, hcheck⟩
      cases b with
      | true =>
        have hv := hdtb.mp hcheck
        constructor
        · rintro ⟨⟩
          refine ⟨?_, fun c => ?_⟩
          · rintro c (rfl | ⟨hnv, -⟩)
            · exact hread
            · exact absurd hv hnv
          · constructor
            · intro he
              obtain rfl := Option.some.inj he
              exact ⟨.inl rfl, hv⟩
            · rintro ⟨rfl | ⟨hnv, -⟩, -⟩
              · rfl
              · exact absurd hv hnv
        · rintro ⟨-, hr⟩
          rw [(hr i).mpr ⟨.inl rfl, hv⟩]
          rfl
      | false =>
        have hnv : ¬ DtbAt mem buf sz i := by
          rw [← hdtb, hcheck]
          nofun
        have hrest : ∀ c, (c = i ∨ ¬ DtbAt mem buf sz i ∧ DtbVisited mem buf sz (i + 40) c) ∧
            DtbAt mem buf sz c ↔ DtbVisited mem buf sz (i + 40) c ∧ DtbAt mem buf sz c := by
          intro c
          refine and_congr_left fun hc => ⟨?_, fun hvis => .inr ⟨hnv, hvis⟩⟩
          rintro (rfl | ⟨-, hvis⟩)
          · exact absurd hc hnv
          · exact hvis
        refine (ih (by omega)).trans (and_congr ?_ (forall_congr' fun c => by rw [hrest c]))
        constructor
        · rintro hr c (rfl | ⟨-, hvis⟩)
          · exact hread
          · exact hr c hvis
        · intro hr c hvis
          exact hr c (.inr ⟨hnv, hvis⟩)

end

theorem dtbOffsetInt_some_eq {off i : ℕ} (h : off < 2 ^ 32) (hi : dtbOffsetInt (some off) = i) :
    off = i ∧ off < 2 ^ 31 := by
  rw [dtbOffsetInt] at hi
  split_ifs at hi with hlt
  · exact ⟨by omega, hlt⟩
  · omega

/-- The result is the least device tree exactly if all magics that the search comes to can be read,
no device tree is passed over in the 40 bytes behind one of them, and the offset is an `int`. -/
theorem findDtbOffset_isLeast_iff (h : buf + sz ≤ mem.length) (hsz : sz < 2 ^ 32) :
    (∃ v, (findDtbOffset mem buf sz).map dtbOffsetInt = .ok v ∧
      (v = -1 ↔ ∀ i, ¬ DtbAt mem buf sz i) ∧
      ∀ i : ℕ, IsLeast {j | DtbAt mem buf sz j} i → v = i) ↔
    (∀ c, DtbVisited mem buf sz 0 c → DtbReadable mem buf sz c) ∧
    (∀ c i, DtbVisited mem buf sz 0 c → ¬ DtbAt mem buf sz c → DtbAt mem buf sz i → c < i →
      c + 40 ≤ i) ∧
    ∀ i, IsLeast {j | DtbAt mem buf sz j} i → i < 2 ^ 31 := by
  have hspec {r : Option ℕ} := findDtb_eq_ok_iff h (le_of_eq (zero_add sz).symm) (r := r)
  constructor
  · rintro ⟨v, hv, hnone, hleast⟩
    obtain ⟨r, hr, rfl⟩ := map_eq_ok.mp hv
    obtain ⟨hread, hsome⟩ := hspec.mp hr
    refine ⟨hread, ?_⟩
    cases r with
    | none =>
      have hno := hnone.mp rfl
      exact ⟨fun c i _ _ hi => absurd hi (hno i), fun i hi => absurd hi.1 (hno i)⟩
    | some c =>
      obtain ⟨hvis, hc⟩ := (hsome c).mp rfl
      have hl := isLeast_csInf (s := {j | DtbAt mem buf sz j}) ⟨c, hc⟩
      obtain ⟨hcl, hint⟩ := dtbOffsetInt_some_eq (lt_trans hc.lt hsz) (hleast _ hl)
      rw [← hcl] at hl
      refine ⟨fun c' i hvis' hc' hi _ => ?_, fun i hi => by rwa [hi.unique hl]⟩
      exact le_trans (hvis'.add_le hvis hc' hc) (hl.2 hi)
  · rintro ⟨hread, hskip, hint⟩
    have hcand : ∀ i, DtbAt mem buf sz i → DtbMagicAt mem buf sz i := fun i hi => hi.1
    by_cases hex : ∃ c, DtbVisited mem buf sz 0 c ∧ DtbAt mem buf sz c
    · obtain ⟨c, hvis, hc⟩ := hex
      have hl := Visits.isLeast (by norm_num) hcand hskip hvis hc
      have hr : findDtb mem buf sz sz 0 = .ok (some c) := by
        refine hspec.mpr ⟨hread, fun c' => ⟨?_, ?_⟩⟩
        · rintro ⟨⟩
          exact ⟨hvis, hc⟩
        · rintro ⟨hvis', hc'⟩
          rw [hvis.valid_unique hvis' hc hc']
      have hv : dtbOffsetInt (some c) = c := if_pos (hint c hl)
      refine ⟨c, ?_, ?_, fun i hi => by rw [hi.unique hl]⟩
      · rw [findDtbOffset, hr, Except.map, hv]
      · exact iff_of_false (by omega) fun hno => hno c hc
    · have hr : findDtb mem buf sz sz 0 = .ok none :=
        hspec.mpr ⟨hread, fun c => iff_of_false nofun fun hc => hex ⟨c, hc⟩⟩
      have hno : ∀ i, ¬ DtbAt mem buf sz i := by
        intro i hi
        rcases Visits.exists_of_valid (d := 40) (by norm_num) hcand hi (Nat.zero_le i) with
          ⟨c, -, hc⟩ | ⟨c, hvis, hc, hlt⟩
        · exact hex ⟨c, hc⟩
        · have := hskip c i hvis hc hi hlt.1
          omega
      refine ⟨-1, ?_, iff_of_true rfl hno, fun i hi => absurd hi.1 (hno i)⟩
      rw [findDtbOffset, hr]
      rfl

def smallDtb : Bytes :=
  dtbMagic ++ ([0, 0, 0, 73] ++ ([0, 0, 0, 40] ++ (zeros 28 ++ ([0, 0, 0, 1] ++ zeros 29))))

theorem findDtbOffset_smallDtb : ∃ v, (findDtbOffset smallDtb 0 73).map dtbOffsetInt = .ok v ∧
    (v = -1 ↔ ∀ i, ¬ DtbAt smallDtb 0 73 i) ∧
    ∀ i : ℕ, IsLeast {j | DtbAt smallDtb 0 73 j} i → v = i := by
  have hm : DtbMagicAt smallDtb 0 73 0 := view_eq_iff.mp (by decide)
  have hv : DtbAt smallDtb 0 73 0 := (checkDtb_eq_true hm).mp (by decide)
  have hvis : ∀ c, DtbVisited smallDtb 0 73 0 c → c = 0 := by
    intro c hc
    have hfirst := (Visits.iff_of_isLeast ⟨⟨le_rfl, hm⟩, fun j _ => Nat.zero_le j⟩).mp hc
    exact hfirst.resolve_right fun hn => hn.1 hv
  refine (findDtbOffset_isLeast_iff (by decide) (by decide)).mpr ⟨?_, ?_, ?_⟩
  · intro c hc
    exact ⟨true, (hvis c hc).symm ▸ (checkDtb_eq_true hm).mpr hv⟩
  · intro c i hc hnv
    exact absurd ((hvis c hc).symm ▸ hv) hnv
  · intro i hi
    exact lt_of_le_of_lt (hi.2 hv) (by norm_num)

/-- A magic four bytes before the device tree hides it. -/
theorem findDtbOffset_magic_smallDtb :
    (findDtbOffset (dtbMagic ++ smallDtb) 0 77).map dtbOffsetInt = .ok (-1) ∧
      DtbAt (dtbMagic ++ smallDtb) 0 77 4 :=
  ⟨by decide, (checkDtb_eq_true (view_eq_iff.mp (by decide))).mp (by decide)⟩

end Magisk.Boot
