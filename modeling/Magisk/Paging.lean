import Magisk.Memory

namespace Magisk

open List

def alignTo (n p : ℕ) : ℕ := (n + p - 1) / p * p

def alignPadding (n p : ℕ) : ℕ := alignTo n p - n

section Align

variable {p : ℕ} (hp : 0 < p)

include hp

theorem le_alignTo (n : ℕ) : n ≤ alignTo n p := by
  have h := Nat.div_add_mod (n + p - 1) p
  have hm := Nat.mod_lt (n + p - 1) hp
  rw [mul_comm] at h
  unfold alignTo
  omega

theorem alignTo_lt (n : ℕ) : alignTo n p < n + p := by
  have h := Nat.div_mul_le_self (n + p - 1) p
  unfold alignTo
  omega

theorem alignTo_of_dvd {n : ℕ} (h : p ∣ n) : alignTo n p = n := by
  obtain ⟨k, rfl⟩ := h
  have hk : (p * k + p - 1) / p = k := by
    rw [Nat.add_sub_assoc (by omega), Nat.mul_add_div hp, Nat.div_eq_of_lt (by omega), add_zero]
  rw [alignTo, hk, mul_comm]

theorem alignTo_add_of_dvd {k : ℕ} (h : p ∣ k) (n : ℕ) : alignTo (k + n) p = k + alignTo n p := by
  obtain ⟨k, rfl⟩ := h
  have hn : p * k + n + p - 1 = p * k + (n + p - 1) := by omega
  rw [alignTo, hn, Nat.mul_add_div hp, Nat.add_mul, alignTo, mul_comm k p]

end Align

theorem dvd_alignTo (n p : ℕ) : p ∣ alignTo n p := Dvd.intro_left _ rfl

@[simp] theorem alignTo_zero_left (p : ℕ) : alignTo 0 p = 0 := by
  rcases Nat.eq_zero_or_pos p with rfl | hp
  · rfl
  · exact alignTo_of_dvd hp (dvd_zero p)

def padded (p : ℕ) (b : Bytes) : Bytes := b ++ zeros (alignPadding b.length p)

theorem padded_length {p : ℕ} (hp : 0 < p) (b : Bytes) : (padded p b).length = alignTo b.length p := by
  have h := le_alignTo hp b.length
  simp only [padded, length_append, zeros_length, alignPadding]
  omega

@[simp] theorem padded_nil (p : ℕ) : padded p [] = [] := by
  simp [padded, alignPadding]

section Layout

variable {ι : Type*} (p : ℕ) (len : ι → ℕ)

/-- Where the blocks end when the first one starts at `off`. -/
def endOf : List ι → ℕ → ℕ
  | [], off => off
  | b :: bs, off => endOf bs (off + alignTo (len b) p)

theorem le_endOf (bs : List ι) (off : ℕ) : off ≤ endOf p len bs off := by
  induction bs generalizing off with
  | nil => exact le_rfl
  | cons b bs ih => exact le_trans (Nat.le_add_right _ _) (ih _)

theorem endOf_add (bs : List ι) (k off : ℕ) : endOf p len bs (k + off) = k + endOf p len bs off := by
  induction bs generalizing off with
  | nil => rfl
  | cons b bs ih => rw [endOf, endOf, add_assoc, ih]

variable {p len}

/-- The blocks at their positions come one after the other, from `lo` to `hi`. -/
def InOrder (len pos : ι → ℕ) : List ι → ℕ → ℕ → Prop
  | [], lo, hi => lo ≤ hi
  | b :: bs, lo, hi => lo ≤ pos b ∧ InOrder len pos bs (pos b + len b) hi

variable {bs : List ι} {c : ι}

theorem InOrder.congr {pos pos' : ι → ℕ} {lo hi : ℕ} (h : InOrder len pos bs lo hi)
    (he : ∀ b ∈ bs, pos' b = pos b) : InOrder len pos' bs lo hi := by
  induction bs generalizing lo with
  | nil => exact h
  | cons b bs ih =>
    rw [InOrder, he b mem_cons_self]
    exact ⟨h.1, ih h.2 fun c hc => he c (mem_cons_of_mem b hc)⟩

theorem InOrder.le {pos : ι → ℕ} {lo hi : ℕ} (h : InOrder len pos bs lo hi) : lo ≤ hi := by
  induction bs generalizing lo with
  | nil => exact h
  | cons b bs ih => exact h.1.trans (le_of_add_le_left (ih h.2))

theorem InOrder.between {pos : ι → ℕ} {lo hi : ℕ} (h : InOrder len pos bs lo hi) :
    ∀ b ∈ bs, lo ≤ pos b ∧ pos b + len b ≤ hi := by
  induction bs generalizing lo with
  | nil => simp
  | cons b bs ih =>
    refine forall_mem_cons.mpr ⟨⟨h.1, h.2.le⟩, fun c hc => ?_⟩
    obtain ⟨hlo, hhi⟩ := ih h.2 c hc
    exact ⟨h.1.trans (le_of_add_le_left hlo), hhi⟩

theorem inOrder_const {pos : ι → ℕ} {a lo hi : ℕ} (hpos : ∀ b ∈ bs ++ [c], pos b = a) :
    InOrder len pos (bs ++ [c]) lo hi ↔ lo ≤ a ∧ (∀ b ∈ bs, len b = 0) ∧ a + len c ≤ hi := by
  induction bs generalizing lo with
  | nil => simp [InOrder, hpos]
  | cons b bs ih =>
    have htail : ∀ d ∈ bs ++ [c], pos d = a := fun d hd => hpos d (mem_cons_of_mem b hd)
    rw [cons_append, InOrder, ih htail, hpos b mem_cons_self, forall_mem_cons]
    constructor
    · rintro ⟨hlo, hb, hbs, hc⟩
      exact ⟨hlo, ⟨by omega, hbs⟩, hc⟩
    · rintro ⟨hlo, ⟨hb, hbs⟩, hc⟩
      exact ⟨hlo, by omega, hbs, hc⟩

variable (w : ι → Bytes)

/-- The blocks one after the other. -/
def paged (p : ℕ) (bs : List ι) : Bytes := bs.flatMap fun b => padded p (w b)

theorem paged_cons (p : ℕ) (b : ι) (bs : List ι) :
    paged w p (b :: bs) = padded p (w b) ++ paged w p bs := flatMap_cons

theorem paged_length (hp : 0 < p) (bs : List ι) (off : ℕ) :
    off + (paged w p bs).length = endOf p (fun b => (w b).length) bs off := by
  induction bs generalizing off with
  | nil => rfl
  | cons b bs ih =>
    rw [paged_cons, length_append, padded_length hp, ← add_assoc]
    exact ih _

variable [DecidableEq ι] (p len)

def startOf : List ι → ℕ → ι → ℕ
  | [], off, _ => off
  | b :: bs, off, c => if c = b then off else startOf bs (off + alignTo (len b) p) c

variable {p len}

theorem le_startOf (bs : List ι) (c : ι) (off : ℕ) : off ≤ startOf p len bs off c := by
  induction bs generalizing off with
  | nil => exact le_rfl
  | cons b bs ih =>
    rw [startOf]
    split_ifs
    · exact le_rfl
    · exact le_trans (Nat.le_add_right _ _) (ih _)

theorem startOf_add_le (hc : c ∈ bs) (off : ℕ) :
    startOf p len bs off c + alignTo (len c) p ≤ endOf p len bs off := by
  induction bs generalizing off with
  | nil => cases hc
  | cons b bs ih =>
    rw [startOf, endOf]
    split_ifs with h
    · subst h
      exact le_endOf p len bs _
    · exact ih ((mem_cons.mp hc).resolve_left h) _

theorem startOf_add (bs : List ι) (c : ι) (k off : ℕ) :
    startOf p len bs (k + off) c = k + startOf p len bs off c := by
  induction bs generalizing off with
  | nil => rfl
  | cons b bs ih =>
    rw [startOf, startOf]
    split_ifs
    · rfl
    · rw [add_assoc, ih]

theorem startOf_disjoint {b c : ι} (hb : b ∈ bs) (hc : c ∈ bs) (hne : b ≠ c) (off : ℕ) :
    startOf p len bs off b + alignTo (len b) p ≤ startOf p len bs off c ∨
      startOf p len bs off c + alignTo (len c) p ≤ startOf p len bs off b := by
  induction bs generalizing off with
  | nil => cases hb
  | cons d bs ih =>
    rw [startOf, startOf]
    split_ifs with hbd hcd hcd
    · exact absurd (hbd.trans hcd.symm) hne
    · subst hbd
      exact .inl (le_startOf bs c _)
    · subst hcd
      exact .inr (le_startOf bs b _)
    · exact ih ((mem_cons.mp hb).resolve_left hbd) ((mem_cons.mp hc).resolve_left hcd) _

theorem inOrder_startOf (hp : 0 < p) (hn : bs.Nodup) {k off lo hi : ℕ}
    (hlo : lo ≤ k + off) (hhi : k + endOf p len bs off ≤ hi) :
    InOrder len (fun b => k + startOf p len bs off b) bs lo hi := by
  induction bs generalizing off lo with
  | nil => exact hlo.trans hhi
  | cons b bs ih =>
    obtain ⟨hb, hn⟩ := nodup_cons.mp hn
    have hstart : startOf p len (b :: bs) off b = off := if_pos rfl
    have hround := le_alignTo hp (len b)
    rw [InOrder, hstart]
    refine ⟨hlo, (ih hn (by omega) hhi).congr fun c hc => ?_⟩
    have hne : c ≠ b := fun he => hb (he ▸ hc)
    rw [startOf, if_neg hne]

theorem at_paged (hp : 0 < p) (base post : Bytes) (hc : c ∈ bs) :
    At (base ++ (paged w p bs ++ post)) (startOf p (fun b => (w b).length) bs base.length c)
      (w c) := by
  induction bs generalizing base with
  | nil => cases hc
  | cons b bs ih =>
    rw [startOf, paged_cons]
    split_ifs with h
    · subst h
      rw [padded, append_assoc, append_assoc]
      exact at_append_self _ _ _
    · have := ih (base ++ padded p (w b)) ((mem_cons.mp hc).resolve_left h)
      rwa [length_append, padded_length hp, append_assoc,
        ← append_assoc (padded p (w b))] at this

end Layout

end Magisk
