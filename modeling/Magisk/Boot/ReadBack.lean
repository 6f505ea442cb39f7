import Magisk.Boot.KernelParts
import Magisk.Boot.Within

namespace Magisk.Boot

open List

structure KernelSizes where
  /-- there is an MTK header -/
  mtk : Bool
  zimage : Bool
  zHdr : ℕ
  kernel : ℕ
  zTail : ℕ
  dtb : ℕ
  plain : zimage = false → zHdr = 0 ∧ zTail = 0

namespace KernelSizes

variable (z : KernelSizes)

def start : ℕ := if z.mtk then mtkHdrSize else 0

def front : ℕ := z.start + (z.zHdr + (z.kernel + z.zTail))

def total : ℕ := z.front + z.dtb

/-- Where the device tree of the block at `block` is. -/
def dtbAt (block : ℕ) : ℕ × ℕ := if z.dtb = 0 then (0, 0) else (block + z.front, z.dtb)

end KernelSizes

/-- The first known format of a zImage of `n` bytes is at `hdrSz`, and its table has `fin` as the end
of the piggy. -/
structure ZimageReads (mem : Bytes) (start n hdrSz fin : ℕ) : Prop where
  first : findPiggy mem start n (n - 0x28) 0x28 = .ok (some hdrSz)
  table : ∃ a b offsets, read32 mem (start + 0x28) = .ok a ∧ read32 mem (start + 0x2c) = .ok b ∧
    64 ≤ start + sub32 b a ∧ read mem (start + sub32 b a - 64) 64 = .ok offsets ∧
    piggyEnd offsets (sub32 b a) 16 = some fin
  fmt : ∃ f, checkFmtLg mem (start + hdrSz) (fin - hdrSz) = .ok f

/-- The bytes of a kernel block tell its parts: the first device tree is the one at the end, there is
the magic of an MTK header only before one, and only a zImage looks like one. -/
structure KernelReads (mem : Bytes) (block : ℕ) (z : KernelSizes) : Prop where
  dtb : findDtbOffset mem block z.total = .ok (if z.dtb = 0 then none else some z.front)
  front_pos : z.dtb ≠ 0 → 0 < z.front
  mtk : ∃ f, checkFmtLg mem block z.front = .ok f ∧ (f = .mtk ↔ z.mtk)
  fmt : ∃ f, checkFmtLg mem (block + z.start) (z.front - z.start) = .ok f ∧
    (f = .zimage ↔ z.zimage)
  zimage : z.zimage →
    ZimageReads mem (block + z.start) (z.front - z.start) z.zHdr (z.zHdr + z.kernel)

/-- The bytes of a ramdisk block of `len` bytes behind its MTK header tell if there is one. -/
structure RamdiskReads (mem : Bytes) (block : ℕ) (mtk : Bool) (len : ℕ) : Prop where
  whole : ∃ f, checkFmtLg mem block ((if mtk then mtkHdrSize else 0) + len) = .ok f ∧
    (f = .mtk ↔ mtk)
  fmt : mtk → ∃ f, checkFmtLg mem (block + mtkHdrSize) len = .ok f

section Within

variable {mem part : Bytes} {addr i : ℕ}

theorem ZimageReads.within (ha : At mem addr part) {n hdrSz fin : ℕ}
    (h : ZimageReads part i n hdrSz fin) : ZimageReads mem (addr + i) n hdrSz fin := by
  obtain ⟨a, b, offsets, hstart, hend, h64, hread, hpiggy⟩ := h.table
  refine ⟨findPiggy_within ha _ _ _ _ _ h.first, ⟨a, b, offsets, ?_, ?_, by omega, ?_, hpiggy⟩, ?_⟩
  · rw [add_assoc]
    exact read32_within ha _ _ hstart
  · rw [add_assoc]
    exact read32_within ha _ _ hend
  · have he : addr + i + sub32 b a - 64 = addr + (i + sub32 b a - 64) := by omega
    rw [he]
    exact read_within ha _ _ _ hread
  · obtain ⟨f, hf⟩ := h.fmt
    rw [add_assoc]
    exact ⟨f, checkFmtLg_within ha _ _ _ hf⟩

theorem KernelReads.within (ha : At mem addr part) {z : KernelSizes} (h : KernelReads part 0 z) :
    KernelReads mem addr z := by
  obtain ⟨f, hf, hmtk⟩ := h.mtk
  obtain ⟨f', hf', hz⟩ := h.fmt
  rw [zero_add] at hf'
  refine ⟨findDtb_within ha _ _ _ _ _ h.dtb, h.front_pos, ⟨f, checkFmtLg_within ha _ _ _ hf, hmtk⟩,
    ⟨f', checkFmtLg_within ha _ _ _ hf', hz⟩, fun hzimage => ?_⟩
  have hreads := h.zimage hzimage
  rw [zero_add] at hreads
  exact hreads.within ha

theorem RamdiskReads.within (ha : At mem addr part) {mtk : Bool} {len : ℕ}
    (h : RamdiskReads part 0 mtk len) : RamdiskReads mem addr mtk len := by
  obtain ⟨f, hf, hmtk⟩ := h.whole
  refine ⟨⟨f, checkFmtLg_within ha _ _ _ hf, hmtk⟩, fun hm => ?_⟩
  obtain ⟨f', hf'⟩ := h.fmt hm
  rw [zero_add] at hf'
  exact ⟨f', checkFmtLg_within ha _ _ _ hf'⟩

end Within

section Parse

variable {mem : Bytes} {block : ℕ}

theorem ok_bind {α β : Type} (a : α) (f : α → Except Stop β) : (Except.ok a >>= f) = f a := rfl

theorem parseZimage_of_reads {k : KernelInfo} {hdrSz fin : ℕ}
    (h : ZimageReads mem k.kernel k.size hdrSz fin) (hle : hdrSz ≤ fin) (hlt : fin < 2 ^ 32) :
    ∃ k', parseZimage mem k = .ok k' ∧
      k'.kernel = k.kernel + hdrSz ∧ k'.size = fin - hdrSz ∧ k'.dtb = k.dtb := by
  obtain ⟨a, b, offsets, hstart, hend, h64, hread, hpiggy⟩ := h.table
  obtain ⟨f, hf⟩ := h.fmt
  have hsub : sub32 fin hdrSz = fin - hdrSz := sub32_of_le hle hlt
  rw [← hsub] at hf ⊢
  refine ⟨{ k with
    kernel := k.kernel + hdrSz
    size := sub32 fin hdrSz
    fmt := f
    zHdr := k.kernel
    zHdrSz := hdrSz
    zTail := (k.kernel + fin, sub32 k.size fin)
    zimage := true }, ?_, rfl, rfl, rfl⟩
  refine bind_eq_ok.mpr ⟨some hdrSz, h.first, ?_⟩
  refine bind_eq_ok.mpr ⟨a, hstart, ?_⟩
  refine bind_eq_ok.mpr ⟨b, hend, ?_⟩
  refine (if_neg (Nat.not_lt.mpr h64)).trans ?_
  refine bind_eq_ok.mpr ⟨offsets, hread, ?_⟩
  rw [hpiggy]
  exact bind_eq_ok.mpr ⟨f, hf, rfl⟩

theorem KernelReads.parse {z : KernelSizes} (h : KernelReads mem block z) (h0 : z.total ≠ 0)
    (hlt : z.total < 2 ^ 31) : ∃ k, parseKernel mem block z.total = .ok k ∧
      k.kernel = block + (z.start + z.zHdr) ∧ k.size = z.kernel ∧
      k.dtb = z.dtbAt block := by
  have hfront : z.front = z.start + (z.zHdr + (z.kernel + z.zTail)) := rfl
  have htotal : z.total = z.front + z.dtb := rfl
  -- the device tree is split off
  have hsplit : splitDtb mem block z.total =
      .ok { kernel := block, size := z.front, dtb := z.dtbAt block } := by
    rw [splitDtb, h.dtb, KernelSizes.dtbAt]
    by_cases hd : z.dtb = 0
    · have he : z.total = z.front := by omega
      rw [if_pos hd, if_pos hd, he, ok_bind]
      rfl
    · have hpos : 0 < z.front ∧ z.front < 2 ^ 31 := ⟨h.front_pos hd, by omega⟩
      have he : z.total - z.front = z.dtb := by omega
      rw [if_neg hd, if_neg hd, ok_bind]
      dsimp only
      rw [if_pos hpos, he]
      rfl
  obtain ⟨f, hf, hmtk⟩ := h.mtk
  obtain ⟨f', hf', hz⟩ := h.fmt
  -- then the MTK header
  have hstrip : ∃ k,
      parseMtkKernel mem { kernel := block, size := z.front, dtb := z.dtbAt block } = .ok k ∧
      k.kernel = block + z.start ∧ k.size = z.front - z.start ∧ k.fmt = f' ∧
      k.dtb = z.dtbAt block := by
    rw [parseMtkKernel, hf, ok_bind]
    cases hm : z.mtk with
    | true =>
      have hstart : z.start = mtkHdrSize := by rw [KernelSizes.start, hm, if_pos rfl]
      have hsub : sub32 z.front mtkHdrSize = z.front - mtkHdrSize :=
        sub32_of_le (by omega) (by omega)
      rw [hstart] at hf' ⊢
      rw [if_pos (hmtk.mpr hm)]
      dsimp only
      rw [hsub, hf', ok_bind]
      exact ⟨_, rfl, rfl, rfl, rfl, rfl⟩
    | false =>
      have hne : f ≠ .mtk := fun he => by simp [hm, he] at hmtk
      have hstart : z.start = 0 := by rw [KernelSizes.start, hm, if_neg (by decide)]
      rw [hstart, add_zero, Nat.sub_zero, hf] at hf'
      rw [hstart, add_zero, Nat.sub_zero, if_neg hne]
      exact ⟨_, rfl, rfl, rfl, Except.ok.inj hf', rfl⟩
  obtain ⟨k, hk, hkernel, hsize, hfmt, hdtb⟩ := hstrip
  rw [parseKernel, if_neg h0, hsplit, ok_bind, hk, ok_bind, hfmt]
  cases hzimage : z.zimage with
  | true =>
    have hreads := h.zimage hzimage
    rw [← hkernel, ← hsize] at hreads
    obtain ⟨k', hk', hkernel', hsize', hdtb'⟩ :=
      parseZimage_of_reads hreads (Nat.le_add_right _ _) (by omega)
    rw [if_pos (hz.mpr hzimage)]
    refine ⟨k', hk', ?_, ?_, hdtb'.trans hdtb⟩
    · rw [hkernel', hkernel, add_assoc]
    · rw [hsize', Nat.add_sub_cancel_left]
  | false =>
    obtain ⟨hhdr, htail⟩ := z.plain hzimage
    rw [if_neg fun he => by simp [hzimage, he] at hz]
    refine ⟨k, rfl, ?_, ?_, hdtb⟩
    · rw [hkernel, hhdr, add_zero]
    · rw [hsize]
      omega

theorem RamdiskReads.parse {hdr : Hdr} {table len : ℕ} {mtk : Bool}
    (h : RamdiskReads mem block mtk len) (ht : hdr.size .vendorRamdiskTable = 0)
    (hsize : hdr.size .ramdisk = (if mtk then mtkHdrSize else 0) + len)
    (h0 : hdr.size .ramdisk ≠ 0) : ∃ k, parseRamdisk mem hdr block table = .ok k ∧
      k.ramdisk = block + (if mtk then mtkHdrSize else 0) ∧ k.size = len := by
  obtain ⟨f, hf, hmtk⟩ := h.whole
  have hlt := hdr.size_lt .ramdisk
  rw [← hsize] at hf
  rw [parseRamdisk, if_neg h0, if_neg (by simp [ht]), hf, ok_bind]
  cases mtk with
  | true =>
    obtain ⟨f', hf'⟩ := h.fmt rfl
    rw [if_pos rfl] at hsize
    have hsub : sub32 (hdr.size .ramdisk) mtkHdrSize = len := by
      rw [sub32_of_le (by omega) hlt]
      omega
    rw [if_pos (hmtk.mpr rfl), hsub, hf', ok_bind]
    exact ⟨_, rfl, rfl, rfl⟩
  | false =>
    have hne : f ≠ .mtk := fun he => by simp [he] at hmtk
    rw [if_neg (by decide), zero_add] at hsize
    rw [if_neg hne]
    exact ⟨_, rfl, rfl, hsize⟩

end Parse

end Magisk.Boot
