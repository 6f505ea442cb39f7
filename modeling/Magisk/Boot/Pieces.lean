import Magisk.Boot.Repack

namespace Magisk.Boot

/-- The fields that are stored along with a block. -/
def storedWith (b : Block) (f : Field) : Prop :=
  f = .size b ∨ (b = .recoveryDtbo ∧ f = .recoveryDtboOffset)

theorem Hdr.sameBut_setSize (h : Hdr) (b : Block) (v : ℕ) :
    Hdr.SameBut (storedWith b) h (h.setSize b v) := Hdr.SameBut.set (.inl rfl) h _

theorem Hdr.size_addSize (h : Hdr) (b : Block) (n : ℕ) :
    (h.addSize b n).size b = if h.Has b then (h.size b + n) % 2 ^ 32 else 0 :=
  h.size_setSize_self b _

theorem Hdr.SameBut.has_iff {F : Field → Prop} {h h' : Hdr} (hs : Hdr.SameBut F h h') (b : Block) :
    h'.Has b ↔ h.Has b := by
  rw [Hdr.Has, Hdr.Has, hs.kind_eq]

section Pieces

variable {env : Env} {boot : BootImg} {files : Files} {skipComp : Bool} {hdr : Hdr} {p : Piece}

theorem component_skip (fmt target : FileFormat) (m : Bytes) :
    component env true fmt target m = .ok m := rfl

theorem kernelBody_sameBut {r : Bytes × Hdr} (h : kernelBody env boot files skipComp hdr = .ok r) :
    Hdr.SameBut (storedWith .kernel) hdr r.2 := by
  unfold kernelBody at h
  split at h
  · rw [bind_eq_ok] at h
    obtain ⟨data, -, h⟩ := h
    split_ifs at h
    · rw [bind_eq_ok] at h
      obtain ⟨body, -, h⟩ := h
      cases h
      exact (hdr.sameBut_setSize .kernel _).trans (Hdr.sameBut_setSize _ .kernel _)
    · cases h
      exact hdr.sameBut_setSize .kernel _
  · split_ifs at h
    · rw [bind_eq_ok] at h
      obtain ⟨body, -, h⟩ := h
      cases h
      exact hdr.sameBut_setSize .kernel _
    · cases h
      exact Hdr.SameBut.refl _ _

structure KernelParts where
  mtk : Bytes
  zHdr : Bytes
  body : Bytes
  zTail : Bytes
  bodyHdr : Hdr

/-- The parts that the kernel's piece is made of. -/
structure IsKernel (env : Env) (boot : BootImg) (files : Files) (skipComp : Bool) (hdr : Hdr)
    (q : KernelParts) : Prop where
  mtk : mtkHeader boot boot.kernel.mtkHdr = .ok q.mtk
  zHdr : zimagePart boot boot.kernel.zHdr boot.kernel.zHdrSz = .ok q.zHdr
  body : kernelBody env boot files skipComp hdr = .ok (q.body, q.bodyHdr)
  zTail : zimagePart boot boot.kernel.zTail.1 boot.kernel.zTail.2 = .ok q.zTail

def KernelParts.tailHdr (q : KernelParts) (boot : BootImg) : Hdr :=
  if boot.kernel.zimage then
    (q.bodyHdr.addSize .kernel boot.kernel.zHdrSz).addSize .kernel q.zTail.length
  else q.bodyHdr

def KernelParts.piece (q : KernelParts) (boot : BootImg) (files : Files) : Piece :=
  match files.kernelDtb with
  | some dtb => ⟨q.mtk ++ (q.zHdr ++ (q.body ++ q.zTail)) ++ restore dtb,
      (q.tailHdr boot).addSize .kernel dtb.length, true⟩
  | none => ⟨q.mtk ++ (q.zHdr ++ (q.body ++ q.zTail)), q.tailHdr boot, true⟩

theorem repackKernel_eq_ok : repackKernel env boot files skipComp hdr = .ok p ↔
    ∃ q, IsKernel env boot files skipComp hdr q ∧ p = q.piece boot files := by
  constructor
  · intro h
    simp only [repackKernel, bind_eq_ok] at h
    obtain ⟨mtk, hmtk, zHdr, hz, ⟨body, hdr1⟩, hbody, zTail, ht, h⟩ := h
    refine ⟨⟨mtk, zHdr, body, zTail, hdr1⟩, ⟨hmtk, hz, hbody, ht⟩, ?_⟩
    unfold KernelParts.piece KernelParts.tailHdr
    cases hd : files.kernelDtb with
    | none =>
      rw [hd] at h
      exact (Except.ok.inj h).symm
    | some dtb =>
      rw [hd] at h
      exact (Except.ok.inj h).symm
  · rintro ⟨q, hq, rfl⟩
    simp only [repackKernel, bind_eq_ok]
    refine ⟨q.mtk, hq.mtk, q.zHdr, hq.zHdr, _, hq.body, q.zTail, hq.zTail, ?_⟩
    unfold KernelParts.piece KernelParts.tailHdr
    cases files.kernelDtb <;> rfl

variable {q : KernelParts} {b : Block} {pos : ℕ}

theorem tailHdr_sameBut (h : IsKernel env boot files skipComp hdr q) :
    Hdr.SameBut (storedWith .kernel) hdr (q.tailHdr boot) := by
  have hb := kernelBody_sameBut h.body
  unfold KernelParts.tailHdr
  split_ifs
  · exact (hb.trans (Hdr.sameBut_setSize _ .kernel _)).trans (Hdr.sameBut_setSize _ .kernel _)
  · exact hb

theorem piece_sameBut (h : IsKernel env boot files skipComp hdr q) :
    Hdr.SameBut (storedWith .kernel) hdr (q.piece boot files).hdr := by
  have ht := tailHdr_sameBut h
  unfold KernelParts.piece
  split
  · exact ht.trans (Hdr.sameBut_setSize _ .kernel _)
  · exact ht

/-- The piece of the ramdisk with its MTK header. -/
inductive IsRamdisk (env : Env) (boot : BootImg) (files : Files) (skipComp : Bool) (hdr : Hdr)
    (mtk : Bytes) : Piece → Prop where
  | table {entries : List Entry} {data : Bytes} {fin : ℕ}
      (ht : boot.hdr.size .vendorRamdiskTable ≠ 0)
      (h : repackTable env boot files skipComp = .ok (entries, data, fin)) :
      IsRamdisk env boot files skipComp hdr mtk ⟨mtk ++ data, hdr.setSize .ramdisk fin, true⟩
  | file {m data : Bytes} {fmt : FileFormat} (ht : boot.hdr.size .vendorRamdiskTable = 0)
      (hf : files.ramdisk = some m) (h : component env skipComp fmt fmt m = .ok data) :
      IsRamdisk env boot files skipComp hdr mtk ⟨mtk ++ data, hdr.setSize .ramdisk data.length, true⟩
  | none (ht : boot.hdr.size .vendorRamdiskTable = 0) (hf : files.ramdisk = .none) :
      IsRamdisk env boot files skipComp hdr mtk ⟨mtk, hdr, false⟩

theorem isRamdisk_of_ok (h : repackRamdisk env boot files skipComp hdr = .ok p) :
    ∃ mtk, mtkHeader boot boot.ramdisk.mtkHdr = .ok mtk ∧
      IsRamdisk env boot files skipComp hdr mtk p := by
  rw [repackRamdisk, bind_eq_ok] at h
  obtain ⟨mtk, hmtk, h⟩ := h
  refine ⟨mtk, hmtk, ?_⟩
  split_ifs at h with ht
  · rw [bind_eq_ok] at h
    obtain ⟨⟨entries, data, fin⟩, htab, h⟩ := h
    cases h
    exact .table ht htab
  · cases hf : files.ramdisk with
    | none =>
      rw [hf] at h
      cases h
      exact .none (not_not.mp ht) hf
    | some m =>
      simp only [hf, bind_eq_ok] at h
      obtain ⟨data, hd, h⟩ := h
      cases h
      exact .file (not_not.mp ht) hf hd

/-- The files of the blocks that an image may lack. -/
def Files.optional (files : Files) : Block → Option Bytes
  | .second => files.second
  | .extra => files.extra
  | .recoveryDtbo => files.recoveryDtbo
  | .dtb => files.dtb
  | .bootconfig => files.bootconfig
  | _ => none

/-- The piece of a block, with the file at `pos`. -/
inductive IsPiece (env : Env) (boot : BootImg) (files : Files) (skipComp : Bool) (pos : ℕ)
    (hdr : Hdr) : Block → Piece → Prop where
  | kernel {q : KernelParts} (hq : IsKernel env boot files skipComp hdr q) :
      IsPiece env boot files skipComp pos hdr .kernel (q.piece boot files)
  | ramdisk {mtk : Bytes} {p : Piece} (hm : mtkHeader boot boot.ramdisk.mtkHdr = .ok mtk)
      (hr : IsRamdisk env boot files skipComp hdr mtk p) :
      IsPiece env boot files skipComp pos hdr .ramdisk p
  | restored {b : Block} {data : Bytes} (hb : b ∈ [Block.second, .dtb, .bootconfig])
      (hf : files.optional b = some data) :
      IsPiece env boot files skipComp pos hdr b ⟨restore data, hdr.setSize b data.length, true⟩
  | extra {m data : Bytes} (hf : files.extra = some m)
      (hc : component env skipComp boot.eFmt boot.eFmt m = .ok data) :
      IsPiece env boot files skipComp pos hdr .extra ⟨data, hdr.setSize .extra data.length, true⟩
  | recoveryDtbo {data : Bytes} (hf : files.recoveryDtbo = some data) :
      IsPiece env boot files skipComp pos hdr .recoveryDtbo
        ⟨restore data, (hdr.set64 .recoveryDtboOffset pos).setSize .recoveryDtbo data.length, true⟩
  | absent {b : Block} (hb : b ∈ [Block.second, .extra, .recoveryDtbo, .dtb, .bootconfig])
      (hf : files.optional b = none) : IsPiece env boot files skipComp pos hdr b ⟨[], hdr, false⟩
  | signature {bytes : Bytes} (h0 : boot.hdr.size .signature ≠ 0)
      (hr : read boot.mem (boot.block .signature) (boot.hdr.size .signature) = .ok bytes) :
      IsPiece env boot files skipComp pos hdr .signature ⟨bytes, hdr, true⟩
  | noSignature (h0 : boot.hdr.size .signature = 0) :
      IsPiece env boot files skipComp pos hdr .signature ⟨[], hdr, false⟩
  | table {r : List Entry × Bytes × ℕ} (h0 : boot.hdr.size .vendorRamdiskTable ≠ 0)
      (ht : repackTable env boot files skipComp = .ok r) :
      IsPiece env boot files skipComp pos hdr .vendorRamdiskTable
        ⟨r.1.flatMap Entry.encode, hdr, r.1 ≠ []⟩
  | noTable (h0 : boot.hdr.size .vendorRamdiskTable = 0) :
      IsPiece env boot files skipComp pos hdr .vendorRamdiskTable ⟨[], hdr, false⟩

theorem isPiece_restoreBlock (hb : b ∈ [Block.second, .dtb, .bootconfig]) (pos : ℕ) :
    IsPiece env boot files skipComp pos hdr b (restoreBlock b (files.optional b) hdr) := by
  have hsub : ∀ b, b ∈ [Block.second, .dtb, .bootconfig] →
      b ∈ [Block.second, .extra, .recoveryDtbo, .dtb, .bootconfig] := by decide
  cases hf : files.optional b with
  | none => exact .absent (hsub b hb) hf
  | some data => exact .restored hb hf

theorem isPiece_of_ok (h : repackBlock env boot files skipComp b pos hdr = .ok p) :
    IsPiece env boot files skipComp pos hdr b p := by
  cases b with
  | kernel =>
    obtain ⟨q, hq, rfl⟩ := repackKernel_eq_ok.mp h
    exact .kernel hq
  | ramdisk =>
    obtain ⟨mtk, hm, hr⟩ := isRamdisk_of_ok h
    exact .ramdisk hm hr
  | second =>
    cases h
    exact isPiece_restoreBlock (by decide) pos
  | extra =>
    simp only [repackBlock, repackExtra] at h
    split at h
    · rename_i m hf
      rw [bind_eq_ok] at h
      obtain ⟨data, hc, h⟩ := h
      cases h
      exact .extra hf hc
    · rename_i hf
      cases h
      exact .absent (by decide) hf
  | recoveryDtbo =>
    simp only [repackBlock, repackRecoveryDtbo] at h
    split at h
    · rename_i data hf
      cases h
      rw [hf]
      exact .recoveryDtbo hf
    · rename_i hf
      cases h
      exact .absent (by decide) hf
  | dtb =>
    cases h
    exact isPiece_restoreBlock (by decide) pos
  | signature =>
    simp only [repackBlock, repackSignature] at h
    split_ifs at h with h0
    · rw [bind_eq_ok] at h
      obtain ⟨bytes, hr, h⟩ := h
      cases h
      exact .signature h0 hr
    · cases h
      exact .noSignature (not_not.mp h0)
  | vendorRamdiskTable =>
    simp only [repackBlock, repackVendorTable] at h
    split_ifs at h with h0
    · rw [bind_eq_ok] at h
      obtain ⟨⟨entries, data, fin⟩, ht, h⟩ := h
      have hp : IsPiece env boot files skipComp pos hdr .vendorRamdiskTable _ := .table h0 ht
      by_cases he : entries = []
      · simp only [he, ne_eq, not_true_eq_false, if_false] at h hp
        cases h
        simpa using hp
      · simp only [he, ne_eq, not_false_eq_true, if_true] at h hp
        cases h
        simpa using hp
    · cases h
      exact .noTable (not_not.mp h0)
  | bootconfig =>
    cases h
    exact isPiece_restoreBlock (by decide) pos

theorem repackBlock_sameBut (h : repackBlock env boot files skipComp b pos hdr = .ok p) :
    Hdr.SameBut (storedWith b) hdr p.hdr := by
  cases isPiece_of_ok h with
  | kernel hq => exact piece_sameBut hq
  | ramdisk hm hr =>
    cases hr with
    | table => exact hdr.sameBut_setSize .ramdisk _
    | file => exact hdr.sameBut_setSize .ramdisk _
    | none => exact Hdr.SameBut.refl _ _
  | restored => exact hdr.sameBut_setSize b _
  | extra => exact hdr.sameBut_setSize .extra _
  | recoveryDtbo =>
    exact (Hdr.SameBut.set (.inr ⟨rfl, rfl⟩) hdr _).trans (Hdr.sameBut_setSize _ .recoveryDtbo _)
  | absent | signature | noSignature | table | noTable => exact Hdr.SameBut.refl _ _

/-- There is a ramdisk behind an MTK header. -/
def Aligned (boot : BootImg) (files : Files) : Prop :=
  boot.ramdisk.mtkHdr.isSome → boot.hdr.size .vendorRamdiskTable = 0 → files.ramdisk.isSome

theorem repackBlock_aligned (ha : Aligned boot files)
    (h : repackBlock env boot files skipComp b pos hdr = .ok p) :
    p.aligned ∨ p.bytes = [] := by
  cases isPiece_of_ok h with
  | kernel =>
    unfold KernelParts.piece
    split <;> exact .inl rfl
  | ramdisk hm hr =>
    cases hr with
    | table => exact .inl rfl
    | file => exact .inl rfl
    | none ht hf =>
      cases hp : boot.ramdisk.mtkHdr with
      | none =>
        rw [hp] at hm
        exact .inr (Except.ok.inj hm).symm
      | some p =>
        have := ha (by simp [hp]) ht
        simp [hf] at this
  | table h0 ht =>
    rename_i r
    by_cases he : r.1 = []
    · exact .inr (by simp [he])
    · exact .inl (by simp [he])
  | restored | extra | recoveryDtbo | signature => exact .inl rfl
  | absent | noSignature | noTable => exact .inr rfl

end Pieces

end Magisk.Boot
