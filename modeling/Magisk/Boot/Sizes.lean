import Magisk.Boot.Written

namespace Magisk.Boot

open List Option

/-- The images whose header `repack` writes to where `parse_image` finds it. -/
structure Plain (boot : BootImg) : Prop where
  loader : boot.flags.loader = false
  page : boot.hdr.kind.isVendor = false → boot.hdr.hdrSize ≤ boot.hdr.pageSize
  magic : boot.hdr.kind.isVendor = false → view boot.hdr.raw 1024 8 ≠ bootMagic
  vbmeta : VbmetaFits boot

def BootImg.mtkSize (boot : BootImg) (b : Block) : ℕ :=
  if (boot.mtkHdr b).isSome then mtkHdrSize else 0

/-- The file of a block fits the header. -/
def Fits (boot : BootImg) (files : Files) : Block → Prop
  | .kernel =>
    if boot.hdr.Has .kernel then ZimageRoom boot files
    else files.kernel.getD [] = [] ∧ files.kernelDtb.getD [] = []
  | .ramdisk | .signature => True
  | .extra =>
    match files.extra with
    | some d => (boot.hdr.Has .extra ∨ d = []) ∧
      (boot.hdr.kind = .v0 → d.length = 0 ∨ 4 < d.length)
    | none => boot.hdr.size .extra = 0
  | .recoveryDtbo =>
    match files.recoveryDtbo with
    | some d => boot.hdr.Has .recoveryDtbo ∨ d = []
    | none => boot.hdr.size .recoveryDtbo = 0
  | .vendorRamdiskTable => boot.hdr.size .vendorRamdiskTable = 0 ∨
      boot.hdr.size .vendorRamdiskTable = tableEntrySize * boot.hdr.val .vendorRamdiskTableEntryNum
  | b => boot.hdr.Has b ∨ (files.optional b).getD [] = []

section

variable {env : Env} {boot : BootImg} {files : Files} {r : Repacked} {x : Run}
  (h : IsRun env boot files true r x) (hlt : r.image.length < sendfileMax)

include h hlt

omit h hlt in
theorem Fits.zimageRoom (hfree : KernelFree boot) (hf : Fits boot files .kernel) :
    ZimageRoom boot files := by
  unfold Fits at hf
  split_ifs at hf with hc
  · exact hf
  · intro hz
    rw [(hfree hc).2] at hz
    cases hz

theorem kernel_size_eq (hfree : KernelFree boot) (hf : Fits boot files .kernel) :
    r.hdr.size .kernel = (r.out.wrote .kernel).length := by
  obtain ⟨mtk, hm, hw, hs⟩ := h.kernel hlt (hf.zimageRoom hfree)
  have hlen := mtkHeader_length hm
  have hle := wrote_length_le h .kernel
  have hmax : sendfileMax = 0x7ffff000 := rfl
  have hmtk : boot.mtkHdr .kernel = boot.kernel.mtkHdr := rfl
  unfold Fits at hf
  rw [h.size_eq, hmtk]
  by_cases hc : boot.hdr.Has .kernel
  · have hhas : r.out.hdr.Has .kernel := (h.out_sameBut.has_iff _).mpr hc
    rw [hw, length_append] at hle ⊢
    rw [Hdr.size_addSize, if_pos hhas, hs, if_pos hc, hlen]
    split_ifs at hlen ⊢ <;> omega
  · rw [if_neg hc] at hf hs
    obtain ⟨hnone, hz⟩ := hfree hc
    rw [hnone] at hlen ⊢
    have hmtk0 : mtk = [] := eq_nil_of_length_eq_zero hlen
    have hkernel : keptKernel boot files = [] := by
      rw [keptKernel, Hdr.size_of_not_has hc]
      exact hf.1
    rw [isSome_none, if_neg (by decide), hs, hw, hmtk0, hkernel]
    simp [kernelContent, zimageView, hz, hf.2]

theorem ramdisk_size_eq : r.hdr.size .ramdisk = (r.out.wrote .ramdisk).length := by
  obtain ⟨mtk, data, hm, hw, hs, -⟩ := h.ramdisk hlt
  have hlen := mtkHeader_length hm
  have hle := wrote_length_le h .ramdisk
  have hmax : sendfileMax = 0x7ffff000 := rfl
  have hhas : r.out.hdr.Has .ramdisk := by
    have : ∀ k, (HdrKind.sizeAt .ramdisk k).isSome := by decide
    exact this _
  have hmtk : boot.mtkHdr .ramdisk = boot.ramdisk.mtkHdr := rfl
  rw [hw, length_append] at hle ⊢
  rw [h.size_eq, Hdr.size_addSize, if_pos hhas, hs, hmtk, hlen]
  split_ifs with hsome
  · rw [hlen, if_pos hsome] at hle
    omega
  · omega

theorem optional_size_eq {b : Block}
    (hb : b ∈ [Block.second, .extra, .recoveryDtbo, .dtb, .bootconfig])
    (hf : (files.optional b).elim ((resetSizes boot.hdr).size b = 0)
      fun d => boot.hdr.Has b ∨ d = []) :
    r.hdr.size b = (r.out.wrote b).length := by
  obtain ⟨hw, hs⟩ := h.optional hlt hb
  rw [hw, hs]
  cases hd : files.optional b with
  | none =>
    rw [hd] at hf
    exact hf
  | some d =>
    rw [hd] at hf
    simp only [elim_some, getD_some]
    split_ifs with hhas
    · rfl
    · rw [hf.resolve_left hhas]
      rfl

theorem size_eq_of_fits (hfree : KernelFree boot) {b : Block} (hf : Fits boot files b) :
    r.hdr.size b = (r.out.wrote b).length := by
  have hreset : ∀ b ∈ [Block.second, .dtb, .bootconfig],
      boot.hdr.Has b ∨ (files.optional b).getD [] = [] →
      r.hdr.size b = (r.out.wrote b).length := by
    intro b hb hfits
    refine optional_size_eq h hlt (by fin_cases hb <;> decide) ?_
    cases hd : files.optional b with
    | none =>
      rw [elim_none, resetSizes_size, if_pos]
      fin_cases hb <;> decide
    | some d =>
      rw [hd] at hfits
      exact hfits
  cases b with
  | kernel => exact kernel_size_eq h hlt hfree hf
  | ramdisk => exact ramdisk_size_eq h hlt
  | second => exact hreset _ (by decide) hf
  | dtb => exact hreset _ (by decide) hf
  | bootconfig => exact hreset _ (by decide) hf
  | signature => exact h.signature.2
  | vendorRamdiskTable =>
    obtain ⟨hw, hs⟩ := h.table
    rw [hw, hs]
    split_ifs with h0
    · exact h0
    · exact hf.resolve_left h0
  | extra =>
    refine optional_size_eq h hlt (by decide) ?_
    rw [resetSizes_size, if_neg (by decide)]
    unfold Fits at hf
    unfold Files.optional
    cases hd : files.extra with
    | none =>
      rw [hd] at hf
      exact hf
    | some d =>
      rw [hd] at hf
      exact hf.1
  | recoveryDtbo =>
    refine optional_size_eq h hlt (by decide) ?_
    rw [resetSizes_size, if_neg (by decide)]
    unfold Fits at hf
    unfold Files.optional
    cases hd : files.recoveryDtbo with
    | none =>
      rw [hd] at hf
      exact hf
    | some d =>
      rw [hd] at hf
      exact hf

omit h hlt in
theorem block_content {b : Block} {mtk c : Bytes} (hw : r.out.wrote b = mtk ++ c)
    (hl : mtk.length = boot.mtkSize b) : At (r.block boot b) (boot.mtkSize b) c := by
  have hc : At (r.out.wrote b) (boot.mtkSize b) c := by
    have hself := at_append_self mtk c []
    rwa [append_nil, ← hw, hl] at hself
  unfold Repacked.block
  split_ifs with hm
  · rw [at_overwrite_of_disjoint]
    · exact hc
    · right
      rw [leBytes_length, BootImg.mtkSize, if_pos hm, mtkHdrSize]
      omega
  · exact hc

omit hlt in
theorem space_eq : boot.hdr.hdrSpace = .ok x.space ∧ r.hdr.hdrSpace = .ok x.space := by
  have h1 : boot.hdr.hdrSpace = .ok x.space := by
    rw [← (resetSizes_sameBut boot.hdr).hdrSpace_eq (by simp)]
    exact h.space
  refine ⟨h1, ?_⟩
  rw [h.sameBut.hdrSpace_eq (by decide), h1]

omit hlt in
theorem Plain.le_space (hplain : Plain boot) (hp : 0 < boot.hdr.pageSize) :
    boot.hdr.hdrSize ≤ x.space := by
  rw [hdrSpace_eq hp h.pageSize_lt (space_eq h).1]
  split_ifs with hv
  · exact le_alignTo hp _
  · exact hplain.page (by simpa using hv)

variable (ha : Aligned boot files) (hp : 0 < boot.hdr.pageSize)

include ha hp

omit hlt in
theorem getBlocks_image (hmap : env.Maps r.image)
    (hsize : ∀ b, r.hdr.size b = (r.out.wrote b).length) :
    getBlocks env.mapAddr r.hdr r.header (env.mapped r.image).length Block.all
        (fun _ => 0, x.space) =
      .ok (some (r.start boot.hdr.pageSize x.space,
        endOf boot.hdr.pageSize (fun b => (r.out.wrote b).length) Block.all x.space)) := by
  have hpage : r.hdr.pageSize = boot.hdr.pageSize := h.sameBut.pageSize_eq (by decide)
  have hfun : r.hdr.size = fun b => (r.out.wrote b).length := funext hsize
  obtain ⟨hd, -, -, hend⟩ := h.layout ha hp
  have hfd := h.fd_length_le
  have hlen := h.length_eq
  have hle := length_le_mapped env r.image
  rw [length_append] at hfd
  have hd' : r.hdr.pageSize ∣ x.space := by rwa [hpage]
  have h31 := h.pageSize_lt
  have hlt := hdrSpace_lt hp h31 (space_eq h).1
  have hend' : r.header + endOf r.hdr.pageSize r.hdr.size Block.all x.space ≤
      (env.mapped r.image).length := by
    rw [hpage, hfun, ← hend]
    omega
  rw [getBlocks_of_le (by rwa [hpage]) (by rwa [hpage]) Block.nodup_all _ hd' hmap (by omega) hlt
    hend', hpage, hfun]
  congr 3
  funext b
  rw [if_pos (Block.mem_all b), Repacked.start]

end

section

variable {env : Env} {file : Bytes} {boot : BootImg} {files : Files} {r : Repacked}

theorem found_image {hdr : Hdr} {flags : Flags} (hparsed : IsParsed env file hdr flags boot)
    (hfound : hdr.Found) {x : Run} (h : IsRun env boot files true r x)
    (h0 : boot.hdr.kind = .v0 → r.hdr.size .extra = 0 ∨ 4 < r.hdr.size .extra) : r.hdr.Found := by
  have h1 := hparsed.sameBut.mono (G := fun f => f.written) (by rintro f (rfl | rfl) <;> rfl)
  refine found_of_sameBut (h1.trans h.sameBut) hfound fun hk => h0 ?_
  rw [hparsed.sameBut.kind_eq, hk]

theorem Plain.amonet (hplain : Plain boot) : boot.flags.amonet = false := by
  have hloader := hplain.loader
  simp only [Flags.loader, Bool.or_eq_false_iff] at hloader
  exact hloader.2

theorem parseHdr_image {hdr : Hdr} {flags : Flags} (hparsed : IsParsed env file hdr flags boot)
    (hfound : hdr.Found) {x : Run} (h : IsRun env boot files true r x)
    (hlt : r.image.length < sendfileMax) (hplain : Plain boot) (ha : Aligned boot files)
    (hp : 0 < boot.hdr.pageSize) (hfit : Fits boot files .extra)
    (hsize : r.hdr.size .extra = (r.out.wrote .extra).length) (flags' : Flags) :
    parseHdr (env.mapped r.image) r.header r.hdr.kind.format flags' =
      .ok (some r.hdr, r.header, flags') := by
  have hmax : sendfileMax = 0x7ffff000 := rfl
  have hextra : boot.hdr.kind = .v0 → r.hdr.size .extra = 0 ∨ 4 < r.hdr.size .extra := by
    intro hk
    rw [hsize, (h.optional hlt (by decide)).1]
    unfold Fits at hfit
    unfold Files.optional
    cases hd : files.extra with
    | none => exact .inl rfl
    | some d =>
      rw [hd] at hfit
      exact hfit.2 hk
  have hhdr := at_image_header h ha hp (by omega) hplain.vbmeta hplain.amonet
    (hplain.le_space h hp)
  refine parseHdr_of_found (found_image hparsed hfound h hextra) (at_mapped env hhdr) ?_ flags'
  rw [h.sameBut.kind_eq, view_magic_of_sameBut h.sameBut]
  exact hplain.magic

end

/-- A version 1 image of which all blocks but the recovery dtbo are empty. -/
def sampleV1 : Bytes :=
  padded 2048 (bootMagic ++ (zeros 28 ++ (leBytes 4 2048 ++ (leBytes 4 1 ++ (zeros 1588 ++
    (leBytes 4 1 ++ (leBytes 8 2048 ++ leBytes 4 1648))))))) ++ padded 2048 [7]

instance (boot : BootImg) (files : Files) (b : Block) : Decidable (Fits boot files b) := by
  unfold Fits ZimageRoom
  cases b <;> dsimp only <;> repeat' split
  all_goals infer_instance

set_option maxRecDepth 20000 in
theorem sampleV1_run : checkRun sampleEnv sampleV1 {} (fun _ r =>
    decide (r.out.wrote .recoveryDtbo = [] ∧ r.hdr.size .recoveryDtbo = 1 ∧
      (load sampleEnv r.image).map (fun boot => boot.hdr.size .recoveryDtbo) = .ok 1)) := by
  decide +kernel

end Magisk.Boot
