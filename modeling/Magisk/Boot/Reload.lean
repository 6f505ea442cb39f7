import Magisk.Boot.ReadBack
import Magisk.Boot.Sizes

namespace Magisk.Boot

open List Option

section Magic

variable {mem : Bytes} {off len : ℕ}

def HdrKind.magic (k : HdrKind) : Bytes := if k.isVendor then vendorBootMagic else bootMagic

theorem HdrKind.magic_length (k : HdrKind) : k.magic.length = 8 := by
  cases k <;> decide

theorem checkedMatch_eq_some {l : List (Bytes × FileFormat)} {f : FileFormat}
    (h : checkedMatch mem off len l = .ok (some f)) :
    ∃ m, (m, f) ∈ l ∧ m.length ≤ len ∧ At mem off m := by
  induction l with
  | nil => cases h
  | cons p l ih =>
    have hrest (h : checkedMatch mem off len l = .ok (some f)) :
        ∃ m, (m, f) ∈ p :: l ∧ m.length ≤ len ∧ At mem off m := by
      obtain ⟨m, hm, hat⟩ := ih h
      exact ⟨m, mem_cons_of_mem p hm, hat⟩
    obtain ⟨magic, fmt⟩ := p
    rw [checkedMatch] at h
    split_ifs at h with hlen
    · obtain ⟨c, hc, h⟩ := bind_eq_ok.mp h
      have hc := eq_of_bufferMatch hc
      cases c with
      | true =>
        cases h
        exact ⟨magic, mem_cons_self, hlen, view_eq_iff.mp (of_decide_eq_true hc.symm)⟩
      | false => exact hrest h
    · exact hrest h

/-- Where `check_fmt` finds an image there is the magic of its header. -/
theorem magic_of_checkFmt {k : HdrKind} (h : checkFmt mem off len = .ok k.format) :
    At mem off k.magic ∧ 8 ≤ len := by
  have hformat : ∀ k : HdrKind, ∀ p ∈ magics, p.2 = k.format → p.1 = k.magic := by decide
  have hmore : ∀ k : HdrKind, ∀ p ∈ moreMagics, p.2 ≠ k.format := by decide
  have hother : ∀ k : HdrKind, k.format ≠ .lzma ∧ k.format ≠ .zimage ∧ k.format ≠ .unknown := by
    decide
  obtain ⟨hlzma, hzimage, hunknown⟩ := hother k
  obtain ⟨f, hf, h⟩ := bind_eq_ok.mp h
  cases f with
  | some f =>
    obtain rfl := Except.ok.inj h
    obtain ⟨m, hm, hlen, hat⟩ := checkedMatch_eq_some hf
    have he : m = k.magic := hformat k _ hm rfl
    rw [he, k.magic_length] at hlen
    exact ⟨he ▸ hat, hlen⟩
  | none =>
    obtain ⟨c, -, h⟩ := bind_eq_ok.mp h
    cases c with
    | true => exact absurd (Except.ok.inj h).symm hlzma
    | false =>
      obtain ⟨f, hf, h⟩ := bind_eq_ok.mp h
      cases f with
      | some f =>
        obtain rfl := Except.ok.inj h
        obtain ⟨m, hm, -⟩ := checkedMatch_eq_some hf
        exact absurd rfl (hmore k _ hm)
      | none =>
        dsimp only at h
        split_ifs at h
        · obtain ⟨c, -, h⟩ := bind_eq_ok.mp h
          cases c with
          | true => exact absurd (Except.ok.inj h).symm hzimage
          | false => exact absurd (Except.ok.inj h).symm hunknown
        · exact absurd (Except.ok.inj h).symm hunknown

theorem checkFmt_of_magic {k : HdrKind} (ha : At mem off k.magic) (h8 : 8 ≤ len) :
    checkFmt mem off len = .ok k.format := by
  have hfirst : ∀ k : HdrKind, bufferMatch k.magic 0 (lit "CHROMEOS") = .ok false ∧
      bufferMatch k.magic 0 bootMagic = .ok (!k.isVendor) ∧
      bufferMatch k.magic 0 vendorBootMagic = .ok k.isVendor := by decide
  obtain ⟨hchrome, hboot, hvendor⟩ := hfirst k
  have hmagics : magics = (lit "CHROMEOS", .chromeos) :: (bootMagic, .aosp) ::
      (vendorBootMagic, .aospVendor) :: magics.drop 3 := rfl
  have hlen : (lit "CHROMEOS").length ≤ len ∧ bootMagic.length ≤ len ∧
      vendorBootMagic.length ≤ len := ⟨h8, h8, h8⟩
  have hmatch : checkedMatch k.magic 0 len magics = .ok (some k.format) := by
    rw [hmagics, checkedMatch, if_pos hlen.1, hchrome, ok_bind, if_neg (by decide), checkedMatch,
      if_pos hlen.2.1, hboot, ok_bind, HdrKind.format]
    cases hv : k.isVendor with
    | false => rfl
    | true =>
      rw [hv] at hvendor
      rw [if_neg (by decide), checkedMatch, if_pos hlen.2.2, hvendor, ok_bind]
      rfl
  refine checkFmt_within ha 0 len _ ?_
  rw [checkFmt, hmatch]
  rfl

end Magic

section Head

variable {env : Env} {boot : BootImg} {files : Files} {skipComp : Bool} {r : Repacked} {x : Run}

/-- The head that was copied is recognised in the output. -/
structure HeadReads (env : Env) (boot : BootImg) (image : Bytes) : Prop where
  dhtb : boot.flags.dhtb → checkFmt (env.mapped image) 0 image.length = .ok .dhtb
  blob : boot.flags.dhtb = false → boot.flags.blob →
    checkFmt (env.mapped image) 0 image.length = .ok .blob

/-- The constructor comes to the header with the flags of the head. -/
theorem exists_loadFrom (h : IsRun env boot files skipComp r x)
    (hloader : boot.flags.loader = false) (hhead : HeadReads env boot r.image)
    (hpos : 0 < r.image.length) :
    ∃ fuel flags, load env r.image = loadFrom env r.image (fuel + 1) r.header flags := by
  have hnookhd : boot.flags.nookhd = false ∧ boot.flags.acclaim = false := by
    simp only [Flags.loader, Bool.or_eq_false_iff] at hloader
    exact hloader.1
  have hh := h.head
  unfold headBytes at hh
  have hpos' : ¬ r.image.length ≤ 0 := by omega
  obtain ⟨fuel, hfuel⟩ : ∃ fuel, r.image.length = fuel + 1 := ⟨r.image.length - 1, by omega⟩
  split_ifs at hh with hd hb hn hac
  · have hheader : r.header = dhtbHdrSize := h.header.trans (read_eq_ok.mp hh).1
    refine ⟨fuel, { dhtb := true, seandroid := true }, ?_⟩
    rw [load, hfuel, loadFrom, if_neg hpos', hhead.dhtb hd, ok_bind, hheader]
    dsimp only
    rw [zero_add]
  · have hheader : r.header = blobHdrSize := h.header.trans (read_eq_ok.mp hh).1
    refine ⟨fuel, { blob := true }, ?_⟩
    rw [load, hfuel, loadFrom, if_neg hpos', hhead.blob (by simpa using hd) hb, ok_bind, hheader]
    dsimp only
    rw [zero_add]
  · simp [hnookhd.1] at hn
  · simp [hnookhd.2] at hac
  · have hheader : r.header = 0 := by
      rw [h.header, ← Except.ok.inj hh]
      rfl
    exact ⟨r.image.length, {}, by rw [load, hheader]⟩

end Head

/-- The bytes of a block behind its MTK header, in which their number is stored. -/
def withMtk (boot : BootImg) (p : Option ℕ) (content : Bytes) : Bytes :=
  match p with
  | some p => overwrite (view boot.mem p mtkHdrSize) 4 (leBytes 4 content.length) ++ content
  | none => content

def kernelBlock (boot : BootImg) (files : Files) : Bytes :=
  withMtk boot boot.kernel.mtkHdr (kernelContent boot (keptKernel boot files) files)

def ramdiskBlock (boot : BootImg) (files : Files) : Bytes :=
  withMtk boot boot.ramdisk.mtkHdr (files.ramdisk.getD [])

def kernelSizes (boot : BootImg) (files : Files) : KernelSizes where
  mtk := boot.kernel.mtkHdr.isSome
  zimage := boot.kernel.zimage
  zHdr := (zimageView boot boot.kernel.zHdr boot.kernel.zHdrSz).length
  kernel := (keptKernel boot files).length
  zTail := (zimageView boot boot.kernel.zTail.1 boot.kernel.zTail.2).length
  dtb := (files.kernelDtb.getD []).length
  plain := by
    intro hz
    simp [zimageView, hz]

/-- The footer of AVB at the end of the memory, if there is one, points into it. -/
def FooterReads (mem : Bytes) (addr : ℕ) : Prop :=
  At mem (mem.length - avbFooterSize) (lit "AVBf") →
    ∃ off, readBe 8 mem (mem.length - avbFooterSize + 20) = .ok off ∧
      ptrAdd addr off + 4 ≤ mem.length

/-- The conditions under which the output of `repack` is read as it was meant. -/
structure Refits (env : Env) (boot : BootImg) (files : Files) (r : Repacked) : Prop where
  short : r.image.length < sendfileMax
  maps : env.Maps r.image
  plain : Plain boot
  head : HeadReads env boot r.image
  aligned : Aligned boot files
  noTable : boot.hdr.size .vendorRamdiskTable = 0
  fits : ∀ b, Fits boot files b
  kernel : kernelBlock boot files ≠ [] →
    KernelReads (kernelBlock boot files) 0 (kernelSizes boot files)
  ramdisk : ramdiskBlock boot files ≠ [] → RamdiskReads (ramdiskBlock boot files) 0
    boot.ramdisk.mtkHdr.isSome (files.ramdisk.getD []).length
  extra : ∀ d ∈ files.extra, ∃ f, checkFmtLg d 0 d.length = .ok f
  footer : FooterReads (env.mapped r.image) r.header

/-- The file that `unpack` makes of a part. -/
def stored (c : Bytes) : Option Bytes := if c = [] then none else some c

def keptFiles (boot : BootImg) (files : Files) : Files where
  kernel := stored (keptKernel boot files)
  kernelDtb := stored (files.kernelDtb.getD [])
  ramdisk := stored (files.ramdisk.getD [])
  second := stored (files.second.getD [])
  extra := stored (files.extra.getD [])
  recoveryDtbo := stored (files.recoveryDtbo.getD [])
  dtb := stored (files.dtb.getD [])
  bootconfig := stored (files.bootconfig.getD [])

section Blocks

variable {env : Env} {boot : BootImg} {files : Files} {r : Repacked} {x : Run}

theorem overwrite_append {m b : Bytes} {off : ℕ} (h : off + b.length ≤ m.length) (c : Bytes) :
    overwrite (m ++ c) off b = overwrite m off b ++ c := by
  have hl : (m.take off ++ (b ++ m.drop (off + b.length))).length = m.length := by
    simp only [length_append, length_take, length_drop]
    omega
  have hl' : (m.take off ++ (b ++ (m.drop (off + b.length) ++ c))).length = (m ++ c).length := by
    simp only [length_append, length_take, length_drop]
    omega
  have htake : (m ++ c).take off = m.take off := take_append_of_le_length (by omega)
  have hdrop : (m ++ c).drop (off + b.length) = m.drop (off + b.length) ++ c :=
    drop_append_of_le_length h
  rw [overwrite, htake, hdrop, ← hl', take_length, overwrite, ← hl, take_length]
  simp only [append_assoc]

theorem block_eq_withMtk {b : Block} {mtk c : Bytes}
    (hm : mtkHeader boot (boot.mtkHdr b) = .ok mtk) (hw : r.out.wrote b = mtk ++ c)
    (hs : (boot.mtkHdr b).isSome → r.out.hdr.size b = c.length) :
    r.block boot b = withMtk boot (boot.mtkHdr b) c := by
  have hl := mtkHeader_length hm
  unfold Repacked.block withMtk
  cases hp : boot.mtkHdr b with
  | none =>
    rw [hp] at hm
    cases hm
    exact hw
  | some p =>
    rw [hp] at hm hl hs
    rw [isSome_some, if_pos rfl] at hl
    rw [isSome_some, if_pos rfl, hw, hs rfl, overwrite_append (by rw [hl, leBytes_length]; decide)]
    have hview : mtk = view boot.mem p mtkHdrSize := eq_view_of_read hm
    rw [hview]

variable (h : IsRun env boot files true r x) (hlt : r.image.length < sendfileMax)

include h hlt

theorem kernel_block (hfree : KernelFree boot) (hfits : Fits boot files .kernel)
    (hsize : r.hdr.size .kernel = (r.out.wrote .kernel).length) :
    r.block boot .kernel = kernelBlock boot files ∧
      (r.out.wrote .kernel).length = (kernelSizes boot files).total ∧
      At (r.block boot .kernel) (kernelSizes boot files).start
        (kernelContent boot (keptKernel boot files) files) := by
  obtain ⟨mtk, hm, hw, hs⟩ := h.kernel hlt (hfits.zimageRoom hfree)
  have hl := mtkHeader_length hm
  have hle := wrote_length_le h .kernel
  have hmax : sendfileMax = 0x7ffff000 := rfl
  have hwl : (r.out.wrote .kernel).length = (kernelSizes boot files).total := by
    rw [hw, length_append, hl, kernelContent]
    simp only [length_append]
    unfold KernelSizes.total KernelSizes.front KernelSizes.start kernelSizes
    dsimp only
    omega
  refine ⟨block_eq_withMtk hm hw fun hsome => ?_, hwl, block_content hw hl⟩
  -- the size in the MTK header is the one before the size of this header is added
  have hl' : mtk.length = mtkHdrSize := hl.trans (if_pos hsome)
  have hadd := h.size_eq .kernel
  have hout := r.out.hdr.size_lt .kernel
  have h512 : mtkHdrSize = 512 := rfl
  rw [hw, length_append, hl'] at hle
  rw [if_pos hsome, hsize, hw, length_append, hl', Hdr.size_addSize] at hadd
  split_ifs at hadd <;> omega

theorem ramdisk_block (ht : boot.hdr.size .vendorRamdiskTable = 0) :
    r.block boot .ramdisk = ramdiskBlock boot files ∧
      (r.out.wrote .ramdisk).length =
        (if boot.ramdisk.mtkHdr.isSome then mtkHdrSize else 0) + (files.ramdisk.getD []).length ∧
      At (r.block boot .ramdisk) (if boot.ramdisk.mtkHdr.isSome then mtkHdrSize else 0)
        (files.ramdisk.getD []) := by
  obtain ⟨mtk, data, hm, hw, hs, hd⟩ := h.ramdisk hlt
  rw [hd ht] at hw hs
  have hl := mtkHeader_length hm
  refine ⟨block_eq_withMtk hm hw fun _ => hs, ?_, block_content hw hl⟩
  rw [hw, length_append, hl]

end Blocks

section Reload

variable {env : Env} {boot : BootImg} {files : Files} {r : Repacked} {mem : Bytes} {block : ℕ}

/-- The kernel and its device tree are found in the block. -/
theorem exists_parseKernel (hk : KernelReads mem block (kernelSizes boot files) ∨
      (kernelSizes boot files).total = 0)
    (hlt : (kernelSizes boot files).total < 2 ^ 31)
    (hc : At mem (block + (kernelSizes boot files).start)
      (kernelContent boot (keptKernel boot files) files)) :
    ∃ k, parseKernel mem block (kernelSizes boot files).total = .ok k ∧
      k.size = (keptKernel boot files).length ∧ At mem k.kernel (keptKernel boot files) ∧
      k.dtb.2 = (files.kernelDtb.getD []).length ∧ At mem k.dtb.1 (files.kernelDtb.getD []) := by
  have hsum : (kernelSizes boot files).total = (kernelSizes boot files).start +
      ((kernelSizes boot files).zHdr + ((keptKernel boot files).length +
        (kernelSizes boot files).zTail)) + (files.kernelDtb.getD []).length := rfl
  by_cases h0 : (kernelSizes boot files).total = 0
  · have hkernel : keptKernel boot files = [] := eq_nil_of_length_eq_zero (by omega)
    have hdtb : files.kernelDtb.getD [] = [] := eq_nil_of_length_eq_zero (by omega)
    rw [hkernel, hdtb, parseKernel, if_pos h0]
    exact ⟨_, rfl, rfl, at_nil _ _, rfl, at_nil _ _⟩
  · obtain ⟨k, hparse, hkernel, hsize, hdtb⟩ := (hk.resolve_right h0).parse h0 hlt
    refine ⟨k, hparse, hsize, ?_, ?_⟩
    · rw [hkernel, ← add_assoc]
      refine hc.sub ?_
      exact at_append_self _ _ _
    · rw [hdtb, KernelSizes.dtbAt]
      by_cases hd : (kernelSizes boot files).dtb = 0
      · have hnil : files.kernelDtb.getD [] = [] := eq_nil_of_length_eq_zero hd
        rw [if_pos hd, hnil]
        exact ⟨rfl, at_nil _ _⟩
      · rw [if_neg hd]
        refine ⟨rfl, ?_⟩
        have hat := at_append_self (zimageView boot boot.kernel.zHdr boot.kernel.zHdrSz ++
          (keptKernel boot files ++ zimageView boot boot.kernel.zTail.1 boot.kernel.zTail.2))
          (files.kernelDtb.getD []) []
        have hpos : block + (kernelSizes boot files).front =
            block + (kernelSizes boot files).start +
            (zimageView boot boot.kernel.zHdr boot.kernel.zHdrSz ++ (keptKernel boot files ++
                zimageView boot boot.kernel.zTail.1 boot.kernel.zTail.2)).length := by
          simp only [length_append]
          unfold KernelSizes.front kernelSizes
          dsimp only
          omega
        dsimp only
        rw [hpos]
        refine hc.sub ?_
        simp only [append_nil, append_assoc] at hat
        exact hat

theorem exists_parseRamdisk {hdr : Hdr} (table : ℕ) {mtk : Bool} {c : Bytes}
    (hr : RamdiskReads mem block mtk c.length ∨ hdr.size .ramdisk = 0)
    (ht : hdr.size .vendorRamdiskTable = 0)
    (hsize : hdr.size .ramdisk = (if mtk then mtkHdrSize else 0) + c.length)
    (hc : At mem (block + if mtk then mtkHdrSize else 0) c) :
    ∃ k, parseRamdisk mem hdr block table = .ok k ∧ k.size = c.length ∧ At mem k.ramdisk c := by
  by_cases h0 : hdr.size .ramdisk = 0
  · have hnil : c = [] := eq_nil_of_length_eq_zero (by omega)
    rw [parseRamdisk, if_pos h0, hnil]
    exact ⟨_, rfl, rfl, at_nil _ _⟩
  · obtain ⟨k, hparse, hramdisk, hk⟩ := (hr.resolve_right h0).parse ht hsize h0
    refine ⟨k, hparse, hk, ?_⟩
    rw [hramdisk]
    exact hc

theorem exists_parseExtra {c : Bytes} (hf : ∃ f, checkFmtLg c 0 c.length = .ok f)
    (hc : At mem block c) : ∃ f, parseExtra mem block c.length = .ok f := by
  obtain ⟨f, hf⟩ := hf
  unfold parseExtra
  split_ifs
  · exact ⟨_, rfl⟩
  · exact ⟨f, checkFmtLg_within hc 0 _ _ hf⟩

/-- What is behind the payload is read without a stop. -/
theorem exists_parseTail (env : Env) {addr off : ℕ} (flags : Flags) (hle : addr + off ≤ mem.length)
    (hlt : mem.length < 2 ^ 64) (h64 : avbFooterSize ≤ mem.length) (hf : FooterReads mem addr) :
    ∃ t, parseTail env mem addr off flags = .ok t := by
  have hptr : ptrAdd addr off = addr + off := Nat.mod_eq_of_lt (by omega)
  have hsize : tailSize mem (addr + off) = mem.length - (addr + off) := if_pos hle
  have hmatch (magic : Bytes) (h16 : magic.length = 16) :
      ∃ c, (if 16 ≤ mem.length - (addr + off) then bufferMatch mem (addr + off) magic
        else .ok false) = .ok c := by
    split_ifs
    · exact ⟨_, bufferMatch_eq_ok (by omega)⟩
    · exact ⟨_, rfl⟩
  have hflags : ∃ g, tailFlags env mem addr off flags = .ok g := by
    obtain ⟨c, hc⟩ := hmatch seandroidMagic (by decide)
    obtain ⟨c', hc'⟩ := hmatch lgBumpMagic (by decide)
    unfold tailFlags
    rw [hptr]
    dsimp only
    rw [hsize, hc, ok_bind, hc', ok_bind]
    split_ifs <;> exact ⟨_, rfl⟩
  obtain ⟨g, hg⟩ := hflags
  rw [parseTail, hptr, hsize]
  split_ifs with h0 hshort
  · exact ⟨_, rfl⟩
  · omega
  · rw [hg, ok_bind]
    have hlen : (lit "AVBf").length = 4 ∧ (lit "AVB0").length = 4 := by decide
    have h4 : avbFooterSize = 64 := rfl
    dsimp only
    rw [bufferMatch_eq_ok (by omega), ok_bind]
    split_ifs with hfooter
    · obtain ⟨v, hv, hin⟩ := hf (view_eq_iff.mp (of_decide_eq_true hfooter))
      rw [hv, ok_bind, bufferMatch_eq_ok (by omega), ok_bind]
      split_ifs <;> exact ⟨_, rfl⟩
    · exact ⟨_, rfl⟩

theorem Hdr.size_setSize_of_le {hdr : Hdr} {b : Block} {v : ℕ} (h : v ≤ hdr.size b) :
    (hdr.setSize b v).size b = v := by
  have hlt := hdr.size_lt b
  rw [Hdr.size_setSize_self]
  split_ifs with hb
  · exact Nat.mod_eq_of_lt (by omega)
  · rw [Hdr.size_of_not_has hb] at h
    omega

theorem dump_of_at {c : Bytes} {off : ℕ} (h : At mem off c) :
    dump mem off c.length = .ok (stored c) := by
  unfold dump stored
  by_cases hc : c = []
  · rw [if_pos (by rw [hc]; rfl), if_pos hc]
  · have hl : c.length ≠ 0 := fun h0 => hc (eq_nil_of_length_eq_zero h0)
    rw [if_neg hl, if_neg hc, read_eq_ok.mpr ⟨rfl, h⟩]
    rfl

theorem dumpPart_skip (env : Env) (mem : Bytes) (fmt : FileFormat) (off n : ℕ) :
    dumpPart env mem true fmt off n = dump mem off n := rfl

/-- What `unpack` writes for an image with all its parts where they are to be. -/
theorem unpack_of_at (env : Env) {img : BootImg} {kept : Files}
    (ht : img.hdr.size .vendorRamdiskTable = 0) (hv : kept.vendorRamdisk = [])
    (hk : dump img.mem img.kernel.kernel (img.hdr.size .kernel) = .ok kept.kernel)
    (hd : dump img.mem img.kernel.dtb.1 img.kernel.dtb.2 = .ok kept.kernelDtb)
    (hr : dump img.mem img.ramdisk.ramdisk (img.hdr.size .ramdisk) = .ok kept.ramdisk)
    (hb : ∀ b ∈ [Block.second, .extra, .recoveryDtbo, .dtb, .bootconfig],
      dump img.mem (img.block b) (img.hdr.size b) = .ok (kept.optional b)) :
    unpack env img true = .ok kept := by
  have hramdisk : dumpRamdisk env img true = .ok (kept.ramdisk, []) := by
    rw [dumpRamdisk, if_neg (by simp [ht]), dumpPart_skip, hr]
    rfl
  simp only [unpack, dumpPart_skip]
  rw [hk, ok_bind, hd, ok_bind, hramdisk, ok_bind]
  dsimp only
  rw [hb .second (by decide), ok_bind, hb .extra (by decide), ok_bind,
    hb .recoveryDtbo (by decide), ok_bind, hb .dtb (by decide), ok_bind,
    hb .bootconfig (by decide), ok_bind, ← hv]
  rfl

theorem optional_keptFiles {b : Block}
    (hb : b ∈ [Block.second, .extra, .recoveryDtbo, .dtb, .bootconfig]) :
    (keptFiles boot files).optional b = stored ((files.optional b).getD []) := by
  fin_cases hb <;> rfl

variable {file : Bytes} {hdr : Hdr} {flags : Flags} {x : Run}
  (hparsed : IsParsed env file hdr flags boot) (h : IsRun env boot files true r x)
  (hf : Refits env boot files r)

include hparsed in
theorem pageSize_pos : 0 < boot.hdr.pageSize := by
  rw [hparsed.pageSize_eq]
  exact hparsed.pageSize_pos

include hparsed h hf

theorem Refits.size_eq (b : Block) : r.hdr.size b = (r.out.wrote b).length :=
  size_eq_of_fits h hf.short hparsed.kernelFree (hf.fits b)

theorem Refits.at_block (b : Block) :
    At (env.mapped r.image) (r.start boot.hdr.pageSize x.space b) (r.block boot b) := by
  have hp := pageSize_pos hparsed
  have hlt := hf.short
  have hmax : sendfileMax = 0x7ffff000 := rfl
  exact at_mapped env (at_image_block h hf.aligned hp (by omega) hf.plain.vbmeta hf.plain.amonet
    (hf.plain.le_space h hp) b)

theorem Refits.at_optional {b : Block}
    (hb : b ∈ [Block.second, .extra, .recoveryDtbo, .dtb, .bootconfig]) :
    At (env.mapped r.image) (r.start boot.hdr.pageSize x.space b) ((files.optional b).getD []) ∧
      r.hdr.size b = ((files.optional b).getD []).length := by
  have hw := (h.optional hf.short hb).1
  have hblock : r.block boot b = (files.optional b).getD [] := by
    rw [← hw]
    fin_cases hb <;> rfl
  rw [← hblock]
  refine ⟨hf.at_block hparsed h b, ?_⟩
  rw [r.block_length, hf.size_eq hparsed h]

theorem Refits.exists_kernel : ∃ k,
    parseKernel (env.mapped r.image) (r.start boot.hdr.pageSize x.space .kernel)
      (r.hdr.size .kernel) = .ok k ∧
    k.size = (keptKernel boot files).length ∧ k.size ≤ r.hdr.size .kernel ∧
    At (env.mapped r.image) k.kernel (keptKernel boot files) ∧
    k.dtb.2 = (files.kernelDtb.getD []).length ∧
    At (env.mapped r.image) k.dtb.1 (files.kernelDtb.getD []) := by
  have hlt := hf.short
  have hmax : sendfileMax = 0x7ffff000 := rfl
  have hle := wrote_length_le h .kernel
  have hat := hf.at_block hparsed h .kernel
  have hsize := hf.size_eq hparsed h .kernel
  obtain ⟨hblock, hlen, hcontent⟩ :=
    kernel_block h hlt hparsed.kernelFree (hf.fits .kernel) hsize
  rw [hsize, hlen]
  have hreads : KernelReads (env.mapped r.image) (r.start boot.hdr.pageSize x.space .kernel)
      (kernelSizes boot files) ∨ (kernelSizes boot files).total = 0 := by
    by_cases h0 : kernelBlock boot files = []
    · right
      rw [← hlen, ← r.block_length boot, hblock, h0]
      rfl
    · rw [hblock] at hat
      exact .inl ((hf.kernel h0).within hat)
  obtain ⟨k, hk, hksize, hfound⟩ :=
    exists_parseKernel hreads (by omega) (hat.sub hcontent)
  have htotal : (kernelSizes boot files).total = (kernelSizes boot files).start +
      ((kernelSizes boot files).zHdr + ((keptKernel boot files).length +
        (kernelSizes boot files).zTail)) + (files.kernelDtb.getD []).length := rfl
  exact ⟨k, hk, hksize, by omega, hfound⟩

theorem Refits.exists_ramdisk (table : ℕ) : ∃ k,
    parseRamdisk (env.mapped r.image) r.hdr (r.start boot.hdr.pageSize x.space .ramdisk) table =
      .ok k ∧ k.size = (files.ramdisk.getD []).length ∧ k.size ≤ r.hdr.size .ramdisk ∧
    At (env.mapped r.image) k.ramdisk (files.ramdisk.getD []) := by
  have hat := hf.at_block hparsed h .ramdisk
  have hsize := hf.size_eq hparsed h .ramdisk
  obtain ⟨hblock, hlen, hcontent⟩ := ramdisk_block h hf.short hf.noTable
  have htable : r.hdr.size .vendorRamdiskTable = 0 := by rw [h.table.2, hf.noTable]
  have hreads : RamdiskReads (env.mapped r.image) (r.start boot.hdr.pageSize x.space .ramdisk)
      boot.ramdisk.mtkHdr.isSome (files.ramdisk.getD []).length ∨ r.hdr.size .ramdisk = 0 := by
    by_cases h0 : ramdiskBlock boot files = []
    · right
      rw [hsize, ← r.block_length boot, hblock, h0]
      rfl
    · rw [hblock] at hat
      exact .inl ((hf.ramdisk h0).within hat)
  obtain ⟨k, hk, hksize, hfound⟩ :=
    exists_parseRamdisk table hreads htable (hsize.trans hlen) (hat.sub hcontent)
  exact ⟨k, hk, hksize, by omega, hfound⟩

theorem Refits.exists_extra : ∃ f,
    parseExtra (env.mapped r.image) (r.start boot.hdr.pageSize x.space .extra)
      (r.hdr.size .extra) = .ok f := by
  obtain ⟨hat, hsize⟩ := hf.at_optional hparsed h (b := .extra) (by decide)
  rw [hsize]
  refine exists_parseExtra ?_ hat
  cases hd : files.optional .extra with
  | none => exact ⟨.unknown, by decide⟩
  | some d => exact hf.extra d hd

theorem Refits.exists_tail (flags : Flags) : ∃ t,
    parseTail env (env.mapped r.image) r.header
      (endOf boot.hdr.pageSize (fun b => (r.out.wrote b).length) Block.all x.space) flags =
        .ok t := by
  have hmaps : env.mapAddr + (env.mapped r.image).length < 2 ^ 63 := hf.maps
  have hend := (h.layout hf.aligned (pageSize_pos hparsed)).2.2.2
  have hfd := h.fd_length_le
  have hlens := h.length_eq
  have hle := length_le_mapped env r.image
  have h64 : avbFooterSize = 64 := rfl
  have hraw : 1580 ≤ x.space :=
    boot.hdr.kind.le_hdrSize.trans (hf.plain.le_space h (pageSize_pos hparsed))
  have hstart := h.start_add_le hf.aligned (pageSize_pos hparsed) .kernel
  have hspace := IsRun.le_start (r := r) (x := x) .kernel boot.hdr.pageSize
  rw [length_append] at hfd
  exact exists_parseTail env flags (by omega) (by omega) (by omega) hf.footer

/-- `parse_image` accepts the output where its header is, and `unpack` finds the files. -/
theorem Refits.exists_parseImage (hfound : hdr.Found) (flags' : Flags) : ∃ fl img,
    parseImage env r.image flags' r.header r.hdr.kind.format = .ok (fl, some img) ∧
      unpack env img true = .ok (keptFiles boot files) := by
  have hp := pageSize_pos hparsed
  have hsize := hf.size_eq hparsed h
  have hhdr := parseHdr_image hparsed hfound h hf.short hf.plain hf.aligned hp (hf.fits .extra)
    (hsize .extra) flags'
  have hblocks := getBlocks_image h hf.aligned hp hf.maps hsize
  obtain ⟨k, hk, hksize, hkle, hkat, htsize, htat⟩ := hf.exists_kernel hparsed h
  obtain ⟨d, hd, hdsize, hdle, hdat⟩ :=
    hf.exists_ramdisk hparsed h (r.start boot.hdr.pageSize x.space .vendorRamdiskTable)
  obtain ⟨eFmt, he⟩ := hf.exists_extra hparsed h
  obtain ⟨t, ht⟩ := hf.exists_tail hparsed h
    { flags' with sha256 := flags'.sha256 || r.hdr.idIsSha256 }
  refine ⟨_, {
    file := r.image
    mem := env.mapped r.image
    hdr := (r.hdr.setSize .kernel k.size).setSize .ramdisk d.size
    flags := t.flags
    payload := (r.header,
      endOf boot.hdr.pageSize (fun b => (r.out.wrote b).length) Block.all x.space)
    block := r.start boot.hdr.pageSize x.space
    kernel := k
    ramdisk := d
    eFmt := eFmt
    avbFooter := t.avbFooter
    vbmeta := t.vbmeta }, parseImage_eq_ok.mpr ⟨r.hdr, flags', hhdr, rfl,
      ⟨rfl, rfl, ⟨x.space, (space_eq h).2, hblocks⟩, hk, hd, he, rfl, ht⟩⟩, ?_⟩
  have hother {b : Block} (hb : b ≠ .kernel) (hb' : b ≠ .ramdisk) :
      ((r.hdr.setSize .kernel k.size).setSize .ramdisk d.size).size b = r.hdr.size b := by
    rw [Hdr.size_setSize_of_ne hb'.symm, Hdr.size_setSize_of_ne hb.symm]
  have hkernel : ((r.hdr.setSize .kernel k.size).setSize .ramdisk d.size).size .kernel =
      (keptKernel boot files).length := by
    rw [Hdr.size_setSize_of_ne (by decide), Hdr.size_setSize_of_le hkle, hksize]
  have hramdisk : ((r.hdr.setSize .kernel k.size).setSize .ramdisk d.size).size .ramdisk =
      (files.ramdisk.getD []).length := by
    rw [Hdr.size_setSize_of_le, hdsize]
    rwa [Hdr.size_setSize_of_ne (by decide)]
  apply unpack_of_at
  · rw [hother (by decide) (by decide), h.table.2, hf.noTable]
  · rfl
  · rw [hkernel]
    exact dump_of_at hkat
  · rw [htsize]
    exact dump_of_at htat
  · rw [hramdisk]
    exact dump_of_at hdat
  · intro b hb
    obtain ⟨hat, hbsize⟩ := hf.at_optional hparsed h hb
    rw [hother (by rintro rfl; simp at hb) (by rintro rfl; simp at hb), hbsize,
      optional_keptFiles hb]
    exact dump_of_at hat

end Reload

/-- The magic is none of the fields that are stored. -/
theorem magic_image {env : Env} {file : Bytes} {boot : BootImg} {files : Files} {r : Repacked}
    {hdr : Hdr} {flags : Flags} {x : Run} (hparsed : IsParsed env file hdr flags boot)
    (h : IsRun env boot files true r x) (hraw : At boot.mem boot.payload.1 hdr.raw)
    (hfmt : checkFmt boot.mem boot.payload.1 file.length = .ok hdr.kind.format) :
    At r.hdr.raw 0 r.hdr.kind.magic := by
  have hsame := (hparsed.sameBut.mono (G := fun f => f.written)
    (by rintro f (rfl | rfl) <;> rfl)).trans h.sameBut
  have hbehind : ∀ (k : HdrKind) (f : Field), f.written → ∀ x ∈ k.field f, 8 ≤ x.1 := by
    decide
  have hview : view r.hdr.raw 0 8 = view hdr.raw 0 8 :=
    hsame.view_eq 0 8 fun f hf x hx => .inr (hbehind _ f hf x hx)
  have hlen : 1580 ≤ hdr.raw.length := hdr.raw_length ▸ hdr.kind.le_hdrSize
  have hat : At hdr.raw 0 hdr.kind.magic :=
    At.within (i := 0) hraw (magic_of_checkFmt hfmt).1 (by rw [hdr.kind.magic_length]; omega)
  rw [hsame.kind_eq, ← view_eq_iff, hdr.kind.magic_length, hview, ← hdr.kind.magic_length]
  exact hat.view_eq

def sampleDtb : Bytes := dtbMagic ++ (beBytes 4 76 ++ (beBytes 4 72 ++ (zeros 60 ++ beBytes 4 1)))

def sampleKernel : Files :=
  { kernel := some (lit "xyz"), kernelDtb := some sampleDtb, ramdisk := some (lit "cpio") }

theorem sampleKernel_run : checkRun sampleEnv (kernelImage [1, 2, 3, 4]) sampleKernel (fun boot r =>
    decide (r.image.length < sendfileMax ∧
      sampleEnv.mapAddr + (sampleEnv.mapped r.image).length < 2 ^ 63 ∧
      (boot.flags.loader = false ∧ boot.flags.avb = false ∧ boot.flags.dhtb = false ∧
        boot.flags.blob = false) ∧
      boot.hdr.hdrSize ≤ boot.hdr.pageSize ∧ view boot.hdr.raw 1024 8 ≠ bootMagic ∧
      (boot.kernel.mtkHdr = none ∧ boot.kernel.zimage = false ∧ boot.ramdisk.mtkHdr = none) ∧
      boot.hdr.size .vendorRamdiskTable = 0 ∧ (∀ b, Fits boot sampleKernel b) ∧
      view (sampleEnv.mapped r.image) ((sampleEnv.mapped r.image).length - avbFooterSize) 4 ≠
        lit "AVBf")) := by
  decide +kernel

end Magisk.Boot
