import Magisk.Boot.Layout

namespace Magisk.Boot

/-- The image as parsed with the header `hdr` and the flags that the header sets. -/
structure IsParsed (env : Env) (file : Bytes) (hdr : Hdr) (flags : Flags) (boot : BootImg) :
    Prop where
  file_eq : boot.file = file
  mem_eq : boot.mem = env.mapped file
  blocks : ∃ space, hdr.hdrSpace = .ok space ∧
    getBlocks env.mapAddr hdr boot.payload.1 boot.mem.length Block.all (fun _ => 0, space) =
      .ok (some (boot.block, boot.payload.2))
  kernel : parseKernel boot.mem (boot.block .kernel) (hdr.size .kernel) = .ok boot.kernel
  ramdisk : parseRamdisk boot.mem hdr (boot.block .ramdisk) (boot.block .vendorRamdiskTable) =
    .ok boot.ramdisk
  extra : parseExtra boot.mem (boot.block .extra) (hdr.size .extra) = .ok boot.eFmt
  hdr_eq : boot.hdr = (hdr.setSize .kernel boot.kernel.size).setSize .ramdisk boot.ramdisk.size
  tail : parseTail env boot.mem boot.payload.1 boot.payload.2 flags =
    .ok ⟨boot.flags, boot.avbFooter, boot.vbmeta⟩

section

variable {env : Env} {file : Bytes} {boot : BootImg} {flags flags' : Flags} {addr : ℕ}
  {type : FileFormat}

variable {hdr : Hdr} {mem : Bytes} {space : ℕ}

theorem parseParts_eq_ok {block : Block → ℕ} {off : ℕ}
    (hblocks : ∃ space, hdr.hdrSpace = .ok space ∧
      getBlocks env.mapAddr hdr addr (env.mapped file).length Block.all (fun _ => 0, space) =
        .ok (some (block, off))) :
    parseParts env file addr hdr flags block off = .ok boot ↔
      IsParsed env file hdr flags boot ∧ boot.payload = (addr, off) ∧ boot.block = block := by
  constructor
  · intro h
    simp only [parseParts, bind_eq_ok] at h
    obtain ⟨k, hk, r, hr, e, he, t, ht, h⟩ := h
    cases h
    exact ⟨⟨rfl, rfl, hblocks, hk, hr, he, rfl, ht⟩, rfl, rfl⟩
  · rintro ⟨⟨hfile, hmem, -, hk, hr, he, hh, ht⟩, hp, hb⟩
    obtain ⟨file', mem, hdr', flags'', payload, block', k, r, eFmt, footer, vbmeta⟩ := boot
    dsimp only at *
    subst hfile hmem hp hb hh
    simp only [parseParts, hk, hr, he, ht, bind, Except.bind]
    rfl

theorem parseImage_eq_ok :
    parseImage env file flags addr type = .ok (flags', some boot) ↔
      ∃ hdr hflags, parseHdr (env.mapped file) addr type flags =
          .ok (some hdr, boot.payload.1, hflags) ∧
        flags' = { hflags with sha256 := hflags.sha256 || hdr.idIsSha256 } ∧
        IsParsed env file hdr flags' boot := by
  constructor
  · intro h
    simp only [parseImage, bind_eq_ok] at h
    obtain ⟨⟨hdr, addr', hflags⟩, hh, h⟩ := h
    cases hdr with
    | none => cases h
    | some hdr =>
      simp only [bind_eq_ok] at h
      obtain ⟨space, hs, b, hb, h⟩ := h
      cases b with
      | none => cases h
      | some b =>
        obtain ⟨block, off⟩ := b
        simp only [bind_eq_ok] at h
        obtain ⟨img, hi, h⟩ := h
        cases h
        obtain ⟨hp, hpay, -⟩ := (parseParts_eq_ok ⟨space, hs, hb⟩).mp hi
        refine ⟨hdr, hflags, ?_, rfl, hp⟩
        rw [hh, hpay]
  · rintro ⟨hdr, hflags, hh, rfl, hp⟩
    obtain ⟨space, hs, hb⟩ := hp.blocks
    rw [hp.mem_eq] at hb
    have hi := (parseParts_eq_ok ⟨space, hs, hb⟩).mpr ⟨hp, rfl, rfl⟩
    simp only [parseImage, hh, hs, hb, hi, bind, Except.bind]
    rfl

theorem parseImage_isParsed {addr' : ℕ} {hflags : Flags}
    (hh : parseHdr (env.mapped file) addr type flags = .ok (some hdr, addr', hflags))
    (hp : parseImage env file flags addr type = .ok (flags', some boot)) :
    IsParsed env file hdr flags' boot := by
  obtain ⟨hdr', hflags', hh', -, hp⟩ := parseImage_eq_ok.mp hp
  cases hh.symm.trans hh'
  exact hp

theorem tailFlags_eq_ok {off : ℕ} {f : Flags} (h : tailFlags env mem addr off flags = .ok f) :
    f = { flags with seandroid := true } ∨ f = { flags with lgBump := true } ∨
      f = { flags with avb1Signed := true } ∨ f = flags := by
  simp only [tailFlags, bind_eq_ok] at h
  obtain ⟨c, -, h⟩ := h
  cases c with
  | true =>
    cases h
    exact .inl rfl
  | false =>
    simp only [Bool.false_eq_true, if_false, bind_eq_ok] at h
    obtain ⟨d, -, h⟩ := h
    cases d with
    | true =>
      cases h
      exact .inr (.inl rfl)
    | false =>
      simp only [Bool.false_eq_true, if_false] at h
      by_cases hv : env.verify (view mem addr off) (mem.drop (ptrAdd addr off))
      · rw [if_pos hv] at h
        cases h
        exact .inr (.inr (.inl rfl))
      · rw [if_neg hv] at h
        cases h
        exact .inr (.inr (.inr rfl))

theorem parseTail_eq_ok {off : ℕ} {t : TailInfo} (h : parseTail env mem addr off flags = .ok t) :
    (tailSize mem (ptrAdd addr off) = 0 ∧ t = { flags := flags }) ∨
    ∃ f, tailFlags env mem addr off flags = .ok f ∧ avbFooterSize ≤ mem.length ∧
      (t = { flags := f } ∨ t = { flags := f, avbFooter := some (mem.length - avbFooterSize) } ∨
        ∃ vbmeta, bufferMatch mem (mem.length - avbFooterSize) (lit "AVBf") = .ok true ∧
          readBe 8 mem (mem.length - avbFooterSize + 20) = .ok vbmeta ∧
          t = ⟨{ f with avb := true }, some (mem.length - avbFooterSize),
            some (ptrAdd addr vbmeta)⟩) := by
  unfold parseTail at h
  by_cases hle : tailSize mem (ptrAdd addr off) = 0
  · rw [if_pos hle] at h
    cases h
    exact .inl ⟨hle, rfl⟩
  rw [if_neg hle, bind_eq_ok] at h
  obtain ⟨f, hf, h⟩ := h
  by_cases hlen : mem.length < avbFooterSize
  · rw [if_pos hlen] at h
    cases h
  refine .inr ⟨f, hf, by omega, ?_⟩
  simp only [if_neg hlen, bind_eq_ok] at h
  obtain ⟨c, hc, h⟩ := h
  cases c with
  | false =>
    cases h
    exact .inl rfl
  | true =>
    simp only [if_true, bind_eq_ok] at h
    obtain ⟨off, hoff, d, -, h⟩ := h
    cases d with
    | false =>
      cases h
      exact .inr (.inl rfl)
    | true =>
      cases h
      exact .inr (.inr ⟨off, hc, hoff, rfl⟩)

theorem parseHdr_eq_ok {hdr : Option Hdr} {addr' : ℕ}
    (h : parseHdr mem addr type flags = .ok (hdr, addr', flags')) : addr ≤ addr' ∧
      (flags' = flags ∨ flags' = { flags with amonet := true } ∨
        flags' = { flags with nookhd := true } ∨ flags' = { flags with acclaim := true }) := by
  have hpre : ∀ {r : ℕ × Flags}, preHeader mem addr flags = .ok r → addr ≤ r.1 ∧
      (r.2 = flags ∨ r.2 = { flags with nookhd := true } ∨ r.2 = { flags with acclaim := true }) := by
    intro r hr
    simp only [preHeader, bind_eq_ok] at hr
    obtain ⟨c, -, hr⟩ := hr
    split_ifs at hr
    · cases hr
      exact ⟨Nat.le_add_right _ _, .inr (.inl rfl)⟩
    · rw [bind_eq_ok] at hr
      obtain ⟨c, -, hr⟩ := hr
      split_ifs at hr
      · cases hr
        exact ⟨Nat.le_add_right _ _, .inr (.inr rfl)⟩
      · cases hr
        exact ⟨le_rfl, .inl rfl⟩
  unfold parseHdr at h
  split_ifs at h
  · simp only [bind_eq_ok] at h
    obtain ⟨v, -, hd, -, h⟩ := h
    cases h
    exact ⟨le_rfl, .inl rfl⟩
  · rw [bind_eq_ok] at h
    obtain ⟨page, -, h⟩ := h
    split_ifs at h
    · rw [bind_eq_ok] at h
      obtain ⟨hd, -, h⟩ := h
      cases h
      exact ⟨le_rfl, .inl rfl⟩
    · rw [bind_eq_ok] at h
      obtain ⟨c, -, h⟩ := h
      split_ifs at h
      · simp only [bind_eq_ok] at h
        obtain ⟨v, -, hd, -, h⟩ := h
        cases h
        exact ⟨le_rfl, .inr (.inl rfl)⟩
      · simp only [bind_eq_ok] at h
        obtain ⟨r, hr, hd, -, h⟩ := h
        cases h
        obtain ⟨hle, hflags⟩ := hpre hr
        exact ⟨hle, hflags.imp_right .inr⟩

/-- How the loop of the constructor ends: with an accepted image at its position, or behind it. -/
theorem loadFrom_succ {fuel : ℕ} (h : loadFrom env file (fuel + 1) addr flags = .ok boot) :
    (∃ type flags', (type = .aosp ∨ type = .aospVendor) ∧
      checkFmt (env.mapped file) addr file.length = .ok type ∧
      parseImage env file flags addr type = .ok (flags', some boot)) ∨
    ∃ addr' flags', addr < addr' ∧ loadFrom env file fuel addr' flags' = .ok boot := by
  rw [loadFrom] at h
  split_ifs at h
  rw [bind_eq_ok] at h
  obtain ⟨fmt, hfmt, h⟩ := h
  split at h
  · exact .inr ⟨_, _, by omega, h⟩
  · exact .inr ⟨_, _, by simp [dhtbHdrSize], h⟩
  · exact .inr ⟨_, _, by simp [blobHdrSize], h⟩
  · rw [bind_eq_ok] at h
    obtain ⟨⟨flags', img⟩, hp, h⟩ := h
    cases img with
    | none => exact .inr ⟨_, _, by omega, h⟩
    | some img =>
      cases h
      exact .inl ⟨_, _, .inl rfl, hfmt, hp⟩
  · rw [bind_eq_ok] at h
    obtain ⟨⟨flags', img⟩, hp, h⟩ := h
    cases img with
    | none => exact .inr ⟨_, _, by omega, h⟩
    | some img =>
      cases h
      exact .inl ⟨_, _, .inr rfl, hfmt, hp⟩
  · exact .inr ⟨_, _, by omega, h⟩

theorem loadFrom_parseImage {fuel : ℕ} (h : loadFrom env file fuel addr flags = .ok boot) :
    addr ≤ boot.payload.1 ∧ ∃ addr' type flags flags', (type = .aosp ∨ type = .aospVendor) ∧
      checkFmt (env.mapped file) addr' file.length = .ok type ∧
      parseImage env file flags addr' type = .ok (flags', some boot) := by
  induction fuel generalizing addr flags with
  | zero => cases h
  | succ fuel ih =>
    rcases loadFrom_succ h with ⟨type, flags', ht, hc, hp⟩ | ⟨addr', flags', hlt, h⟩
    · obtain ⟨hdr, hflags, hh, -⟩ := parseImage_eq_ok.mp hp
      exact ⟨(parseHdr_eq_ok hh).1, addr, type, flags, flags', ht, hc, hp⟩
    · obtain ⟨hle, hparsed⟩ := ih h
      exact ⟨by omega, hparsed⟩

theorem load_at_zero (h : load env file = .ok boot) (h0 : boot.payload.1 = 0) :
    ∃ type flags', (type = .aosp ∨ type = .aospVendor) ∧
      checkFmt (env.mapped file) 0 file.length = .ok type ∧
      parseImage env file {} 0 type = .ok (flags', some boot) := by
  rcases loadFrom_succ h with h | ⟨addr', flags', hlt, h⟩
  · exact h
  · have := (loadFrom_parseImage h).1
    omega

theorem hdrSpace_eq (h0 : 0 < hdr.pageSize) (h31 : hdr.pageSize < 2 ^ 31)
    (h : hdr.hdrSpace = .ok space) :
    space = if hdr.kind.isVendor then alignTo hdr.hdrSize hdr.pageSize else hdr.pageSize := by
  have hsize : hdr.hdrSize < 2 ^ 63 := lt_of_le_of_lt hdr.kind.hdrSize_le (by norm_num)
  unfold Hdr.hdrSpace at h
  split_ifs at h ⊢
  · rw [alignInt_of_lt h0 h31 hsize] at h
    exact (Except.ok.inj h).symm
  · exact (Except.ok.inj h).symm

theorem dvd_hdrSpace (h0 : 0 < hdr.pageSize) (h31 : hdr.pageSize < 2 ^ 31)
    (h : hdr.hdrSpace = .ok space) : hdr.pageSize ∣ space := by
  rw [hdrSpace_eq h0 h31 h]
  split_ifs
  · exact dvd_alignTo _ _
  · exact dvd_rfl

theorem hdrSpace_lt (h0 : 0 < hdr.pageSize) (h31 : hdr.pageSize < 2 ^ 31)
    (h : hdr.hdrSpace = .ok space) : space + Block.all.length * 2 ^ 33 < 2 ^ 63 := by
  have hsize : hdr.hdrSize ≤ 2128 := hdr.kind.hdrSize_le
  have hround := alignTo_lt h0 hdr.hdrSize
  have hlen : Block.all.length = 9 := by decide
  rw [hdrSpace_eq h0 h31 h, hlen]
  split_ifs <;> omega

theorem Hdr.SameBut.hdrSpace_eq {F : Field → Prop} {h h' : Hdr} (hs : Hdr.SameBut F h h')
    (hp : ¬ F .pageSize) : h'.hdrSpace = h.hdrSpace := by
  unfold Hdr.hdrSpace Hdr.hdrSize
  rw [hs.pageSize_eq hp, hs.kind_eq]

namespace IsParsed

variable {hdr : Hdr} (h : IsParsed env file hdr flags boot)

include h

theorem sameBut : Hdr.SameBut (fun f => f = .size .kernel ∨ f = .size .ramdisk) hdr boot.hdr := by
  rw [h.hdr_eq]
  exact (Hdr.SameBut.set (.inl rfl) hdr _).trans (Hdr.SameBut.set (.inr rfl) _ _)

theorem pageSize_eq : boot.hdr.pageSize = hdr.pageSize := h.sameBut.pageSize_eq (by simp)

theorem has_iff (b : Block) : boot.hdr.Has b ↔ hdr.Has b := h.sameBut.has_iff b

theorem pageSize_pos : 0 < hdr.pageSize := by
  obtain ⟨space, -, hb⟩ := h.blocks
  exact pos_of_getBlocks (by decide) hb

theorem layout (hmap : env.Maps file) (haddr : boot.payload.1 ≤ boot.mem.length)
    (h31 : hdr.pageSize < 2 ^ 31) : ∃ space, hdr.hdrSpace = .ok space ∧
    (∀ b, boot.block b = boot.payload.1 + startOf hdr.pageSize hdr.size Block.all space b) ∧
    boot.payload.2 = endOf hdr.pageSize hdr.size Block.all space ∧
    boot.payload.1 + boot.payload.2 ≤ boot.mem.length := by
  obtain ⟨space, hs, hb⟩ := h.blocks
  have h0 := h.pageSize_pos
  have hd := dvd_hdrSpace h0 h31 hs
  have hlt := hdrSpace_lt h0 h31 hs
  have hend : env.mapAddr + boot.mem.length < 2 ^ 63 := h.mem_eq ▸ hmap
  have hle := le_of_getBlocks h0 h31 (by decide) hd hend haddr hlt hb
  rw [getBlocks_of_le h0 h31 Block.nodup_all _ hd hend haddr hlt hle, Except.ok.injEq,
    Option.some.injEq,
    Prod.mk.injEq] at hb
  obtain ⟨hblock, hend⟩ := hb
  refine ⟨space, hs, fun b => ?_, hend.symm, by omega⟩
  rw [← hblock]
  exact if_pos (Block.mem_all b)

theorem kernel_of_size_zero (h0 : hdr.size .kernel = 0) :
    boot.kernel = { kernel := boot.block .kernel, size := 0 } := by
  have hk := h.kernel
  rw [parseKernel, if_pos h0] at hk
  exact (Except.ok.inj hk).symm

end IsParsed

end

end Magisk.Boot
