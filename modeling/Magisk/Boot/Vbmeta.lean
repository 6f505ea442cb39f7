import Magisk.Boot.Image

namespace Magisk.Boot

open List

section Place

variable (env : Env) (boot : BootImg) (files : Files) (skipComp : Bool)

/-- How many bytes are written for a block, and whether the file is aligned behind them. -/
def pieceSize (b : Block) : ℕ × Bool :=
  match repackBlock env boot files skipComp b 0 boot.hdr with
  | .ok p => (p.bytes.length, p.aligned)
  | .error _ => (0, false)

/-- Where the blocks end when the first one starts at the offset. -/
def blocksEnd : List Block → ℕ → ℕ
  | [], off => off
  | b :: bs, off =>
    let (n, aligned) := pieceSize env boot files skipComp b
    blocksEnd bs (if aligned then alignTo (off + n) boot.hdr.pageSize else off + n)

/-- The end of the blocks and of what proprietary loaders want behind them. -/
def trailerEnd : ℕ :=
  blocksEnd env boot files skipComp Block.all (boot.hdr.hdrSpace.toOption.getD 0) +
    (trailer boot).length

def vbmetaStart : ℕ :=
  alignTo (alignTo (trailerEnd env boot files skipComp) boot.hdr.pageSize) 4096

end Place

def keptVbmeta (env : Env) (vbmeta : Bytes) : Bytes :=
  if env.patchVbmetaFlag then overwrite vbmeta 120 (beBytes 4 3) else vbmeta

/-- The image ends with a footer that gives the place of the blob, which is before the footer. -/
def EndsWithVbmeta (image vbmeta : Bytes) : Prop :=
  ∃ footer off, footer + avbFooterSize = image.length ∧ At image footer (lit "AVBf") ∧
    readBe 8 image (footer + 20) = .ok off ∧ readBe 8 image (footer + 28) = .ok vbmeta.length ∧
    off + vbmeta.length ≤ footer ∧ At image off vbmeta

section

variable {env : Env} {boot : BootImg} {files : Files} {skipComp : Bool} {r : Repacked} {x : Run}

theorem size_setSize_congr {h h' : Hdr} (hk : h.kind = h'.kind) (b : Block) (v : ℕ) :
    (h.setSize b v).size b = (h'.setSize b v).size b := by
  have hhas : h.Has b ↔ h'.Has b := by rw [Hdr.Has, hk, Hdr.Has]
  rw [Hdr.size_setSize_self, Hdr.size_setSize_self]
  simp only [hhas]

theorem kernelBody_congr {h h' h1 : Hdr} (hk : h.kind = h'.kind) {body : Bytes}
    (hb : kernelBody env boot files skipComp h = .ok (body, h1)) :
    ∃ h1', kernelBody env boot files skipComp h' = .ok (body, h1') := by
  unfold kernelBody at hb ⊢
  cases hf : files.kernel with
  | none =>
    simp only [hf] at hb ⊢
    split_ifs at hb ⊢
    · rw [bind_eq_ok] at hb
      obtain ⟨data, hd, hb⟩ := hb
      cases hb
      exact ⟨_, by rw [hd]; rfl⟩
    · cases hb
      exact ⟨_, rfl⟩
  | some m =>
    simp only [hf, bind_eq_ok] at hb
    obtain ⟨data, hd, hb⟩ := hb
    simp only [hd, bind, Except.bind]
    rw [← size_setSize_congr hk]
    split_ifs at hb ⊢
    · rw [bind_eq_ok] at hb
      obtain ⟨z, hz, hb⟩ := hb
      cases hb
      exact ⟨_, by rw [hz]; rfl⟩
    · cases hb
      exact ⟨_, rfl⟩

theorem repackBlock_congr {b : Block} {pos pos' : ℕ} {h h' : Hdr} {p : Piece}
    (hs : Hdr.SameBut (fun f => f.written) h' h)
    (hp : repackBlock env boot files skipComp b pos h = .ok p) :
    ∃ p', repackBlock env boot files skipComp b pos' h' = .ok p' ∧ p'.bytes = p.bytes ∧
      p'.aligned = p.aligned := by
  cases b with
  | kernel =>
    obtain ⟨q, hq, rfl⟩ := repackKernel_eq_ok.mp hp
    obtain ⟨h1, hb⟩ := kernelBody_congr hs.kind_eq hq.body
    refine ⟨_, repackKernel_eq_ok.mpr ⟨⟨q.mtk, q.zHdr, q.body, q.zTail, h1⟩,
      ⟨hq.mtk, hq.zHdr, hb, hq.zTail⟩, rfl⟩, ?_⟩
    unfold KernelParts.piece
    cases files.kernelDtb <;> exact ⟨rfl, rfl⟩
  | ramdisk =>
    have hfmt : ramdiskFmt boot skipComp h' = ramdiskFmt boot skipComp h := by
      have hv : h.headerVersion = h'.headerVersion := hs.val_eq (by decide)
      rw [ramdiskFmt, ramdiskFmt, hv, hs.kind_eq]
    simp only [repackBlock, repackRamdisk, bind_eq_ok] at hp
    obtain ⟨mtk, hm, hp⟩ := hp
    simp only [repackBlock, repackRamdisk, hm, hfmt, bind, Except.bind]
    split_ifs at hp ⊢
    · rw [bind_eq_ok] at hp
      obtain ⟨⟨es, data, fin⟩, ht, hp⟩ := hp
      cases hp
      rw [ht]
      exact ⟨_, rfl, rfl, rfl⟩
    · cases hf : files.ramdisk with
      | none =>
        rw [hf] at hp
        cases hp
        exact ⟨_, rfl, rfl, rfl⟩
      | some m =>
        simp only [hf, bind_eq_ok] at hp
        obtain ⟨data, hd, hp⟩ := hp
        cases hp
        simp only [hd]
        exact ⟨_, rfl, rfl, rfl⟩
  | extra =>
    simp only [repackBlock, repackExtra] at hp ⊢
    cases hf : files.extra with
    | none =>
      rw [hf] at hp
      cases hp
      exact ⟨_, rfl, rfl, rfl⟩
    | some m =>
      simp only [hf, bind_eq_ok] at hp
      obtain ⟨data, hd, hp⟩ := hp
      cases hp
      simp only [hd, bind, Except.bind]
      exact ⟨_, rfl, rfl, rfl⟩
  | second | dtb | bootconfig =>
    cases hp
    refine ⟨_, rfl, ?_⟩
    unfold restoreBlock
    split <;> exact ⟨rfl, rfl⟩
  | recoveryDtbo =>
    cases hp
    refine ⟨_, rfl, ?_⟩
    unfold repackRecoveryDtbo restoreBlock
    cases files.recoveryDtbo <;> exact ⟨rfl, rfl⟩
  | signature =>
    simp only [repackBlock, repackSignature] at hp ⊢
    split_ifs at hp ⊢
    · rw [bind_eq_ok] at hp
      obtain ⟨bytes, hr, hp⟩ := hp
      cases hp
      rw [hr]
      exact ⟨_, rfl, rfl, rfl⟩
    · cases hp
      exact ⟨_, rfl, rfl, rfl⟩
  | vendorRamdiskTable =>
    simp only [repackBlock, repackVendorTable] at hp ⊢
    split_ifs at hp ⊢
    · rw [bind_eq_ok] at hp
      obtain ⟨⟨es, data, fin⟩, ht, hp⟩ := hp
      rw [ht]
      simp only [bind, Except.bind] at hp ⊢
      split_ifs at hp ⊢ <;> cases hp <;> exact ⟨_, rfl, rfl, rfl⟩
    · cases hp
      exact ⟨_, rfl, rfl, rfl⟩

theorem fileAlign_length {page : ℕ} (hp : 0 < page) (fd : Bytes) :
    (fileAlign page 0 fd).length = alignTo fd.length page := by
  have := le_alignTo hp fd.length
  rw [fileAlign, length_append, zeros_length, alignPadding, Nat.sub_zero]
  omega

theorem writeBlocks_end (hp : 0 < boot.hdr.pageSize) {bs : List Block} {o o' : Out}
    (hs : Hdr.SameBut (fun f => f.written) boot.hdr o.hdr)
    (h : writeBlocks env boot files skipComp 0 bs o = .ok o') :
    o'.fd.length = blocksEnd env boot files skipComp bs o.fd.length := by
  induction bs generalizing o with
  | nil =>
    cases h
    rfl
  | cons b bs ih =>
    obtain ⟨p, hpiece, -, h⟩ := writeBlocks_cons.mp h
    obtain ⟨p', hp', hbytes, haligned⟩ := repackBlock_congr hs hpiece
    have hnext := (repackBlock_sameBut hpiece).mono fun f => storedWith_written
    have hlen : (o.next boot.hdr.pageSize 0 b p).fd.length = if p.aligned then
        alignTo (o.fd.length + p.bytes.length) boot.hdr.pageSize
        else o.fd.length + p.bytes.length := by
      unfold Out.next
      dsimp only
      split_ifs
      · rw [fileAlign_length hp, length_append]
      · rw [length_append]
    rw [ih (hs.trans hnext) h, hlen, blocksEnd, pieceSize, hp', ← hbytes, ← haligned]

/-- The flags of what stands before the header. -/
def Flags.outer (flags : Flags) : Bool :=
  flags.chromeos || flags.dhtb || flags.blob || flags.nookhd || flags.acclaim

theorem parseHdr_outer {mem : Bytes} {type : FileFormat} {hdr : Option Hdr} {flags : Flags}
    (h : parseHdr mem 0 type {} = .ok (hdr, 0, flags)) : flags.outer = false := by
  unfold parseHdr at h
  split_ifs at h
  · simp only [bind_eq_ok] at h
    obtain ⟨v, -, hd, -, h⟩ := h
    cases h
    rfl
  · rw [bind_eq_ok] at h
    obtain ⟨page, -, h⟩ := h
    split_ifs at h
    · rw [bind_eq_ok] at h
      obtain ⟨hd, -, h⟩ := h
      cases h
      rfl
    · rw [bind_eq_ok] at h
      obtain ⟨c, -, h⟩ := h
      split_ifs at h
      · simp only [bind_eq_ok] at h
        obtain ⟨v, -, hd, -, h⟩ := h
        cases h
        rfl
      · simp only [preHeader, bind_eq_ok] at h
        obtain ⟨⟨a, f⟩, ⟨c, -, hpre⟩, hd, -, h⟩ := h
        cases h
        split_ifs at hpre
        · cases hpre
        · rw [bind_eq_ok] at hpre
          obtain ⟨d, -, hpre⟩ := hpre
          split_ifs at hpre
          · cases hpre
          · cases hpre
            rfl

theorem parseTail_outer {mem : Bytes} {addr tail : ℕ} {flags : Flags} {t : TailInfo}
    (h : parseTail env mem addr tail flags = .ok t) : t.flags.outer = flags.outer := by
  rcases parseTail_eq_ok h with ⟨-, rfl⟩ | ⟨f, hf, -, ht⟩
  · rfl
  · have houter : f.outer = flags.outer := by
      rcases tailFlags_eq_ok hf with rfl | rfl | rfl | rfl <;> rfl
    rw [← houter]
    rcases ht with rfl | rfl | ⟨off, -, -, rfl⟩ <;> rfl

theorem load_outer {file : Bytes} (h : load env file = .ok boot) (h0 : boot.payload.1 = 0) :
    boot.flags.outer = false ∧ ∃ hdr flags, IsParsed env file hdr flags boot := by
  obtain ⟨type, flags', -, -, hp⟩ := load_at_zero h h0
  obtain ⟨hdr, hflags, hh, rfl, hparsed⟩ := parseImage_eq_ok.mp hp
  rw [h0] at hh
  refine ⟨?_, hdr, _, hparsed⟩
  rw [← parseHdr_outer hh, parseTail_outer hparsed.tail]
  rfl

theorem footer_of_vbmeta {file : Bytes} {hdr : Hdr} {flags : Flags}
    (hparsed : IsParsed env file hdr flags boot) {v : Bytes} (hv : vbmetaBytes boot = .ok v) :
    ∃ p, boot.avbFooter = some p ∧ At boot.mem p (lit "AVBf") ∧
      readBe 8 boot.mem (p + 28) = .ok v.length := by
  have hsize : ∀ p q, boot.avbFooter = some p → boot.vbmeta = some q →
      readBe 8 boot.mem (p + 28) = .ok v.length := by
    intro p q hp hq
    simp only [vbmetaBytes, hp, hq, bind_eq_ok] at hv
    obtain ⟨size, hs, hr⟩ := hv
    rw [hs, (read_eq_ok.mp hr).1]
  rcases parseTail_eq_ok hparsed.tail with ⟨-, ht⟩ | ⟨f, -, -, ht | ht | ⟨off, hmagic, -, ht⟩⟩
  · simp only [TailInfo.mk.injEq] at ht
    simp [vbmetaBytes, ht.2.2] at hv
  · simp only [TailInfo.mk.injEq] at ht
    simp [vbmetaBytes, ht.2.2] at hv
  · simp only [TailInfo.mk.injEq] at ht
    simp [vbmetaBytes, ht.2.2] at hv
  · simp only [TailInfo.mk.injEq] at ht
    obtain ⟨-, hp, hq⟩ := ht
    refine ⟨_, hp, ?_, hsize _ _ hp hq⟩
    unfold bufferMatch at hmagic
    split_ifs at hmagic with hm
    · exact view_eq_iff.mp hm
    · cases hmagic

theorem head_of_outer (h : headBytes boot = .ok x.head) (ho : boot.flags.outer = false) :
    x.head = [] := by
  simp only [Flags.outer, Bool.or_eq_false_iff] at ho
  obtain ⟨⟨⟨⟨-, h1⟩, h2⟩, h3⟩, h4⟩ := ho
  simp only [headBytes, h1, h2, h3, h4, Bool.false_eq_true, if_false] at h
  exact (Except.ok.inj h).symm

theorem readBe_beBytes {m : Bytes} {off v : ℕ} (h : At m off (beBytes 8 v)) (hv : v < 2 ^ 64) :
    readBe 8 m off = .ok v := by
  refine readBe_eq_ok.mpr ⟨_, by simp [beBytes], h, ?_⟩
  rw [beBytes, reverse_reverse, leValue_leBytes (by norm_num; omega)]

/-- The footer that is written has the magic and the size of the source's and the new offset. -/
theorem newFooter_fields {mem footer : Bytes} {p vbmeta n : ℕ} (imgSize : ℕ)
    (hf : read mem p avbFooterSize = .ok footer) (hmagic : At mem p (lit "AVBf"))
    (hsize : readBe 8 mem (p + 28) = .ok n) (hlt : vbmeta < 2 ^ 32) :
    (newFooter footer imgSize vbmeta).length = avbFooterSize ∧
    At (newFooter footer imgSize vbmeta) 0 (lit "AVBf") ∧
    readBe 8 (newFooter footer imgSize vbmeta) 20 = .ok vbmeta ∧
    readBe 8 (newFooter footer imgSize vbmeta) 28 = .ok n := by
  obtain ⟨hl, hat⟩ := read_eq_ok.mp hf
  rw [avbFooterSize] at hl
  have hbe : ∀ v, (beBytes 8 v).length = 8 := by simp [beBytes]
  -- what is before the two fields or behind them is kept
  have hkeep : ∀ {i : ℕ} {c : Bytes}, i + c.length ≤ 12 ∨ 28 ≤ i → i + c.length ≤ 64 →
      At mem (p + i) c → At (newFooter footer imgSize vbmeta) i c := by
    intro i c hd hle hc
    rw [newFooter, at_overwrite_of_disjoint (by rw [hbe]; omega),
      at_overwrite_of_disjoint (by rw [hbe]; omega)]
    exact hat.within hc (by omega)
  refine ⟨?_, ?_, ?_, ?_⟩
  · rw [newFooter, overwrite_length, overwrite_length, hl, avbFooterSize]
  · have hm : (lit "AVBf").length = 4 := by decide
    exact hkeep (by omega) (by omega) hmagic
  · apply readBe_beBytes _ (by omega)
    exact at_overwrite_self (by rw [overwrite_length, hbe]; omega)
  · obtain ⟨b, hb, hbat, hv⟩ := readBe_eq_ok.mp hsize
    exact readBe_eq_ok.mpr ⟨b, hb, hkeep (by omega) (by omega) hbat, hv⟩

theorem signImage_eq {out out' : Bytes} {header imgSize tail : ℕ}
    (h : signImage env boot out header imgSize tail = .ok out') (hs : boot.flags.avb1Signed)
    (hfit : ∀ p, tail + (env.signPayload p).length ≤ out.length) :
    ∃ p, out' = overwrite out tail (env.signPayload p) := by
  simp only [signImage, hs, if_true, bind_eq_ok] at h
  obtain ⟨p, -, h⟩ := h
  cases h
  have := hfit p
  have hl : (out.take tail ++ (env.signPayload p ++
      out.drop (tail + (env.signPayload p).length))).length = out.length := by
    simp only [length_append, length_take, length_drop]
    omega
  exact ⟨p, by rw [overwrite, ← hl, take_length]⟩

section Run

variable {file v : Bytes} {hdr : Hdr} {flags : Flags}
  (h : IsRun env boot files skipComp r x) (hparsed : IsParsed env file hdr flags boot)
  (houter : boot.flags.outer = false) (havb : boot.flags.avb)
  (hv : vbmetaBytes boot = .ok v) (hlt : vbmetaStart env boot files skipComp < 2 ^ 32)

include h houter in
theorem header_eq_zero : r.header = 0 := by
  rw [h.header, head_of_outer h.head houter, length_nil]

include h hparsed houter

theorem vbmetaStart_eq :
    (r.out.fd ++ trailer boot).length = trailerEnd env boot files skipComp ∧
    (fileAlign 4096 0 (withTrailer boot 0 r.out.fd)).length = vbmetaStart env boot files skipComp ∧
    trailerEnd env boot files skipComp ≤ vbmetaStart env boot files skipComp ∧
    4096 ≤ vbmetaStart env boot files skipComp := by
  have hp := hparsed.pageSize_pos
  have h31 := h.pageSize_lt
  obtain ⟨space, hspace, -⟩ := hparsed.blocks
  have hspace' : boot.hdr.hdrSpace = .ok space := by
    rw [hparsed.sameBut.hdrSpace_eq (by simp), hspace]
  rw [← hparsed.pageSize_eq] at hp
  have hx : x.space = space := by
    have := h.space
    rw [(resetSizes_sameBut boot.hdr).hdrSpace_eq (by simp), hspace'] at this
    exact (Except.ok.inj this).symm
  have hraw := (read_eq_ok.mp h.rawHdr).1
  have hout := h.out
  rw [header_eq_zero h houter] at hout
  have hreset := (resetSizes_sameBut boot.hdr).mono (G := fun f => f.written)
    fun f ⟨b, _, hf⟩ => by rw [hf]; rfl
  have hend := writeBlocks_end hp hreset hout
  dsimp only at hend
  rw [head_of_outer h.head houter, nil_append, hraw, hx] at hend
  have hblocks : (r.out.fd ++ trailer boot).length = trailerEnd env boot files skipComp := by
    rw [length_append, hend, trailerEnd, hspace']
    rfl
  have hpos : 0 < space := by
    have hround := le_alignTo hp boot.hdr.hdrSize
    have hsize : 1580 ≤ boot.hdr.hdrSize := boot.hdr.kind.le_hdrSize
    rw [hdrSpace_eq hp h31 hspace']
    split_ifs <;> omega
  have hle : space ≤ trailerEnd env boot files skipComp := by
    have := (writeBlocks_length Block.nodup_all hout).1
    dsimp only at this
    rw [head_of_outer h.head houter, nil_append, hraw, hx] at this
    rw [← hblocks, length_append]
    omega
  have h1 := le_alignTo hp (trailerEnd env boot files skipComp)
  have h2 := le_alignTo (show 0 < 4096 by norm_num)
    (alignTo (trailerEnd env boot files skipComp) boot.hdr.pageSize)
  refine ⟨hblocks, ?_, ?_, ?_⟩
  · rw [fileAlign_length (by norm_num), withTrailer, fileAlign_length hp, hblocks, vbmetaStart]
  · rw [vbmetaStart]
    omega
  · obtain ⟨k, hk⟩ := dvd_alignTo
      (alignTo (trailerEnd env boot files skipComp) boot.hdr.pageSize) 4096
    rw [vbmetaStart]
    omega

include havb hv hlt

theorem tail_of_avb : r.tail.vbmeta = vbmetaStart env boot files skipComp ∧
    r.tail.tail = trailerEnd env boot files skipComp ∧
    At (padImage boot r.tail.fd) (vbmetaStart env boot files skipComp) v ∧
    (padImage boot r.tail.fd).length =
      max (vbmetaStart env boot files skipComp + v.length) boot.file.length := by
  obtain ⟨hblocks, hstart, hle, -⟩ := vbmetaStart_eq h hparsed houter
  have htail := h.tail
  rw [header_eq_zero h houter] at htail
  obtain ⟨ht, -, hyes⟩ := writeTail_eq_ok htail
  obtain ⟨v', hv', hfd, hoff⟩ := hyes havb
  rw [hv, Except.ok.injEq] at hv'
  subst hv'
  have hchrome : boot.flags.chromeos = false := by
    simp only [Flags.outer, Bool.or_eq_false_iff] at houter
    exact houter.1.1.1.1
  have hlen : r.tail.fd.length = vbmetaStart env boot files skipComp + v.length := by
    rw [hfd, length_append, hstart]
  refine ⟨?_, ?_, ?_, ?_⟩
  · rw [hoff, hstart, Nat.mod_eq_of_lt hlt]
  · rw [ht, hblocks, Nat.mod_eq_of_lt (by omega)]
  · rw [padImage, if_neg (by simp [hchrome]), hfd, append_assoc, ← hstart]
    exact at_append_self _ _ _
  · rw [padImage, if_neg (by simp [hchrome]), length_append, zeros_length, hlen]
    omega

theorem at_headerCopied : At x.headerCopied (vbmetaStart env boot files skipComp) v := by
  obtain ⟨hblocks, -, hle, h4096⟩ := vbmetaStart_eq h hparsed houter
  obtain ⟨-, -, hat, -⟩ := tail_of_avb h hparsed houter havb hv hlt
  rw [length_append] at hblocks
  have hmtk : ∀ b, (boot.mtkHdr b).isSome →
      r.out.off b % 2 ^ 32 + 8 ≤ vbmetaStart env boot files skipComp := by
    intro b hb
    have h1 := h.mtk_le hb
    have h2 := (writeBlocks_length Block.nodup_all h.out).2 b (Block.mem_all b)
    have h3 := Nat.mod_le (r.out.off b) (2 ^ 32)
    rw [mtkHdrSize] at h1
    omega
  have h1 := patchMtk_at_of_disjoint h.kernelPatched (fun hb => .inr (hmtk .kernel hb)) hat
  have h2 := patchMtk_at_of_disjoint h.mtkPatched (fun hb => .inr (hmtk .ramdisk hb)) h1
  have hcopy := h.headerCopied
  have hsize := r.hdr.kind.hdrSize_le
  have hraw := r.hdr.raw_length
  rw [header_eq_zero h houter] at hcopy
  unfold copyHeader at hcopy
  by_cases ham : boot.flags.amonet
  · rw [if_pos ham] at hcopy
    refine poke_at hcopy (.inr ?_) h2
    rw [length_take, amonetMicroloaderSz]
    omega
  · rw [if_neg ham] at hcopy
    refine poke_at hcopy (.inr ?_) h2
    omega

omit hparsed havb hlt hv in
theorem patchHead_of_outer : x.headPatched = x.avbPatched := by
  have hp := h.headPatched
  simp only [Flags.outer, Bool.or_eq_false_iff] at houter
  rw [patchHead, if_neg (by simp [houter.1.1.1.2]), if_neg (by simp [houter.1.1.2])] at hp
  exact (Except.ok.inj hp).symm

variable (hsig : boot.flags.avb1Signed → ∀ p,
  trailerEnd env boot files skipComp + (env.signPayload p).length ≤
    vbmetaStart env boot files skipComp)

include hsig

theorem image_of_signature : r.image.length = (padImage boot r.tail.fd).length ∧
    ∀ {o : ℕ} {c : Bytes}, vbmetaStart env boot files skipComp ≤ o → At x.avbPatched o c →
      At r.image o c := by
  obtain ⟨-, htail, -, hlen⟩ := tail_of_avb h hparsed houter havb hv hlt
  have hlens := h.length_eq
  have hsign := h.image
  rw [patchHead_of_outer h houter] at hsign
  cases hs : boot.flags.avb1Signed with
  | false =>
    rw [signImage, if_neg (by simp [hs])] at hsign
    rw [← Except.ok.inj hsign]
    exact ⟨by omega, fun _ hc => hc⟩
  | true =>
    obtain ⟨p, hp⟩ := signImage_eq hsign hs fun p => by
      have := hsig hs p
      omega
    have hfit := hsig hs p
    rw [hp, overwrite_length]
    refine ⟨by omega, fun ho hc => ?_⟩
    rw [at_overwrite_of_disjoint (.inr (by omega))]
    exact hc

variable (h256 : 256 ≤ v.length)

include h256

theorem at_image_footer : ∃ footer, footer.length = avbFooterSize ∧
    At r.image (r.image.length - avbFooterSize) footer ∧ At footer 0 (lit "AVBf") ∧
    readBe 8 footer 20 = .ok (vbmetaStart env boot files skipComp) ∧
    readBe 8 footer 28 = .ok v.length := by
  obtain ⟨hoff, -, -, hlen⟩ := tail_of_avb h hparsed houter havb hv hlt
  obtain ⟨himg, hkeep⟩ := image_of_signature h hparsed houter havb hv hlt hsig
  have hlens := h.length_eq
  obtain ⟨p, footer, out1, hp, -, hread, h1, h2⟩ := patchAvb_of_avb havb h.avbPatched
  obtain ⟨p', hp', hmagic, hsize⟩ := footer_of_vbmeta hparsed hv
  rw [hp, Option.some.injEq] at hp'
  subst hp'
  rw [hoff] at h1 h2
  obtain ⟨hl, hm, ho, hs⟩ := newFooter_fields r.imgSize hread hmagic hsize hlt
  refine ⟨_, hl, ?_, hm, ho, hs⟩
  have hpos : r.image.length - avbFooterSize = x.headerCopied.length - avbFooterSize := by omega
  have hfit : vbmetaStart env boot files skipComp + 192 ≤ r.image.length - avbFooterSize := by
    rw [avbFooterSize]
    omega
  refine hkeep (by omega) ?_
  have hat : At out1 (r.image.length - avbFooterSize)
      (newFooter footer r.imgSize (vbmetaStart env boot files skipComp)) := by
    rw [poke_eq_ok h1, hpos]
    apply at_overwrite_self
    rw [hl]
    rw [avbFooterSize] at hfit hpos ⊢
    omega
  split_ifs at h2
  · refine poke_at h2 (.inr ?_) hat
    simp only [beBytes, length_reverse, leBytes_length]
    omega
  · rwa [← Except.ok.inj h2]

omit h256 in
theorem at_image_vbmeta
    (hroom : vbmetaStart env boot files skipComp + v.length + avbFooterSize ≤ boot.file.length) :
    At r.image (vbmetaStart env boot files skipComp) (keptVbmeta env v) := by
  obtain ⟨hoff, -, -, hlen⟩ := tail_of_avb h hparsed houter havb hv hlt
  obtain ⟨himg, hkeep⟩ := image_of_signature h hparsed houter havb hv hlt hsig
  have hlens := h.length_eq
  obtain ⟨p, footer, out1, -, -, -, h1, h2⟩ := patchAvb_of_avb havb h.avbPatched
  rw [hoff] at h1 h2
  have hat : At out1 (vbmetaStart env boot files skipComp) v := by
    refine poke_at h1 (.inl ?_) (at_headerCopied h hparsed houter havb hv hlt)
    omega
  refine hkeep le_rfl ?_
  unfold keptVbmeta
  split_ifs at h2 ⊢
  · rw [poke_eq_ok h2]
    exact hat.overwrite_inside 120 _
  · rwa [← Except.ok.inj h2]

end Run

theorem keptVbmeta_length (env : Env) (v : Bytes) : (keptVbmeta env v).length = v.length := by
  unfold keptVbmeta
  split_ifs
  · rw [overwrite_length]
  · rfl

theorem readBe_of_at {m b : Bytes} {off i n : ℕ} (ha : At m off b) (h : readBe 8 b i = .ok n) :
    readBe 8 m (off + i) = .ok n := by
  obtain ⟨c, hl, hc, hn⟩ := readBe_eq_ok.mp h
  exact readBe_eq_ok.mpr ⟨c, hl, ha.sub hc, hn⟩

/-- The image ends with vbmeta and the footer exactly if the new blocks leave room for them in the
size of the source. -/
theorem repack_vbmeta_iff {file v : Bytes} (hload : load env file = .ok boot)
    (h0 : boot.payload.1 = 0) (havb : boot.flags.avb)
    (hrep : repack env boot files skipComp = .ok r) (hv : vbmetaBytes boot = .ok v)
    (h256 : 256 ≤ v.length) (hlt : vbmetaStart env boot files skipComp < 2 ^ 32)
    (hsig : boot.flags.avb1Signed → ∀ p,
      trailerEnd env boot files skipComp + (env.signPayload p).length ≤
        vbmetaStart env boot files skipComp) :
    EndsWithVbmeta r.image (keptVbmeta env v) ↔
      vbmetaStart env boot files skipComp + v.length + avbFooterSize ≤ file.length := by
  obtain ⟨x, h⟩ := repack_eq_ok.mp hrep
  obtain ⟨houter, hdr, flags, hparsed⟩ := load_outer hload h0
  rw [← hparsed.file_eq]
  obtain ⟨-, -, -, hlen⟩ := tail_of_avb h hparsed houter havb hv hlt
  obtain ⟨himg, -⟩ := image_of_signature h hparsed houter havb hv hlt hsig
  obtain ⟨footer, hl, hat, hmagic, hoff, hsize⟩ :=
    at_image_footer h hparsed houter havb hv hlt hsig h256
  have hfoot : r.image.length - avbFooterSize + avbFooterSize = r.image.length := by
    rw [avbFooterSize]
    omega
  rw [EndsWithVbmeta, keptVbmeta_length]
  constructor
  · rintro ⟨pos, off, hpos, -, hoff', -, hbefore, -⟩
    obtain rfl : pos = r.image.length - avbFooterSize := by omega
    rw [readBe_of_at hat hoff, Except.ok.injEq] at hoff'
    subst hoff'
    rw [avbFooterSize] at hfoot hbefore ⊢
    omega
  · intro hroom
    refine ⟨_, _, hfoot, hat.sub hmagic, readBe_of_at hat hoff, readBe_of_at hat hsize, by omega, ?_⟩
    exact at_image_vbmeta h hparsed houter havb hv hlt hsig hroom

end

/-- A vendor image of 8192 bytes with empty blocks, whose vbmeta follows the header. -/
def sampleAvb : Bytes :=
  padded 4096 (vendorBootMagic ++ (leBytes 4 3 ++ (leBytes 4 2048 ++ (zeros 2080 ++
    (leBytes 4 2112 ++ zeros 12))))) ++ (lit "AVB0" ++ (zeros 4028 ++
  (lit "AVBf" ++ (beBytes 4 1 ++ (zeros 4 ++ (beBytes 8 4096 ++ (beBytes 8 4096 ++ (beBytes 8 256 ++
    zeros 28))))))))

set_option maxRecDepth 20000 in
theorem sampleAvb_run : checkRun sampleEnv sampleAvb {} (fun boot _ =>
    decide (boot.payload.1 = 0 ∧ boot.flags.avb ∧ boot.flags.avb1Signed = false ∧
      (vbmetaBytes boot).map List.length = .ok 256 ∧
      vbmetaStart sampleEnv boot {} true = 4096 ∧ sampleAvb.length = 8192)) := by
  decide +kernel

theorem vbmetaBytes_of_length {n : ℕ} (h : (vbmetaBytes boot).map List.length = .ok n) :
    ∃ v, vbmetaBytes boot = .ok v ∧ v.length = n := by
  cases hv : vbmetaBytes boot with
  | error e =>
    rw [hv] at h
    cases h
  | ok v =>
    rw [hv] at h
    exact ⟨v, rfl, Except.ok.inj h⟩

/-- Without new blocks there is room for vbmeta and the footer. -/
theorem repack_vbmeta_sampleAvb : ∃ boot r v, load sampleEnv sampleAvb = .ok boot ∧
    repack sampleEnv boot {} true = .ok r ∧ vbmetaBytes boot = .ok v ∧
    EndsWithVbmeta r.image (keptVbmeta sampleEnv v) := by
  obtain ⟨boot, r, hload, hrep, hp⟩ := exists_of_checkRun sampleAvb_run
  obtain ⟨h0, havb, hsig, hlen, hstart, hfile⟩ := of_decide_eq_true hp
  obtain ⟨v, hv, h256⟩ := vbmetaBytes_of_length hlen
  refine ⟨boot, r, v, hload, hrep, hv, ?_⟩
  rw [repack_vbmeta_iff hload h0 havb hrep hv h256.ge (by omega) (by simp [hsig])]
  rw [avbFooterSize]
  omega

def sampleRamdisk : Files := { ramdisk := some [1] }

set_option maxRecDepth 20000 in
theorem sampleRamdisk_run : checkRun sampleEnv sampleAvb sampleRamdisk (fun boot r =>
    decide (boot.payload.1 = 0 ∧ boot.flags.avb ∧
      (vbmetaBytes boot).map List.length = .ok 256 ∧ r.image.length = 8448 ∧
      readBe 8 r.image 8404 = .ok 8192)) := by
  decide +kernel

/-- With a ramdisk of one byte vbmeta starts where the source ended, and the footer overwrites its
last 64 bytes. -/
theorem repack_vbmeta_sampleRamdisk : ∃ boot r v, load sampleEnv sampleAvb = .ok boot ∧
    boot.payload.1 = 0 ∧ boot.flags.avb ∧ vbmetaBytes boot = .ok v ∧
    repack sampleEnv boot sampleRamdisk true = .ok r ∧
    ¬ EndsWithVbmeta r.image (keptVbmeta sampleEnv v) := by
  obtain ⟨boot, r, hload, hrep, hp⟩ := exists_of_checkRun sampleRamdisk_run
  obtain ⟨h0, havb, hlen, himg, hoff⟩ := of_decide_eq_true hp
  obtain ⟨v, hv, h256⟩ := vbmetaBytes_of_length hlen
  refine ⟨boot, r, v, hload, h0, havb, hv, hrep, ?_⟩
  rintro ⟨footer, off, hfooter, -, hoff', -, hbefore, -⟩
  rw [avbFooterSize] at hfooter
  rw [keptVbmeta_length] at hbefore
  obtain rfl : footer = 8384 := by omega
  rw [hoff, Except.ok.injEq] at hoff'
  omega

end Magisk.Boot
