import Magisk.Boot.Layout

namespace Magisk.Boot

open List

/-- The values between the steps of `repack`. -/
structure Run where
  head : Bytes
  space : ℕ
  rawHdr : Bytes
  kernelPatched : Bytes × Hdr
  mtkPatched : Bytes × Hdr
  headerCopied : Bytes
  avbPatched : Bytes
  headPatched : Bytes

/-- The size of the image as far as the tail, in 32 bits. -/
def Repacked.imgSize (r : Repacked) : ℕ := sub32 r.tail.tail r.header

structure IsRun (env : Env) (boot : BootImg) (files : Files) (skipComp : Bool) (r : Repacked)
    (x : Run) : Prop where
  head : headBytes boot = .ok x.head
  header : r.header = x.head.length
  space : (resetSizes boot.hdr).hdrSpace = .ok x.space
  rawHdr : read boot.mem boot.payload.1 x.space = .ok x.rawHdr
  out : writeBlocks env boot files skipComp r.header Block.all
    ⟨x.head ++ x.rawHdr, resetSizes boot.hdr, fun _ => 0, fun _ => []⟩ = .ok r.out
  tail : writeTail boot r.header r.out.fd = .ok r.tail
  kernelPatched : patchMtk env .kernel boot.kernel.mtkHdr (r.out.off .kernel % 2 ^ 32)
    (padImage boot r.tail.fd, r.out.hdr) = .ok x.kernelPatched
  mtkPatched : patchMtk env .ramdisk boot.ramdisk.mtkHdr (r.out.off .ramdisk % 2 ^ 32)
    x.kernelPatched = .ok x.mtkPatched
  hdr : setChecksum env boot x.mtkPatched.1
    (x.mtkPatched.2.set32 .headerSize x.mtkPatched.2.hdrSize) r.out.off = .ok r.hdr
  headerCopied : copyHeader env boot x.mtkPatched.1 r.header x.space r.hdr = .ok x.headerCopied
  avbPatched : patchAvb env boot x.headerCopied r.imgSize r.tail.vbmeta = .ok x.avbPatched
  headPatched : patchHead env boot x.avbPatched r.imgSize = .ok x.headPatched
  image : signImage env boot x.headPatched r.header r.imgSize r.tail.tail = .ok r.image

section

variable {env : Env} {boot : BootImg} {files : Files} {skipComp : Bool} {r : Repacked}

theorem repack_eq_ok :
    repack env boot files skipComp = .ok r ↔ ∃ x, IsRun env boot files skipComp r x := by
  constructor
  · intro h
    simp only [repack, bind_eq_ok] at h
    obtain ⟨head, h1, space, h2, rawHdr, h3, out, h4, tail, h5, k, h6, ⟨img, hdr⟩, h7, hdr', h8,
      img1, h9, img2, h10, img3, h11, img4, h12, h⟩ := h
    cases h
    exact ⟨⟨head, space, rawHdr, k, (img, hdr), img1, img2, img3⟩,
      ⟨h1, rfl, h2, h3, h4, h5, h6, h7, h8, h9, h10, h11, h12⟩⟩
  · rintro ⟨x, h⟩
    simp only [repack, bind_eq_ok]
    have hh := h.header
    refine ⟨x.head, h.head, x.space, h.space, x.rawHdr, h.rawHdr, r.out, hh ▸ h.out, r.tail,
      hh ▸ h.tail, x.kernelPatched, h.kernelPatched, x.mtkPatched, h.mtkPatched, r.hdr, h.hdr,
      x.headerCopied, hh ▸ h.headerCopied, x.avbPatched, ?_, x.headPatched, ?_, r.image, ?_, ?_⟩
    · rw [← hh]
      exact h.avbPatched
    · rw [← hh]
      exact h.headPatched
    · rw [← hh]
      exact h.image
    · rw [← hh]
      rfl

variable {x : Run} {out out' : Bytes}

/-- The file is aligned behind the kernel, which does not end for pages that are a negative `int`. -/
theorem IsRun.pageSize_lt (h : IsRun env boot files skipComp r x) : boot.hdr.pageSize < 2 ^ 31 := by
  obtain ⟨p, hp, hlt, -⟩ := writeBlocks_cons.mp h.out
  obtain ⟨q, -, rfl⟩ := repackKernel_eq_ok.mp hp
  apply hlt
  unfold KernelParts.piece
  split <;> rfl

variable {off header imgSize vbmeta : ℕ} {fd : Bytes} {t : Tail}

theorem poke_length {b : Bytes} (h : poke env out off b = .ok out') : out'.length = out.length := by
  unfold poke at h
  split_ifs at h
  cases h
  exact overwrite_length _ _ _

theorem patchMtk_length {b : Block} {p : Option ℕ} {s s' : Bytes × Hdr}
    (h : patchMtk env b p off s = .ok s') : s'.1.length = s.1.length := by
  unfold patchMtk at h
  split at h
  · rw [bind_eq_ok] at h
    obtain ⟨out, hp, h⟩ := h
    cases h
    exact poke_length hp
  · cases h
    rfl

theorem copyHeader_length {header space : ℕ} {hdr : Hdr}
    (h : copyHeader env boot out header space hdr = .ok out') : out'.length = out.length := by
  unfold copyHeader at h
  split_ifs at h <;> exact poke_length h

theorem patchAvb_of_avb (ha : boot.flags.avb)
    (h : patchAvb env boot out imgSize vbmeta = .ok out') :
    ∃ p footer out1, boot.avbFooter = some p ∧ avbFooterSize ≤ out.length ∧
      read boot.mem p avbFooterSize = .ok footer ∧
      poke env out (out.length - avbFooterSize) (newFooter footer imgSize vbmeta) = .ok out1 ∧
      (if env.patchVbmetaFlag then poke env out1 (vbmeta + 120) (beBytes 4 3) else .ok out1) =
        .ok out' := by
  rw [patchAvb, if_pos ha] at h
  cases hp : boot.avbFooter with
  | none =>
    rw [hp] at h
    cases h
  | some p =>
    simp only [hp] at h
    by_cases hl : out.length < avbFooterSize
    · rw [if_pos hl] at h
      cases h
    · simp only [if_neg hl, bind_eq_ok] at h
      obtain ⟨footer, hf, out1, h1, h⟩ := h
      exact ⟨p, footer, out1, rfl, by omega, hf, h1, h⟩

theorem patchAvb_length
    (h : patchAvb env boot out imgSize vbmeta = .ok out') : out'.length = out.length := by
  by_cases ha : boot.flags.avb
  · obtain ⟨p, footer, out1, -, -, -, h1, h⟩ := patchAvb_of_avb ha h
    split_ifs at h
    · rw [poke_length h, poke_length h1]
    · cases h
      exact poke_length h1
  · rw [patchAvb, if_neg ha] at h
    cases h
    rfl

theorem patchHead_length
    (h : patchHead env boot out imgSize = .ok out') : out'.length = out.length := by
  unfold patchHead at h
  split_ifs at h
  · simp only [bind_eq_ok] at h
    obtain ⟨out1, h1, payload, -, h⟩ := h
    rw [poke_length h, poke_length h1]
  · exact poke_length h
  · cases h
    rfl

theorem signImage_length {header imgSize tail : ℕ}
    (h : signImage env boot out header imgSize tail = .ok out') : out.length ≤ out'.length := by
  unfold signImage at h
  split_ifs at h
  · simp only [bind_eq_ok] at h
    obtain ⟨payload, -, h⟩ := h
    cases h
    simp only [length_append, length_take, length_drop]
    omega
  · cases h
    exact le_rfl

/-- What is written behind the blocks, on pages. -/
def withTrailer (boot : BootImg) (header : ℕ) (fd : Bytes) : Bytes :=
  fileAlign boot.hdr.pageSize header (fd ++ trailer boot)

theorem writeTail_eq_ok (h : writeTail boot header fd = .ok t) :
    t.tail = (fd ++ trailer boot).length % 2 ^ 32 ∧
    (boot.flags.avb = false → t.fd = withTrailer boot header fd) ∧
    (boot.flags.avb → ∃ v, vbmetaBytes boot = .ok v ∧
      t.fd = fileAlign 4096 header (withTrailer boot header fd) ++ v ∧
      t.vbmeta = (fileAlign 4096 header (withTrailer boot header fd)).length % 2 ^ 32) := by
  unfold writeTail at h
  dsimp only at h
  cases ha : boot.flags.avb with
  | true =>
    simp only [ha, if_true, bind_eq_ok] at h
    obtain ⟨v, hv, h⟩ := h
    cases h
    exact ⟨rfl, by simp, fun _ => ⟨v, hv, rfl, rfl⟩⟩
  | false =>
    simp only [ha, Bool.false_eq_true, if_false] at h
    cases h
    exact ⟨rfl, fun _ => rfl, by simp⟩

theorem length_le_fileAlign (page header : ℕ) (fd : Bytes) :
    fd.length ≤ (fileAlign page header fd).length := by
  rw [fileAlign, length_append]
  omega

theorem length_le_withTrailer (boot : BootImg) (header : ℕ) (fd : Bytes) :
    (fd ++ trailer boot).length ≤ (withTrailer boot header fd).length :=
  length_le_fileAlign _ _ _

theorem length_le_padImage (boot : BootImg) (fd : Bytes) : fd.length ≤ (padImage boot fd).length := by
  unfold padImage
  split_ifs
  · exact le_rfl
  · rw [length_append]
    omega

theorem writeTail_length
    (h : writeTail boot header fd = .ok t) : (fd ++ trailer boot).length ≤ t.fd.length := by
  obtain ⟨-, hno, hyes⟩ := writeTail_eq_ok h
  have hle := length_le_withTrailer boot header fd
  cases ha : boot.flags.avb with
  | false =>
    rw [hno ha]
    exact hle
  | true =>
    obtain ⟨v, -, hfd, -⟩ := hyes ha
    have h4 := length_le_fileAlign 4096 header (withTrailer boot header fd)
    have hlen := congrArg List.length hfd
    rw [length_append] at hlen
    omega

theorem IsRun.length_eq (h : IsRun env boot files skipComp r x) :
    x.mtkPatched.1.length = (padImage boot r.tail.fd).length ∧
    x.headerCopied.length = (padImage boot r.tail.fd).length ∧
    x.avbPatched.length = (padImage boot r.tail.fd).length ∧
    x.headPatched.length = (padImage boot r.tail.fd).length ∧
    (padImage boot r.tail.fd).length ≤ r.image.length := by
  have h1 := patchMtk_length h.kernelPatched
  have h2 := patchMtk_length h.mtkPatched
  have h3 := copyHeader_length h.headerCopied
  have h4 := patchAvb_length h.avbPatched
  have h5 := patchHead_length h.headPatched
  have h6 := signImage_length h.image
  dsimp only at h1
  omega

theorem IsRun.fd_length_le (h : IsRun env boot files skipComp r x) :
    (r.out.fd ++ trailer boot).length ≤ (padImage boot r.tail.fd).length :=
  (writeTail_length h.tail).trans (length_le_padImage boot r.tail.fd)

theorem wrote_length_le (h : IsRun env boot files skipComp r x) (b : Block) :
    (r.out.wrote b).length ≤ r.image.length := by
  have h1 := (writeBlocks_length Block.nodup_all h.out).2 b (Block.mem_all b)
  have h2 := h.fd_length_le
  have h3 := h.length_eq
  rw [length_append] at h2
  omega

end

/-- Loads and repacks an image without compression and checks the outcome. -/
def checkRun (env : Env) (file : Bytes) (files : Files) (p : BootImg → Repacked → Bool) : Bool :=
  match load env file with
  | .ok boot =>
    match repack env boot files true with
    | .ok r => p boot r
    | .error _ => false
  | .error _ => false

theorem exists_of_checkRun {env : Env} {file : Bytes} {files : Files} {p : BootImg → Repacked → Bool}
    (h : checkRun env file files p) :
    ∃ boot r, load env file = .ok boot ∧ repack env boot files true = .ok r ∧ p boot r := by
  unfold checkRun at h
  split at h
  · rename_i boot hb
    split at h
    · rename_i r hr
      exact ⟨boot, r, hb, hr, h⟩
    · cases h
  · cases h

/-- An environment with pages of 4096 bytes. The digest is the SHA-1 of thirteen zeros and the size
one. -/
def sampleEnv : Env where
  pageSize := 4096
  pageSize_pos := by decide
  mapAddr := 0x7000000000
  verify := fun _ _ => false
  signPayload := fun _ => []
  sha := fun useSha1 _ => if useSha1 then
      [239, 112, 96, 107, 7, 155, 252, 129, 239, 246, 10, 123, 207, 14, 195, 251, 205, 147, 232, 47]
    else zeros 32
  sha_length := by
    intro useSha1 _
    cases useSha1 <;> simp
  compress := fun _ b => b
  decompress := fun _ b => b
  patchVbmetaFlag := false

end Magisk.Boot
