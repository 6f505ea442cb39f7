import Magisk.Boot.Run
import Magisk.Boot.ReadHeader

namespace Magisk.Boot

open List

def BootImg.mtkHdr (boot : BootImg) : Block → Option ℕ
  | .kernel => boot.kernel.mtkHdr
  | .ramdisk => boot.ramdisk.mtkHdr
  | _ => none

/-- What a block holds in the end: the size in its MTK header is the one of the content. -/
def Repacked.block (r : Repacked) (boot : BootImg) (b : Block) : Bytes :=
  if (boot.mtkHdr b).isSome then overwrite (r.out.wrote b) 4 (leBytes 4 (r.out.hdr.size b))
  else r.out.wrote b

variable (r : Repacked) (boot : BootImg)

theorem Repacked.block_kernel : r.block boot .kernel = if boot.kernel.mtkHdr.isSome then
      overwrite (r.out.wrote .kernel) 4 (leBytes 4 (r.out.hdr.size .kernel))
    else r.out.wrote .kernel := rfl

theorem Repacked.block_ramdisk : r.block boot .ramdisk = if boot.ramdisk.mtkHdr.isSome then
      overwrite (r.out.wrote .ramdisk) 4 (leBytes 4 (r.out.hdr.size .ramdisk))
    else r.out.wrote .ramdisk := rfl

theorem Repacked.block_length (b : Block) : (r.block boot b).length = (r.out.wrote b).length := by
  unfold Repacked.block
  split_ifs
  · rw [overwrite_length]
  · rfl

section

variable {env : Env} {boot : BootImg} {files : Files} {skipComp : Bool} {r : Repacked} {x : Run}

variable {c : Bytes} {o off : ℕ} {b : Block} {s s' : Bytes × Hdr} {p : Option ℕ}

theorem at_mapped (env : Env) {file c : Bytes} (h : At file o c) : At (env.mapped file) o c :=
  at_append_left h _

theorem poke_eq_ok {out out' b : Bytes} (h : poke env out off b = .ok out') :
    out' = overwrite out off b := by
  unfold poke at h
  split_ifs at h
  exact (Except.ok.inj h).symm

theorem poke_at {out out' b c : Bytes} (h : poke env out off b = .ok out')
    (hd : o + c.length ≤ off ∨ off + b.length ≤ o) (hc : At out o c) : At out' o c := by
  rw [poke_eq_ok h]
  exact (at_overwrite_of_disjoint hd).mpr hc

theorem patchMtk_none (h : patchMtk env b p off s = .ok s') (hp : p.isSome = false) : s' = s := by
  cases p with
  | none => exact (Except.ok.inj h).symm
  | some p => cases hp

theorem patchMtk_some (h : patchMtk env b p off s = .ok s') (hp : p.isSome) :
    poke env s.1 (off + 4) (leBytes 4 (s.2.size b)) = .ok s'.1 ∧ s'.2 = s.2.addSize b mtkHdrSize := by
  cases p with
  | none => cases hp
  | some p =>
    simp only [patchMtk, bind_eq_ok] at h
    obtain ⟨out, hout, h⟩ := h
    cases h
    exact ⟨hout, rfl⟩

theorem patchMtk_sameBut
    (h : patchMtk env b p off s = .ok s') : Hdr.SameBut (storedWith b) s.2 s'.2 := by
  cases hp : p.isSome with
  | false =>
    rw [patchMtk_none h hp]
    exact Hdr.SameBut.refl _ _
  | true =>
    rw [(patchMtk_some h hp).2]
    exact s.2.sameBut_setSize b _

theorem patchMtk_size (h : patchMtk env b p off s = .ok s') :
    s'.2.size b = if p.isSome then (s.2.addSize b mtkHdrSize).size b else s.2.size b := by
  cases hp : p.isSome with
  | false =>
    rw [patchMtk_none h hp]
    rfl
  | true =>
    rw [(patchMtk_some h hp).2]
    rfl

theorem setChecksum_sameBut {out : Bytes} {hdr hdr' : Hdr} {off : Block → ℕ}
    (h : setChecksum env boot out hdr off = .ok hdr') : Hdr.SameBut (· = .id) hdr hdr' := by
  unfold setChecksum at h
  split_ifs at h
  · rw [bind_eq_ok] at h
    obtain ⟨id, -, h⟩ := h
    cases h
    exact Hdr.SameBut.set (F := (· = .id)) rfl hdr id
  · cases h
    exact Hdr.SameBut.refl _ _

theorem resetSizes_sameBut (hdr : Hdr) :
    Hdr.SameBut (fun f => ∃ b ∈ [Block.kernel, .ramdisk, .second, .dtb, .bootconfig], f = .size b) hdr
      (resetSizes hdr) := by
  have hset : ∀ (h : Hdr), ∀ b ∈ [Block.kernel, .ramdisk, .second, .dtb, .bootconfig],
      Hdr.SameBut (fun f => ∃ b ∈ [Block.kernel, .ramdisk, .second, .dtb, .bootconfig], f = .size b)
        h (h.setSize b 0) := fun h b hb => Hdr.SameBut.set ⟨b, hb, rfl⟩ h _
  exact ((((hset hdr .kernel (by decide)).trans (hset _ .ramdisk (by decide))).trans
    (hset _ .second (by decide))).trans (hset _ .dtb (by decide))).trans
    (hset _ .bootconfig (by decide))

theorem storedWith_written {f : Field} (h : storedWith b f) : f.written := by
  rcases h with rfl | ⟨-, rfl⟩ <;> rfl

theorem IsRun.out_sameBut (h : IsRun env boot files skipComp r x) :
    Hdr.SameBut (fun f => f.written) boot.hdr r.out.hdr := by
  have h1 := (resetSizes_sameBut boot.hdr).mono (fun f ⟨b, _, hf⟩ =>
    (by rw [hf]; rfl : f.written))
  have h2 := (writeBlocks_sameBut h.out).mono fun f ⟨b, _, hf⟩ => storedWith_written hf
  exact h1.trans h2

theorem IsRun.sameBut (h : IsRun env boot files skipComp r x) :
    Hdr.SameBut (fun f => f.written) boot.hdr r.hdr := by
  have h1 := (patchMtk_sameBut h.kernelPatched).mono fun f => storedWith_written
  have h2 := (patchMtk_sameBut h.mtkPatched).mono fun f => storedWith_written
  have h3 := Hdr.SameBut.set (F := fun f => f.written) (f := .headerSize) rfl
    x.mtkPatched.2 (leBytes 4 x.mtkPatched.2.hdrSize)
  have h4 := (setChecksum_sameBut h.hdr).mono (G := fun f => f.written)
    fun f hf => by rw [hf]; rfl
  exact (((h.out_sameBut.trans h1).trans h2).trans h3).trans h4

theorem IsRun.size_eq (h : IsRun env boot files skipComp r x) (b : Block) :
    r.hdr.size b = if (boot.mtkHdr b).isSome then (r.out.hdr.addSize b mtkHdrSize).size b
      else r.out.hdr.size b := by
  have hlast : r.hdr.size b = x.mtkPatched.2.size b := by
    rw [(setChecksum_sameBut h.hdr).size_eq (by simp)]
    exact Hdr.size_set_of_ne (by simp) _ _
  have hk := patchMtk_size h.kernelPatched
  have hr := patchMtk_size h.mtkPatched
  have hk' : ∀ c ≠ .kernel, x.kernelPatched.2.size c = r.out.hdr.size c := fun c hc =>
    (patchMtk_sameBut h.kernelPatched).size_eq (by rw [storedWith_size]; exact hc.symm)
  have hr' : ∀ c ≠ .ramdisk, x.mtkPatched.2.size c = x.kernelPatched.2.size c := fun c hc =>
    (patchMtk_sameBut h.mtkPatched).size_eq (by rw [storedWith_size]; exact hc.symm)
  rw [hlast]
  cases b with
  | kernel =>
    rw [hr' _ (by decide), hk]
    rfl
  | ramdisk =>
    have hhas : x.kernelPatched.2.Has .ramdisk ↔ r.out.hdr.Has .ramdisk :=
      (patchMtk_sameBut h.kernelPatched).has_iff _
    rw [hr, Hdr.size_addSize, Hdr.size_addSize, hk' _ (by decide)]
    simp only [hhas]
    rfl
  | _ => rw [hr' _ (by decide), hk' _ (by decide)]; rfl

theorem headBytes_length (h : headBytes boot = .ok x.head) :
    (boot.flags.dhtb → x.head.length = dhtbHdrSize) ∧
    (boot.flags.dhtb = false → boot.flags.blob → x.head.length = blobHdrSize) := by
  unfold headBytes at h
  constructor
  · intro hd
    rw [if_pos hd] at h
    exact (read_eq_ok.mp h).1
  · intro hd hb
    rw [if_neg (by simp [hd]), if_pos hb] at h
    exact (read_eq_ok.mp h).1

theorem patchHead_at (h : IsRun env boot files skipComp r x) (ho : r.header ≤ o)
    (hc : At x.avbPatched o c) : At x.headPatched o c := by
  have hp := h.headPatched
  obtain ⟨hdhtb, hblob⟩ := headBytes_length h.head
  rw [← h.header] at hdhtb hblob
  unfold patchHead at hp
  split_ifs at hp with hd hb
  · simp only [bind_eq_ok] at hp
    obtain ⟨out1, h1, payload, -, h2⟩ := hp
    have hh := hdhtb hd
    rw [dhtbHdrSize] at hh
    refine poke_at h2 ?_ (poke_at h1 ?_ hc)
    · rw [env.sha_length]
      right
      simp only [Bool.false_eq_true, if_false]
      omega
    · rw [leBytes_length]
      omega
  · have hh := hblob (by simpa using hd) hb
    rw [blobHdrSize] at hh
    refine poke_at hp ?_ hc
    rw [leBytes_length]
    omega
  · rwa [← Except.ok.inj hp]

theorem signImage_at {out out' : Bytes} {header imgSize tail : ℕ}
    (h : signImage env boot out header imgSize tail = .ok out')
    (hle : o + c.length ≤ tail) (hc : At out o c) : At out' o c := by
  unfold signImage at h
  split_ifs at h
  · simp only [bind_eq_ok] at h
    obtain ⟨payload, -, h⟩ := h
    cases h
    apply at_append_left
    intro i hi
    rw [getElem?_take, if_pos (by omega)]
    exact hc i hi
  · cases h
    exact hc

/-- There is room for the footer in vbmeta. -/
def VbmetaFits (boot : BootImg) : Prop :=
  boot.flags.avb → ∀ v, vbmetaBytes boot = .ok v → avbFooterSize ≤ v.length

theorem patchAvb_at (h : IsRun env boot files skipComp r x) (hlt : r.image.length < 2 ^ 32)
    (hv : VbmetaFits boot) (hle : o + c.length ≤ (r.out.fd ++ trailer boot).length)
    (hc : At x.headerCopied o c) : At x.avbPatched o c := by
  have hp := h.avbPatched
  cases ha : boot.flags.avb with
  | false =>
    rw [patchAvb, if_neg (by simp [ha])] at hp
    rwa [← Except.ok.inj hp]
  | true =>
    obtain ⟨p, footer, out1, -, -, hfooter, h1, h2⟩ := patchAvb_of_avb ha hp
    obtain ⟨v, hvb, hfd, hoff⟩ := (writeTail_eq_ok h.tail).2.2 ha
    have hroom := hv ha v hvb
    have hw := length_le_withTrailer boot r.header r.out.fd
    have h4 := length_le_fileAlign 4096 r.header (withTrailer boot r.header r.out.fd)
    have hpad := length_le_padImage boot r.tail.fd
    have hlen := h.length_eq
    have htail := congrArg List.length hfd
    rw [length_append] at htail
    have hc1 : At out1 o c := by
      refine poke_at h1 (.inl ?_) hc
      omega
    split_ifs at h2
    · refine poke_at h2 (.inl ?_) hc1
      omega
    · rwa [← Except.ok.inj h2]

theorem at_image_of_at_headerCopied (h : IsRun env boot files skipComp r x)
    (hlt : r.image.length < 2 ^ 32) (hv : VbmetaFits boot) (ho : r.header ≤ o)
    (hle : o + c.length ≤ r.out.fd.length) (hc : At x.headerCopied o c) : At r.image o c := by
  have hfd := h.fd_length_le
  have hlen := h.length_eq
  have htail := (writeTail_eq_ok h.tail).1
  rw [Nat.mod_eq_of_lt (by omega)] at htail
  rw [length_append] at htail
  refine signImage_at h.image (by omega) (patchHead_at h ho (patchAvb_at h hlt hv ?_ hc))
  rw [length_append]
  omega

def Repacked.start (r : Repacked) (page space : ℕ) (b : Block) : ℕ :=
  r.header + startOf page (fun b => (r.out.wrote b).length) Block.all space b

theorem IsRun.paged (h : IsRun env boot files skipComp r x) (ha : Aligned boot files)
    (hp : 0 < boot.hdr.pageSize) :
    boot.hdr.pageSize ∣ x.space ∧ (x.head ++ x.rawHdr).length = r.header + x.space ∧
    r.out.fd = x.head ++ x.rawHdr ++ Magisk.paged r.out.wrote boot.hdr.pageSize Block.all ∧
    ∀ b, r.out.off b = startOf boot.hdr.pageSize (fun b => (r.out.wrote b).length) Block.all
      (x.head ++ x.rawHdr).length b := by
  have hpage : (resetSizes boot.hdr).pageSize = boot.hdr.pageSize :=
    (resetSizes_sameBut boot.hdr).pageSize_eq (by simp)
  have h31 := h.pageSize_lt
  have hd : boot.hdr.pageSize ∣ x.space := by
    rw [← hpage] at hp h31 ⊢
    exact dvd_hdrSpace hp h31 h.space
  have hraw := (read_eq_ok.mp h.rawHdr).1
  have hlen : (x.head ++ x.rawHdr).length = r.header + x.space := by
    rw [length_append, hraw, h.header]
  obtain ⟨hfd, hoff⟩ := writeBlocks_fd ha hp Block.nodup_all (by dsimp only; omega)
    (by dsimp only; rwa [hlen, Nat.add_sub_cancel_left]) h.out
  exact ⟨hd, hlen, hfd, fun b => hoff b (Block.mem_all b)⟩

theorem IsRun.layout (h : IsRun env boot files skipComp r x) (ha : Aligned boot files)
    (hp : 0 < boot.hdr.pageSize) :
    boot.hdr.pageSize ∣ x.space ∧
    (∀ b, r.out.off b = r.start boot.hdr.pageSize x.space b) ∧
    (∀ b, At r.out.fd (r.start boot.hdr.pageSize x.space b) (r.out.wrote b)) ∧
    r.out.fd.length = r.header +
      endOf boot.hdr.pageSize (fun b => (r.out.wrote b).length) Block.all x.space := by
  obtain ⟨hd, hlen, hfd, hoff⟩ := h.paged ha hp
  have hstart : ∀ b, startOf boot.hdr.pageSize (fun b => (r.out.wrote b).length) Block.all
      (x.head ++ x.rawHdr).length b = r.start boot.hdr.pageSize x.space b := by
    intro b
    rw [hlen, startOf_add, Repacked.start]
  refine ⟨hd, fun b => ?_, fun b => ?_, ?_⟩
  · rw [hoff b, hstart]
  · have := at_paged r.out.wrote hp (x.head ++ x.rawHdr) [] (Block.mem_all b)
    rwa [append_nil, ← hfd, hstart] at this
  · rw [hfd, length_append, paged_length r.out.wrote hp, hlen, endOf_add]

theorem IsRun.le_start (b : Block) (page : ℕ) : r.header + x.space ≤ r.start page x.space b :=
  Nat.add_le_add_left (le_startOf _ b _) _

theorem IsRun.start_add_le (h : IsRun env boot files skipComp r x) (ha : Aligned boot files)
    (hp : 0 < boot.hdr.pageSize) (b : Block) :
    r.start boot.hdr.pageSize x.space b + (r.out.wrote b).length ≤ r.out.fd.length := by
  have hend := (h.layout ha hp).2.2.2
  have hle : startOf boot.hdr.pageSize _ Block.all x.space b + alignTo _ boot.hdr.pageSize ≤
      endOf boot.hdr.pageSize (fun b => (r.out.wrote b).length) Block.all x.space :=
    startOf_add_le (Block.mem_all b) x.space
  have := le_alignTo hp (r.out.wrote b).length
  rw [hend, Repacked.start]
  omega

theorem start_disjoint {page : ℕ} (hp : 0 < page) (space : ℕ) {b c : Block} (hne : b ≠ c) :
    r.start page space b + (r.out.wrote b).length ≤ r.start page space c ∨
      r.start page space c + (r.out.wrote c).length ≤ r.start page space b := by
  have hb := le_alignTo hp (r.out.wrote b).length
  have hc := le_alignTo hp (r.out.wrote c).length
  have hd : startOf page (fun b => (r.out.wrote b).length) Block.all space b + alignTo _ page ≤ _ ∨ _ :=
    startOf_disjoint (Block.mem_all b) (Block.mem_all c) hne space
  unfold Repacked.start
  omega

theorem mtkHeader_length {m : Bytes} (h : mtkHeader boot p = .ok m) :
    m.length = if p.isSome then mtkHdrSize else 0 := by
  cases p with
  | none =>
    cases h
    rfl
  | some p => exact (read_eq_ok.mp h).1

theorem IsRun.mtk_le (h : IsRun env boot files skipComp r x)
    (hm : (boot.mtkHdr b).isSome) : mtkHdrSize ≤ (r.out.wrote b).length := by
  obtain ⟨pos, hdr, p, hp, hw, -⟩ := writeBlocks_block Block.nodup_all h.out (Block.mem_all b)
  rw [hw]
  cases isPiece_of_ok hp with
  | kernel hq =>
    rename_i q
    have hl := mtkHeader_length hq.mtk
    have hm' : boot.kernel.mtkHdr.isSome := hm
    rw [if_pos hm'] at hl
    unfold KernelParts.piece
    split <;> simp only [length_append] <;> omega
  | ramdisk hmtk hr =>
    have hl := mtkHeader_length hmtk
    have hm' : boot.ramdisk.mtkHdr.isSome := hm
    rw [if_pos hm'] at hl
    cases hr with
    | table | file =>
      rw [length_append]
      omega
    | none => exact hl.ge
  | restored hb => fin_cases hb <;> cases hm
  | absent hb => fin_cases hb <;> cases hm
  | extra | recoveryDtbo | signature | noSignature | table | noTable => cases hm

theorem writeTail_at {header : ℕ} {fd : Bytes} {t : Tail} (h : writeTail boot header fd = .ok t)
    (hc : At fd o c) : At (padImage boot t.fd) o c := by
  have hw : At (withTrailer boot header fd) o c := at_append_left (at_append_left hc _) _
  have ht : At t.fd o c := by
    obtain ⟨-, hno, hyes⟩ := writeTail_eq_ok h
    cases ha : boot.flags.avb with
    | false => rwa [hno ha]
    | true =>
      obtain ⟨v, -, hfd, -⟩ := hyes ha
      rw [hfd]
      exact at_append_left (at_append_left hw _) _
  unfold padImage
  split_ifs
  · exact ht
  · exact at_append_left ht _

theorem patchMtk_at_self {w : Bytes} (h : patchMtk env b p off s = .ok s') (hw : At s.1 off w) :
    At s'.1 off (if p.isSome then overwrite w 4 (leBytes 4 (s.2.size b)) else w) := by
  cases hp : p.isSome with
  | false =>
    rw [patchMtk_none h hp]
    exact hw
  | true =>
    rw [poke_eq_ok (patchMtk_some h hp).1]
    exact hw.overwrite_inside 4 _

theorem patchMtk_at_of_disjoint {w : Bytes} (h : patchMtk env b p off s = .ok s')
    (hd : p.isSome → o + w.length ≤ off ∨ off + 8 ≤ o) (hw : At s.1 o w) : At s'.1 o w := by
  cases hp : p.isSome with
  | false => rwa [patchMtk_none h hp]
  | true =>
    refine poke_at (patchMtk_some h hp).1 ?_ hw
    have := hd hp
    rw [leBytes_length]
    omega

section Blocks

variable (h : IsRun env boot files skipComp r x) (ha : Aligned boot files)
  (hp : 0 < boot.hdr.pageSize) (hlt : r.image.length < 2 ^ 32)

include h ha hp hlt

theorem at_mtkPatched (b : Block) :
    At x.mtkPatched.1 (r.start boot.hdr.pageSize x.space b) (r.block boot b) := by
  have hfd := h.fd_length_le
  have hlen := h.length_eq
  rw [length_append] at hfd
  have hoff : ∀ c, r.out.off c % 2 ^ 32 = r.start boot.hdr.pageSize x.space c := by
    intro c
    have := h.start_add_le ha hp c
    rw [(h.layout ha hp).2.1 c, Nat.mod_eq_of_lt (by omega)]
  have hother : ∀ c, b ≠ c → (boot.mtkHdr c).isSome →
      r.start boot.hdr.pageSize x.space b + (r.block boot b).length ≤ r.out.off c % 2 ^ 32 ∨
        r.out.off c % 2 ^ 32 + 8 ≤ r.start boot.hdr.pageSize x.space b := by
    intro c hbc hm
    have hle := h.mtk_le hm
    have hd := start_disjoint (r := r) hp x.space hbc
    rw [mtkHdrSize] at hle
    rw [hoff, Repacked.block_length]
    omega
  have hblock := writeTail_at h.tail ((h.layout ha hp).2.2.1 b)
  have hk := h.kernelPatched
  have hr := h.mtkPatched
  cases b with
  | kernel =>
    refine patchMtk_at_of_disjoint hr (hother .ramdisk (by decide)) ?_
    rw [hoff] at hk
    have hself := patchMtk_at_self hk hblock
    rwa [Repacked.block_kernel]
  | ramdisk =>
    have hsize : x.kernelPatched.2.size .ramdisk = r.out.hdr.size .ramdisk :=
      (patchMtk_sameBut hk).size_eq (by rw [storedWith_size]; decide)
    have hfirst := patchMtk_at_of_disjoint hk (w := r.out.wrote .ramdisk) (by
      rw [← Repacked.block_length r boot]
      exact hother .kernel (by decide)) hblock
    rw [hoff] at hr
    have hself := patchMtk_at_self hr hfirst
    rwa [Repacked.block_ramdisk, ← hsize]
  | _ =>
    exact patchMtk_at_of_disjoint hr (hother .ramdisk (by decide))
      (patchMtk_at_of_disjoint hk (hother .kernel (by decide)) hblock)

variable (hv : VbmetaFits boot) (hamonet : boot.flags.amonet = false)
  (hspace : boot.hdr.hdrSize ≤ x.space)

include hv hamonet hspace

theorem at_image_header : At r.image r.header r.hdr.raw := by
  have hfd := h.fd_length_le
  have hlen := h.length_eq
  rw [length_append] at hfd
  have hraw : r.hdr.raw.length = boot.hdr.hdrSize := by
    rw [r.hdr.raw_length, h.sameBut.kind_eq, Hdr.hdrSize]
  have hle : r.header + r.hdr.raw.length ≤ r.out.fd.length := by
    have h1 := h.start_add_le ha hp .kernel
    have h2 := IsRun.le_start (r := r) (x := x) .kernel boot.hdr.pageSize
    omega
  have hcopy := h.headerCopied
  rw [copyHeader, if_neg (by simp [hamonet])] at hcopy
  refine at_image_of_at_headerCopied h hlt hv le_rfl hle ?_
  rw [poke_eq_ok hcopy]
  exact at_overwrite_self (by omega)

theorem at_image_block (b : Block) :
    At r.image (r.start boot.hdr.pageSize x.space b) (r.block boot b) := by
  have hraw : r.hdr.raw.length = boot.hdr.hdrSize := by
    rw [r.hdr.raw_length, h.sameBut.kind_eq, Hdr.hdrSize]
  have hle := IsRun.le_start (r := r) (x := x) b boot.hdr.pageSize
  have hcopy := h.headerCopied
  rw [copyHeader, if_neg (by simp [hamonet])] at hcopy
  have hat := poke_at hcopy (.inr (by omega)) (at_mtkPatched h ha hp hlt b)
  refine at_image_of_at_headerCopied h hlt hv (by omega) ?_ hat
  rw [Repacked.block_length]
  exact h.start_add_le ha hp b

end Blocks

end

end Magisk.Boot
