import Magisk.Boot.Image

namespace Magisk.Boot

open List Option

theorem restore_eq {data : Bytes} (h : (restore data).length < sendfileMax) : restore data = data := by
  rw [restore, length_take] at h
  rw [restore, take_of_length_le (by omega)]

theorem resetSizes_size (hdr : Hdr) (b : Block) : (resetSizes hdr).size b =
    if b ∈ [Block.kernel, .ramdisk, .second, .dtb, .bootconfig] then 0 else hdr.size b := by
  cases b <;> simp [resetSizes, Hdr.size_setSize_of_ne, Hdr.size_setSize_self]

/-- The kernel that is to be written: the file, or what the source has. -/
def keptKernel (boot : BootImg) (files : Files) : Bytes :=
  files.kernel.getD (view boot.mem boot.kernel.kernel (boot.hdr.size .kernel))

/-- A file for a zImage is as large as what it replaces. -/
def ZimageRoom (boot : BootImg) (files : Files) : Prop :=
  boot.kernel.zimage → ∀ m ∈ files.kernel, m.length = boot.hdr.size .kernel

/-- A part that only a zImage has. -/
def zimageView (boot : BootImg) (off n : ℕ) : Bytes :=
  if boot.kernel.zimage then view boot.mem off n else []

/-- What follows the MTK header in the kernel block. -/
def kernelContent (boot : BootImg) (kernel : Bytes) (files : Files) : Bytes :=
  zimageView boot boot.kernel.zHdr boot.kernel.zHdrSz ++
    (kernel ++ (zimageView boot boot.kernel.zTail.1 boot.kernel.zTail.2 ++ files.kernelDtb.getD []))

section

variable {env : Env} {boot : BootImg} {files : Files} {r : Repacked} {x : Run} {hdr : Hdr}

theorem zimageBody_skip {m : Bytes} {n : ℕ} (h : n ≤ boot.hdr.size .kernel) :
    zimageBody boot true m m n = .ok m :=
  if_neg (by omega)

theorem kernelBody_skip {q : Bytes × Hdr} (h : kernelBody env boot files true hdr = .ok q)
    (h0 : hdr.size .kernel = 0) (hroom : ZimageRoom boot files) (hlt : q.1.length < 2 ^ 32) :
    q.1 = keptKernel boot files ∧
      q.2.size .kernel = if hdr.Has .kernel then (keptKernel boot files).length else 0 := by
  have horig := Nat.mod_eq_of_lt (boot.hdr.size_lt .kernel)
  unfold keptKernel
  unfold kernelBody at h
  cases hf : files.kernel with
  | none =>
    simp only [hf] at h
    split_ifs at h with hs
    · obtain ⟨body, hb, h⟩ := bind_eq_ok.mp h
      cases h
      obtain ⟨hl, hat⟩ := read_eq_ok.mp hb
      have hview := hat.view_eq
      rw [hl] at hview
      rw [getD_none, hview, hl, Hdr.size_setSize_self, horig]
      exact ⟨rfl, rfl⟩
    · cases h
      simp [h0, not_not.mp hs, view]
  | some m =>
    simp only [hf, component_skip, bind_eq_ok] at h
    obtain ⟨data, hdata, h⟩ := h
    cases hdata
    cases hzi : boot.kernel.zimage with
    | false =>
      simp only [hzi, Bool.false_eq_true, if_false] at h
      cases h
      rw [Hdr.size_setSize_self, Nat.mod_eq_of_lt hlt]
      exact ⟨rfl, rfl⟩
    | true =>
      have hm := hroom hzi m hf
      have hle : (hdr.setSize .kernel m.length).size .kernel ≤ boot.hdr.size .kernel := by
        rw [Hdr.size_setSize_self, hm]
        split_ifs <;> omega
      simp only [hzi, if_true, zimageBody_skip hle] at h
      cases h
      have hhas := (hdr.sameBut_setSize .kernel m.length).has_iff .kernel
      refine ⟨rfl, ?_⟩
      rw [Hdr.size_setSize_self, horig, getD_some]
      exact if_congr hhas hm.symm rfl

theorem zimagePart_eq_ok {off n : ℕ} {b : Bytes} (h : zimagePart boot off n = .ok b) :
    b = zimageView boot off n ∧ (boot.kernel.zimage → b.length = n) := by
  unfold zimagePart at h
  unfold zimageView
  split_ifs at h with hz
  · obtain ⟨hl, hat⟩ := read_eq_ok.mp h
    rw [if_pos hz, ← hl, hat.view_eq]
    exact ⟨rfl, fun _ => rfl⟩
  · cases h
    rw [if_neg hz]
    exact ⟨rfl, fun hc => absurd hc hz⟩

theorem IsKernel.tailHdr_size {q : KernelParts} (h : IsKernel env boot files true hdr q)
    (hhas : hdr.Has .kernel) : (q.tailHdr boot).size .kernel =
      (q.bodyHdr.size .kernel + q.zHdr.length + q.zTail.length) % 2 ^ 32 := by
  have hb := q.bodyHdr.size_lt .kernel
  have hs := kernelBody_sameBut h.body
  have hhas1 : q.bodyHdr.Has .kernel := (hs.has_iff _).mpr hhas
  have hhas2 : (q.bodyHdr.addSize .kernel boot.kernel.zHdrSz).Has .kernel :=
    ((q.bodyHdr.sameBut_setSize .kernel _).has_iff _).mpr hhas1
  unfold KernelParts.tailHdr
  split_ifs with hz
  · rw [Hdr.size_addSize, if_pos hhas2, Hdr.size_addSize, if_pos hhas1,
      (zimagePart_eq_ok h.zHdr).2 hz]
    omega
  · have hh := h.zHdr
    have ht := h.zTail
    rw [zimagePart, if_neg hz] at hh ht
    rw [← Except.ok.inj hh, ← Except.ok.inj ht]
    simp only [length_nil]
    omega

theorem IsKernel.piece_size {q : KernelParts} (h : IsKernel env boot files true hdr q)
    (hhas : hdr.Has .kernel) : (q.piece boot files).hdr.size .kernel =
      (q.bodyHdr.size .kernel + q.zHdr.length + q.zTail.length +
        (files.kernelDtb.getD []).length) % 2 ^ 32 := by
  have ht := h.tailHdr_size hhas
  have hhas' : (q.tailHdr boot).Has .kernel := ((tailHdr_sameBut h).has_iff _).mpr hhas
  unfold KernelParts.piece
  cases hd : files.kernelDtb with
  | none =>
    simp only [getD_none, length_nil, add_zero]
    exact ht
  | some dtb =>
    simp only [getD_some]
    rw [Hdr.size_addSize, if_pos hhas', ht]
    omega

theorem KernelParts.piece_bytes (q : KernelParts)
    (hlt : (q.piece boot files).bytes.length < sendfileMax) : (q.piece boot files).bytes =
      q.mtk ++ (q.zHdr ++ (q.body ++ (q.zTail ++ files.kernelDtb.getD []))) := by
  unfold KernelParts.piece at hlt ⊢
  cases hd : files.kernelDtb with
  | none => simp
  | some dtb =>
    simp only [hd, length_append] at hlt
    have hdtb : restore dtb = dtb := restore_eq (by omega)
    simp [hdtb]

end

/-- A header without a kernel leaves nothing to be found in it. -/
def KernelFree (boot : BootImg) : Prop :=
  ¬ boot.hdr.Has .kernel → boot.kernel.mtkHdr = none ∧ boot.kernel.zimage = false

theorem IsParsed.kernelFree {env : Env} {file : Bytes} {hdr : Hdr} {flags : Flags} {boot : BootImg}
    (h : IsParsed env file hdr flags boot) : KernelFree boot := by
  intro hn
  rw [h.has_iff] at hn
  rw [h.kernel_of_size_zero (Hdr.size_of_not_has hn)]
  exact ⟨rfl, rfl⟩

section Run

variable {env : Env} {boot : BootImg} {files : Files} {r : Repacked} {x : Run}
  (h : IsRun env boot files true r x) (hlt : r.image.length < sendfileMax)

include h hlt

theorem IsRun.kernel (hroom : ZimageRoom boot files) :
    ∃ mtk, mtkHeader boot boot.kernel.mtkHdr = .ok mtk ∧
    r.out.wrote .kernel = mtk ++ kernelContent boot (keptKernel boot files) files ∧
    r.out.hdr.size .kernel = if boot.hdr.Has .kernel then
      (kernelContent boot (keptKernel boot files) files).length % 2 ^ 32 else 0 := by
  obtain ⟨pos, hdr, p, hp, hw, hs, h0, hk⟩ :=
    writeBlocks_block Block.nodup_all h.out (Block.mem_all .kernel)
  obtain ⟨q, hq, rfl⟩ := repackKernel_eq_ok.mp hp
  have hhas : hdr.Has .kernel ↔ boot.hdr.Has .kernel := by
    rw [Hdr.Has, hk, (resetSizes_sameBut boot.hdr).kind_eq, Hdr.Has]
  have hle := wrote_length_le h .kernel
  rw [hw] at hle
  have hbytes := q.piece_bytes (hle.trans_lt hlt)
  rw [hbytes] at hle
  simp only [length_append] at hle
  have hmax : sendfileMax = 0x7ffff000 := rfl
  rw [resetSizes_size] at h0
  obtain ⟨hbody, hsize⟩ := kernelBody_skip hq.body h0 hroom (by dsimp only; omega)
  dsimp only at hbody hsize
  obtain ⟨hzh, -⟩ := zimagePart_eq_ok hq.zHdr
  obtain ⟨hzt, -⟩ := zimagePart_eq_ok hq.zTail
  refine ⟨q.mtk, hq.mtk, ?_, ?_⟩
  · rw [hw, hbytes, hbody, hzh, hzt, kernelContent]
  · rw [hs]
    by_cases hc : hdr.Has .kernel
    · rw [hq.piece_size hc, hsize, if_pos hc, if_pos (hhas.mp hc), hzh, hzt, kernelContent]
      simp only [length_append]
      congr 1
      omega
    · rw [if_neg (hhas.not.mp hc)]
      apply Hdr.size_of_not_has
      rwa [(piece_sameBut hq).has_iff]

omit hlt in
theorem IsRun.size_eq_out {b : Block} (hk : b ≠ .kernel) (hr : b ≠ .ramdisk) :
    r.hdr.size b = r.out.hdr.size b := by
  rw [h.size_eq]
  cases b with
  | kernel => exact absurd rfl hk
  | ramdisk => exact absurd rfl hr
  | _ => rfl

/-- A block that an image may lack holds its file. Without a file its size is what the header had
after the reset. -/
theorem IsRun.optional {b : Block}
    (hb : b ∈ [Block.second, .extra, .recoveryDtbo, .dtb, .bootconfig]) :
    r.out.wrote b = (files.optional b).getD [] ∧
    r.hdr.size b = (files.optional b).elim ((resetSizes boot.hdr).size b)
      fun d => if boot.hdr.Has b then d.length else 0 := by
  obtain ⟨pos, hdr, p, hp, hw, hs, h0, hk⟩ :=
    writeBlocks_block Block.nodup_all h.out (Block.mem_all b)
  have hmax : sendfileMax = 0x7ffff000 := rfl
  have hle := wrote_length_le h b
  have hhas : hdr.Has b ↔ boot.hdr.Has b := by
    rw [Hdr.Has, hk, (resetSizes_sameBut boot.hdr).kind_eq, Hdr.Has]
  have hset : ∀ d : Bytes, files.optional b = some d → r.out.wrote b = d →
      r.out.hdr.size b = (hdr.setSize b d.length).size b →
      r.out.hdr.size b = (files.optional b).elim ((resetSizes boot.hdr).size b)
        fun d => if boot.hdr.Has b then d.length else 0 := by
    intro d hf hd hsz
    rw [hd] at hle
    rw [hsz, Hdr.size_setSize_self, hf, elim_some, Nat.mod_eq_of_lt (by omega)]
    simp only [hhas]
  have hrestore : ∀ d : Bytes, r.out.wrote b = restore d → restore d = d := by
    intro d hd
    rw [hd] at hle
    exact restore_eq (by omega)
  rw [h.size_eq_out (by rintro rfl; simp at hb) (by rintro rfl; simp at hb)]
  cases isPiece_of_ok hp with
  | kernel | ramdisk | signature | noSignature | table | noTable => simp at hb
  | restored hb' hf =>
    rename_i d
    have hd := hrestore d hw
    rw [hf, getD_some, ← hf]
    exact ⟨hw.trans hd, hset d hf (hw.trans hd) hs⟩
  | extra hf hc =>
    cases hc
    rename_i m
    have hf' : files.optional .extra = some m := hf
    rw [hf', getD_some, ← hf']
    exact ⟨hw, hset m hf' hw hs⟩
  | recoveryDtbo hf =>
    rename_i d
    have hd := hrestore d hw
    have hf' : files.optional .recoveryDtbo = some d := hf
    rw [hf', getD_some, ← hf']
    have hset64 : (hdr.set64 .recoveryDtboOffset pos).Has .recoveryDtbo ↔ hdr.Has .recoveryDtbo := by
      rw [Hdr.Has, Hdr.set64, Hdr.kind_set, Hdr.Has]
    refine ⟨hw.trans hd, hset d hf' (hw.trans hd) ?_⟩
    rw [hs, Hdr.size_setSize_self, Hdr.size_setSize_self]
    simp only [hset64]
  | absent hb' hf =>
    rw [hf]
    exact ⟨hw, hs.trans h0⟩

omit hlt in
theorem IsRun.signature : r.out.wrote .signature =
      view boot.mem (boot.block .signature) (boot.hdr.size .signature) ∧
    r.hdr.size .signature = (r.out.wrote .signature).length := by
  obtain ⟨pos, hdr, p, hp, hw, hs, h0, -⟩ :=
    writeBlocks_block Block.nodup_all h.out (Block.mem_all .signature)
  rw [resetSizes_size] at h0
  rw [h.size_eq_out (by decide) (by decide), hw, hs]
  cases isPiece_of_ok hp with
  | restored hb | absent hb => simp at hb
  | signature hne hr =>
    obtain ⟨hl, hat⟩ := read_eq_ok.mp hr
    rw [← hl, hat.view_eq, h0, if_neg (by decide)]
    exact ⟨rfl, hl.symm⟩
  | noSignature hz =>
    rw [h0, if_neg (by decide), hz]
    exact ⟨rfl, rfl⟩

omit h hlt in
theorem repackEntries_skip {es es' : List Entry} {off fin : ℕ} {data : Bytes} (hoff : off < 2 ^ 32)
    (he : repackEntries env boot files true es off = .ok (es', data, fin)) :
    fin = (off + data.length) % 2 ^ 32 ∧ es'.map Entry.rest = es.map Entry.rest := by
  induction es generalizing off es' data fin with
  | nil =>
    cases he
    exact ⟨by rw [length_nil, add_zero, Nat.mod_eq_of_lt hoff], rfl⟩
  | cons e es ih =>
    simp only [repackEntries, component_skip, bind_eq_ok] at he
    obtain ⟨name, -, fmt, -, d, hd, ⟨es1, rest, fin1⟩, hrec, he⟩ := he
    cases hd
    cases he
    obtain ⟨hfin, hmap⟩ := ih (Nat.mod_lt _ (by norm_num)) hrec
    refine ⟨?_, by simp [hmap]⟩
    dsimp only
    rw [hfin, length_append]
    omega

omit h hlt in
theorem readEntries_rest {mem : Bytes} {p n : ℕ} {es : List Entry}
    (h : readEntries mem p n = .ok es) : es.length = n ∧ ∀ e ∈ es, e.rest.length = 100 := by
  induction n generalizing p es with
  | zero =>
    cases h
    exact ⟨rfl, by simp⟩
  | succ n ih =>
    simp only [readEntries, readEntry, bind_eq_ok] at h
    obtain ⟨e, ⟨b, hb, he⟩, es', hes, h⟩ := h
    cases he
    cases h
    obtain ⟨hl, hall⟩ := ih hes
    refine ⟨by rw [length_cons, hl], ?_⟩
    rintro e (- | ⟨-, he⟩)
    · rw [length_drop, (read_eq_ok.mp hb).1, tableEntrySize]
    · exact hall e he

omit h hlt in
theorem encode_length {e : Entry} (h : e.rest.length = 100) : e.encode.length = tableEntrySize := by
  simp [Entry.encode, h, tableEntrySize]

omit h hlt in
theorem flatMap_encode_length {es : List Entry} (h : ∀ e ∈ es, e.rest.length = 100) :
    (es.flatMap Entry.encode).length = tableEntrySize * es.length := by
  induction es with
  | nil => rfl
  | cons e es ih =>
    rw [flatMap_cons, length_append, encode_length (h e mem_cons_self),
      ih fun e he => h e (mem_cons_of_mem _ he), length_cons]
    ring

omit hlt in
theorem IsRun.table : (r.out.wrote .vendorRamdiskTable).length =
      (if boot.hdr.size .vendorRamdiskTable = 0 then 0
        else tableEntrySize * boot.hdr.val .vendorRamdiskTableEntryNum) ∧
    r.hdr.size .vendorRamdiskTable = boot.hdr.size .vendorRamdiskTable := by
  obtain ⟨pos, hdr, p, hp, hw, hs, h0, -⟩ :=
    writeBlocks_block Block.nodup_all h.out (Block.mem_all .vendorRamdiskTable)
  rw [resetSizes_size, if_neg (by decide)] at h0
  rw [h.size_eq_out (by decide) (by decide), hw, hs]
  cases isPiece_of_ok hp with
  | restored hb | absent hb => simp at hb
  | noTable hz =>
    rw [if_pos hz]
    exact ⟨rfl, h0⟩
  | table hz ht =>
    rename_i t
    refine ⟨?_, h0⟩
    rw [if_neg hz]
    rw [repackTable, bind_eq_ok] at ht
    obtain ⟨es, hes, ht⟩ := ht
    obtain ⟨-, hmap⟩ := repackEntries_skip (by norm_num) ht
    rw [vendorRamdiskTbl, if_neg hz] at hes
    split_ifs at hes
    obtain ⟨hl, hall⟩ := readEntries_rest hes
    have hlen : t.1.length = es.length := by
      simpa using congrArg List.length hmap
    have hrest : ∀ e ∈ t.1, e.rest.length = 100 := by
      intro e he
      have hmem := List.mem_map_of_mem (f := Entry.rest) he
      rw [hmap] at hmem
      obtain ⟨e', he', heq⟩ := List.mem_map.mp hmem
      rw [← heq]
      exact hall e' he'
    rw [flatMap_encode_length hrest, hlen, hl]

theorem IsRun.ramdisk : ∃ mtk data, mtkHeader boot boot.ramdisk.mtkHdr = .ok mtk ∧
    r.out.wrote .ramdisk = mtk ++ data ∧ r.out.hdr.size .ramdisk = data.length ∧
    (boot.hdr.size .vendorRamdiskTable = 0 → data = files.ramdisk.getD []) := by
  obtain ⟨pos, hdr, p, hp, hw, hs, h0, hk⟩ :=
    writeBlocks_block Block.nodup_all h.out (Block.mem_all .ramdisk)
  have hle := wrote_length_le h .ramdisk
  have hmax : sendfileMax = 0x7ffff000 := rfl
  have hhas : hdr.Has .ramdisk := by
    have : ∀ k, (HdrKind.sizeAt .ramdisk k).isSome := by decide
    exact this hdr.kind
  rw [resetSizes_size, if_pos (by decide)] at h0
  rw [hw] at hle
  obtain ⟨mtk, hm, hr⟩ := isRamdisk_of_ok hp
  cases hr with
  | none ht hf =>
    refine ⟨mtk, [], hm, by rw [hw, append_nil], hs.trans h0, fun _ => ?_⟩
    rw [hf]
    rfl
  | file ht hf hc =>
    cases hc
    rename_i m fmt
    rw [length_append] at hle
    refine ⟨mtk, m, hm, hw, ?_, fun _ => by rw [hf]; rfl⟩
    rw [hs, Hdr.size_setSize_self, if_pos hhas, Nat.mod_eq_of_lt (by omega)]
  | table ht htab =>
    rename_i es data fin
    rw [length_append] at hle
    rw [repackTable, bind_eq_ok] at htab
    obtain ⟨es0, -, htab⟩ := htab
    obtain ⟨hfin, -⟩ := repackEntries_skip (by norm_num) htab
    refine ⟨mtk, data, hm, hw, ?_, fun hz => absurd hz ht⟩
    rw [hs, Hdr.size_setSize_self, if_pos hhas, hfin]
    omega

end Run

end Magisk.Boot
