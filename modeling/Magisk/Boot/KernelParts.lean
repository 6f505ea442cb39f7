import Magisk.Boot.BlockOrder
import Magisk.Tiling

namespace Magisk.Boot

theorem sub32_of_le {a b : ℕ} (h : b ≤ a) (ha : a < 2 ^ 32) : sub32 a b = a - b := by
  unfold sub32
  omega

theorem sub32_of_lt {a b : ℕ} (h : a < b) (hb : b < 2 ^ 32) : sub32 a b = a + 2 ^ 32 - b := by
  unfold sub32
  omega

theorem sub32_lt (a b : ℕ) : sub32 a b < 2 ^ 32 := Nat.mod_lt _ (by norm_num)

/-- The number of bytes in front of the device tree of a block. -/
def beforeDtb (mem : Bytes) (block size : ℕ) : ℕ :=
  match findDtbOffset mem block size with
  | .ok (some off) => if 0 < off ∧ off < 2 ^ 31 then off else size
  | _ => size

/-- Where the first known format starts behind the header of a zImage of `n` bytes. -/
def FirstFormat (mem : Bytes) (start n p : ℕ) : Prop :=
  IsLeast {p | 0x28 ≤ p ∧ p < n ∧ checkFmtLg mem (start + p) (n - p) ≠ .ok .unknown} p

/-- The difference of the words `end` and `start` of a zImage. -/
def piggySize (mem : Bytes) (start : ℕ) : ℕ :=
  sub32 (leValue (view mem (start + 0x2c) 4)) (leValue (view mem (start + 0x28) 4))

/-- The end of the piggy, by the offsets in the last 64 bytes of a zImage. -/
def zimageEnd (mem : Bytes) (start : ℕ) : Option ℕ :=
  piggyEnd (view mem (start + piggySize mem start - 64) 64) (piggySize mem start) 16

/-- If the `n` bytes are a zImage with an end of the piggy, it is in them and not before the first
known format. -/
def ZimageFits (mem : Bytes) (start n : ℕ) : Prop :=
  checkFmtLg mem start n = .ok .zimage → ∀ p e, FirstFormat mem start n p →
    zimageEnd mem start = some e → p ≤ e ∧ e ≤ n

/-- The block has room for the header of MediaTek in front of the device tree, if it starts with
one, and the rest of it fits a zImage. -/
def KernelFits (mem : Bytes) (block size : ℕ) : Prop :=
  let n := beforeDtb mem block size
  if checkFmtLg mem block n = .ok .mtk then
    mtkHdrSize ≤ n ∧ ZimageFits mem (block + mtkHdrSize) (n - mtkHdrSize)
  else ZimageFits mem block n

namespace KernelInfo

variable (k : KernelInfo)

/-- The kernel, with the header and the tail of a zImage. -/
def piggyParts : List (ℕ × ℕ) :=
  if k.zimage then [(k.zHdr, k.zHdrSz), (k.kernel, k.size), k.zTail] else [(k.kernel, k.size)]

/-- The parts of the block, as far as they are there. -/
def parts : List (ℕ × ℕ) :=
  (k.mtkHdr.toList.map fun p => (p, mtkHdrSize)) ++
    (k.piggyParts ++ if k.dtb.2 = 0 then [] else [k.dtb])

/-- The parts make up the block, and none of them leaves it. -/
structure Covers (mem : Bytes) (block size : ℕ) : Prop where
  bytes : (k.parts.flatMap fun p => view mem p.1 p.2) = view mem block size
  inside : ∀ p ∈ k.parts, block ≤ p.1 ∧ p.1 + p.2 ≤ block + size

/-- The kernel as it is cut out of `n` bytes at `start`, of a zImage by `parse_zimage`. -/
inductive Cut (mem : Bytes) (start n : ℕ) : Prop
  | raw (hz : k.zimage = false) (hk : k.kernel = start) (hs : k.size = n)
      (hno : checkFmtLg mem start n = .ok .zimage → ∀ p, FirstFormat mem start n p →
        zimageEnd mem start = none)
  | zimage (e : ℕ) (he : e < 2 ^ 32) (hh : k.zHdrSz < 2 ^ 32)
      (hfmt : checkFmtLg mem start n = .ok .zimage) (hfirst : FirstFormat mem start n k.zHdrSz)
      (hend : zimageEnd mem start = some e) (hz : k.zimage)
      (hhdr : k.zHdr = start) (hk : k.kernel = start + k.zHdrSz) (hs : k.size = sub32 e k.zHdrSz)
      (ht : k.zTail = (start + e, sub32 n e))

variable {k} {mem : Bytes} {start n : ℕ}

theorem Cut.fits_of_inside (h : k.Cut mem start n) (hn : n < 2 ^ 32) {stop : ℕ}
    (hstop : stop < start + 2 ^ 32) (hin : ∀ p ∈ k.piggyParts, p.1 + p.2 ≤ stop) :
    start + n ≤ stop ∧ ZimageFits mem start n := by
  unfold piggyParts at hin
  cases h with
  | raw hz hk hs hno =>
    rw [hz] at hin
    have := hin (k.kernel, k.size) (by simp)
    refine ⟨by omega, fun hfmt p e hp he => ?_⟩
    rw [hno hfmt p hp] at he
    cases he
  | zimage e he hh hfmt hfirst hend hz hhdr hk hs ht =>
    rw [hz, if_pos rfl, ht] at hin
    have hkernel := hin (k.kernel, k.size) (by simp)
    have htail := hin (start + e, sub32 n e) (by simp)
    rw [hk, hs] at hkernel
    have hle : k.zHdrSz ≤ e := by
      by_contra hlt
      rw [sub32_of_lt (by omega) hh] at hkernel
      omega
    have hen : e ≤ n := by
      by_contra hlt
      rw [sub32_of_lt (by omega) he] at htail
      omega
    rw [sub32_of_le hen hn] at htail
    refine ⟨by omega, fun _ p e' hp he' => ?_⟩
    obtain rfl := hfirst.unique hp
    obtain rfl := Option.some.inj (hend.symm.trans he')
    exact ⟨hle, hen⟩

theorem Cut.tiles (h : k.Cut mem start n) (hn : n < 2 ^ 32) (hf : ZimageFits mem start n) :
    Tiles start k.piggyParts (start + n) := by
  unfold piggyParts
  cases h with
  | raw hz hk hs =>
    rw [hz, if_neg (by decide), hk, hs]
    exact .single start n
  | zimage e he hh hfmt hfirst hend hz hhdr hk hs ht =>
    obtain ⟨hle, hen⟩ := hf hfmt _ e hfirst hend
    rw [hz, if_pos rfl, hhdr, hk, hs, ht, sub32_of_le hle he, sub32_of_le hen hn]
    refine .cons _ _ (.cons _ _ ?_)
    have he' : start + k.zHdrSz + (e - k.zHdrSz) = start + e := by omega
    have hn' : start + n = start + e + (n - e) := by omega
    rw [he', hn']
    exact .single _ _

end KernelInfo

theorem findDtb_lt {mem : Bytes} {buf sz fuel curr off : ℕ}
    (h : findDtb mem buf sz fuel curr = .ok (some off)) : off < sz := by
  induction fuel generalizing curr with
  | zero => cases h
  | succ fuel ih =>
    rw [findDtb] at h
    split_ifs at h
    · cases h
    · obtain ⟨hay, -, h⟩ := bind_eq_ok.mp h
      cases hfind : find hay dtbMagic with
      | none =>
        rw [hfind] at h
        cases h
      | some i =>
        rw [hfind] at h
        obtain ⟨totalsize, -, h⟩ := bind_eq_ok.mp h
        split_ifs at h with hsize
        · exact ih h
        · obtain ⟨offDtStruct, -, h⟩ := bind_eq_ok.mp h
          split_ifs at h
          · exact ih h
          · obtain ⟨tag, -, h⟩ := bind_eq_ok.mp h
            split_ifs at h
            · exact ih h
            · cases h
              omega

theorem findPiggy_eq_ok {mem : Bytes} {kernel size n curr : ℕ} {r : Option ℕ}
    (h : findPiggy mem kernel size n curr = .ok r) (p : ℕ) : r = some p ↔
      IsLeast {p | curr ≤ p ∧ p < curr + n ∧
        checkFmtLg mem (kernel + p) (size - p) ≠ .ok .unknown} p := by
  induction n generalizing curr with
  | zero =>
    obtain rfl := Except.ok.inj h
    refine iff_of_false (by simp) fun hl => ?_
    have := hl.1
    simp only [Set.mem_ofPred_eq] at this
    omega
  | succ n ih =>
    rw [findPiggy, bind_eq_ok] at h
    obtain ⟨fmt, hfmt, h⟩ := h
    split_ifs at h with hunknown
    · obtain rfl := Except.ok.inj h
      have hleast : IsLeast {p | curr ≤ p ∧ p < curr + (n + 1) ∧
          checkFmtLg mem (kernel + p) (size - p) ≠ .ok .unknown} curr :=
        ⟨⟨le_rfl, by omega, by rw [hfmt]; simpa using hunknown⟩, fun q hq => hq.1⟩
      rw [Option.some.injEq]
      exact ⟨fun h => h ▸ hleast, fun h => hleast.unique h⟩
    · rw [ih h]
      have hset : {p | curr + 1 ≤ p ∧ p < curr + 1 + n ∧
          checkFmtLg mem (kernel + p) (size - p) ≠ .ok .unknown} =
          {p | curr ≤ p ∧ p < curr + (n + 1) ∧
            checkFmtLg mem (kernel + p) (size - p) ≠ .ok .unknown} := by
        ext q
        simp only [Set.mem_ofPred_eq]
        constructor
        · rintro ⟨h1, h2, h3⟩
          exact ⟨by omega, by omega, h3⟩
        · rintro ⟨h1, h2, h3⟩
          refine ⟨?_, by omega, h3⟩
          by_contra hq
          obtain rfl : q = curr := by omega
          rw [hfmt, not_not.mp hunknown] at h3
          exact h3 rfl
      rw [hset]

theorem piggyEnd_lt {offsets : Bytes} {size n e : ℕ} (h : piggyEnd offsets size n = some e) :
    e < size := by
  induction n with
  | zero => cases h
  | succ n ih =>
    rw [piggyEnd] at h
    split_ifs at h with hc
    · cases h
      exact hc.2
    · exact ih h

section

variable {mem : Bytes} {k k' : KernelInfo} {block size : ℕ}

theorem firstFormat_iff {start n : ℕ} {r : Option ℕ}
    (h : findPiggy mem start n (n - 0x28) 0x28 = .ok r) (p : ℕ) :
    r = some p ↔ FirstFormat mem start n p := by
  rw [findPiggy_eq_ok h, FirstFormat]
  have hset : {p | 0x28 ≤ p ∧ p < 0x28 + (n - 0x28) ∧
      checkFmtLg mem (start + p) (n - p) ≠ .ok .unknown} =
      {p | 0x28 ≤ p ∧ p < n ∧ checkFmtLg mem (start + p) (n - p) ≠ .ok .unknown} := by
    ext q
    simp only [Set.mem_ofPred_eq]
    constructor
    · rintro ⟨h1, h2, h3⟩
      exact ⟨h1, by omega, h3⟩
    · rintro ⟨h1, h2, h3⟩
      exact ⟨h1, by omega, h3⟩
  rw [hset]

theorem parseZimage_eq_ok (hz : k.zimage = false) (hsize : k.size < 2 ^ 32)
    (hfmt : checkFmtLg mem k.kernel k.size = .ok .zimage) (h : parseZimage mem k = .ok k') :
    k'.Cut mem k.kernel k.size ∧ k'.mtkHdr = k.mtkHdr ∧ k'.dtb = k.dtb := by
  obtain ⟨r, hr, h⟩ := bind_eq_ok.mp h
  have hfirst := firstFormat_iff hr
  cases r with
  | none =>
    cases h
    refine ⟨.raw hz rfl rfl fun _ p hp => ?_, rfl, rfl⟩
    cases (hfirst p).mpr hp
  | some hdrSz =>
    obtain ⟨start, hstart, h⟩ := bind_eq_ok.mp h
    obtain ⟨fin, hfin, h⟩ := bind_eq_ok.mp h
    change (if k.kernel + sub32 fin start < 64 then _ else _) = _ at h
    split_ifs at h
    obtain ⟨offsets, hoffsets, h⟩ := bind_eq_ok.mp h
    have hpiggy : sub32 fin start = piggySize mem k.kernel := by
      rw [piggySize, ← eq_view_of_read32 hstart, ← eq_view_of_read32 hfin]
    have hend : piggyEnd offsets (sub32 fin start) 16 = zimageEnd mem k.kernel := by
      rw [zimageEnd, ← hpiggy, eq_view_of_read hoffsets]
    cases he : piggyEnd offsets (sub32 fin start) 16 with
    | none =>
      rw [he] at h hend
      cases h
      exact ⟨.raw hz rfl rfl fun _ p _ => hend.symm, rfl, rfl⟩
    | some e =>
      rw [he] at h hend
      obtain ⟨fmt, -, h⟩ := bind_eq_ok.mp h
      cases h
      have hp := (hfirst hdrSz).mp rfl
      have hlt := lt_trans (piggyEnd_lt he) (sub32_lt fin start)
      have hhdr : hdrSz < k.size := hp.1.2.1
      exact ⟨.zimage e hlt (by dsimp only; omega) hfmt hp hend.symm rfl rfl rfl rfl rfl, rfl, rfl⟩

theorem splitDtb_eq_ok (h : splitDtb mem block size = .ok k) : beforeDtb mem block size ≤ size ∧
    k = { kernel := block, size := beforeDtb mem block size,
          dtb := if beforeDtb mem block size = size then (0, 0)
            else (block + beforeDtb mem block size, size - beforeDtb mem block size) } := by
  obtain ⟨r, hr, h⟩ := bind_eq_ok.mp h
  cases r with
  | none =>
    have hbefore : beforeDtb mem block size = size := by rw [beforeDtb, hr]
    cases h
    rw [hbefore, if_pos rfl]
    exact ⟨le_rfl, rfl⟩
  | some off =>
    have hlt := findDtb_lt hr
    have hbefore : beforeDtb mem block size = if 0 < off ∧ off < 2 ^ 31 then off else size := by
      rw [beforeDtb, hr]
    dsimp only at h
    by_cases hoff : 0 < off ∧ off < 2 ^ 31
    · rw [if_pos hoff] at h hbefore
      cases h
      rw [hbefore, if_neg hlt.ne]
      exact ⟨hlt.le, rfl⟩
    · rw [if_neg hoff] at h hbefore
      cases h
      rw [hbefore, if_pos rfl]
      exact ⟨le_rfl, rfl⟩

theorem parseMtkKernel_eq_ok (h : parseMtkKernel mem k = .ok k') :
    k'.dtb = k.dtb ∧ k'.zimage = k.zimage ∧ checkFmtLg mem k'.kernel k'.size = .ok k'.fmt ∧
      (checkFmtLg mem k.kernel k.size ≠ .ok .mtk ∧
          k'.mtkHdr = k.mtkHdr ∧ k'.kernel = k.kernel ∧ k'.size = k.size ∨
        checkFmtLg mem k.kernel k.size = .ok .mtk ∧
          k'.mtkHdr = some k.kernel ∧ k'.kernel = k.kernel + mtkHdrSize ∧
          k'.size = sub32 k.size mtkHdrSize) := by
  unfold parseMtkKernel at h
  obtain ⟨fmt, hfmt, h⟩ := bind_eq_ok.mp h
  split_ifs at h with hmtk
  · obtain ⟨fmt', hfmt', h⟩ := bind_eq_ok.mp h
    cases h
    exact ⟨rfl, rfl, hfmt', .inr ⟨hmtk ▸ hfmt, rfl, rfl, rfl⟩⟩
  · cases h
    refine ⟨rfl, rfl, hfmt, .inl ⟨fun hm => hmtk ?_, rfl, rfl, rfl⟩⟩
    exact Except.ok.inj (hfmt.symm.trans hm)

theorem parseKernel_eq_ok (h0 : size ≠ 0) (hsize : size < 2 ^ 32)
    (h : parseKernel mem block size = .ok k) : ∃ n ≤ size, n = beforeDtb mem block size ∧
      k.dtb = (if n = size then (0, 0) else (block + n, size - n)) ∧
      (checkFmtLg mem block n ≠ .ok .mtk ∧ k.mtkHdr = none ∧ k.Cut mem block n ∨
        checkFmtLg mem block n = .ok .mtk ∧ k.mtkHdr = some block ∧
          k.Cut mem (block + mtkHdrSize) (sub32 n mtkHdrSize)) := by
  rw [parseKernel, if_neg h0] at h
  obtain ⟨k₁, h₁, h⟩ := bind_eq_ok.mp h
  obtain ⟨k₂, h₂, h₃⟩ := bind_eq_ok.mp h
  obtain ⟨hn, rfl⟩ := splitDtb_eq_ok h₁
  obtain ⟨hdtb, hz, hfmt, hmtk⟩ := parseMtkKernel_eq_ok h₂
  dsimp only at hdtb hz hmtk
  refine ⟨_, hn, rfl, ?_⟩
  have hsize₂ : k₂.size < 2 ^ 32 := by
    rcases hmtk with ⟨-, -, -, hs⟩ | ⟨-, -, -, hs⟩
    · omega
    · rw [hs]
      exact sub32_lt _ _
  have hcut : k.Cut mem k₂.kernel k₂.size ∧ k.mtkHdr = k₂.mtkHdr ∧ k.dtb = k₂.dtb := by
    split_ifs at h₃ with hzimage
    · exact parseZimage_eq_ok hz hsize₂ (hzimage ▸ hfmt) h₃
    · cases h₃
      refine ⟨.raw hz rfl rfl fun he => absurd ?_ hzimage, rfl, rfl⟩
      exact Except.ok.inj (hfmt.symm.trans he)
  obtain ⟨hcut, hm, hd⟩ := hcut
  rw [hd, hdtb, hm]
  refine ⟨rfl, ?_⟩
  rcases hmtk with ⟨hno, hm, hk, hs⟩ | ⟨hyes, hm, hk, hs⟩
  · rw [hk, hs] at hcut
    exact .inl ⟨hno, hm, hcut⟩
  · rw [hk, hs] at hcut
    exact .inr ⟨hyes, hm, hcut⟩

theorem covers_iff (h0 : size ≠ 0) (hsize : size < 2 ^ 32)
    (h : parseKernel mem block size = .ok k) :
    k.Covers mem block size ↔ KernelFits mem block size := by
  obtain ⟨n, hn, hbefore, hdtb, hcut⟩ := parseKernel_eq_ok h0 hsize h
  have htree : Tiles (block + n) (if k.dtb.2 = 0 then [] else [k.dtb]) (block + size) := by
    rw [hdtb]
    by_cases he : n = size
    · simp only [he, if_true]
      exact .nil _
    · have hend : block + size = block + n + (size - n) := by omega
      simp only [if_neg he, if_neg (show size - n ≠ 0 by omega), hend]
      exact .single _ _
  unfold KernelFits
  rw [← hbefore]
  dsimp only
  constructor
  · intro hc
    have hin : ∀ p ∈ k.piggyParts, p.1 + p.2 ≤ block + size := by
      intro p hp
      exact (hc.inside p (List.mem_append_right _ (List.mem_append_left _ hp))).2
    rcases hcut with ⟨hno, hm, hcut⟩ | ⟨hyes, hm, hcut⟩
    · rw [if_neg hno]
      exact (hcut.fits_of_inside (by omega) (by omega) hin).2
    · obtain ⟨hle, hf⟩ := hcut.fits_of_inside (sub32_lt _ _) (by omega) hin
      have h512 : mtkHdrSize ≤ n := by
        by_contra hlt
        rw [sub32_of_lt (by omega) (by decide)] at hle
        omega
      rw [sub32_of_le h512 (by omega)] at hf
      rw [if_pos hyes]
      exact ⟨h512, hf⟩
  · intro hf
    have htiles : Tiles block k.parts (block + size) := by
      unfold KernelInfo.parts
      rcases hcut with ⟨hno, hm, hcut⟩ | ⟨hyes, hm, hcut⟩
      · rw [if_neg hno] at hf
        rw [hm]
        exact (hcut.tiles (by omega) hf).append htree
      · rw [if_pos hyes] at hf
        obtain ⟨h512, hf⟩ := hf
        have hsub : sub32 n mtkHdrSize = n - mtkHdrSize := sub32_of_le h512 (by omega)
        have hend : block + n = block + mtkHdrSize + (n - mtkHdrSize) := by omega
        rw [hsub] at hcut
        rw [hend] at htree
        rw [hm]
        exact .cons _ _ ((hcut.tiles (by omega) hf).append htree)
    refine ⟨?_, fun p hp => htiles.bounds hp⟩
    rw [htiles.flatMap_view, Nat.add_sub_cancel_left]

end

/-- The parts of an accepted image make up its kernel block exactly if the bytes of the block fit,
or it is empty. -/
theorem parseImage_kernel_covers_iff {env : Env} {file : Bytes} {addr addr' : ℕ} {type : FileFormat}
    {flags flags' hflags : Flags} {hdr : Hdr} {boot : BootImg}
    (hh : parseHdr (env.mapped file) addr type flags = .ok (some hdr, addr', hflags))
    (hp : parseImage env file flags addr type = .ok (flags', some boot)) :
    boot.kernel.Covers boot.mem (boot.block .kernel) (hdr.size .kernel) ↔
      (hdr.size .kernel ≠ 0 →
        KernelFits (env.mapped file) (boot.block .kernel) (hdr.size .kernel)) := by
  have hparsed := parseImage_isParsed hh hp
  by_cases h0 : hdr.size .kernel = 0
  · refine iff_of_true ?_ fun h => absurd h0 h
    rw [hparsed.kernel_of_size_zero h0, h0]
    exact ⟨rfl, fun p hp => by simp [KernelInfo.parts, KernelInfo.piggyParts] at hp; simp [hp]⟩
  · rw [covers_iff h0 (hdr.size_lt .kernel) hparsed.kernel, hparsed.mem_eq, imp_iff_right h0]

/-- An image of which only the kernel block is not empty. -/
def kernelImage (kernel : Bytes) : Bytes :=
  padded 2048 (bootMagic ++ (leBytes 4 kernel.length ++ (zeros 24 ++ leBytes 4 2048))) ++
    padded 2048 kernel

def kernelFound (kernel : Bytes) : Except Stop (Option (ℕ × KernelInfo)) :=
  (parseImage sampleEnv (kernelImage kernel) {} 0 .aosp).map
    (·.2.map fun boot => (boot.block .kernel, boot.kernel))

theorem exists_of_kernelFound {kernel : Bytes} {block : ℕ} {k : KernelInfo}
    (h : kernelFound kernel = .ok (some (block, k))) : ∃ hdr addr hflags flags boot,
      parseHdr (sampleEnv.mapped (kernelImage kernel)) 0 .aosp {} = .ok (some hdr, addr, hflags) ∧
      parseImage sampleEnv (kernelImage kernel) {} 0 .aosp = .ok (flags, some boot) ∧
      boot.block .kernel = block ∧ boot.kernel = k := by
  obtain ⟨⟨flags, img⟩, hp, himg⟩ := map_eq_ok.mp h
  obtain ⟨boot, rfl, hk⟩ := Option.map_eq_some_iff.mp himg
  obtain ⟨hdr, hflags, hh, -⟩ := parseImage_eq_ok.mp hp
  cases hk
  exact ⟨hdr, _, hflags, flags, boot, hh, hp, rfl, rfl⟩

theorem kernelFound_raw :
    kernelFound [1, 2, 3, 4] = .ok (some (2048, { kernel := 2048, size := 4 })) := by
  decide +kernel

theorem kernelFound_mtk : kernelFound mtkMagic = .ok (some (2048,
    { kernel := 2560, size := 2 ^ 32 - 508, mtkHdr := some 2048 })) := by
  decide +kernel

theorem parseImage_kernel_covers_raw : ∃ hdr addr hflags flags boot,
    parseHdr (sampleEnv.mapped (kernelImage [1, 2, 3, 4])) 0 .aosp {} =
      .ok (some hdr, addr, hflags) ∧
    parseImage sampleEnv (kernelImage [1, 2, 3, 4]) {} 0 .aosp = .ok (flags, some boot) ∧
    boot.kernel.Covers boot.mem (boot.block .kernel) (hdr.size .kernel) := by
  obtain ⟨hdr, addr, hflags, flags, boot, hh, hp, hb, -⟩ := exists_of_kernelFound kernelFound_raw
  refine ⟨hdr, addr, hflags, flags, boot, hh, hp, (parseImage_kernel_covers_iff hh hp).mpr ?_⟩
  have hsize : (parseHdr (sampleEnv.mapped (kernelImage [1, 2, 3, 4])) 0 .aosp {}).map
      (·.1.map fun hdr => hdr.size .kernel) = .ok (some 4) := by decide +kernel
  have hfmt : beforeDtb (sampleEnv.mapped (kernelImage [1, 2, 3, 4])) 2048 4 = 4 ∧
      checkFmtLg (sampleEnv.mapped (kernelImage [1, 2, 3, 4])) 2048 4 = .ok .unknown := by
    decide +kernel
  rw [hh] at hsize
  have hsize : hdr.size .kernel = 4 := Option.some.inj (Except.ok.inj hsize)
  intro _
  rw [hb, hsize, KernelFits, hfmt.1, hfmt.2, if_neg (by decide), ZimageFits, hfmt.2]
  nofun

/-- A block of four bytes with the magic of a header that is larger than the block. -/
theorem parseImage_kernel_not_covers_mtk : ∃ hdr addr hflags flags boot,
    parseHdr (sampleEnv.mapped (kernelImage mtkMagic)) 0 .aosp {} = .ok (some hdr, addr, hflags) ∧
    parseImage sampleEnv (kernelImage mtkMagic) {} 0 .aosp = .ok (flags, some boot) ∧
    ¬ boot.kernel.Covers boot.mem (boot.block .kernel) (hdr.size .kernel) := by
  obtain ⟨hdr, addr, hflags, flags, boot, hh, hp, hb, hk⟩ := exists_of_kernelFound kernelFound_mtk
  refine ⟨hdr, addr, hflags, flags, boot, hh, hp, fun hc => ?_⟩
  rw [hk, hb] at hc
  have hend := (hc.inside (2560, 2 ^ 32 - 508) (by decide)).2
  have hsize := hdr.size_lt .kernel
  omega

end Magisk.Boot
