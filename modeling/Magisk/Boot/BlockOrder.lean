import Magisk.Boot.Parsed
import Magisk.Boot.Run

namespace Magisk.Boot

/-- A call that does not divide by zero. -/
def NoFpe {α : Type} (x : Except Stop α) : Prop := x ≠ .error .fpe

section

variable {α β : Type} {x : Except Stop α}

theorem noFpe_ok (a : α) : NoFpe (.ok a : Except Stop α) := nofun

theorem noFpe_error {e : Stop} : NoFpe (.error e : Except Stop α) ↔ e ≠ .fpe := by
  simp [NoFpe]

@[simp] theorem noFpe_bind {f : α → Except Stop β} :
    NoFpe (x >>= f) ↔ NoFpe x ∧ ∀ a, x = .ok a → NoFpe (f a) := by
  simp only [NoFpe, ne_eq, bind_eq_error, not_or, not_exists, not_and]

@[simp] theorem noFpe_map {f : α → β} : NoFpe (x.map f) ↔ NoFpe x := by
  cases x <;> simp [NoFpe, Except.map]

@[simp] theorem noFpe_functor_map {f : α → β} : NoFpe (f <$> x) ↔ NoFpe x := noFpe_map

@[simp] theorem noFpe_pure (a : α) : NoFpe (pure a) := noFpe_ok a

@[simp] theorem noFpe_ite {c : Prop} [Decidable c] {y : Except Stop α} :
    NoFpe (if c then x else y) ↔ (c → NoFpe x) ∧ (¬c → NoFpe y) := by
  split_ifs with h <;> simp [h]

attribute [simp] noFpe_ok noFpe_error

variable (mem : Bytes)

@[simp] theorem noFpe_read (off n : ℕ) : NoFpe (read mem off n) := by
  simp [read]

@[simp] theorem noFpe_read32 (off : ℕ) : NoFpe (read32 mem off) := by
  simp [read32]

@[simp] theorem noFpe_bufferMatch (off : ℕ) (magic : Bytes) : NoFpe (bufferMatch mem off magic) := by
  simp [bufferMatch]

@[simp] theorem noFpe_checkedMatch (off len : ℕ) (l : List (Bytes × FileFormat)) :
    NoFpe (checkedMatch mem off len l) := by
  induction l with
  | nil => simp [checkedMatch]
  | cons p l ih => simp [checkedMatch, ih]

@[simp] theorem noFpe_guessLzma (off len : ℕ) : NoFpe (guessLzma mem off len) := by
  simp [guessLzma]

@[simp] theorem noFpe_checkFmt (off len : ℕ) : NoFpe (checkFmt mem off len) := by
  simp only [checkFmt, noFpe_bind, noFpe_checkedMatch, true_and]
  intro a _
  cases a with
  | some fmt => simp
  | none =>
    simp only [noFpe_bind, noFpe_guessLzma, noFpe_ite, noFpe_pure, noFpe_checkedMatch, true_and]
    intro b _
    refine ⟨fun _ => trivial, fun _ c _ => ?_⟩
    cases c <;> simp

@[simp] theorem noFpe_isLz4Lg (buf sz fuel off : ℕ) : NoFpe (isLz4Lg mem buf sz fuel off) := by
  induction fuel generalizing off with
  | zero => simp [isLz4Lg]
  | succ fuel ih => simp [isLz4Lg, ih]

@[simp] theorem noFpe_checkFmtLg (buf sz : ℕ) : NoFpe (checkFmtLg mem buf sz) := by
  simp [checkFmtLg]

@[simp] theorem noFpe_newHdr (kind : HdrKind) (p sz : ℕ) : NoFpe (newHdr kind mem p sz) := by
  simp [newHdr]

@[simp] theorem noFpe_makeAospHdr (ptr : ℕ) (size : Option ℕ) : NoFpe (makeAospHdr mem ptr size) := by
  simp [makeAospHdr]

@[simp] theorem noFpe_matchAny (off : ℕ) (l : List Bytes) : NoFpe (matchAny mem off l) := by
  induction l with
  | nil => simp [matchAny]
  | cons m l ih => simp [matchAny, ih]

theorem noFpe_parseHdr (addr : ℕ) (type : FileFormat) (flags : Flags) :
    NoFpe (parseHdr mem addr type flags) := by
  simp [parseHdr, isAmonet, preHeader]

@[simp] theorem noFpe_findDtb (buf sz fuel curr : ℕ) : NoFpe (findDtb mem buf sz fuel curr) := by
  induction fuel generalizing curr with
  | zero => simp [findDtb]
  | succ fuel ih =>
    simp only [findDtb, noFpe_ite, noFpe_bind, noFpe_read, noFpe_pure, true_and, implies_true]
    intro _ hay _
    cases find hay dtbMagic <;> simp [readBe, ih]

@[simp] theorem noFpe_findPiggy (kernel size n curr : ℕ) :
    NoFpe (findPiggy mem kernel size n curr) := by
  induction n generalizing curr with
  | zero => simp [findPiggy]
  | succ n ih => simp [findPiggy, ih]

@[simp] theorem noFpe_parseZimage (k : KernelInfo) : NoFpe (parseZimage mem k) := by
  unfold parseZimage
  rw [noFpe_bind]
  refine ⟨noFpe_findPiggy mem _ _ _ _, fun a _ => ?_⟩
  cases a with
  | none => exact noFpe_pure _
  | some hdrSz =>
    rw [noFpe_bind]
    refine ⟨noFpe_read32 mem _, fun start _ => ?_⟩
    rw [noFpe_bind]
    refine ⟨noFpe_read32 mem _, fun fin _ => ?_⟩
    rw [noFpe_ite, noFpe_bind]
    refine ⟨fun _ => noFpe_error.mpr (by decide), fun _ => ⟨noFpe_read mem _ _, fun offsets _ => ?_⟩⟩
    generalize piggyEnd offsets (sub32 fin start) 16 = e
    cases e with
    | none => exact noFpe_pure _
    | some fin =>
      rw [noFpe_bind]
      exact ⟨noFpe_checkFmtLg mem _ _, fun fmt _ => noFpe_pure _⟩

theorem noFpe_parseKernel (kernel size : ℕ) : NoFpe (parseKernel mem kernel size) := by
  have hsplit : NoFpe (splitDtb mem kernel size) := by
    simp only [splitDtb, findDtbOffset, noFpe_bind, noFpe_findDtb, true_and]
    intro a _
    cases a <;> simp
  simp [parseKernel, parseMtkKernel, hsplit]

@[simp] theorem noFpe_readEntries (p n : ℕ) : NoFpe (readEntries mem p n) := by
  induction n generalizing p with
  | zero => simp [readEntries]
  | succ n ih => simp [readEntries, readEntry, ih]

@[simp] theorem noFpe_checkEntries (ramdisk : ℕ) (es : List Entry) :
    NoFpe (checkEntries mem ramdisk es) := by
  induction es with
  | nil => simp [checkEntries]
  | cons e es ih => simp [checkEntries, ih]

theorem noFpe_parseRamdisk (hdr : Hdr) (ramdisk table : ℕ) :
    NoFpe (parseRamdisk mem hdr ramdisk table) := by
  simp [parseRamdisk, vendorRamdiskTbl]

theorem noFpe_parseTail (env : Env) (addr tail : ℕ) (flags : Flags) :
    NoFpe (parseTail env mem addr tail flags) := by
  simp [parseTail, tailFlags, readBe]

theorem noFpe_parseParts (env : Env) (file : Bytes) (addr : ℕ) (hdr : Hdr) (flags : Flags)
    (block : Block → ℕ) (off : ℕ) : NoFpe (parseParts env file addr hdr flags block off) := by
  simp [parseParts, noFpe_parseKernel, noFpe_parseRamdisk, parseExtra, noFpe_parseTail]

end

theorem noFpe_getBlocks {hdr : Hdr} (h0 : hdr.pageSize ≠ 0) (mapAddr addr mapEnd : ℕ)
    (bs : List Block) (s : (Block → ℕ) × ℕ) : NoFpe (getBlocks mapAddr hdr addr mapEnd bs s) := by
  induction bs generalizing s with
  | nil => simp [getBlocks]
  | cons b bs ih => simp [getBlocks, alignInt, h0, ih]

theorem getBlocks_eq_fpe {hdr : Hdr} (h0 : hdr.pageSize = 0) (mapAddr addr mapEnd : ℕ) (b : Block)
    (bs : List Block) (s : (Block → ℕ) × ℕ) :
    getBlocks mapAddr hdr addr mapEnd (b :: bs) s = .error .fpe := by
  rw [getBlocks, h0]
  rfl

theorem noFpe_hdrSpace {hdr : Hdr} (h0 : hdr.pageSize ≠ 0) : NoFpe hdr.hdrSpace := by
  simp [Hdr.hdrSpace, alignInt, h0]

section

variable {env : Env} {file : Bytes} {flags : Flags} {addr : ℕ} {type : FileFormat}

theorem noFpe_parseImage_iff :
    NoFpe (parseImage env file flags addr type) ↔ ∀ hdr addr' hflags,
      parseHdr (env.mapped file) addr type flags = .ok (some hdr, addr', hflags) →
        hdr.pageSize ≠ 0 := by
  rw [parseImage]
  simp only [noFpe_bind, noFpe_parseHdr, true_and]
  constructor
  · intro h hdr addr' hflags hh h0
    have hn := h _ hh
    dsimp only at hn
    rw [noFpe_bind] at hn
    obtain ⟨hspace, hn⟩ := hn
    by_cases hv : hdr.kind.isVendor
    · apply hspace
      rw [Hdr.hdrSpace, if_pos hv, alignInt, if_pos h0]
    · have hs : hdr.hdrSpace = .ok 0 := by
        rw [Hdr.hdrSpace, if_neg hv, h0]
      have hb := hn 0 hs
      rw [noFpe_bind] at hb
      exact hb.1 (getBlocks_eq_fpe h0 _ addr' _ .kernel _ _)
  · rintro h ⟨hdr, addr', hflags⟩ hh
    cases hdr with
    | none => exact noFpe_ok _
    | some hdr =>
      have h0 := h hdr addr' hflags hh
      rw [noFpe_bind]
      refine ⟨noFpe_hdrSpace h0, fun space _ => ?_⟩
      rw [noFpe_bind]
      refine ⟨noFpe_getBlocks h0 _ _ _ _ _, fun b _ => ?_⟩
      cases b with
      | none => exact noFpe_ok _
      | some b => simp [noFpe_parseParts]

end

theorem Hdr.pageSize_lt (hdr : Hdr) : hdr.pageSize < 2 ^ 32 := by
  have hwidth : ∀ k, ∀ x ∈ HdrKind.field k .pageSize, x.2 ≤ 4 := by decide
  unfold Hdr.pageSize
  split
  · norm_num
  · norm_num
  · exact hdr.val_lt (hwidth _)

section Negative

variable {a v n : ℕ}

/-- A page that is a negative `int` leaves the offset zero, or one that is so much below it. -/
theorem alignInt_of_ge (h31 : 2 ^ 31 ≤ a) (h32 : a < 2 ^ 32) (h : alignInt v a = .ok n) :
    n = 0 ∨ n = signExtend a := by
  have hs : 2 ^ 63 ≤ signExtend a ∧ signExtend a < 2 ^ 64 := by
    rw [signExtend, if_neg (by omega)]
    omega
  rw [alignInt, if_neg (by omega)] at h
  obtain rfl := Except.ok.inj h
  -- a number of 64 bits holds the page at most once
  generalize hx : (v + (signExtend a + (2 ^ 64 - 1))) % 2 ^ 64 = x
  have hlt : x < 2 ^ 64 := hx ▸ Nat.mod_lt _ (by norm_num)
  have hq : x / signExtend a < 2 := Nat.div_lt_of_lt_mul (by omega)
  interval_cases hd : x / signExtend a
  · exact .inl (zero_mul _)
  · exact .inr (one_mul _)

theorem alignInt_eq_zero_iff (h31 : 2 ^ 31 ≤ a) (h32 : a < 2 ^ 32) (hv : v < 2 ^ 32) :
    alignInt v a = .ok 0 ↔ v = 0 ∨ 2 ^ 32 < v + a := by
  have hs : signExtend a = a + (2 ^ 64 - 2 ^ 32) := if_neg (by omega)
  rw [alignInt, if_neg (by omega), Except.ok.injEq, hs, Nat.mul_eq_zero, Nat.div_eq_zero_iff]
  omega

variable {mapAddr : ℕ} {hdr : Hdr} {mapEnd addr off off' : ℕ} {block block' : Block → ℕ}
  {bs : List Block}

theorem getBlocks_of_not_mem
    (h : getBlocks mapAddr hdr addr mapEnd bs (block, off) = .ok (some (block', off'))) {c : Block}
    (hc : c ∉ bs) : block' c = block c := by
  induction bs generalizing block off with
  | nil =>
    cases h
    rfl
  | cons b bs ih =>
    rw [List.mem_cons, not_or] at hc
    simp only [getBlocks, bind_eq_ok] at h
    obtain ⟨next, -, h⟩ := h
    split_ifs at h
    · cases h
    · rw [ih h hc.2, Function.update_of_ne hc.1]

theorem getBlocks_step {b : Block} (hn : (b :: bs).Nodup)
    (h : getBlocks mapAddr hdr addr mapEnd (b :: bs) (block, off) = .ok (some (block', off'))) :
    block' b = ptrAdd addr off ∧ ∃ block₁ next, alignInt (off + hdr.size b) hdr.pageSize = .ok next ∧
      getBlocks mapAddr hdr addr mapEnd bs (block₁, next) = .ok (some (block', off')) := by
  simp only [getBlocks, bind_eq_ok] at h
  obtain ⟨next, hnext, h⟩ := h
  split_ifs at h
  · cases h
  · refine ⟨?_, _, next, hnext, h⟩
    rw [getBlocks_of_not_mem h (List.nodup_cons.mp hn).1, Function.update_self]

theorem getBlocks_of_ge (h31 : 2 ^ 31 ≤ hdr.pageSize) {b : Block} (hn : (b :: bs).Nodup)
    (h : getBlocks mapAddr hdr addr mapEnd (b :: bs) (block, off) = .ok (some (block', off'))) :
    block' b = ptrAdd addr off ∧ ∀ c ∈ bs, block' c = ptrAdd addr 0 ∨
      block' c = ptrAdd addr (signExtend hdr.pageSize) := by
  induction bs generalizing b block off with
  | nil => exact ⟨(getBlocks_step hn h).1, by simp⟩
  | cons c bs ih =>
    obtain ⟨hstart, block₁, next, hnext, h⟩ := getBlocks_step hn h
    obtain ⟨hc, hrest⟩ := ih (List.nodup_cons.mp hn).2 h
    refine ⟨hstart, List.forall_mem_cons.mpr ⟨?_, hrest⟩⟩
    rw [hc]
    exact (alignInt_of_ge h31 hdr.pageSize_lt hnext).imp (congrArg _) (congrArg _)

theorem getBlocks_of_empty (h31 : 2 ^ 31 ≤ hdr.pageSize) {c : Block} (hn : (bs ++ [c]).Nodup)
    (hempty : ∀ b ∈ bs, hdr.size b = 0)
    (h : getBlocks mapAddr hdr addr mapEnd (bs ++ [c]) (block, 0) = .ok (some (block', off'))) :
    ∀ b ∈ bs ++ [c], block' b = ptrAdd addr 0 := by
  induction bs generalizing block with
  | nil => simpa using (getBlocks_step hn h).1
  | cons b bs ih =>
    obtain ⟨hstart, block₁, next, hnext, h⟩ := getBlocks_step hn h
    have hzero := (alignInt_eq_zero_iff h31 hdr.pageSize_lt (by norm_num)).mpr (.inl rfl)
    rw [hempty b List.mem_cons_self, add_zero] at hnext
    obtain rfl := Except.ok.inj (hnext.symm.trans hzero)
    refine List.forall_mem_cons.mpr ⟨hstart, ?_⟩
    exact ih (List.nodup_cons.mp hn).2 (fun d hd => hempty d (List.mem_cons_of_mem b hd)) h

/-- A pointer so much below another one is before it or not in the lower half. -/
theorem ptrAdd_signExtend (h31 : 2 ^ 31 ≤ a) (h32 : a < 2 ^ 32) (haddr : addr < 2 ^ 63) :
    ptrAdd addr (signExtend a) < addr ∨ 2 ^ 63 ≤ ptrAdd addr (signExtend a) := by
  rw [ptrAdd, signExtend, if_neg (by omega)]
  omega

end Negative

section

variable {mem : Bytes} {addr addr' : ℕ} {type : FileFormat} {flags flags' : Flags}

theorem le_of_read32 {off v : ℕ} (h : read32 mem off = .ok v) : off + 4 ≤ mem.length := by
  obtain ⟨b, hb, -⟩ := map_eq_ok.mp h
  obtain ⟨hl, hat⟩ := read_eq_ok.mp hb
  rw [← hl]
  exact hat.le_length (List.ne_nil_of_length_pos (by omega))

theorem le_of_makeAospHdr {size : Option ℕ} {hdr : Hdr}
    (h : makeAospHdr mem addr size = .ok (some hdr)) : addr ≤ mem.length := by
  rw [makeAospHdr, bind_eq_ok] at h
  obtain ⟨c, -, h⟩ := h
  cases c with
  | false => cases h
  | true =>
    simp only [if_true, bind_eq_ok] at h
    obtain ⟨version, hv, -⟩ := h
    have := le_of_read32 hv
    omega

theorem le_of_parseHdr {hdr : Hdr}
    (h : parseHdr mem addr type flags = .ok (some hdr, addr', flags')) : addr' ≤ mem.length := by
  unfold parseHdr at h
  split_ifs at h
  · simp only [bind_eq_ok] at h
    obtain ⟨v, hv, hd, -, h⟩ := h
    cases h
    have := le_of_read32 hv
    omega
  · rw [bind_eq_ok] at h
    obtain ⟨page, hpage, h⟩ := h
    have hle := le_of_read32 hpage
    split_ifs at h
    · rw [bind_eq_ok] at h
      obtain ⟨hd, -, h⟩ := h
      cases h
      omega
    · rw [bind_eq_ok] at h
      obtain ⟨c, -, h⟩ := h
      split_ifs at h
      · simp only [bind_eq_ok] at h
        obtain ⟨v, -, hd, -, h⟩ := h
        cases h
        omega
      · simp only [bind_eq_ok] at h
        obtain ⟨r, -, hd, hmake, h⟩ := h
        cases h
        exact le_of_makeAospHdr hmake

end

/-- The blocks of the header stand behind the header space, in their order, and in the mapping. -/
def BootImg.Ordered (boot : BootImg) (hdr : Hdr) : Prop :=
  ∃ space, hdr.hdrSpace = .ok space ∧
    InOrder hdr.size boot.block Block.all (boot.payload.1 + space) boot.mem.length

/-- The header at `addr` is longer than what the page is below zero, and only the last block is
there and fits into the `n` bytes. -/
structure Hdr.OnlyBootconfig (hdr : Hdr) (addr n : ℕ) : Prop where
  vendor : hdr.kind.isVendor
  long : 2 ^ 32 < hdr.hdrSize + hdr.pageSize
  empty : ∀ b ≠ .bootconfig, hdr.size b = 0
  fits : addr + hdr.size .bootconfig ≤ n

section

variable {env : Env} {file : Bytes} {flags : Flags} {hdr : Hdr} {boot : BootImg}

theorem IsParsed.ordered_of_lt (h : IsParsed env file hdr flags boot) (hmap : env.Maps file)
    (haddr : boot.payload.1 ≤ boot.mem.length) (h31 : hdr.pageSize < 2 ^ 31) :
    boot.Ordered hdr := by
  obtain ⟨space, hs, hstart, hend, hle⟩ := h.layout hmap haddr h31
  rw [hend] at hle
  exact ⟨space, hs, (inOrder_startOf h.pageSize_pos Block.nodup_all le_rfl hle).congr
    fun b _ => hstart b⟩

theorem hdrSpace_eq_zero_iff (h31 : 2 ^ 31 ≤ hdr.pageSize) :
    hdr.hdrSpace = .ok 0 ↔ hdr.kind.isVendor ∧ 2 ^ 32 < hdr.hdrSize + hdr.pageSize := by
  have hsize : 0 < hdr.hdrSize ∧ hdr.hdrSize < 2 ^ 32 := by
    have : ∀ k : HdrKind, 0 < k.hdrSize ∧ k.hdrSize < 2 ^ 32 := by decide
    exact this hdr.kind
  unfold Hdr.hdrSpace
  split_ifs with hv
  · rw [alignInt_eq_zero_iff h31 hdr.pageSize_lt hsize.2]
    simp only [hv, true_and]
    omega
  · refine iff_of_false (fun h => ?_) fun h => hv h.1
    have := Except.ok.inj h
    omega

theorem IsParsed.ordered_iff_of_ge (h : IsParsed env file hdr flags boot) (hmap : env.Maps file)
    (haddr : boot.payload.1 ≤ boot.mem.length) (h31 : 2 ^ 31 ≤ hdr.pageSize) :
    boot.Ordered hdr ↔ hdr.OnlyBootconfig boot.payload.1 boot.mem.length := by
  obtain ⟨space, hs, hb⟩ := h.blocks
  have hlast : Block.all = Block.all.dropLast ++ [.bootconfig] := rfl
  have hfirst : Block.all = .kernel :: Block.all.tail := rfl
  have hlt : boot.mem.length < 2 ^ 63 := by
    rw [h.mem_eq]
    exact lt_of_le_of_lt (Nat.le_add_left _ _) hmap
  have hzero : ptrAdd boot.payload.1 0 = boot.payload.1 := ptrAdd_of_lt (by omega)
  have hneg := ptrAdd_signExtend h31 hdr.pageSize_lt (show boot.payload.1 < 2 ^ 63 by omega)
  constructor
  · rintro ⟨space', hs', ho⟩
    obtain rfl := Except.ok.inj (hs.symm.trans hs')
    -- no block is before the header space or outside of the mapping, so none is at the other offset
    have hbetween := fun b => ho.between b (Block.mem_all b)
    rw [hfirst] at hb
    have hrest := (getBlocks_of_ge h31 (hfirst ▸ Block.nodup_all) hb).2
    have hat : ∀ b ∈ Block.all.tail, boot.block b = boot.payload.1 := by
      intro b hb
      have hle := hbetween b
      rcases hrest b hb with he | he
      · rw [he, hzero]
      · omega
    obtain rfl : space = 0 := by
      have hle := hbetween .ramdisk
      rw [hat .ramdisk (by decide)] at hle
      omega
    obtain ⟨hv, hlong⟩ := (hdrSpace_eq_zero_iff h31).mp hs
    have hpos : ∀ b ∈ Block.all.dropLast ++ [.bootconfig], boot.block b = boot.payload.1 := by
      intro b hb'
      cases List.mem_cons.mp hb' with
      | inl he =>
        rw [he, (getBlocks_of_ge h31 (hfirst ▸ Block.nodup_all) hb).1, hzero]
      | inr hb' => exact hat b hb'
    rw [hlast, inOrder_const hpos] at ho
    exact ⟨hv, hlong, fun b hb => ho.2.1 b (by revert hb; cases b <;> decide), ho.2.2⟩
  · rintro ⟨hv, hlong, hempty, hfits⟩
    obtain rfl := Except.ok.inj (hs.symm.trans ((hdrSpace_eq_zero_iff h31).mpr ⟨hv, hlong⟩))
    have hempty' : ∀ b ∈ Block.all.dropLast, hdr.size b = 0 :=
      fun b hb => hempty b (by revert hb; cases b <;> decide)
    rw [hlast] at hb
    have hpos := getBlocks_of_empty h31 (hlast ▸ Block.nodup_all) hempty' hb
    refine ⟨0, hs, ?_⟩
    rw [hlast, inOrder_const fun b hb => (hpos b hb).trans hzero]
    exact ⟨le_rfl, hempty', hfits⟩

theorem payload_le {addr : ℕ} {type : FileFormat} {flags' : Flags}
    (hp : parseImage env file flags addr type = .ok (flags', some boot)) :
    boot.payload.1 ≤ boot.mem.length := by
  obtain ⟨hdr, hflags, hh, -, hparsed⟩ := parseImage_eq_ok.mp hp
  rw [hparsed.mem_eq]
  exact le_of_parseHdr hh

theorem payload_eq {addr addr' : ℕ} {type : FileFormat} {flags' hflags : Flags}
    (hp : parseImage env file flags addr type = .ok (flags', some boot))
    (hh : parseHdr (env.mapped file) addr type flags = .ok (some hdr, addr', hflags)) :
    boot.payload.1 = addr' := by
  obtain ⟨hdr', hflags', hh', -⟩ := parseImage_eq_ok.mp hp
  exact congrArg (·.2.1) (Except.ok.inj (hh'.symm.trans hh))

/-- Which headers are divided by and which of the accepted ones have blocks out of place. -/
theorem parseImage_ordered_iff {addr : ℕ} {type : FileFormat} (hmap : env.Maps file) :
    (NoFpe (parseImage env file flags addr type) ∧
      ∀ flags' boot, parseImage env file flags addr type = .ok (flags', some boot) →
        ∀ hdr addr' hflags, parseHdr (env.mapped file) addr type flags =
          .ok (some hdr, addr', hflags) → boot.Ordered hdr) ↔
    ∀ hdr addr' hflags, parseHdr (env.mapped file) addr type flags =
        .ok (some hdr, addr', hflags) →
      hdr.pageSize ≠ 0 ∧ (2 ^ 31 ≤ hdr.pageSize →
        (∃ flags' boot, parseImage env file flags addr type = .ok (flags', some boot)) →
          hdr.OnlyBootconfig addr' (env.mapped file).length) := by
  rw [noFpe_parseImage_iff]
  have hge {flags' hflags : Flags} {boot : BootImg} {hdr : Hdr} {addr' : ℕ}
      (hp : parseImage env file flags addr type = .ok (flags', some boot))
      (hh : parseHdr (env.mapped file) addr type flags = .ok (some hdr, addr', hflags))
      (h31 : 2 ^ 31 ≤ hdr.pageSize) :
      boot.Ordered hdr ↔ hdr.OnlyBootconfig addr' (env.mapped file).length := by
    have hparsed := parseImage_isParsed hh hp
    rw [hparsed.ordered_iff_of_ge hmap (payload_le hp) h31, payload_eq hp hh, hparsed.mem_eq]
  constructor
  · rintro ⟨hpage, hordered⟩ hdr addr' hflags hh
    refine ⟨hpage hdr addr' hflags hh, ?_⟩
    rintro h31 ⟨flags', boot, hp⟩
    exact (hge hp hh h31).mp (hordered flags' boot hp hdr addr' hflags hh)
  · intro h
    refine ⟨fun hdr addr' hflags hh => (h hdr addr' hflags hh).1, ?_⟩
    intro flags' boot hp hdr addr' hflags hh
    rcases Nat.lt_or_ge hdr.pageSize (2 ^ 31) with h31 | h31
    · exact (parseImage_isParsed hh hp).ordered_of_lt hmap (payload_le hp) h31
    · exact (hge hp hh h31).mpr ((h hdr addr' hflags hh).2 h31 ⟨flags', boot, hp⟩)

end

/-- A vendor header with this page size and a ramdisk of two bytes. -/
def vendorPage (page : ℕ) : Bytes :=
  vendorBootMagic ++ (leBytes 4 3 ++ (leBytes 4 page ++ (zeros 8 ++ (leBytes 4 2 ++
    (zeros 2068 ++ (leBytes 4 2112 ++ zeros 12))))))

theorem vendorPage_maps (page : ℕ) : sampleEnv.Maps (vendorPage page) := by
  have hlen : (vendorPage page).length = 2112 := by
    simp only [vendorPage, List.length_append, leBytes_length, zeros_length]
    rfl
  rw [Env.Maps, Env.mapped, padded_length sampleEnv.pageSize_pos, hlen]
  decide

theorem parseImage_ordered_vendorPage :
    NoFpe (parseImage sampleEnv (vendorPage 64) {} 0 .aospVendor) ∧
      ∀ flags boot, parseImage sampleEnv (vendorPage 64) {} 0 .aospVendor = .ok (flags, some boot) →
        ∀ hdr addr hflags, parseHdr (sampleEnv.mapped (vendorPage 64)) 0 .aospVendor {} =
          .ok (some hdr, addr, hflags) → boot.Ordered hdr := by
  refine (parseImage_ordered_iff (vendorPage_maps 64)).mpr fun hdr addr hflags hh => ?_
  have hpage : (parseHdr (sampleEnv.mapped (vendorPage 64)) 0 .aospVendor {}).map
      (·.1.map Hdr.pageSize) = .ok (some 64) := by decide +kernel
  rw [hh] at hpage
  have hpage : hdr.pageSize = 64 := Option.some.inj (Except.ok.inj hpage)
  exact ⟨by omega, fun h31 => by omega⟩

def zeroPage : Bytes := bootMagic ++ zeros 1624

theorem zeroPage_hdr :
    (parseHdr (sampleEnv.mapped zeroPage) 0 .aosp {}).map (·.1.map Hdr.pageSize) = .ok (some 0) := by
  decide +kernel

/-- The first header is divided by. A vendor header with the highest page size, or with the lowest
that is negative, is accepted with a ramdisk in the place of the header. -/
theorem parseImage_samplePages :
    ¬ NoFpe (parseImage sampleEnv zeroPage {} 0 .aosp) ∧ ∀ page ∈ [2 ^ 32 - 1, 2 ^ 31],
    ∃ flags boot hdr addr hflags,
      parseImage sampleEnv (vendorPage page) {} 0 .aospVendor = .ok (flags, some boot) ∧
      parseHdr (sampleEnv.mapped (vendorPage page)) 0 .aospVendor {} = .ok (some hdr, addr, hflags) ∧
      boot.block .ramdisk = 0 ∧ ¬ boot.Ordered hdr := by
  constructor
  · rw [noFpe_parseImage_iff]
    intro h
    obtain ⟨⟨o, addr, hflags⟩, hh, ho⟩ := map_eq_ok.mp zeroPage_hdr
    obtain ⟨hdr, rfl, h0⟩ := Option.map_eq_some_iff.mp ho
    exact h hdr addr hflags hh h0
  · have hhdr : ∀ page ∈ [2 ^ 32 - 1, 2 ^ 31],
        (parseHdr (sampleEnv.mapped (vendorPage page)) 0 .aospVendor {}).map
          (·.1.map fun hdr => (hdr.pageSize, hdr.size .ramdisk)) = .ok (some (page, 2)) := by
      decide +kernel
    have haccepted : ∀ page ∈ [2 ^ 32 - 1, 2 ^ 31],
        (parseImage sampleEnv (vendorPage page) {} 0 .aospVendor).map
          (·.2.map fun boot => boot.block .ramdisk) = .ok (some 0) := by
      decide +kernel
    intro page hpage
    obtain ⟨⟨flags, img⟩, hp, hsome⟩ := map_eq_ok.mp (haccepted page hpage)
    obtain ⟨boot, rfl, hramdisk⟩ := Option.map_eq_some_iff.mp hsome
    obtain ⟨hdr, hflags, hh, -, hparsed⟩ := parseImage_eq_ok.mp hp
    obtain ⟨r, hr, ho⟩ := map_eq_ok.mp (hhdr page hpage)
    cases hh.symm.trans hr
    obtain ⟨hpage', hsize⟩ := Prod.mk.inj (Option.some.inj ho)
    have h31 : 2 ^ 31 ≤ hdr.pageSize := by
      have hall : ∀ page ∈ [2 ^ 32 - 1, 2 ^ 31], 2 ^ 31 ≤ page := by decide
      exact hpage' ▸ hall page hpage
    refine ⟨flags, boot, hdr, boot.payload.1, hflags, hp, hh, hramdisk, ?_⟩
    rw [hparsed.ordered_iff_of_ge (vendorPage_maps page) (payload_le hp) h31]
    intro hempty
    have := hempty.empty .ramdisk (by decide)
    omega

end Magisk.Boot
