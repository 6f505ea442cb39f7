import Magisk.Boot.Format
import Magisk.Compress.Lz4RoundTrip
import Magisk.Loops

namespace Magisk.Boot

open List Option

section Walk

variable {mem : Bytes} {buf sz fuel off : ℕ}

/-- The offset after a round that does not return. -/
def nextOff (mem : Bytes) (buf sz off : ℕ) : Option ℕ :=
  if off + 4 ≤ sz then
    match read32 mem (buf + off) with
    | .ok blockSz =>
      let off := (off + 4 + blockSz) % 2 ^ 32
      if sz < off then none else some off
    | .error _ => none
  else none

def Reached (mem : Bytes) (buf sz off : ℕ) : Prop :=
  ∃ n, walk (nextOff mem buf sz) n 4 = some off

/-- Every round returns or increases the offset, which does not wrap around. -/
structure WalkEnds (mem : Bytes) (buf sz : ℕ) : Prop where
  returns : ∃ fuel r, isLz4Lg mem buf sz fuel 4 = .ok r
  increases : ∀ off off' blockSz, Reached mem buf sz off → nextOff mem buf sz off = some off' →
    read32 mem (buf + off) = .ok blockSz → off < off' ∧ off' = off + 4 + blockSz

/-- The offsets of the blocks, counted with no bound. -/
inductive BlockAt (mem : Bytes) (buf sz : ℕ) : ℕ → Prop
  | first : BlockAt mem buf sz 4
  | next {off blockSz : ℕ} : BlockAt mem buf sz off → off + 4 ≤ sz →
      read32 mem (buf + off) = .ok blockSz → BlockAt mem buf sz (off + 4 + blockSz)

variable {blockSz off' : ℕ}

theorem read32_lt (h : read32 mem off = .ok blockSz) : blockSz < 2 ^ 32 := by
  obtain ⟨b, hb, rfl⟩ := map_eq_ok.mp h
  have hlt := leValue_lt b
  rw [(read_eq_ok.mp hb).1] at hlt
  exact hlt

theorem read32_ne_hang : read32 mem off ≠ .error .hang := by
  unfold read32 read
  split_ifs <;> intro h <;> cases h

theorem nextOff_eq_some : nextOff mem buf sz off = some off' ↔
    off + 4 ≤ sz ∧ ∃ blockSz, read32 mem (buf + off) = .ok blockSz ∧
      (off + 4 + blockSz) % 2 ^ 32 = off' ∧ off' ≤ sz := by
  unfold nextOff
  split_ifs with hle
  · cases read32 mem (buf + off) with
    | error e => simp
    | ok blockSz =>
      simp only [hle, true_and, Except.ok.injEq, exists_eq_left']
      split_ifs with hsz
      · simp only [false_iff, not_and]
        omega
      · simp only [some.injEq]
        omega
  · simp [hle]

theorem isLz4Lg_round (hle : off + 4 ≤ sz) (hr : read32 mem (buf + off) = .ok blockSz) :
    isLz4Lg mem buf sz (fuel + 1) off =
      if sz < (off + 4 + blockSz) % 2 ^ 32 then .ok true
      else isLz4Lg mem buf sz fuel ((off + 4 + blockSz) % 2 ^ 32) := by
  rw [isLz4Lg, if_pos hle, hr]
  rfl

theorem isLz4Lg_end (hle : ¬ off + 4 ≤ sz) : isLz4Lg mem buf sz (fuel + 1) off = .ok false := by
  rw [isLz4Lg, if_neg hle]
  rfl

theorem isLz4Lg_of_next (h : nextOff mem buf sz off = some off') :
    isLz4Lg mem buf sz (fuel + 1) off = isLz4Lg mem buf sz fuel off' := by
  obtain ⟨hle, blockSz, hr, rfl, hsz⟩ := nextOff_eq_some.mp h
  rw [isLz4Lg_round hle hr, if_neg (by omega)]

theorem isLz4Lg_ne_hang_of_none (h : nextOff mem buf sz off = none) :
    isLz4Lg mem buf sz (fuel + 1) off ≠ .error .hang := by
  by_cases hle : off + 4 ≤ sz
  · cases hr : read32 mem (buf + off) with
    | error e =>
      rw [isLz4Lg, if_pos hle, hr]
      intro he
      cases he
      exact read32_ne_hang hr
    | ok blockSz =>
      have hsz : sz < (off + 4 + blockSz) % 2 ^ 32 := by
        by_contra hsz
        rw [nextOff_eq_some.mpr ⟨hle, blockSz, hr, rfl, by omega⟩] at h
        cases h
      rw [isLz4Lg_round hle hr, if_pos hsz]
      intro he
      cases he
  · rw [isLz4Lg_end hle]
    intro he
    cases he

theorem isLz4Lg_eq_hang_iff :
    isLz4Lg mem buf sz fuel off = .error .hang ↔ walk (nextOff mem buf sz) fuel off ≠ none := by
  induction fuel generalizing off with
  | zero => exact iff_of_true rfl (some_ne_none off)
  | succ fuel ih =>
    cases h : nextOff mem buf sz off with
    | none =>
      rw [walk, h]
      exact iff_of_false (isLz4Lg_ne_hang_of_none h) (fun hne => hne rfl)
    | some off' =>
      rw [isLz4Lg_of_next h, walk, h, ih]
      rfl

theorem Reached.cases (h : Reached mem buf sz off) : off = 4 ∨
    off ≤ sz ∧ ∃ off₀, Reached mem buf sz off₀ ∧ nextOff mem buf sz off₀ = some off := by
  obtain ⟨n, hn⟩ := h
  cases n with
  | zero => exact .inl (some.inj hn).symm
  | succ n =>
    rw [walk_add, bind_eq_some_iff] at hn
    obtain ⟨off₀, hoff, hnext⟩ := hn
    rw [walk_one] at hnext
    obtain ⟨-, -, -, -, hsz⟩ := nextOff_eq_some.mp hnext
    exact .inr ⟨hsz, off₀, ⟨n, hoff⟩, hnext⟩

theorem isLz4Lg_hang_iff : isLz4Lg mem buf sz (sz + 1) 4 = .error .hang ↔
    ∀ fuel, isLz4Lg mem buf sz fuel 4 = .error .hang := by
  refine ⟨fun h fuel => ?_, fun h => h (sz + 1)⟩
  rw [isLz4Lg_eq_hang_iff] at h ⊢
  intro hnone
  apply h
  by_cases h4 : 4 ≤ sz
  · rw [← Finset.card_range (sz + 1)]
    apply walk_card_eq_none _ ⟨fuel, hnone⟩
    intro n t ht
    rw [Finset.mem_range]
    rcases Reached.cases ⟨n, ht⟩ with rfl | ⟨hle, -⟩ <;> omega
  · have hnext : nextOff mem buf sz 4 = none := if_neg (by omega)
    rw [walk, hnext]
    rfl

theorem Reached.next (h : Reached mem buf sz off)
    (hnext : nextOff mem buf sz off = some off') : Reached mem buf sz off' := by
  obtain ⟨n, hn⟩ := h
  refine ⟨n + 1, ?_⟩
  rw [walk_add, hn, bind_some, walk_one, hnext]

theorem nextOff_of_wrap (hsz : sz < 2 ^ 32) (hle : off + 4 ≤ sz)
    (hr : read32 mem (buf + off) = .ok blockSz) (hwrap : 2 ^ 32 ≤ off + 4 + blockSz) :
    nextOff mem buf sz off = some (off + 4 + blockSz - 2 ^ 32) := by
  have hlt := read32_lt hr
  have hmod : (off + 4 + blockSz) % 2 ^ 32 = off + 4 + blockSz - 2 ^ 32 := by omega
  exact nextOff_eq_some.mpr ⟨hle, blockSz, hr, hmod, by omega⟩

theorem WalkEnds.block_lt (h : WalkEnds mem buf sz) (hsz : sz < 2 ^ 32)
    (hb : BlockAt mem buf sz off) : off < 2 ^ 32 ∧ (off ≤ sz → Reached mem buf sz off) := by
  induction hb with
  | first => exact ⟨by norm_num, fun _ => ⟨0, rfl⟩⟩
  | @next off blockSz _ hle hr ih =>
    have hreached := ih.2 (by omega)
    have hlt : off + 4 + blockSz < 2 ^ 32 := by
      by_contra hwrap
      have hnext := nextOff_of_wrap hsz hle hr (by omega)
      have := (h.increases _ _ _ hreached hnext hr).2
      omega
    refine ⟨hlt, fun hin => hreached.next ?_⟩
    exact nextOff_eq_some.mpr ⟨hle, blockSz, hr, Nat.mod_eq_of_lt hlt, hin⟩

theorem Reached.blockAt (hwrap : ∀ off, BlockAt mem buf sz off → off < 2 ^ 32) {n : ℕ}
    (h : walk (nextOff mem buf sz) n 4 = some off) : BlockAt mem buf sz off := by
  induction n generalizing off with
  | zero =>
    rw [← some.inj h]
    exact .first
  | succ n ih =>
    rw [walk_add, bind_eq_some_iff] at h
    obtain ⟨off₀, hoff, hnext⟩ := h
    rw [walk_one] at hnext
    obtain ⟨hle, blockSz, hr, rfl, -⟩ := nextOff_eq_some.mp hnext
    have hb := (ih hoff).next hle hr
    rw [Nat.mod_eq_of_lt (hwrap _ hb)]
    exact hb

theorem exists_isLz4Lg (hbuf : buf + sz ≤ mem.length)
    (hwrap : ∀ off, BlockAt mem buf sz off → off < 2 ^ 32) (hb : BlockAt mem buf sz off)
    (hfuel : 0 < fuel) (hoff : sz < off + fuel) : ∃ r, isLz4Lg mem buf sz fuel off = .ok r := by
  induction fuel generalizing off with
  | zero => omega
  | succ fuel ih =>
    by_cases hle : off + 4 ≤ sz
    · obtain ⟨blockSz, hr⟩ : ∃ blockSz, read32 mem (buf + off) = .ok blockSz :=
        ⟨_, map_eq_ok.mpr ⟨_, read_of_le (by omega), rfl⟩⟩
      have hb' := hb.next hle hr
      rw [isLz4Lg_round hle hr, Nat.mod_eq_of_lt (hwrap _ hb')]
      split_ifs with hsz
      · exact ⟨true, rfl⟩
      · exact ih hb' (by omega) (by omega)
    · exact ⟨false, isLz4Lg_end hle⟩

theorem walkEnds_iff (hbuf : buf + sz ≤ mem.length) (hsz : sz < 2 ^ 32) :
    WalkEnds mem buf sz ↔ ∀ off, BlockAt mem buf sz off → off < 2 ^ 32 := by
  constructor
  · intro h off hb
    exact (h.block_lt hsz hb).1
  · intro hwrap
    refine ⟨⟨sz + 1, exists_isLz4Lg hbuf hwrap .first (by omega) (by omega)⟩, ?_⟩
    rintro off off' blockSz ⟨n, hn⟩ hnext hr
    obtain ⟨hle, b, hr', rfl, -⟩ := nextOff_eq_some.mp hnext
    cases hr.symm.trans hr'
    rw [Nat.mod_eq_of_lt (hwrap _ ((Reached.blockAt hwrap hn).next hle hr))]
    omega

/-- The loop of `check_fmt_lg` ends when no block of the archive starts above 4 GiB. -/
theorem checkFmtLg_walkEnds_iff (hbuf : buf + sz ≤ mem.length) (hsz : sz < 2 ^ 32) :
    (checkFmt mem buf sz = .ok .lz4Legacy → WalkEnds mem buf sz) ↔
      (checkFmt mem buf sz = .ok .lz4Legacy → ∀ off, BlockAt mem buf sz off → off < 2 ^ 32) :=
  imp_congr_right fun _ => walkEnds_iff hbuf hsz

end Walk

/-- An archive with one block of one byte. -/
theorem checkFmtLg_walkEnds_block :
    let buf : Bytes := [0x02, 0x21, 0x4c, 0x18, 0x01, 0x00, 0x00, 0x00, 0x00]
    checkFmt buf 0 9 = .ok .lz4Legacy ∧ WalkEnds buf 0 9 := by
  have hfmt : checkFmt [0x02, 0x21, 0x4c, 0x18, 0x01, 0x00, 0x00, 0x00, 0x00] 0 9 =
      .ok .lz4Legacy := by decide +kernel
  refine ⟨hfmt, (checkFmtLg_walkEnds_iff (by decide) (by decide)).mpr ?_ hfmt⟩
  intro _ off hb
  have hoff : off = 4 ∨ off = 9 := by
    induction hb with
    | first => exact .inl rfl
    | @next off blockSz _ hle hr ih =>
      rcases ih with rfl | rfl
      · have h1 : blockSz = 1 := (Except.ok.inj hr).symm
        omega
      · omega
  omega

/-- The first block is 4 bytes short of 4 GiB, and the walk comes back to it in every round. -/
theorem checkFmtLg_block_wraps :
    let buf : Bytes := [0x02, 0x21, 0x4c, 0x18, 0xfc, 0xff, 0xff, 0xff]
    checkFmt buf 0 8 = .ok .lz4Legacy ∧ checkFmtLg buf 0 8 = .error .hang ∧
      (∀ fuel, isLz4Lg buf 0 8 fuel 4 = .error .hang) ∧ ¬ WalkEnds buf 0 8 := by
  have hloop : ∀ fuel, isLz4Lg [0x02, 0x21, 0x4c, 0x18, 0xfc, 0xff, 0xff, 0xff] 0 8 fuel 4 =
      .error .hang := isLz4Lg_hang_iff.mp (by decide +kernel)
  refine ⟨by decide +kernel, by decide +kernel, hloop, fun h => ?_⟩
  obtain ⟨fuel, r, hr⟩ := h.returns
  rw [hloop fuel] at hr
  cases hr

section Encoder

open Lz4

def frame (b : Bytes) : Bytes := leBytes 4 b.length ++ b

variable {z : Codec} {out buf data : Bytes} {e : Encoder} {isLg : Bool}

theorem encodeBlock_eq_ok {write chunk out : Bytes}
    (h : Encoder.encodeBlock z write chunk = .ok out) : ∃ b, out = write ++ frame b := by
  obtain ⟨b, -, h⟩ := bind_eq_ok.mp h
  cases h
  exact ⟨b, rfl⟩

theorem writeLoop_frames {e e' : Encoder} (h : Encoder.writeLoop z e buf = .ok e') :
    ∃ blocks : List Bytes, e'.write = e.write ++ blocks.flatMap frame ∧ e'.total = e.total ∧
      e'.isLg = e.isLg := by
  induction e, buf using Encoder.writeLoop.induct with
  | case1 e =>
    rw [Encoder.writeLoop, dif_pos rfl] at h
    cases h
    exact ⟨[], by simp, rfl, rfl⟩
  | case2 e buf hne _ chunk hc ih =>
    rw [Encoder.writeLoop, dif_neg hne, hc] at h
    obtain ⟨write, hw, h⟩ := bind_eq_ok.mp h
    obtain ⟨b, rfl⟩ := encodeBlock_eq_ok hw
    obtain ⟨blocks, hblocks, htotal, hlg⟩ := ih _ h
    refine ⟨b :: blocks, ?_, htotal, hlg⟩
    rw [hblocks, flatMap_cons, append_assoc]
  | case3 e buf hne _ hc ih =>
    rw [Encoder.writeLoop, dif_neg hne, hc] at h
    exact ih h

theorem finish_frames (h : e.finish z = .ok out) :
    ∃ blocks : List Bytes, out =
      e.write ++ (blocks.flatMap frame ++ if e.isLg then leBytes 4 e.total.toNat else []) := by
  unfold Encoder.finish at h
  dsimp only at h
  by_cases hchunk : e.chunker.getAvailable = []
  · rw [if_neg (not_not.mpr hchunk)] at h
    cases h
    refine ⟨[], ?_⟩
    cases e.isLg <;> simp
  · rw [if_pos hchunk] at h
    obtain ⟨write, hw, h⟩ := bind_eq_ok.mp h
    obtain ⟨b, rfl⟩ := encodeBlock_eq_ok hw
    cases h
    refine ⟨[b], ?_⟩
    cases e.isLg <;> simp

theorem encode_frames (h : encode z isLg [data] = .ok out) (hlen : data.length < 2 ^ 32) :
    ∃ blocks : List Bytes, out = leBytes 4 magic ++
      (blocks.flatMap frame ++ if isLg then leBytes 4 data.length else []) := by
  obtain ⟨e, he, h⟩ := bind_eq_ok.mp h
  simp only [foldlM_cons, foldlM_nil, bind_pure] at he
  obtain ⟨blocks, hblocks, htotal, hlg⟩ := writeLoop_frames he
  obtain ⟨last, rfl⟩ := finish_frames h
  have hwrite : e.write = leBytes 4 magic ++ blocks.flatMap frame := hblocks
  have hisLg : e.isLg = isLg := hlg
  have htot : e.total.toNat = data.length := by
    rw [htotal]
    exact (congrArg UInt32.toNat (zero_add _)).trans (UInt32.toNat_ofNat_of_lt' hlen)
  refine ⟨blocks ++ last, ?_⟩
  rw [hwrite, hisLg, htot, flatMap_append, append_assoc, append_assoc]

theorem read32_leBytes {v : ℕ} (hv : v < 2 ^ 32) (pre rest : Bytes) :
    read32 (pre ++ (leBytes 4 v ++ rest)) (0 + pre.length) = .ok v := by
  rw [zero_add]
  refine map_eq_ok.mpr ⟨leBytes 4 v, ?_, leValue_leBytes hv⟩
  exact read_eq_ok.mpr ⟨leBytes_length 4 v, at_append_self pre (leBytes 4 v) rest⟩

theorem isLz4Lg_frames {m pre tail : Bytes} {blocks : List Bytes} {fuel : ℕ}
    (hm : m = pre ++ (blocks.flatMap frame ++ tail)) (hlen : m.length < 2 ^ 32)
    (hfuel : m.length < pre.length + fuel) :
    ∃ fuel', isLz4Lg m 0 m.length fuel pre.length =
      isLz4Lg m 0 m.length (fuel' + 1) (pre ++ blocks.flatMap frame).length := by
  induction blocks generalizing pre fuel with
  | nil =>
    have hle : pre.length ≤ m.length := by simp [hm]
    obtain ⟨f, rfl⟩ : ∃ f, fuel = f + 1 := ⟨fuel - 1, by omega⟩
    exact ⟨f, by simp⟩
  | cons b blocks ih =>
    have hnext : m = (pre ++ frame b) ++ (blocks.flatMap frame ++ tail) := by simp [hm]
    have hoff : (pre ++ frame b).length = pre.length + 4 + b.length := by
      rw [length_append, frame, length_append, leBytes_length]
      omega
    have hle : (pre ++ frame b).length ≤ m.length := by simp [hnext]
    have hread : read32 m (0 + pre.length) = .ok b.length := by
      have hm' : m = pre ++ (leBytes 4 b.length ++ (b ++ (blocks.flatMap frame ++ tail))) := by
        simp [hm, frame]
      rw [hm']
      exact read32_leBytes (by omega) _ _
    obtain ⟨f, rfl⟩ : ∃ f, fuel = f + 1 := ⟨fuel - 1, by omega⟩
    obtain ⟨fuel', hfuel'⟩ := ih hnext
      (show m.length < (pre ++ frame b).length + f by omega)
    refine ⟨fuel', ?_⟩
    rw [isLz4Lg_round (by omega) hread, Nat.mod_eq_of_lt (by omega), if_neg (by omega), ← hoff,
      hfuel', flatMap_cons, append_assoc]

theorem checkFmt_lz4Legacy (t : Bytes) :
    checkFmt (0x02 :: 0x21 :: 0x4c :: 0x18 :: t) 0 (0x02 :: 0x21 :: 0x4c :: 0x18 :: t).length =
      .ok .lz4Legacy := by
  generalize hm : (0x02 :: 0x21 :: 0x4c :: 0x18 :: t : Bytes) = m
  have hnone : checkedMatch m 0 m.length Boot.magics = .ok none := by
    rw [← hm, ← append_nil Boot.magics, checkedMatch_append (by decide +kernel)]
    rfl
  have hlzma : guessLzma m 0 m.length = .ok false := by
    rw [guessLzma, ← hm, bufferMatch_cons_ne (by decide)]
    split_ifs <;> rfl
  have hlz4 : checkedMatch m 0 m.length moreMagics = .ok (some .lz4Legacy) := by
    have hmagics : moreMagics = moreMagics.take 3 ++ ([0x02, 0x21, 0x4c, 0x18], .lz4Legacy) ::
        moreMagics.drop 4 := rfl
    have hmatch : bufferMatch m 0 [0x02, 0x21, 0x4c, 0x18] = .ok true := by
      rw [← hm]
      exact if_pos rfl
    rw [hmagics, ← hm, checkedMatch_append (by decide +kernel), hm, checkedMatch, hmatch,
      if_pos (by simp [← hm])]
    rfl
  rw [checkFmt, hnone]
  rw [hlzma, hlz4]
  rfl

theorem isLz4Lg_encode (hdata : data ≠ [])
    (hout : encode z isLg [data] = .ok out) (hlen : data.length + out.length < 2 ^ 32) :
    isLz4Lg out 0 out.length (out.length + 1) 4 = .ok isLg := by
  obtain ⟨blocks, hm⟩ := encode_frames hout (by omega)
  obtain ⟨fuel, hf⟩ := isLz4Lg_frames hm (by omega)
    (show out.length < (leBytes 4 magic).length + (out.length + 1) by omega)
  refine hf.trans ?_
  generalize hpre : leBytes 4 magic ++ blocks.flatMap frame = pre
  rw [← append_assoc, hpre] at hm
  cases isLg with
  | false =>
    rw [hm]
    exact isLz4Lg_end (by simp)
  | true =>
    -- the size of the data is no block of the archive
    have hpos : 0 < data.length := length_pos_iff.mpr hdata
    have hend : out.length = pre.length + 4 := by
      rw [hm]
      simp [leBytes_length]
    have hread : read32 out (0 + pre.length) = .ok data.length := by
      have hm' : out = pre ++ (leBytes 4 data.length ++ []) := by simp [hm]
      rw [hm']
      exact read32_leBytes (by omega) _ _
    rw [isLz4Lg_round (by omega) hread, Nat.mod_eq_of_lt (by omega), if_pos (by omega)]

/-- The size behind the last block tells the LG variant from the other. -/
theorem checkFmtLg_encode {z : Codec} {isLg : Bool} {data out : Bytes} (hdata : data ≠ [])
    (hout : encode z isLg [data] = .ok out) (hlen : data.length + out.length < 2 ^ 32) :
    checkFmtLg out 0 out.length = .ok (if isLg then .lz4Lg else .lz4Legacy) := by
  have hfmt : checkFmt out 0 out.length = .ok .lz4Legacy := by
    obtain ⟨blocks, rfl⟩ := encode_frames hout (by omega)
    exact checkFmt_lz4Legacy _
  rw [checkFmtLg, hfmt]
  dsimp only [bind, Except.bind]
  rw [if_pos rfl, isLz4Lg_encode hdata hout hlen]
  cases isLg <;> rfl

theorem writeLoop_rest (hne : buf ≠ [])
    (hchunk : (e.chunker.addData buf).chunk = none) (hbuf : (e.chunker.addData buf).buf = []) :
    Encoder.writeLoop z e buf = .ok { e with chunker := (e.chunker.addData buf).self } := by
  rw [Encoder.writeLoop, dif_neg hne, hchunk]
  dsimp only
  rw [hbuf, Encoder.writeLoop, dif_pos rfl]

/-- One byte, stored as it is. -/
theorem checkFmtLg_encode_byte :
    let out : Bytes := [0x02, 0x21, 0x4c, 0x18, 0x02, 0, 0, 0, 0x10, 7, 0x01, 0, 0, 0]
    encode literals true [[7]] = .ok out ∧ checkFmtLg out 0 out.length = .ok .lz4Lg := by
  have hout : encode literals true [[7]] =
      .ok [0x02, 0x21, 0x4c, 0x18, 0x02, 0, 0, 0, 0x10, 7, 0x01, 0, 0, 0] := by
    simp only [encode, foldlM_cons, foldlM_nil, bind_pure, Encoder.writeAll]
    rw [writeLoop_rest (by decide) rfl rfl]
    rfl
  exact ⟨hout, checkFmtLg_encode (by decide) hout (by decide)⟩

end Encoder

end Magisk.Boot
