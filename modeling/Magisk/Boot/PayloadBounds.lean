import Magisk.Boot.PayloadOutput

namespace Magisk.Boot

open List Option

/-- The extents of a `ZERO` operation stay in range, as far as the loop over them comes. -/
def ZeroFits (blockSize : ℕ) : List Extent → Prop
  | [] => True
  | ext :: exts => ∀ b ∈ ext.startBlock, b.toNat * blockSize < 2 ^ 64 ∧
      (ext.numBlocks.isSome → b.toNat * blockSize < 2 ^ 63 → ZeroFits blockSize exts)

/-- The loop over the extents of a `ZERO` operation comes to its end. -/
def ZeroRuns (blockSize : ℕ) (exts : List Extent) : Prop :=
  ∀ ext ∈ exts, ext.numBlocks.isSome ∧
    ∃ b, ext.startBlock = some b ∧ b.toNat * blockSize < 2 ^ 63

namespace InstallOperation

/-- The number of bytes that are read for the operation. -/
def dataLen (w : Width) (op : InstallOperation) : ℕ := asUsize w op.length

theorem dataLen_eq {w : Width} {op : InstallOperation} {len : UInt64}
    (h : op.dataLength = some len) : op.dataLen w = asUsize w len.toNat := by
  rw [dataLen, length_eq h]

/-- The operation stays in range when the data read last ends at `curr`. -/
def Fits (w : Width) (blockSize curr : ℕ) (op : InstallOperation) : Prop :=
  ∀ len ∈ op.dataLength, ∀ off ∈ op.dataOffset,
    curr ≤ off.toNat ∧ off.toNat + asUsize w len.toNat < 2 ^ 64 ∧
    ∀ b ∈ op.firstBlock, b.toNat * blockSize < 2 ^ 64 ∧
      (op.type = .zero → ZeroFits blockSize op.dstExtents)

/-- Some data is written for the operation. The shortest data in a compressed format has two
bytes. -/
def Runs (w : Width) (blockSize : ℕ) (op : InstallOperation) : Prop :=
  op.dataLength.isSome ∧ op.dataOffset.isSome ∧ ∃ b, op.firstBlock = some b ∧
    match op.type with
    | .replace => b.toNat * blockSize < 2 ^ 63
    | .zero => ZeroRuns blockSize op.dstExtents
    | .replaceBz | .replaceXz => b.toNat * blockSize < 2 ^ 63 ∧ 2 ≤ op.dataLen w
    | _ => False

/-- The offset of the data can be skipped to by a seek. -/
def Seekable (w : Width) (op : InstallOperation) : Prop :=
  op.offset < 2 ^ 63 ∧ op.offset < 2 ^ w.bits

end InstallOperation

/-- The operations stay in range, as far as the loop over them comes. -/
def AllFit (w : Width) (blockSize : ℕ) : ℕ → List InstallOperation → Prop
  | _, [] => True
  | curr, op :: ops => op.Fits w blockSize curr ∧
      (op.Runs w blockSize → AllFit w blockSize (op.offset + op.dataLen w) ops)

/-- Every operation that the loop comes to gets the data at its own offset behind `base`. -/
def ReadsInPlace (w : Width) (decoder : Decoder) (blockSize : ℕ) (input : Input) (base : ℕ) :
    List InstallOperation → Progress → Prop
  | [], _ => True
  | op :: ops, s =>
    (∀ data s', readData w input s op = .ok (data, s') →
      data = view input.data (base + op.offset) (op.dataLen w)) ∧
    ∀ s', runOperation w decoder blockSize input s op = .ok s' →
      ReadsInPlace w decoder blockSize input base ops s'

/-- No number leaves its range in the extraction, and the data of each operation is read at its own
offset behind the signature of the manifest. -/
structure ExtractsInRange (w : Width) (m : DeltaArchiveManifest) (decoder : Decoder) (i : Input)
    (name outPath : Option Str) : Prop where
  ne_overflow : extractBootFromPayload w (fun _ => some m) decoder i name outPath ≠ .error .overflow
  in_place : ∀ pos sigLen start part, readManifest w (fun _ => some m) i = .ok (m, pos, sigLen) →
    m.getMinorVersion = 0 → selectPartition m name = .ok part → skip i pos sigLen = .ok start →
    ReadsInPlace w decoder m.getBlockSize i (pos + sigLen) (sortOperations part.operations)
      ⟨0, start, []⟩

section InRange

variable {α β : Type}

variable {x : Except PayloadFault α} {exts : List Extent} {s : Progress} (i : Input) (pos n : ℕ)

theorem bind_ne_overflow {f : α → Except PayloadFault β}
    (hx : x ≠ .error .overflow) (hf : ∀ a, x = .ok a → f a ≠ .error .overflow) :
    x >>= f ≠ .error .overflow := by
  cases x with
  | error e => exact fun h => hx (by cases h; rfl)
  | ok a => exact hf a rfl

theorem orBad_ne_overflow (msg : String) (o : Option α) : orBad msg o ≠ .error .overflow := by
  cases o <;> simp [orBad, badPayload]

theorem readExact_ne_overflow : readExact i pos n ≠ .error .overflow := by
  unfold readExact
  split <;> simp

theorem map_ne_overflow (f : α → β) (hx : x ≠ .error .overflow) : x.map f ≠ .error .overflow := by
  cases x with
  | error e => exact fun h => hx (by cases h; rfl)
  | ok a => exact fun h => nomatch h

theorem skip_ne_overflow : skip i pos n ≠ .error .overflow := by
  unfold skip
  split
  · simp
  · exact map_ne_overflow _ (readExact_ne_overflow _ _ _)

theorem seekStart_ne_overflow (off : ℕ) : seekStart off ≠ .error .overflow := by
  unfold seekStart
  split_ifs <;> simp

theorem decodeData_ne_overflow (decoder : Decoder) (data : Bytes) :
    decodeData decoder data ≠ .error .overflow := by
  unfold decodeData
  split
  · simp
  · split_ifs
    · exact orBad_ne_overflow _ _
    · simp

theorem writeZeroExtents_ne_overflow {w : Width} {blockSize : ℕ} (h : ZeroFits blockSize exts)
    (out : Bytes) : writeZeroExtents w blockSize exts out ≠ .error .overflow := by
  induction exts generalizing out with
  | nil => simp [writeZeroExtents]
  | cons ext exts ih =>
    refine bind_ne_overflow (orBad_ne_overflow _ _) fun b hb => ?_
    obtain ⟨hmul, hrest⟩ := h b (orBad_eq_ok.mp hb)
    rw [mul64, if_pos hmul]
    refine bind_ne_overflow (by simp) fun o ho => ?_
    obtain rfl := Except.ok.inj ho
    refine bind_ne_overflow (orBad_ne_overflow _ _) fun n hn => ?_
    refine bind_ne_overflow (seekStart_ne_overflow _) fun o ho => ?_
    refine ih (hrest ?_ (seekStart_eq_ok.mp ho).1) _
    rw [orBad_eq_ok.mp hn, isSome_some]

variable {w : Width} {decoder : Decoder} {blockSize : ℕ} {input : Input} {op : InstallOperation}

theorem writeOperation_ne_overflow (h : op.type = .zero → ZeroFits blockSize op.dstExtents)
    (data : Bytes) (off : ℕ) (out : Bytes) :
    writeOperation w decoder blockSize op data off out ≠ .error .overflow := by
  unfold writeOperation
  split
  · exact bind_ne_overflow (seekStart_ne_overflow _) fun o _ => by simp [pure, Except.pure]
  · exact writeZeroExtents_ne_overflow (h ‹_›) out
  · refine bind_ne_overflow (seekStart_ne_overflow _) fun o _ => ?_
    exact bind_ne_overflow (decodeData_ne_overflow _ _) fun d _ => by simp [pure, Except.pure]
  · refine bind_ne_overflow (seekStart_ne_overflow _) fun o _ => ?_
    exact bind_ne_overflow (decodeData_ne_overflow _ _) fun d _ => by simp [pure, Except.pure]
  · simp [badPayload]

theorem readExact_eq_ok {i : Input} {pos n pos' : ℕ} {b : Bytes}
    (h : readExact i pos n = .ok (b, pos')) :
    b = view i.data pos n ∧ b.length = n ∧ pos' = pos + n := by
  unfold readExact at h
  split at h
  · rename_i r hr
    obtain rfl := Except.ok.inj h
    exact Input.readExact_eq_some hr
  · cases h

theorem readData_eq_ok {data : Bytes} {s' : Progress}
    (h : readData w input s op = .ok (data, s')) :
    ∃ len off pos, op.dataLength = some len ∧ op.dataOffset = some off ∧
      s.currDataOffset ≤ op.offset ∧
      skip input s.pos (asUsize w (op.offset - s.currDataOffset)) = .ok pos ∧
      data = view input.data pos (op.dataLen w) ∧ data.length = op.dataLen w ∧
      s' = ⟨op.offset + op.dataLen w, pos + op.dataLen w, s.out⟩ := by
  unfold readData at h
  obtain ⟨len, hlen, h⟩ := bind_eq_ok.mp h
  obtain ⟨off, hoff, h⟩ := bind_eq_ok.mp h
  obtain ⟨n, hn, h⟩ := bind_eq_ok.mp h
  obtain ⟨pos, hpos, h⟩ := bind_eq_ok.mp h
  obtain ⟨⟨data', pos'⟩, hread, h⟩ := bind_eq_ok.mp h
  obtain ⟨curr, hcurr, h⟩ := bind_eq_ok.mp h
  obtain ⟨rfl, rfl⟩ := Prod.mk.inj (Except.ok.inj h)
  obtain ⟨hforward, rfl⟩ := sub64_eq_ok.mp hn
  obtain ⟨-, rfl⟩ := add64_eq_ok.mp hcurr
  have hlen := orBad_eq_ok.mp hlen
  have hoff := orBad_eq_ok.mp hoff
  have hoffset := InstallOperation.offset_eq hoff
  have hdataLen := InstallOperation.dataLen_eq (w := w) hlen
  rw [hoffset, hdataLen]
  obtain ⟨hdata, hl, rfl⟩ := readExact_eq_ok hread
  exact ⟨len, off, pos, hlen, hoff, hforward, hpos, hdata, hl, rfl⟩

theorem readData_ne_overflow (h : op.Fits w blockSize s.currDataOffset) :
    readData w input s op ≠ .error .overflow := by
  refine bind_ne_overflow (orBad_ne_overflow _ _) fun len hlen => ?_
  refine bind_ne_overflow (orBad_ne_overflow _ _) fun off hoff => ?_
  obtain ⟨hsub, hadd, -⟩ := h len (orBad_eq_ok.mp hlen) off (orBad_eq_ok.mp hoff)
  rw [sub64, if_pos hsub]
  refine bind_ne_overflow (by simp) fun n _ => ?_
  refine bind_ne_overflow (skip_ne_overflow _ _ _) fun pos _ => ?_
  refine bind_ne_overflow (readExact_ne_overflow _ _ _) fun r _ => ?_
  rw [add64, if_pos hadd]
  exact bind_ne_overflow (by simp) fun curr _ => by simp [pure, Except.pure]

theorem runOperation_ne_overflow (h : op.Fits w blockSize s.currDataOffset) :
    runOperation w decoder blockSize input s op ≠ .error .overflow := by
  refine bind_ne_overflow (readData_ne_overflow h) fun ⟨data, s'⟩ hread => ?_
  obtain ⟨len, off, -, hlen, hoff, -⟩ := readData_eq_ok hread
  obtain ⟨-, -, hblock⟩ := h len hlen off hoff
  refine bind_ne_overflow (orBad_ne_overflow _ _) fun ext hext => ?_
  refine bind_ne_overflow (orBad_ne_overflow _ _) fun b hb => ?_
  have hfirst : b ∈ op.firstBlock := by
    rw [InstallOperation.firstBlock, orBad_eq_ok.mp hext]
    exact orBad_eq_ok.mp hb
  obtain ⟨hmul, hzero⟩ := hblock b hfirst
  rw [mul64, if_pos hmul]
  refine bind_ne_overflow (by simp) fun o _ => ?_
  refine bind_ne_overflow (writeOperation_ne_overflow hzero _ _ _) fun out _ => ?_
  simp [pure, Except.pure]

theorem two_le_of_decodeData {data d : Bytes} (h : decodeData decoder data = .ok d) :
    2 ≤ data.length := by
  match data, h with
  | [], h => cases h
  | [x], h => cases h
  | x :: y :: data, _ => simp

theorem zeroRuns_of_writeZeroExtents {out out' : Bytes}
    (h : writeZeroExtents w blockSize exts out = .ok out') : ZeroRuns blockSize exts := by
  induction exts generalizing out with
  | nil => simp [ZeroRuns]
  | cons ext exts ih =>
    obtain ⟨b, hb, h⟩ := bind_eq_ok.mp h
    obtain ⟨o, ho, h⟩ := bind_eq_ok.mp h
    obtain ⟨-, rfl⟩ := mul64_eq_ok.mp ho
    obtain ⟨n, hn, h⟩ := bind_eq_ok.mp h
    obtain ⟨o', ho', h⟩ := bind_eq_ok.mp h
    refine forall_mem_cons.mpr ⟨⟨?_, b, orBad_eq_ok.mp hb, (seekStart_eq_ok.mp ho').1⟩, ih h⟩
    rw [orBad_eq_ok.mp hn, isSome_some]

theorem runOperation_eq_ok {s s' : Progress}
    (h : runOperation w decoder blockSize input s op = .ok s') :
    ∃ data t b, readData w input s op = .ok (data, t) ∧ op.firstBlock = some b ∧
      writeOperation w decoder blockSize op data (b.toNat * blockSize) t.out = .ok s'.out ∧
      s'.currDataOffset = t.currDataOffset ∧ s'.pos = t.pos := by
  obtain ⟨⟨data, t⟩, hread, h⟩ := bind_eq_ok.mp h
  obtain ⟨ext, hext, h⟩ := bind_eq_ok.mp h
  obtain ⟨b, hb, h⟩ := bind_eq_ok.mp h
  obtain ⟨o, ho, h⟩ := bind_eq_ok.mp h
  obtain ⟨out, hout, h⟩ := bind_eq_ok.mp h
  obtain rfl := Except.ok.inj h
  obtain ⟨-, rfl⟩ := mul64_eq_ok.mp ho
  refine ⟨data, t, b, hread, ?_, hout, rfl, rfl⟩
  rw [InstallOperation.firstBlock, orBad_eq_ok.mp hext]
  exact orBad_eq_ok.mp hb

theorem runs_of_runOperation {s s' : Progress}
    (h : runOperation w decoder blockSize input s op = .ok s') :
    op.Runs w blockSize ∧ s'.currDataOffset = op.offset + op.dataLen w := by
  obtain ⟨data, t, b, hread, hb, hout, hcurr, -⟩ := runOperation_eq_ok h
  obtain ⟨len, off, pos, hlen, hoff, -, -, -, hdata, rfl⟩ := readData_eq_ok hread
  refine ⟨⟨by rw [hlen]; rfl, by rw [hoff]; rfl, b, hb, ?_⟩, hcurr⟩
  have hcompressed {x : Except PayloadFault Bytes} (hx : x = .ok s'.out)
      (he : x = (do
        let outOffset ← seekStart (b.toNat * blockSize)
        let data ← decodeData decoder data
        return writeAt s.out outOffset data)) :
      b.toNat * blockSize < 2 ^ 63 ∧ 2 ≤ op.dataLen w := by
    rw [he] at hx
    obtain ⟨o, ho, hx⟩ := bind_eq_ok.mp hx
    obtain ⟨d, hd, -⟩ := bind_eq_ok.mp hx
    exact ⟨(seekStart_eq_ok.mp ho).1, hdata ▸ two_le_of_decodeData hd⟩
  unfold writeOperation at hout
  cases ht : op.type with
  | replace =>
    rw [ht] at hout
    obtain ⟨o, ho, -⟩ := bind_eq_ok.mp hout
    exact (seekStart_eq_ok.mp ho).1
  | zero =>
    rw [ht] at hout
    exact zeroRuns_of_writeZeroExtents hout
  | replaceBz =>
    rw [ht] at hout
    exact hcompressed hout rfl
  | replaceXz =>
    rw [ht] at hout
    exact hcompressed hout rfl
  | _ =>
    rw [ht] at hout
    cases hout

theorem runOperations_ne_overflow {ops : List InstallOperation}
    (h : AllFit w blockSize s.currDataOffset ops) :
    runOperations w decoder blockSize input ops s ≠ .error .overflow := by
  induction ops generalizing s with
  | nil => simp [runOperations]
  | cons op ops ih =>
    refine bind_ne_overflow (runOperation_ne_overflow h.1) fun s' hs' => ih ?_
    obtain ⟨hruns, hcurr⟩ := runs_of_runOperation hs'
    rw [hcurr]
    exact h.2 hruns

theorem readBeNat_ne_overflow : readBeNat i pos n ≠ .error .overflow :=
  map_ne_overflow _ (readExact_ne_overflow _ _ _)

theorem ensure_ne_overflow (c : Prop) [Decidable c] (msg : String) :
    ensure c msg ≠ .error .overflow := by
  unfold ensure
  split_ifs <;> simp [badPayload]

theorem readManifest_ne_overflow (fromReader : Bytes → Option DeltaArchiveManifest) (i : Input) :
    readManifest w fromReader i ≠ .error .overflow := by
  refine bind_ne_overflow (readExact_ne_overflow _ _ _) fun magic _ => ?_
  refine bind_ne_overflow (ensure_ne_overflow _ _) fun _ _ => ?_
  refine bind_ne_overflow (readBeNat_ne_overflow _ _ _) fun version _ => ?_
  refine bind_ne_overflow (ensure_ne_overflow _ _) fun _ _ => ?_
  refine bind_ne_overflow (readBeNat_ne_overflow _ _ _) fun manifestLen _ => ?_
  refine bind_ne_overflow (ensure_ne_overflow _ _) fun _ _ => ?_
  refine bind_ne_overflow (readBeNat_ne_overflow _ _ _) fun sigLen _ => ?_
  refine bind_ne_overflow (ensure_ne_overflow _ _) fun _ _ => ?_
  refine bind_ne_overflow (readExact_ne_overflow _ _ _) fun buf _ => ?_
  dsimp only
  split <;> simp [pure, Except.pure]

theorem skip_eq_ok {i : Input} {pos n pos' : ℕ} (hn : n < 2 ^ 63) (h : skip i pos n = .ok pos') :
    pos' = pos + n := by
  unfold skip at h
  split at h
  · rename_i p hp
    obtain rfl := Except.ok.inj h
    unfold Input.seekCurrent at hp
    split_ifs at hp
    obtain rfl := some.inj hp
    rw [asI64, if_pos hn]
    omega
  · obtain ⟨⟨b, p⟩, hread, rfl⟩ := map_eq_ok.mp h
    exact (readExact_eq_ok hread).2.2

/-- The invariant of the loop is that the input stands behind the data read last. -/
theorem readsInPlace {base : ℕ} {ops : List InstallOperation}
    (hops : ∀ op ∈ ops, op.Seekable w) (hpos : s.pos = base + s.currDataOffset) :
    ReadsInPlace w decoder blockSize input base ops s := by
  induction ops generalizing s with
  | nil => trivial
  | cons op ops ih =>
    obtain ⟨h63, hbits⟩ := hops op mem_cons_self
    have hstart {pos : ℕ} (hle : s.currDataOffset ≤ op.offset)
        (hskip : skip input s.pos (asUsize w (op.offset - s.currDataOffset)) = .ok pos) :
        pos = base + op.offset := by
      rw [asUsize_of_lt (by omega)] at hskip
      rw [skip_eq_ok (by omega) hskip]
      omega
    refine ⟨fun data s' hread => ?_, fun s' hrun => ?_⟩
    · obtain ⟨len, off, pos, -, -, hle, hskip, hdata, -⟩ := readData_eq_ok hread
      rw [hdata, hstart hle hskip]
    · obtain ⟨data, t, b, hread, -, -, hcurr, hpos'⟩ := runOperation_eq_ok hrun
      obtain ⟨len, off, pos, -, -, hle, hskip, -, -, rfl⟩ := readData_eq_ok hread
      refine ih (fun o ho => hops o (mem_cons_of_mem op ho)) ?_
      rw [hpos', hcurr, hstart hle hskip]
      exact add_assoc _ _ _

end InRange

/-- Data that a decoder is found for. -/
def InstallOperation.sampleData (w : Width) (op : InstallOperation) : Bytes :=
  if op.type = .replaceBz ∨ op.type = .replaceXz then
    (0x1f :: 0x8b :: zeros (op.dataLen w - 2)).take (op.dataLen w)
  else zeros (op.dataLen w)

/-- Blobs from which all the operations can be read, one after the other. -/
def sampleBlobs (w : Width) : ℕ → List InstallOperation → Bytes
  | _, [] => []
  | curr, op :: ops =>
    zeros (op.offset - curr) ++ (op.sampleData w ++ sampleBlobs w (op.offset + op.dataLen w) ops)

def emptyDecoder : Decoder := fun _ _ => some []

theorem InstallOperation.sampleData_length (w : Width) (op : InstallOperation) :
    (op.sampleData w).length = op.dataLen w := by
  unfold sampleData
  split_ifs
  · rw [length_take, length_cons, length_cons, zeros_length]
    omega
  · exact zeros_length _

theorem checkFmt_gzip (t : Bytes) :
    checkFmt (0x1f :: 0x8b :: t) 0 (0x1f :: 0x8b :: t).length = .ok .gzip := by
  have hmatch : checkedMatch (0x1f :: 0x8b :: t) 0 (0x1f :: 0x8b :: t).length magics =
      .ok (some .gzip) := by
    have hmagics : magics = magics.take 3 ++ ([0x1f, 0x8b], .gzip) :: magics.drop 4 := rfl
    have hgzip : bufferMatch (0x1f :: 0x8b :: t) 0 [0x1f, 0x8b] = .ok true := if_pos rfl
    rw [hmagics, checkedMatch_append (by decide +kernel), checkedMatch, if_pos (by simp), hgzip]
    rfl
  rw [checkFmt, hmatch]
  rfl

section OutOfRange

variable {w : Width} {blockSize : ℕ} {input : Input} {s : Progress} {op : InstallOperation}

variable {exts : List Extent} {pre post : Bytes}

theorem writeZeroExtents_eq_overflow (h : ¬ZeroFits blockSize exts)
    (out : Bytes) : writeZeroExtents w blockSize exts out = .error .overflow := by
  induction exts generalizing out with
  | nil => exact absurd trivial h
  | cons ext exts ih =>
    simp only [ZeroFits, not_forall, not_and] at h
    obtain ⟨b, hb, h⟩ := h
    rw [writeZeroExtents, show ext.startBlock = some b from hb]
    by_cases hmul : b.toNat * blockSize < 2 ^ 64
    · obtain ⟨hn, hlt, hrest⟩ := h hmul
      obtain ⟨n, hn⟩ := isSome_iff_exists.mp hn
      simp only [orBad, hn, mul64, if_pos hmul, seekStart, if_pos hlt, bind, Except.bind]
      exact ih hrest _
    · simp only [orBad, mul64, if_neg hmul, bind, Except.bind]

theorem writeZeroExtents_eq_ok (h : ZeroRuns blockSize exts) (out : Bytes) :
    ∃ out', writeZeroExtents w blockSize exts out = .ok out' := by
  induction exts generalizing out with
  | nil => exact ⟨out, rfl⟩
  | cons ext exts ih =>
    obtain ⟨⟨hn, b, hb, hlt⟩, hrest⟩ := forall_mem_cons.mp h
    obtain ⟨n, hn⟩ := isSome_iff_exists.mp hn
    have hmul : b.toNat * blockSize < 2 ^ 64 := by omega
    rw [writeZeroExtents, hb, hn]
    simp only [orBad, mul64, if_pos hmul, seekStart, if_pos hlt, bind, Except.bind]
    exact ih hrest _

theorem decodeData_sampleData (ht : op.type = .replaceBz ∨ op.type = .replaceXz)
    (hlen : 2 ≤ op.dataLen w) : decodeData emptyDecoder (op.sampleData w) = .ok [] := by
  obtain ⟨n, hn⟩ := Nat.exists_eq_add_of_le' hlen
  have hs : op.sampleData w = 0x1f :: 0x8b :: zeros n := by
    rw [InstallOperation.sampleData, if_pos ht, hn, Nat.add_sub_cancel]
    simp [zeros]
  rw [decodeData, hs, checkFmt_gzip]
  rfl

theorem readData_sample {off len : UInt64} (hlen : op.dataLength = some len)
    (hoff : op.dataOffset = some off) (hforward : s.currDataOffset ≤ op.offset)
    (hseek : op.Seekable w) (hpos : s.pos = pre.length)
    (hi : input.data = pre ++ (zeros (op.offset - s.currDataOffset) ++ (op.sampleData w ++ post))) :
    readData w input s op = (add64 op.offset (op.dataLen w)).map fun curr =>
      (op.sampleData w, ⟨curr,
        (pre ++ (zeros (op.offset - s.currDataOffset) ++ op.sampleData w)).length, s.out⟩) := by
  have hoffset := InstallOperation.offset_eq hoff
  have hlength := InstallOperation.dataLen_eq (w := w) hlen
  have hskip : skip input s.pos (asUsize w (op.offset - s.currDataOffset)) =
      .ok (pre ++ zeros (op.offset - s.currDataOffset)).length := by
    rw [asUsize_of_lt (lt_of_le_of_lt (Nat.sub_le _ _) hseek.2), skip_of_le, length_append,
      zeros_length, hpos]
    rw [hi, hpos]
    simp only [length_append, zeros_length]
    omega
  have hread : readExact input (pre ++ zeros (op.offset - s.currDataOffset)).length (op.dataLen w) =
      .ok (op.sampleData w,
        (pre ++ (zeros (op.offset - s.currDataOffset) ++ op.sampleData w)).length) := by
    rw [readExact_part (pre ++ zeros (op.offset - s.currDataOffset)) (by
      rw [hi, append_assoc]) rfl (op.sampleData_length w).symm]
    congr 2
    simp only [length_append, op.sampleData_length]
    omega
  have hsub : sub64 op.offset s.currDataOffset = .ok (op.offset - s.currDataOffset) :=
    sub64_eq_ok.mpr ⟨hforward, rfl⟩
  unfold readData
  rw [hlen, hoff]
  simp only [orBad, bind, Except.bind, ← hlength, ← hoffset, hsub, hskip, hread]
  cases add64 op.offset (op.dataLen w) <;> rfl

theorem runOperation_eq_overflow (h : ¬op.Fits w blockSize s.currDataOffset) (hseek : op.Seekable w)
    (hpos : s.pos = pre.length)
    (hi : input.data = pre ++ (zeros (op.offset - s.currDataOffset) ++ (op.sampleData w ++ post))) :
    runOperation w emptyDecoder blockSize input s op = .error .overflow := by
  simp only [InstallOperation.Fits, not_forall] at h
  obtain ⟨len, hlen, off, hoff, h⟩ := h
  have hlen : op.dataLength = some len := hlen
  have hoff : op.dataOffset = some off := hoff
  have hoffset := InstallOperation.offset_eq hoff
  have hlength := InstallOperation.dataLen_eq (w := w) hlen
  by_cases hforward : s.currDataOffset ≤ op.offset
  swap
  · have hsub : sub64 off.toNat s.currDataOffset = .error .overflow := if_neg (by omega)
    rw [runOperation, readData, hlen, hoff]
    simp only [orBad, bind, Except.bind, hsub]
  have hread := readData_sample hlen hoff hforward hseek hpos hi
  by_cases hadd : op.offset + op.dataLen w < 2 ^ 64
  swap
  · rw [add64, if_neg hadd] at hread
    simp only [runOperation, hread, Except.map, bind, Except.bind]
  rw [add64, if_pos hadd] at hread
  simp only [not_and, not_forall] at h
  obtain ⟨b, hb, h⟩ := h (by omega) (by omega)
  obtain ⟨ext, hext, hstart⟩ := bind_eq_some_iff.mp (show op.firstBlock = some b from hb)
  by_cases hmul : b.toNat * blockSize < 2 ^ 64
  · obtain ⟨ht, hzero⟩ := h hmul
    have hout : writeOperation w emptyDecoder blockSize op (op.sampleData w) (b.toNat * blockSize)
        s.out = .error .overflow := by
      rw [writeOperation, ht]
      exact writeZeroExtents_eq_overflow hzero _
    simp only [runOperation, hread, Except.map, orBad, hext, hstart, mul64, if_pos hmul, hout, bind,
      Except.bind]
  · simp only [runOperation, hread, Except.map, orBad, hext, hstart, mul64, if_neg hmul, bind,
      Except.bind]

theorem writeOperation_sample {b : UInt64} (hb : op.firstBlock = some b)
    (h : op.Runs w blockSize) (out : Bytes) : ∃ out', writeOperation w emptyDecoder blockSize op
      (op.sampleData w) (b.toNat * blockSize) out = .ok out' := by
  obtain ⟨-, -, b', hb', h⟩ := h
  obtain rfl : b' = b := some.inj (hb'.symm.trans hb)
  unfold writeOperation
  cases ht : op.type with
  | replace =>
    rw [ht] at h
    dsimp only at h ⊢
    rw [seekStart_eq_ok.mpr ⟨h, rfl⟩]
    exact ⟨_, rfl⟩
  | zero =>
    rw [ht] at h
    exact writeZeroExtents_eq_ok h out
  | replaceBz =>
    rw [ht] at h
    dsimp only at h ⊢
    rw [seekStart_eq_ok.mpr ⟨h.1, rfl⟩, decodeData_sampleData (Or.inl ht) h.2]
    exact ⟨_, rfl⟩
  | replaceXz =>
    rw [ht] at h
    dsimp only at h ⊢
    rw [seekStart_eq_ok.mpr ⟨h.1, rfl⟩, decodeData_sampleData (Or.inr ht) h.2]
    exact ⟨_, rfl⟩
  | _ =>
    rw [ht] at h
    exact h.elim

theorem runOperation_sample_ok (hfits : op.Fits w blockSize s.currDataOffset)
    (hruns : op.Runs w blockSize) (hseek : op.Seekable w) (hpos : s.pos = pre.length)
    (hi : input.data = pre ++ (zeros (op.offset - s.currDataOffset) ++ (op.sampleData w ++ post))) :
    ∃ out, runOperation w emptyDecoder blockSize input s op = .ok ⟨op.offset + op.dataLen w,
      (pre ++ (zeros (op.offset - s.currDataOffset) ++ op.sampleData w)).length, out⟩ := by
  obtain ⟨len, hlen⟩ := isSome_iff_exists.mp hruns.1
  obtain ⟨off, hoff⟩ := isSome_iff_exists.mp hruns.2.1
  obtain ⟨b, hb, -⟩ := hruns.2.2
  obtain ⟨hforward, hadd, hblock⟩ := hfits len hlen off hoff
  have hmul := (hblock b hb).1
  obtain ⟨ext, hext, hstart⟩ := bind_eq_some_iff.mp hb
  have hoffset := InstallOperation.offset_eq hoff
  have hlength := InstallOperation.dataLen_eq (w := w) hlen
  have hread := readData_sample hlen hoff (by omega) hseek hpos hi
  rw [add64, if_pos (by omega)] at hread
  obtain ⟨out, hout⟩ := writeOperation_sample hb hruns s.out
  refine ⟨out, ?_⟩
  simp only [runOperation, hread, Except.map, orBad, hext, hstart, mul64, if_pos hmul, hout, bind,
    Except.bind, pure, Except.pure]

/-- On the sample blobs the loop leaves the range if some operation that it comes to does. -/
theorem runOperations_eq_overflow {ops : List InstallOperation}
    (h : ¬AllFit w blockSize s.currDataOffset ops) (hops : ∀ op ∈ ops, op.Seekable w)
    (hpos : s.pos = pre.length) (hi : input.data = pre ++ sampleBlobs w s.currDataOffset ops) :
    runOperations w emptyDecoder blockSize input ops s = .error .overflow := by
  induction ops generalizing s pre with
  | nil => exact absurd trivial h
  | cons op ops ih =>
    have hop := hops op mem_cons_self
    rw [runOperations]
    by_cases hfits : op.Fits w blockSize s.currDataOffset
    · simp only [AllFit, hfits, true_and, Classical.not_imp] at h
      obtain ⟨out, hrun⟩ := runOperation_sample_ok hfits h.1 hop hpos hi
      rw [hrun]
      refine ih h.2 (fun o ho => hops o (mem_cons_of_mem op ho)) rfl ?_
      rw [hi, sampleBlobs]
      simp only [append_assoc]
    · rw [runOperation_eq_overflow hfits hop hpos hi]
      rfl

end OutOfRange

/-- The payload with the sample blobs of some operations. -/
def samplePayload (w : Width) (ops : List InstallOperation) : PayloadFile w :=
  .ofBlobs w (sampleBlobs w 0 ops)

def sampleInput (w : Width) (ops : List InstallOperation) : Input :=
  ⟨(samplePayload w ops).bytes, false, nofun⟩

theorem selectPartition_ne_overflow (m : DeltaArchiveManifest) (name : Option Str) :
    selectPartition m name ≠ .error .overflow := by
  cases name <;> exact orBad_ne_overflow _ _

theorem readManifest_const {m : DeltaArchiveManifest} {i : Input} {r : DeltaArchiveManifest × ℕ × ℕ}
    {w : Width} (h : readManifest w (fun _ => some m) i = .ok r) : r.1 = m := by
  obtain ⟨magic, -, h⟩ := bind_eq_ok.mp h
  obtain ⟨-, -, h⟩ := bind_eq_ok.mp h
  obtain ⟨version, -, h⟩ := bind_eq_ok.mp h
  obtain ⟨-, -, h⟩ := bind_eq_ok.mp h
  obtain ⟨manifestLen, -, h⟩ := bind_eq_ok.mp h
  obtain ⟨-, -, h⟩ := bind_eq_ok.mp h
  obtain ⟨sigLen, -, h⟩ := bind_eq_ok.mp h
  obtain ⟨-, -, h⟩ := bind_eq_ok.mp h
  obtain ⟨buf, -, h⟩ := bind_eq_ok.mp h
  rw [← Except.ok.inj h]

theorem lt_of_readManifest {fromReader : Bytes → Option DeltaArchiveManifest} {w : Width} {i : Input}
    {m : DeltaArchiveManifest} {pos sigLen : ℕ}
    (h : readManifest w fromReader i = .ok (m, pos, sigLen)) : sigLen < 2 ^ 32 := by
  obtain ⟨magic, -, h⟩ := bind_eq_ok.mp h
  obtain ⟨-, -, h⟩ := bind_eq_ok.mp h
  obtain ⟨version, -, h⟩ := bind_eq_ok.mp h
  obtain ⟨-, -, h⟩ := bind_eq_ok.mp h
  obtain ⟨manifestLen, -, h⟩ := bind_eq_ok.mp h
  obtain ⟨-, -, h⟩ := bind_eq_ok.mp h
  obtain ⟨⟨n, p⟩, hn, h⟩ := bind_eq_ok.mp h
  obtain ⟨-, -, h⟩ := bind_eq_ok.mp h
  obtain ⟨buf, -, h⟩ := bind_eq_ok.mp h
  obtain ⟨⟨b, q⟩, hb, hn⟩ := map_eq_ok.mp hn
  obtain ⟨rfl, -⟩ := Prod.mk.inj hn
  have hlt := leValue_lt b.reverse
  rw [length_reverse, (readExact_eq_ok hb).2.1] at hlt
  dsimp only at h
  split at h
  · cases h
    exact hlt
  · cases h

end Magisk.Boot
