import Magisk.Boot.Payload

namespace Magisk.Boot

open List Option

def Extent.start (e : Extent) : ℕ := (e.startBlock.getD 0).toNat
def Extent.count (e : Extent) : ℕ := (e.numBlocks.getD 0).toNat

/-- The places in the output that the extents cover, in order. -/
def positions (blockSize : ℕ) (exts : List Extent) : List ℕ :=
  exts.flatMap fun e => List.range' (e.start * blockSize) (e.count * blockSize)

namespace InstallOperation

def offset (op : InstallOperation) : ℕ := (op.dataOffset.getD 0).toNat
def length (op : InstallOperation) : ℕ := (op.dataLength.getD 0).toNat

theorem offset_eq {op : InstallOperation} {off : UInt64} (h : op.dataOffset = some off) :
    op.offset = off.toNat := by
  rw [offset, h, getD_some]

theorem length_eq {op : InstallOperation} {len : UInt64} (h : op.dataLength = some len) :
    op.length = len.toNat := by
  rw [length, h, getD_some]

def firstBlock (op : InstallOperation) : Option UInt64 := op.dstExtents.head?.bind Extent.startBlock

def contents (decoder : Decoder) (blobs : Bytes) (op : InstallOperation) :
    Except PayloadFault Bytes :=
  let data := view blobs op.offset op.length
  if op.type = .replace then .ok data else decodeData decoder data

/-- The operations of a full payload: a `ZERO` operation has no data, the others have data that
fills their extents. -/
structure Valid (decoder : Decoder) (blockSize : ℕ) (blobs : Bytes) (op : InstallOperation) :
    Prop where
  type_mem : op.type ∈ [.replace, .replaceBz, .replaceXz, .zero]
  extents : ∀ e ∈ op.dstExtents, e.startBlock.isSome ∧ e.numBlocks.isSome
  zero : op.type = .zero → op.dataOffset = none ∧ op.dataLength = none
  data : op.type ≠ .zero → op.dataOffset.isSome ∧ op.dataLength.isSome ∧
    op.offset + op.length ≤ blobs.length ∧
    ∃ d, op.contents decoder blobs = .ok d ∧ d.length = (positions blockSize op.dstExtents).length

/-- The output holds what the operation is to write. -/
def Holds (decoder : Decoder) (blockSize : ℕ) (blobs out : Bytes) (op : InstallOperation) : Prop :=
  if op.type = .zero then ∀ x ∈ positions blockSize op.dstExtents, out[x]? = some 0
  else ∃ d, op.contents decoder blobs = .ok d ∧
    (positions blockSize op.dstExtents).map (out[·]?) = d.map some

def write (decoder : Decoder) (blockSize : ℕ) (blobs : Bytes) (op : InstallOperation) : ℕ × Bytes :=
  ((op.firstBlock.getD 0).toNat * blockSize, (op.contents decoder blobs).toOption.getD [])

/-- The operation can be carried out when the data read last ends at `curr`. -/
structure Ready (w : Width) (blockSize curr : ℕ) (op : InstallOperation) : Prop where
  not_zero : op.type ≠ .zero
  forward : curr ≤ op.offset
  skip_lt : op.offset - curr < 2 ^ w.bits
  length_lt : op.length < 2 ^ w.bits
  end_lt : op.offset + op.length < 2 ^ 64
  placed : ∃ b, op.firstBlock = some b ∧ b.toNat * blockSize < 2 ^ 63

end InstallOperation

/-- Each of the operations can be carried out behind the ones before it. -/
def AllReady (w : Width) (blockSize : ℕ) : ℕ → List InstallOperation → Prop
  | _, [] => True
  | curr, op :: ops => op.Ready w blockSize curr ∧ AllReady w blockSize (op.offset + op.length) ops

section Steps

variable {w : Width} {decoder : Decoder} {blockSize : ℕ} {input : Input} {s : Progress}
  {op : InstallOperation}

theorem writeOperation_eq {blobs d out : Bytes} {off : ℕ} (hv : op.Valid decoder blockSize blobs)
    (hz : op.type ≠ .zero) (hd : op.contents decoder blobs = .ok d) :
    writeOperation w decoder blockSize op (view blobs op.offset op.length) off out =
      (seekStart off).map fun off => writeAt out off d := by
  have hmem := hv.type_mem
  unfold InstallOperation.contents at hd
  dsimp only at hd
  simp only [mem_cons, not_mem_nil, or_false] at hmem
  unfold writeOperation
  rcases hmem with ht | ht | ht | ht
  · rw [ht, if_pos rfl] at hd
    cases hd
    rw [ht]
    dsimp only
    cases seekStart off <;> rfl
  · rw [ht, if_neg (by decide)] at hd
    rw [ht, hd]
    dsimp only
    cases seekStart off <;> rfl
  · rw [ht, if_neg (by decide)] at hd
    rw [ht, hd]
    dsimp only
    cases seekStart off <;> rfl
  · exact absurd ht hz

variable {p : PayloadFile w}

theorem readData_of_ready (hi : input.data = p.bytes)
    (hv : op.Valid decoder blockSize p.blobs) (hr : op.Ready w blockSize s.currDataOffset)
    (hpos : s.pos = p.base + s.currDataOffset) :
    readData w input s op = .ok (view p.blobs op.offset op.length,
      ⟨op.offset + op.length, p.base + (op.offset + op.length), s.out⟩) := by
  obtain ⟨hz, hforward, hskip, hlt, hend, -⟩ := hr
  obtain ⟨hoff, hlen, hle, -⟩ := hv.data hz
  obtain ⟨off, hoff⟩ := isSome_iff_exists.mp hoff
  obtain ⟨len, hlen⟩ := isSome_iff_exists.mp hlen
  have hoffset := InstallOperation.offset_eq hoff
  have hlength := InstallOperation.length_eq hlen
  have hdata : input.data.length = p.base + p.blobs.length := by rw [hi, p.bytes_length]
  have hsub : sub64 off.toNat s.currDataOffset = .ok (op.offset - s.currDataOffset) :=
    sub64_eq_ok.mpr ⟨by omega, by omega⟩
  have hskip : skip input s.pos (asUsize w (op.offset - s.currDataOffset)) =
      .ok (p.base + op.offset) := by
    rw [asUsize_of_lt hskip, skip_of_le (by omega)]
    congr 1
    omega
  have hread : readExact input (p.base + op.offset) (asUsize w len.toNat) =
      .ok (view p.blobs op.offset op.length, p.base + (op.offset + op.length)) := by
    rw [← hlength, asUsize_of_lt hlt, readExact_of_le (by omega), hi, p.view_bytes, add_assoc]
  have hadd : add64 off.toNat (asUsize w len.toNat) = .ok (op.offset + op.length) := by
    rw [← hlength, ← hoffset, asUsize_of_lt hlt]
    exact add64_eq_ok.mpr ⟨hend, rfl⟩
  simp only [readData, orBad, bind, Except.bind, pure, Except.pure, hlen, hoff, hsub, hskip, hread,
    hadd]

theorem runOperation_of_ready (hi : input.data = p.bytes)
    (hv : op.Valid decoder blockSize p.blobs) (hr : op.Ready w blockSize s.currDataOffset)
    (hpos : s.pos = p.base + s.currDataOffset) :
    runOperation w decoder blockSize input s op =
      .ok ⟨op.offset + op.length, p.base + (op.offset + op.length),
        writeAt s.out (op.write decoder blockSize p.blobs).1
          (op.write decoder blockSize p.blobs).2⟩ := by
  have hread := readData_of_ready hi hv hr hpos
  obtain ⟨b, hb, hblt⟩ := hr.placed
  obtain ⟨-, -, -, d, hd, -⟩ := hv.data hr.not_zero
  obtain ⟨ext, hext, hstart⟩ := bind_eq_some_iff.mp hb
  have hwrite : op.write decoder blockSize p.blobs = (b.toNat * blockSize, d) := by
    rw [InstallOperation.write, hb, hd]
    rfl
  have hmul : mul64 b.toNat blockSize = .ok (b.toNat * blockSize) :=
    mul64_eq_ok.mpr ⟨by omega, rfl⟩
  have hout : writeOperation w decoder blockSize op (view p.blobs op.offset op.length)
      (b.toNat * blockSize) s.out = .ok (writeAt s.out (b.toNat * blockSize) d) := by
    rw [writeOperation_eq hv hr.not_zero hd, seekStart_eq_ok.mpr ⟨hblt, rfl⟩]
    rfl
  rw [hwrite]
  simp only [runOperation, orBad, bind, Except.bind, pure, Except.pure, hread, hext, hstart, hmul,
    hout]

/-- The loop makes one write for each of the operations. -/
theorem runOperations_of_ready (hi : input.data = p.bytes) {ops : List InstallOperation}
    (hv : ∀ op ∈ ops, op.Valid decoder blockSize p.blobs)
    (hr : AllReady w blockSize s.currDataOffset ops) (hpos : s.pos = p.base + s.currDataOffset) :
    ∃ s', runOperations w decoder blockSize input ops s = .ok s' ∧
      s'.out = writeAll s.out (ops.map (InstallOperation.write decoder blockSize p.blobs)) := by
  induction ops generalizing s with
  | nil => exact ⟨s, rfl, rfl⟩
  | cons op ops ih =>
    rw [runOperations, runOperation_of_ready hi (hv op mem_cons_self) hr.1 hpos]
    exact ih (fun o ho => hv o (mem_cons_of_mem op ho)) hr.2 rfl

end Steps

/-- The writes for the operations of a partition, in the order of their data. -/
def partitionWrites (decoder : Decoder) (blockSize : ℕ) (blobs : Bytes)
    (ops : List InstallOperation) : List (ℕ × Bytes) :=
  (sortOperations ops).map (InstallOperation.write decoder blockSize blobs)

theorem mem_sortOperations {op : InstallOperation} {ops : List InstallOperation} :
    op ∈ sortOperations ops ↔ op ∈ ops := mem_insertionSort _

theorem AllReady.not_zero {w : Width} {blockSize curr : ℕ} {ops : List InstallOperation}
    (h : AllReady w blockSize curr ops) : ∀ op ∈ ops, op.type ≠ .zero := by
  induction ops generalizing curr with
  | nil => simp
  | cons op ops ih => exact forall_mem_cons.mpr ⟨h.1.not_zero, ih h.2⟩

section Extract

variable {w : Width} {fromReader : Bytes → Option DeltaArchiveManifest} {decoder : Decoder}
  {p : PayloadFile w} {i : Input} {m : DeltaArchiveManifest} {name : Option Str}
  {part : PartitionUpdate}

theorem holds_writeAll_iff {blockSize : ℕ} {blobs : Bytes} {op : InstallOperation}
    (hz : op.type ≠ .zero) (ws : List (ℕ × Bytes)) :
    op.Holds decoder blockSize blobs (writeAll [] ws) ↔
      ∃ d, op.contents decoder blobs = .ok d ∧
        (positions blockSize op.dstExtents).map (cellAfter ws) = d.map some := by
  have hcell : (positions blockSize op.dstExtents).map ((writeAll [] ws)[·]?) =
      (positions blockSize op.dstExtents).map (cellAfter ws) :=
    map_congr_left fun x _ => getElem?_writeAll_nil ws x
  rw [InstallOperation.Holds, if_neg hz, hcell]

/-- The extents of the operation follow one another. -/
def InstallOperation.Contiguous (blockSize : ℕ) (op : InstallOperation) : Prop :=
  positions blockSize op.dstExtents =
    List.range' ((op.firstBlock.getD 0).toNat * blockSize)
      (positions blockSize op.dstExtents).length

/-- In extents that follow one another the data is where it belongs, as no other write meets
it. -/
theorem cells_of_contiguous {blockSize : ℕ} {blobs d : Bytes} {ops : List InstallOperation}
    (hdisjoint : (ops.flatMap fun op => positions blockSize op.dstExtents).Nodup)
    (hv : ∀ op ∈ ops, op.Valid decoder blockSize blobs) (hz : ∀ op ∈ ops, op.type ≠ .zero)
    (hc : ∀ op ∈ ops, op.Contiguous blockSize) {op : InstallOperation} (hop : op ∈ ops)
    (hd : op.contents decoder blobs = .ok d) :
    (positions blockSize op.dstExtents).map
      (cellAfter (partitionWrites decoder blockSize blobs ops)) = d.map some := by
  have hpair := (nodup_flatMap.mp hdisjoint).2
  -- the places of a write are the positions of its operation
  have hput {o : InstallOperation} (ho : o ∈ ops) {x : ℕ}
      (hx : putAt (o.write decoder blockSize blobs) x ≠ none) :
      x ∈ positions blockSize o.dstExtents := by
    obtain ⟨-, -, -, e, he, hlen⟩ := (hv o ho).data (hz o ho)
    rw [ne_eq, putAt_eq_none_iff, InstallOperation.write, he] at hx
    simp only [Except.toOption, getD_some] at hx
    rw [hc o ho, ← hlen, mem_range'_1]
    omega
  obtain ⟨-, -, -, d', hd', hlen⟩ := (hv op hop).data (hz op hop)
  obtain rfl : d' = d := by
    rw [hd'] at hd
    exact Except.ok.inj hd
  rw [hc op hop, ← hlen]
  apply ext_getElem (by simp)
  intro k hk hk'
  have hkd : k < d'.length := by simpa using hk'
  rw [getElem_map, getElem_map, getElem_range', one_mul]
  have hwput : putAt (op.write decoder blockSize blobs)
      ((op.firstBlock.getD 0).toNat * blockSize + k) = some d'[k] := by
    rw [InstallOperation.write, hd', putAt]
    simp [Except.toOption, hkd]
  have hlast : lastWritten (partitionWrites decoder blockSize blobs ops)
      ((op.firstBlock.getD 0).toNat * blockSize + k) = some d'[k] := by
    apply lastWritten_of_unique (List.mem_map.mpr ⟨op, mem_sortOperations.mpr hop, rfl⟩) hwput
    intro u hu hne
    obtain ⟨o, ho, rfl⟩ := List.mem_map.mp hu
    by_contra hnone
    have hoo : o ≠ op := fun h => hne (by rw [h])
    have ho := mem_sortOperations.mp ho
    have : Std.Symm (Function.onFun List.Disjoint
        fun op : InstallOperation => positions blockSize op.dstExtents) :=
      ⟨fun _ _ h => h.symm⟩
    have hdis := hpair.forall ho hop hoo
    exact hdis (hput ho hnone) (hput hop (by rw [hwput]; simp))
  rw [cellAfter, hlast, some_or]

def smallPayload : PayloadFile .w64 := .ofBlobs .w64 (lit "ab")

def smallInput : Input := ⟨smallPayload.bytes, true, fun _ => by decide⟩

def replaceBlock : InstallOperation := ⟨.replace, some 0, some 2, [⟨some 0, some 1⟩]⟩

def zeroBlock : InstallOperation := ⟨.zero, none, none, [⟨some 1, some 1⟩]⟩

def smallManifest (ops : List InstallOperation) : DeltaArchiveManifest :=
  ⟨some 2, none, [⟨"boot".toList, ops⟩]⟩

theorem replaceBlock_valid (decoder : Decoder) : replaceBlock.Valid decoder 2 (lit "ab") where
  type_mem := by decide
  extents := by decide
  zero := by decide
  data := fun _ => ⟨rfl, rfl, by decide, lit "ab", rfl, rfl⟩

theorem zeroBlock_valid (decoder : Decoder) : zeroBlock.Valid decoder 2 (lit "ab") where
  type_mem := by decide
  extents := by decide
  zero := fun _ => ⟨rfl, rfl⟩
  data := fun h => absurd rfl h

end Extract

end Magisk.Boot
