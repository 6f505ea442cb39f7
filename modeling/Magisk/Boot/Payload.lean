import Magisk.SeekFile
import Magisk.Boot.Format

namespace Magisk.Boot

open List

inductive OperationType where
  | replace
  | replaceBz
  | move
  | bsdiff
  | sourceCopy
  | sourceBsdiff
  | zero
  | discard
  | replaceXz
  | puffdiff
  | brotliBsdiff
  | zucchini
  | lz4diffBsdiff
  | lz4diffPuffdiff
  deriving DecidableEq, Repr

structure Extent where
  startBlock : Option UInt64
  numBlocks : Option UInt64
  deriving DecidableEq, Repr

structure InstallOperation where
  type : OperationType
  dataOffset : Option UInt64
  dataLength : Option UInt64
  dstExtents : List Extent
  deriving DecidableEq, Repr

structure PartitionUpdate where
  partitionName : Str
  operations : List InstallOperation
  deriving DecidableEq, Repr

structure DeltaArchiveManifest where
  blockSize : Option UInt32
  minorVersion : Option UInt32
  partitions : List PartitionUpdate
  deriving DecidableEq, Repr

def DeltaArchiveManifest.getBlockSize (m : DeltaArchiveManifest) : ℕ :=
  (m.blockSize.getD 4096).toNat

def DeltaArchiveManifest.getMinorVersion (m : DeltaArchiveManifest) : ℕ :=
  (m.minorVersion.getD 0).toNat

inductive PayloadFault where
  /-- an error that is logged and returned -/
  | error (msg : String)
  /-- a 64-bit result out of range -/
  | overflow
  /-- `get_decoder` for data in no compressed format -/
  | unreachable
  /-- a fault of `check_fmt` -/
  | stop (s : Stop)
  deriving DecidableEq, Repr

def badPayload (msg : String) : PayloadFault := .error ("Invalid payload: " ++ msg)

def orBad {α : Type} (msg : String) : Option α → Except PayloadFault α
  | some a => .ok a
  | none => .error (badPayload msg)

/-- Fails with the message unless the condition holds. -/
def ensure (c : Prop) [Decidable c] (msg : String) : Except PayloadFault Unit :=
  if c then .ok () else .error (badPayload msg)

def sub64 (a b : ℕ) : Except PayloadFault ℕ := if b ≤ a then .ok (a - b) else .error .overflow
def add64 (a b : ℕ) : Except PayloadFault ℕ :=
  if a + b < 2 ^ 64 then .ok (a + b) else .error .overflow
def mul64 (a b : ℕ) : Except PayloadFault ℕ :=
  if a * b < 2 ^ 64 then .ok (a * b) else .error .overflow

/-- The width of `usize` on the target. -/
inductive Width where
  | w32
  | w64
  deriving DecidableEq, Repr

def Width.bits : Width → ℕ
  | .w32 => 32
  | .w64 => 64

def asUsize (w : Width) (n : ℕ) : ℕ := n % 2 ^ w.bits

def asI64 (n : ℕ) : ℤ := if n < 2 ^ 63 then n else n - 2 ^ 64

def readExact (i : Input) (pos n : ℕ) : Except PayloadFault (Bytes × ℕ) :=
  match i.readExact pos n with
  | some r => .ok r
  | none => .error (.error "failed to fill whole buffer")

/-- `ReadSeekExt::skip`: what cannot be skipped by seeking is read. -/
def skip (i : Input) (pos len : ℕ) : Except PayloadFault ℕ :=
  match i.seekCurrent pos (asI64 len) with
  | some pos => .ok pos
  | none => (readExact i pos len).map Prod.snd

def seekStart (off : ℕ) : Except PayloadFault ℕ :=
  if off < 2 ^ 63 then .ok off else .error (.error "Invalid argument (os error 22)")

/-- The zeros of a `ZERO` operation: `num_blocks` bytes in each extent. -/
def writeZeroExtents (w : Width) (blockSize : ℕ) :
    List Extent → Bytes → Except PayloadFault Bytes
  | [], out => .ok out
  | ext :: exts, out => do
    let start ← orBad "start block not found" ext.startBlock
    let outSeek ← mul64 start.toNat blockSize
    let numBlocks ← orBad "num blocks not found" ext.numBlocks
    let outSeek ← seekStart outSeek
    writeZeroExtents w blockSize exts (writeAt out outSeek (zeros (asUsize w numBlocks.toNat)))

/-- The decoders of the compressed formats. -/
abbrev Decoder := FileFormat → Bytes → Option Bytes

/-- What `get_decoder` makes of the data. -/
def decodeData (decoder : Decoder) (data : Bytes) : Except PayloadFault Bytes :=
  match checkFmt data 0 data.length with
  | .error s => .error (.stop s)
  | .ok fmt =>
    if fmtCompressed fmt then orBad "decompression failed" (decoder fmt data)
    else .error .unreachable

def writeOperation (w : Width) (decoder : Decoder) (blockSize : ℕ) (op : InstallOperation)
    (data : Bytes) (outOffset : ℕ) (out : Bytes) : Except PayloadFault Bytes :=
  match op.type with
  | .replace => do
    let outOffset ← seekStart outOffset
    return writeAt out outOffset data
  | .zero => writeZeroExtents w blockSize op.dstExtents out
  | .replaceBz | .replaceXz => do
    let outOffset ← seekStart outOffset
    let data ← decodeData decoder data
    return writeAt out outOffset data
  | _ => .error (badPayload "unsupported operation type")

/-- Where the loop over the operations stands: the end of the data read last, the position in
the input and the output file. -/
structure Progress where
  currDataOffset : ℕ
  pos : ℕ
  out : Bytes

/-- Skips to the data of the operation and reads it. -/
def readData (w : Width) (input : Input) (s : Progress) (op : InstallOperation) :
    Except PayloadFault (Bytes × Progress) := do
  let dataLen ← orBad "data length not found" op.dataLength
  let dataOffset ← orBad "data offset not found" op.dataOffset
  let len ← sub64 dataOffset.toNat s.currDataOffset
  let pos ← skip input s.pos (asUsize w len)
  let (data, pos) ← readExact input pos (asUsize w dataLen.toNat)
  let currDataOffset ← add64 dataOffset.toNat (asUsize w dataLen.toNat)
  return (data, ⟨currDataOffset, pos, s.out⟩)

def runOperation (w : Width) (decoder : Decoder) (blockSize : ℕ) (input : Input) (s : Progress)
    (op : InstallOperation) : Except PayloadFault Progress := do
  let (data, s) ← readData w input s op
  let ext ← orBad "dst extents not found" op.dstExtents.head?
  let start ← orBad "start block not found" ext.startBlock
  let outOffset ← mul64 start.toNat blockSize
  let out ← writeOperation w decoder blockSize op data outOffset s.out
  return { s with out := out }

def runOperations (w : Width) (decoder : Decoder) (blockSize : ℕ) (input : Input) :
    List InstallOperation → Progress → Except PayloadFault Progress
  | [], s => .ok s
  | op :: ops, s => runOperation w decoder blockSize input s op >>=
      runOperations w decoder blockSize input ops

/-- `sort_by_key`, which keeps the order of equal keys. -/
def sortOperations (ops : List InstallOperation) : List InstallOperation :=
  ops.insertionSort fun a b => a.dataOffset.getD 0 ≤ b.dataOffset.getD 0

def findPartition (m : DeltaArchiveManifest) (name : Str) : Option PartitionUpdate :=
  m.partitions.find? (·.partitionName = name)

def selectPartition (m : DeltaArchiveManifest) :
    Option Str → Except PayloadFault PartitionUpdate
  | none => orBad "boot partition not found"
      ((findPartition m "init_boot".toList).or (findPartition m "boot".toList))
  | some name => orBad ("partition '" ++ String.ofList name ++ "' not found") (findPartition m name)

def readBeNat (i : Input) (pos n : ℕ) : Except PayloadFault (ℕ × ℕ) :=
  (readExact i pos n).map fun r => (leValue r.1.reverse, r.2)

/-- The manifest of a payload, with the position behind it and the length of its signature. -/
def readManifest (w : Width) (fromReader : Bytes → Option DeltaArchiveManifest)
    (input : Input) : Except PayloadFault (DeltaArchiveManifest × ℕ × ℕ) := do
  let (magic, pos) ← readExact input 0 4
  ensure (magic = lit "CrAU") "invalid magic"
  let (version, pos) ← readBeNat input pos 8
  ensure (version = 2) s!"unsupported version: {version}"
  let (manifestLen, pos) ← readBeNat input pos 8
  let manifestLen := asUsize w manifestLen
  ensure (manifestLen ≠ 0) "manifest length is zero"
  let (manifestSigLen, pos) ← readBeNat input pos 4
  ensure (manifestSigLen ≠ 0) "manifest signature length is zero"
  let (buf, pos) ← readExact input pos manifestLen
  match fromReader buf with
  | some manifest => return (manifest, pos, manifestSigLen)
  | none => .error (.error "cannot decode the manifest")

/-- The path of the output file and what is written to it. -/
def extractBootFromPayload (w : Width) (fromReader : Bytes → Option DeltaArchiveManifest)
    (decoder : Decoder) (input : Input) (partitionName outPath : Option Str) :
    Except PayloadFault (Str × Bytes) := do
  let (manifest, pos, manifestSigLen) ← readManifest w fromReader input
  ensure (manifest.getMinorVersion = 0)
    "delta payloads are not supported, please use a full payload file"
  let partition ← selectPartition manifest partitionName
  let outPath := outPath.getD (partition.partitionName ++ ".img".toList)
  -- Skip the manifest signature
  let pos ← skip input pos manifestSigLen
  let s ← runOperations w decoder manifest.getBlockSize input
    (sortOperations partition.operations) ⟨0, pos, []⟩
  return (outPath, s.out)

@[simp] theorem orBad_eq_ok {α : Type} {msg : String} {o : Option α} {a : α} :
    orBad msg o = .ok a ↔ o = some a := by
  cases o <;> simp [orBad]

theorem ite_eq_ok {ε α : Type*} {p : Prop} [Decidable p] {a c : α} {e : ε} :
    (if p then .ok a else .error e : Except ε α) = .ok c ↔ p ∧ a = c := by
  split_ifs with h <;> simp [h]

variable {a b c pos n : ℕ} {i : Input}

theorem sub64_eq_ok : sub64 a b = .ok c ↔ b ≤ a ∧ a - b = c := ite_eq_ok
theorem add64_eq_ok : add64 a b = .ok c ↔ a + b < 2 ^ 64 ∧ a + b = c := ite_eq_ok
theorem mul64_eq_ok : mul64 a b = .ok c ↔ a * b < 2 ^ 64 ∧ a * b = c := ite_eq_ok
theorem seekStart_eq_ok {off c : ℕ} : seekStart off = .ok c ↔ off < 2 ^ 63 ∧ off = c := ite_eq_ok

theorem asUsize_of_lt {w : Width} (h : n < 2 ^ w.bits) : asUsize w n = n := Nat.mod_eq_of_lt h

theorem Width.bits_le (w : Width) : 2 ^ w.bits ≤ 2 ^ 64 := by
  cases w <;> decide

theorem readExact_of_le (h : pos + n ≤ i.data.length) :
    readExact i pos n = .ok (view i.data pos n, pos + n) := by
  rw [readExact, Input.readExact_of_le h]

theorem skip_of_le (h : pos + n ≤ i.data.length) : skip i pos n = .ok (pos + n) := by
  unfold skip Input.seekCurrent
  by_cases hs : i.seekable
  · have hlt := i.length_lt hs
    have hn : asI64 n = n := if_pos (by omega)
    rw [hn, if_pos ⟨hs, by omega, by omega⟩]
    congr 1
  · rw [if_neg fun hc => hs hc.1]
    rw [readExact_of_le h]
    rfl

theorem readExact_part (pre : Bytes) {b post : Bytes} (h : i.data = pre ++ (b ++ post))
    (hpos : pos = pre.length) (hn : n = b.length) :
    readExact i pos n = .ok (b, pos + n) := by
  subst hpos hn
  rw [readExact_of_le (by rw [h]; simp), h, (at_append_self pre b post).view_eq]

theorem readBeNat_part (pre : Bytes) {post : Bytes} {n v : ℕ}
    (h : i.data = pre ++ (beBytes n v ++ post)) (hv : v < 256 ^ n)
    (hpos : pos = pre.length) : readBeNat i pos n = .ok (v, pos + n) := by
  rw [readBeNat, readExact_part pre h hpos (by simp [beBytes])]
  show Except.ok (leValue (beBytes n v).reverse, pos + n) = .ok (v, pos + n)
  rw [beBytes, reverse_reverse, leValue_leBytes hv]

structure PayloadFile (w : Width) where
  manifest : Bytes
  signature : Bytes
  blobs : Bytes
  manifest_ne : manifest ≠ []
  signature_ne : signature ≠ []
  manifest_lt : manifest.length < 2 ^ w.bits
  signature_lt : signature.length < 2 ^ 32

namespace PayloadFile

/-- A payload of which only the blobs matter. -/
def ofBlobs (w : Width) (blobs : Bytes) : PayloadFile w :=
  ⟨[0], [0], blobs, by decide, by decide, by cases w <;> decide, by decide⟩

variable {w : Width}

def header (p : PayloadFile w) : Bytes :=
  lit "CrAU" ++ (beBytes 8 2 ++ (beBytes 8 p.manifest.length ++ beBytes 4 p.signature.length))

def bytes (p : PayloadFile w) : Bytes := p.header ++ (p.manifest ++ (p.signature ++ p.blobs))

def base (p : PayloadFile w) : ℕ := 24 + p.manifest.length + p.signature.length

theorem header_length (p : PayloadFile w) : p.header.length = 24 := by
  rfl

theorem bytes_length (p : PayloadFile w) : p.bytes.length = p.base + p.blobs.length := by
  simp only [bytes, base, length_append, header_length]
  omega

theorem view_bytes (p : PayloadFile w) (off n : ℕ) :
    view p.bytes (p.base + off) n = view p.blobs off n := by
  have hpre : (p.header ++ (p.manifest ++ p.signature)).length = p.base := by
    simp only [base, length_append, header_length]
    omega
  have hb : p.bytes = (p.header ++ (p.manifest ++ p.signature)) ++ p.blobs := by
    simp [bytes]
  rw [view, hb, ← hpre, ← drop_drop, drop_left]
  rfl

variable {fromReader : Bytes → Option DeltaArchiveManifest} {p : PayloadFile w} {i : Input}
  {m : DeltaArchiveManifest}

theorem readManifest_eq (hi : i.data = p.bytes) (hm : fromReader p.manifest = some m) :
    readManifest w fromReader i = .ok (m, 24 + p.manifest.length, p.signature.length) := by
  have hmlen : p.manifest.length ≠ 0 := fun h => p.manifest_ne (length_eq_zero_iff.mp h)
  have hslen : p.signature.length ≠ 0 := fun h => p.signature_ne (length_eq_zero_iff.mp h)
  have hb : i.data = lit "CrAU" ++ (beBytes 8 2 ++ (beBytes 8 p.manifest.length ++
      (beBytes 4 p.signature.length ++ (p.manifest ++ (p.signature ++ p.blobs))))) := by
    rw [hi, bytes, header]
    simp only [append_assoc]
  have h1 : readExact i 0 4 = .ok (lit "CrAU", 4) := readExact_part [] hb rfl rfl
  have h2 : readBeNat i 4 8 = .ok (2, 12) := readBeNat_part _ hb (by decide) rfl
  rw [← append_assoc] at hb
  have h3 : readBeNat i 12 8 = .ok (p.manifest.length, 20) :=
    readBeNat_part _ hb (p.manifest_lt.trans_le w.bits_le) rfl
  rw [← append_assoc] at hb
  have h4 : readBeNat i 20 4 = .ok (p.signature.length, 24) :=
    readBeNat_part _ hb p.signature_lt (by simp [beBytes]; rfl)
  have h5 : readExact i 24 p.manifest.length = .ok (p.manifest, 24 + p.manifest.length) :=
    readExact_part p.header (by rw [hi, bytes]) (header_length p).symm rfl
  unfold readManifest
  simp [h1, h2, h3, h4, h5, hm, hmlen, hslen, asUsize_of_lt p.manifest_lt, ensure, bind,
    Except.bind, pure, Except.pure]

theorem extract_eq (decoder : Decoder) (hi : i.data = p.bytes)
    (hm : fromReader p.manifest = some m) (hfull : m.getMinorVersion = 0)
    {name : Option Str} {part : PartitionUpdate} (hpart : selectPartition m name = .ok part)
    (outPath : Option Str) :
    extractBootFromPayload w fromReader decoder i name outPath =
      (runOperations w decoder m.getBlockSize i (sortOperations part.operations)
        ⟨0, p.base, []⟩).map fun s => (outPath.getD (part.partitionName ++ ".img".toList), s.out) := by
  have hskip : skip i (24 + p.manifest.length) p.signature.length = .ok p.base := by
    rw [skip_of_le, base]
    rw [hi, bytes_length, base]
    omega
  unfold extractBootFromPayload
  rw [readManifest_eq hi hm]
  simp only [bind, Except.bind, ensure, hfull, hpart, hskip, if_true]
  cases runOperations w decoder m.getBlockSize i (sortOperations part.operations)
    ⟨0, p.base, []⟩ <;> rfl

end PayloadFile

end Magisk.Boot
