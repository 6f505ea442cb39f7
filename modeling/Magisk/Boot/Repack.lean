import Magisk.Boot.Unpack

namespace Magisk.Boot

def Hdr.addSize (h : Hdr) (b : Block) (n : ℕ) : Hdr := h.setSize b (h.size b + n)

/-- What one call of `sendfile` copies at most. -/
def sendfileMax : ℕ := 0x7ffff000

/-- The bytes that `restore` copies. The size it returns is the one of the file. -/
def restore (data : Bytes) : Bytes := data.take sendfileMax

/-- What `repack` writes for a block, the header after that, and whether it aligns the file. -/
structure Piece where
  bytes : Bytes
  hdr : Hdr
  aligned : Bool := true

section Pieces

variable (env : Env) (boot : BootImg) (files : Files) (skipComp : Bool)

/-- The bytes of a component file, compressed if they are not yet. -/
def component (fmt target : FileFormat) (m : Bytes) : Except Stop Bytes :=
  if skipComp then .ok m
  else do
    let mFmt ← checkFmt m 0 m.length
    if !fmtCompressedAny mFmt && fmtCompressed fmt then return env.compress target m else return m

/-- The kernel of a zImage, which has to keep its size. -/
def zimageBody (data m : Bytes) (size : ℕ) : Except Stop Bytes := do
  let origSize := boot.hdr.size .kernel
  if origSize < size then
    -- the recompressed kernel is too large, use the original one
    let orig ← read boot.mem boot.kernel.kernel origSize
    return data.take (data.length - size) ++ orig
  else if skipComp then return data
  -- a length below zero is a huge one for write_zero
  else if origSize - size < 4 then .error .hang
  else return data ++ (zeros (origSize - size - 4) ++ leBytes 4 m.length)

def kernelBody (hdr : Hdr) : Except Stop (Bytes × Hdr) :=
  match files.kernel with
  | some m => do
    let kFmt := boot.kernel.fmt
    -- always use zopfli for zImage compression
    let target := if boot.kernel.zimage && kFmt = .gzip then .zopfli else kFmt
    let data ← component env skipComp kFmt target m
    let hdr := hdr.setSize .kernel data.length
    if boot.kernel.zimage then
      let body ← zimageBody boot skipComp data m (hdr.size .kernel)
      return (body, hdr.setSize .kernel (boot.hdr.size .kernel))
    else return (data, hdr)
  | none =>
    if boot.hdr.size .kernel ≠ 0 then do
      let body ← read boot.mem boot.kernel.kernel (boot.hdr.size .kernel)
      return (body, hdr.setSize .kernel (boot.hdr.size .kernel))
    else .ok ([], hdr)

def mtkHeader (p : Option ℕ) : Except Stop Bytes :=
  match p with
  | some p => read boot.mem p mtkHdrSize
  | none => .ok []

def zimagePart (off n : ℕ) : Except Stop Bytes :=
  if boot.kernel.zimage then read boot.mem off n else .ok []

def repackKernel (hdr : Hdr) : Except Stop Piece := do
  let mtk ← mtkHeader boot boot.kernel.mtkHdr
  let zHdr ← zimagePart boot boot.kernel.zHdr boot.kernel.zHdrSz
  let (body, hdr) ← kernelBody env boot files skipComp hdr
  let zTail ← zimagePart boot boot.kernel.zTail.1 boot.kernel.zTail.2
  let hdr := if boot.kernel.zimage then
      (hdr.addSize .kernel boot.kernel.zHdrSz).addSize .kernel zTail.length
    else hdr
  let bytes := mtk ++ (zHdr ++ (body ++ zTail))
  match files.kernelDtb with
  | some dtb => return { bytes := bytes ++ restore dtb, hdr := hdr.addSize .kernel dtb.length }
  | none => return { bytes := bytes, hdr := hdr }

/-- The vendor ramdisks from the offset on: the new table, their bytes and their end. -/
def repackEntries : List Entry → ℕ → Except Stop (List Entry × Bytes × ℕ)
  | [], off => .ok ([], [], off)
  | e :: es, off => do
    let name ← e.fileName
    let m := (files.vendorRamdisk.lookup name).getD []
    let fmt ← checkFmtLg boot.mem (ptrAdd boot.ramdisk.ramdisk e.ramdiskOffset) e.ramdiskSize
    let data ← component env skipComp fmt fmt m
    let size := data.length % 2 ^ 32
    let (es, rest, fin) ← repackEntries es ((off + size) % 2 ^ 32)
    return ({ e with ramdiskSize := size, ramdiskOffset := off } :: es, data ++ rest, fin)

def repackTable : Except Stop (List Entry × Bytes × ℕ) := do
  let entries ← vendorRamdiskTbl boot.mem boot.hdr (boot.block .vendorRamdiskTable)
  repackEntries env boot files skipComp entries 0

/-- A v4 boot image ramdisk has to be merged with vendor ramdisks, which use lz4 (legacy). -/
def ramdiskFmt (hdr : Hdr) : FileFormat :=
  if !skipComp && !hdr.kind.isVendor && hdr.headerVersion = 4 then .lz4Legacy else boot.ramdisk.fmt

def repackRamdisk (hdr : Hdr) : Except Stop Piece := do
  let mtk ← mtkHeader boot boot.ramdisk.mtkHdr
  if boot.hdr.size .vendorRamdiskTable ≠ 0 then
    let (_, data, fin) ← repackTable env boot files skipComp
    return { bytes := mtk ++ data, hdr := hdr.setSize .ramdisk fin }
  else match files.ramdisk with
    | some m =>
      let rFmt := ramdiskFmt boot skipComp hdr
      let data ← component env skipComp rFmt rFmt m
      return { bytes := mtk ++ data, hdr := hdr.setSize .ramdisk data.length }
    | none => return { bytes := mtk, hdr := hdr, aligned := false }

def restoreBlock (b : Block) (file : Option Bytes) (hdr : Hdr) : Piece :=
  match file with
  | some data => { bytes := restore data, hdr := hdr.setSize b data.length }
  | none => { bytes := [], hdr := hdr, aligned := false }

def repackExtra (hdr : Hdr) : Except Stop Piece :=
  match files.extra with
  | some m => do
    let data ← component env skipComp boot.eFmt boot.eFmt m
    return { bytes := data, hdr := hdr.setSize .extra data.length }
  | none => .ok { bytes := [], hdr := hdr, aligned := false }

def repackRecoveryDtbo (pos : ℕ) (hdr : Hdr) : Piece :=
  match files.recoveryDtbo with
  | some _ => restoreBlock .recoveryDtbo files.recoveryDtbo (hdr.set64 .recoveryDtboOffset pos)
  | none => { bytes := [], hdr := hdr, aligned := false }

def repackSignature (hdr : Hdr) : Except Stop Piece :=
  if boot.hdr.size .signature ≠ 0 then do
    let bytes ← read boot.mem (boot.block .signature) (boot.hdr.size .signature)
    return { bytes := bytes, hdr := hdr }
  else .ok { bytes := [], hdr := hdr, aligned := false }

def Entry.encode (e : Entry) : Bytes :=
  leBytes 4 e.ramdiskSize ++ (leBytes 4 e.ramdiskOffset ++ e.rest)

def repackVendorTable (hdr : Hdr) : Except Stop Piece := do
  if boot.hdr.size .vendorRamdiskTable ≠ 0 then
    let (entries, _, _) ← repackTable env boot files skipComp
    if entries ≠ [] then return { bytes := entries.flatMap Entry.encode, hdr := hdr }
    else return { bytes := [], hdr := hdr, aligned := false }
  else return { bytes := [], hdr := hdr, aligned := false }

/-- The piece of a block, with the file at `pos`. -/
def repackBlock (b : Block) (pos : ℕ) (hdr : Hdr) : Except Stop Piece :=
  match b with
  | .kernel => repackKernel env boot files skipComp hdr
  | .ramdisk => repackRamdisk env boot files skipComp hdr
  | .second => .ok (restoreBlock .second files.second hdr)
  | .extra => repackExtra env boot files skipComp hdr
  | .recoveryDtbo => .ok (repackRecoveryDtbo files pos hdr)
  | .dtb => .ok (restoreBlock .dtb files.dtb hdr)
  | .signature => repackSignature boot hdr
  | .vendorRamdiskTable => repackVendorTable env boot files skipComp hdr
  | .bootconfig => .ok (restoreBlock .bootconfig files.bootconfig hdr)

/-- The output, the new header, and where and what has been written for the blocks so far. -/
structure Out where
  fd : Bytes
  hdr : Hdr
  off : Block → ℕ
  wrote : Block → Bytes

/-- `file_align_with(page)` with the header at `header`. -/
def fileAlign (page header : ℕ) (fd : Bytes) : Bytes :=
  fd ++ zeros (alignPadding (fd.length - header) page)

def writeBlocks (header : ℕ) : List Block → Out → Except Stop Out
  | [], o => .ok o
  | b :: bs, o => do
    let p ← repackBlock env boot files skipComp b o.fd.length o.hdr
    -- as an int such a page is negative, and so is the padding, which is a huge one for write_zero
    if p.aligned = true ∧ 2 ^ 31 ≤ boot.hdr.pageSize then .error .hang
    else
      let fd := o.fd ++ p.bytes
      let fd := if p.aligned then fileAlign boot.hdr.pageSize header fd else fd
      writeBlocks header bs ⟨fd, p.hdr, Function.update o.off b o.fd.length,
        Function.update o.wrote b p.bytes⟩

def resetSizes (hdr : Hdr) : Hdr :=
  ((((hdr.setSize .kernel 0).setSize .ramdisk 0).setSize .second 0).setSize .dtb 0).setSize
    .bootconfig 0

/-- The non-standard header that is copied. -/
def headBytes : Except Stop Bytes :=
  if boot.flags.dhtb then read boot.mem 0 dhtbHdrSize
  else if boot.flags.blob then read boot.mem 0 blobHdrSize
  else if boot.flags.nookhd then read boot.mem 0 nookhdPreHeaderSz
  else if boot.flags.acclaim then read boot.mem 0 acclaimPreHeaderSz
  else .ok []

end Pieces

/-- What is written before the padding, and the offsets of the tail and of vbmeta. -/
structure Tail where
  fd : Bytes
  tail : ℕ
  vbmeta : ℕ

section Finish

variable (env : Env) (boot : BootImg)

def trailer : Bytes :=
  if boot.flags.seandroid then
    seandroidMagic ++ (if boot.flags.dhtb then [0xff, 0xff, 0xff, 0xff] else [])
  else if boot.flags.lgBump then lgBumpMagic
  else []

/-- The vbmeta blob, of the size that the footer gives. -/
def vbmetaBytes : Except Stop Bytes :=
  match boot.avbFooter, boot.vbmeta with
  | some footer, some vbmeta => do
    let size ← readBe 8 boot.mem (footer + 28)
    read boot.mem vbmeta size
  | _, _ => .error .segv

def writeTail (header : ℕ) (fd : Bytes) : Except Stop Tail := do
  let fd := fd ++ trailer boot
  let tail := fd.length
  let fd := fileAlign boot.hdr.pageSize header fd
  if boot.flags.avb then
    let fd := fileAlign 4096 header fd
    let vbmeta ← vbmetaBytes boot
    return ⟨fd ++ vbmeta, tail % 2 ^ 32, fd.length % 2 ^ 32⟩
  else return ⟨fd, tail % 2 ^ 32, 0⟩

/-- Pads the image to its original size if it is not for ChromeOS. -/
def padImage (fd : Bytes) : Bytes :=
  if boot.flags.chromeos then fd else fd ++ zeros (boot.file.length - fd.length)

/-- A write to the mapped output. -/
def poke (out : Bytes) (off : ℕ) (b : Bytes) : Except Stop Bytes :=
  if off + b.length ≤ (env.mapped out).length then .ok (overwrite out off b) else .error .segv

/-- The size of the content in an MTK header, and the size of the block with it. -/
def patchMtk (b : Block) (p : Option ℕ) (off : ℕ) (s : Bytes × Hdr) : Except Stop (Bytes × Hdr) :=
  match p with
  | some _ => do
    let out ← poke env s.1 (off + 4) (leBytes 4 (s.2.size b))
    return (out, s.2.addSize b mtkHdrSize)
  | none => .ok s

/-- A block and its size, as the checksum takes them. -/
def hashPart (out : Bytes) (off size : ℕ) : Except Stop Bytes := do
  let b ← read (env.mapped out) off size
  return b ++ leBytes 4 size

def checksum (out : Bytes) (hdr : Hdr) (off : Block → ℕ) : Except Stop Bytes := do
  let part (b : Block) := hashPart env out (off b % 2 ^ 32) (hdr.size b)
  let kernel ← part .kernel
  let ramdisk ← part .ramdisk
  let second ← part .second
  let extra ← if hdr.size .extra ≠ 0 then part .extra else .ok []
  let ver := hdr.headerVersion
  let recoveryDtbo ← if ver = 1 ∨ ver = 2 then
      hashPart env out (hdr.val .recoveryDtboOffset) (hdr.size .recoveryDtbo)
    else .ok []
  let dtb ← if ver = 2 then part .dtb else .ok []
  let digest := env.sha (!boot.flags.sha256)
    (kernel ++ (ramdisk ++ (second ++ (extra ++ (recoveryDtbo ++ dtb)))))
  return digest ++ zeros (32 - digest.length)

def setChecksum (out : Bytes) (hdr : Hdr) (off : Block → ℕ) : Except Stop Hdr :=
  if (hdr.kind.field .id).isSome then do
    let id ← checksum env boot out hdr off
    return hdr.set .id id
  else .ok hdr

def copyHeader (out : Bytes) (header space : ℕ) (hdr : Hdr) : Except Stop Bytes :=
  if boot.flags.amonet then
    -- a difference below zero is a huge one for std::min
    let n := if space < amonetMicroloaderSz then hdr.hdrSize
      else min (space - amonetMicroloaderSz) hdr.hdrSize
    poke env out (header + amonetMicroloaderSz) (hdr.raw.take n)
  else poke env out header hdr.raw

def newFooter (footer : Bytes) (imgSize vbmeta : ℕ) : Bytes :=
  overwrite (overwrite footer 12 (beBytes 8 imgSize)) 20 (beBytes 8 vbmeta)

def patchAvb (out : Bytes) (imgSize vbmeta : ℕ) : Except Stop Bytes :=
  if boot.flags.avb then do
    match boot.avbFooter with
    | none => .error .segv
    | some p =>
      if out.length < avbFooterSize then .error .segv
      else
        let footer ← read boot.mem p avbFooterSize
        let out ← poke env out (out.length - avbFooterSize) (newFooter footer imgSize vbmeta)
        if env.patchVbmetaFlag then poke env out (vbmeta + 120) (beBytes 4 3) else return out
  else .ok out

def patchHead (out : Bytes) (imgSize : ℕ) : Except Stop Bytes :=
  if boot.flags.dhtb then do
    let size := (imgSize + 16 + 4) % 2 ^ 32
    let out ← poke env out 48 (leBytes 4 size)
    let payload ← read (env.mapped out) dhtbHdrSize size
    poke env out 8 (env.sha false payload)
  else if boot.flags.blob then poke env out 96 (leBytes 4 imgSize)
  else .ok out

/-- Signs the image and writes the signature where the tail starts. -/
def signImage (out : Bytes) (header imgSize tail : ℕ) : Except Stop Bytes :=
  if boot.flags.avb1Signed then do
    let payload ← read (env.mapped out) header imgSize
    let sig := env.signPayload payload
    return out.take tail ++ (sig ++ out.drop (tail + sig.length))
  else .ok out

end Finish

/-- The output of `repack`, with what has been written for each block and where. -/
structure Repacked where
  image : Bytes
  hdr : Hdr
  header : ℕ
  out : Out
  tail : Tail

/-- `repack` of a parsed image with the files of the working directory, without `header`. -/
def repack (env : Env) (boot : BootImg) (files : Files) (skipComp : Bool) :
    Except Stop Repacked := do
  let hdr := resetSizes boot.hdr
  let head ← headBytes boot
  let header := head.length
  let space ← hdr.hdrSpace
  let rawHdr ← read boot.mem boot.payload.1 space
  let out ← writeBlocks env boot files skipComp header Block.all
    ⟨head ++ rawHdr, hdr, fun _ => 0, fun _ => []⟩
  let tail ← writeTail boot header out.fd
  let img := padImage boot tail.fd
  let imgSize := sub32 tail.tail header
  let s ← patchMtk env .kernel boot.kernel.mtkHdr (out.off .kernel % 2 ^ 32) (img, out.hdr)
  let (img, hdr) ← patchMtk env .ramdisk boot.ramdisk.mtkHdr (out.off .ramdisk % 2 ^ 32) s
  let hdr := hdr.set32 .headerSize hdr.hdrSize
  let hdr ← setChecksum env boot img hdr out.off
  let img ← copyHeader env boot img header space hdr
  let img ← patchAvb env boot img imgSize tail.vbmeta
  let img ← patchHead env boot img imgSize
  let img ← signImage env boot img header imgSize tail.tail
  return ⟨img, hdr, header, out, tail⟩

end Magisk.Boot
