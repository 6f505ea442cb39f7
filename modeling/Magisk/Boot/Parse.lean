import Magisk.Boot.Header

namespace Magisk.Boot

/-- The calls into the system and into the other parts of the program. -/
structure Env where
  /-- `getpagesize()` -/
  pageSize : ℕ
  pageSize_pos : 0 < pageSize
  /-- where the image is mapped -/
  mapAddr : ℕ
  /-- the check of an AVB1 signature, of the payload and the tail -/
  verify : Bytes → Bytes → Bool
  signPayload : Bytes → Bytes
  /-- `get_sha(use_sha1)` on everything it is updated with -/
  sha : Bool → Bytes → Bytes
  sha_length : ∀ useSha1 b, (sha useSha1 b).length = if useSha1 then 20 else 32
  compress : FileFormat → Bytes → Bytes
  decompress : FileFormat → Bytes → Bytes
  /-- `check_env("PATCHVBMETAFLAG")` -/
  patchVbmetaFlag : Bool

/-- The mapping of a file, which ends with a whole page. -/
def Env.mapped (env : Env) (file : Bytes) : Bytes := padded env.pageSize file

/-- The mapping is in the lower half of the address space. -/
def Env.Maps (env : Env) (file : Bytes) : Prop :=
  env.mapAddr + (env.mapped file).length < 2 ^ 63

theorem length_le_mapped (env : Env) (file : Bytes) : file.length ≤ (env.mapped file).length := by
  rw [Env.mapped, padded_length env.pageSize_pos]
  exact le_alignTo env.pageSize_pos _

/-- The flags, without `MTK_KERNEL`, `ZIMAGE_KERNEL` and `MTK_RAMDISK`, which are set along with
other values. -/
structure Flags where
  chromeos : Bool := false
  dhtb : Bool := false
  seandroid : Bool := false
  lgBump : Bool := false
  sha256 : Bool := false
  blob : Bool := false
  nookhd : Bool := false
  acclaim : Bool := false
  amonet : Bool := false
  avb1Signed : Bool := false
  avb : Bool := false
  deriving DecidableEq, Repr

def sub32 (a b : ℕ) : ℕ := (a + 2 ^ 32 - b) % 2 ^ 32

/-- The constructor of a header class, which copies `sz` bytes to a buffer of the header's size. -/
def newHdr (kind : HdrKind) (mem : Bytes) (p sz : ℕ) : Except Stop Hdr :=
  if kind.hdrSize < sz then .error .undefined
  else do
    let b ← read mem p sz
    return ⟨kind, overwrite (zeros kind.hdrSize) 0 b, by rw [overwrite_length, zeros_length]⟩

def aospKind : ℕ → HdrKind
  | 1 => .v1
  | 2 => .v2
  | 3 => .v3
  | 4 => .v4
  | _ => .v0

def makeAospHdr (mem : Bytes) (ptr : ℕ) (size : Option ℕ) : Except Stop (Option Hdr) := do
  if ← bufferMatch mem ptr bootMagic then
    let version ← read32 mem (ptr + 40)
    let kind := aospKind version
    let hdr ← newHdr kind mem ptr (size.getD kind.hdrSize)
    return some hdr
  else return none

def amonetMicroloaderSz : ℕ := 1024
def nookhdPreHeaderSz : ℕ := 1048576
def acclaimPreHeaderSz : ℕ := 262144

def isAmonet (mem : Bytes) (addr : ℕ) : Except Stop Bool := do
  let loader ← read mem addr amonetMicroloaderSz
  if (find loader (lit "microloader")).isSome then
    bufferMatch mem (addr + amonetMicroloaderSz) bootMagic
  else return false

def nookhdMagics : List Bytes :=
  [lit "Red Loader", lit "Green Loader", lit "Green Recovery", lit "eMMC boot.img+secondloader",
    lit "eMMC recovery.img+secondloader"]

def matchAny (mem : Bytes) (off : ℕ) : List Bytes → Except Stop Bool
  | [] => .ok false
  | magic :: rest => do
    if ← bufferMatch mem off magic then return true else matchAny mem off rest

/-- The space before the header of some loaders. -/
def preHeader (mem : Bytes) (addr : ℕ) (flags : Flags) : Except Stop (ℕ × Flags) := do
  if ← matchAny mem (addr + 64) nookhdMagics then
    return (addr + nookhdPreHeaderSz, { flags with nookhd := true })
  else if ← bufferMatch mem (addr + 48) (lit "BauwksBoot") then
    return (addr + acclaimPreHeaderSz, { flags with acclaim := true })
  else return (addr, flags)

def parseHdr (mem : Bytes) (addr : ℕ) (type : FileFormat) (flags : Flags) :
    Except Stop (Option Hdr × ℕ × Flags) :=
  if type = .aospVendor then do
    let version ← read32 mem (addr + 8)
    let kind := if version = 4 then .vndV4 else .vndV3
    let hdr ← newHdr kind mem addr kind.hdrSize
    return (some hdr, addr, flags)
  else do
    let pageSize ← read32 mem (addr + 36)
    if 0x02000000 ≤ pageSize then
      let hdr ← newHdr .pxa mem addr HdrKind.pxa.hdrSize
      return (some hdr, addr, flags)
    else if ← isAmonet mem addr then
      let pageSize ← read32 mem (addr + amonetMicroloaderSz + 36)
      let hdr ← makeAospHdr mem (addr + amonetMicroloaderSz) (some (sub32 pageSize amonetMicroloaderSz))
      return (hdr, addr, { flags with amonet := true })
    else
      let (addr, flags) ← preHeader mem addr flags
      let hdr ← makeAospHdr mem addr none
      return (hdr, addr, flags)

/-- Some byte of the checksum that SHA-1 leaves zero is set. -/
def Hdr.idIsSha256 (hdr : Hdr) : Bool := ((hdr.get .id).drop 24).any (· ≠ 0)

/-- An `int`, given by its 32 bits, as a `size_t`. -/
def signExtend (a : ℕ) : ℕ := if a < 2 ^ 31 then a else a + (2 ^ 64 - 2 ^ 32)

/-- `align_to(v, a)` with `size_t v` and `int a`, in 64 bits. A negative `a` is a huge one. -/
def alignInt (v a : ℕ) : Except Stop ℕ :=
  if a = 0 then .error .fpe
  else .ok ((v + (signExtend a + (2 ^ 64 - 1))) % 2 ^ 64 / signExtend a * signExtend a)

/-- A pointer and a `size_t`, in 64 bits. Pointers are counted from the start of the mapping, and one
before it is a number near `2 ^ 64`. -/
def ptrAdd (p off : ℕ) : ℕ := (p + off) % 2 ^ 64

/-- Whether the pointer is behind the end of the mapping, as addresses. -/
def isBehind (mapAddr mapEnd p : ℕ) : Bool :=
  (mapAddr + mapEnd) % 2 ^ 64 < (mapAddr + p) % 2 ^ 64

def Hdr.hdrSpace (hdr : Hdr) : Except Stop ℕ :=
  if hdr.kind.isVendor then alignInt hdr.hdrSize hdr.pageSize else .ok hdr.pageSize

/-- `get_block` for one block after the other; `none` for a corrupted image. -/
def getBlocks (mapAddr : ℕ) (hdr : Hdr) (addr mapEnd : ℕ) :
    List Block → (Block → ℕ) × ℕ → Except Stop (Option ((Block → ℕ) × ℕ))
  | [], s => .ok (some s)
  | b :: bs, (block, off) => do
    let next ← alignInt (off + hdr.size b) hdr.pageSize
    if isBehind mapAddr mapEnd (ptrAdd addr next) then return none
    else getBlocks mapAddr hdr addr mapEnd bs (Function.update block b (ptrAdd addr off), next)

/-- What `parse_image` finds in the kernel block. -/
structure KernelInfo where
  kernel : ℕ
  size : ℕ
  fmt : FileFormat := .unknown
  /-- start and size of `kernel_dtb` -/
  dtb : ℕ × ℕ := (0, 0)
  /-- `k_hdr`, which goes with `MTK_KERNEL` -/
  mtkHdr : Option ℕ := none
  zHdr : ℕ := 0
  zHdrSz : ℕ := 0
  /-- start and size of `z_info.tail` -/
  zTail : ℕ × ℕ := (0, 0)
  /-- `ZIMAGE_KERNEL` -/
  zimage : Bool := false
  deriving DecidableEq, Repr

def mtkHdrSize : ℕ := 512

/-- The first position from `curr` on with a known format. -/
def findPiggy (mem : Bytes) (kernel size : ℕ) : ℕ → ℕ → Except Stop (Option ℕ)
  | 0, _ => .ok none
  | n + 1, curr => do
    let fmt ← checkFmtLg mem (kernel + curr) (size - curr)
    if fmt ≠ .unknown then return some curr else findPiggy mem kernel size n (curr + 1)

/-- The last of the offsets that is close to the end. -/
def piggyEnd (offsets : Bytes) (piggySize : ℕ) : ℕ → Option ℕ
  | 0 => none
  | i + 1 =>
    let off := leValue (view offsets (4 * i) 4)
    if sub32 piggySize 0xFF < off ∧ off < piggySize then some off
    else piggyEnd offsets piggySize i

def parseZimage (mem : Bytes) (k : KernelInfo) : Except Stop KernelInfo := do
  let k := { k with zHdr := k.kernel }
  -- skip 0x28, which includes the zImage header
  match ← findPiggy mem k.kernel k.size (k.size - 0x28) 0x28 with
  | none => return k
  | some hdrSz =>
    let k := { k with zHdrSz := hdrSz }
    let start ← read32 mem (k.kernel + 0x28)
    let fin ← read32 mem (k.kernel + 0x2c)
    let piggySize := sub32 fin start
    if k.kernel + piggySize < 64 then .error .segv
    else
      let offsets ← read mem (k.kernel + piggySize - 64) 64
      match piggyEnd offsets piggySize 16 with
      | none => return k
      | some fin =>
        let size := sub32 fin hdrSz
        let fmt ← checkFmtLg mem (k.kernel + hdrSz) size
        return { k with
          kernel := k.kernel + hdrSz
          size := size
          fmt := fmt
          zTail := (k.kernel + fin, sub32 k.size fin)
          zimage := true }

def splitDtb (mem : Bytes) (kernel size : ℕ) : Except Stop KernelInfo := do
  match ← findDtbOffset mem kernel size with
  | none => return { kernel := kernel, size := size }
  | some off =>
    -- the offset is an int
    if 0 < off ∧ off < 2 ^ 31 then
      return { kernel := kernel, size := off, dtb := (kernel + off, size - off) }
    else return { kernel := kernel, size := size }

def parseMtkKernel (mem : Bytes) (k : KernelInfo) : Except Stop KernelInfo := do
  let fmt ← checkFmtLg mem k.kernel k.size
  if fmt = .mtk then
    let kernel := k.kernel + mtkHdrSize
    let size := sub32 k.size mtkHdrSize
    let fmt ← checkFmtLg mem kernel size
    return { k with kernel := kernel, size := size, fmt := fmt, mtkHdr := some k.kernel }
  else return { k with fmt := fmt }

def parseKernel (mem : Bytes) (kernel size : ℕ) : Except Stop KernelInfo :=
  if size = 0 then .ok { kernel := kernel, size := 0 }
  else do
    let k ← splitDtb mem kernel size
    let k ← parseMtkKernel mem k
    if k.fmt = .zimage then parseZimage mem k else return k

def tableEntrySize : ℕ := 108

/-- `vendor_ramdisk_table_entry_v4`; `rest` is the type, the name and the board id. -/
structure Entry where
  ramdiskSize : ℕ
  ramdiskOffset : ℕ
  rest : Bytes
  deriving DecidableEq, Repr

def readEntry (mem : Bytes) (p : ℕ) : Except Stop Entry := do
  let b ← read mem p tableEntrySize
  return ⟨leValue (view b 0 4), leValue (view b 4 4), b.drop 8⟩

def readEntries (mem : Bytes) (p : ℕ) : ℕ → Except Stop (List Entry)
  | 0 => .ok []
  | n + 1 => do
    let e ← readEntry mem p
    let es ← readEntries mem (p + tableEntrySize) n
    return e :: es

def vendorRamdiskTbl (mem : Bytes) (hdr : Hdr) (table : ℕ) : Except Stop (List Entry) :=
  if hdr.size .vendorRamdiskTable = 0 then .ok []
  else if hdr.val .vendorRamdiskTableEntrySize ≠ tableEntrySize then .error .exit
  else readEntries mem table (hdr.val .vendorRamdiskTableEntryNum)

/-- The format of each of the vendor ramdisks, which is printed. -/
def checkEntries (mem : Bytes) (ramdisk : ℕ) : List Entry → Except Stop Unit
  | [] => .ok ()
  | e :: es => do
    let _ ← checkFmtLg mem (ptrAdd ramdisk e.ramdiskOffset) e.ramdiskSize
    checkEntries mem ramdisk es

/-- What `parse_image` finds in the ramdisk block. -/
structure RamdiskInfo where
  ramdisk : ℕ
  size : ℕ
  fmt : FileFormat := .unknown
  /-- `r_hdr`, which goes with `MTK_RAMDISK` -/
  mtkHdr : Option ℕ := none
  deriving DecidableEq, Repr

def parseRamdisk (mem : Bytes) (hdr : Hdr) (ramdisk table : ℕ) : Except Stop RamdiskInfo := do
  let size := hdr.size .ramdisk
  if size = 0 then return { ramdisk := ramdisk, size := 0 }
  else if hdr.size .vendorRamdiskTable ≠ 0 then
    let entries ← vendorRamdiskTbl mem hdr table
    checkEntries mem ramdisk entries
    return { ramdisk := ramdisk, size := size }
  else
    let fmt ← checkFmtLg mem ramdisk size
    if fmt = .mtk then
      let fmt ← checkFmtLg mem (ramdisk + mtkHdrSize) (sub32 size mtkHdrSize)
      return { ramdisk := ramdisk + mtkHdrSize, size := sub32 size mtkHdrSize, fmt := fmt,
               mtkHdr := some ramdisk }
    else return { ramdisk := ramdisk, size := size, fmt := fmt }

def avbFooterSize : ℕ := 64

def seandroidMagic : Bytes := lit "SEANDROIDENFORCE"
def lgBumpMagic : Bytes :=
  [0x41, 0xa9, 0xe4, 0x67, 0x74, 0x4d, 0x1d, 0x1b, 0xa4, 0x29, 0xf2, 0xec, 0xea, 0x65, 0x52, 0x79]

/-- What `parse_image` finds behind the payload. -/
structure TailInfo where
  flags : Flags
  avbFooter : Option ℕ := none
  vbmeta : Option ℕ := none
  deriving DecidableEq, Repr

/-- `tail.size()`, for a tail that may start before the mapping. -/
def tailSize (mem : Bytes) (tail : ℕ) : ℕ :=
  if tail ≤ mem.length then mem.length - tail else mem.length + 2 ^ 64 - tail

def tailFlags (env : Env) (mem : Bytes) (addr off : ℕ) (flags : Flags) : Except Stop Flags := do
  let tail := ptrAdd addr off
  let magics := 16 ≤ tailSize mem tail
  if ← (if magics then bufferMatch mem tail seandroidMagic else .ok false) then
    return { flags with seandroid := true }
  else if ← (if magics then bufferMatch mem tail lgBumpMagic else .ok false) then
    return { flags with lgBump := true }
  else if env.verify (view mem addr off) (mem.drop tail) then
    return { flags with avb1Signed := true }
  else return flags

def parseTail (env : Env) (mem : Bytes) (addr off : ℕ) (flags : Flags) : Except Stop TailInfo :=
  if tailSize mem (ptrAdd addr off) = 0 then .ok { flags := flags }
  else do
    let flags ← tailFlags env mem addr off flags
    if mem.length < avbFooterSize then .error .segv
    else
      let footer := mem.length - avbFooterSize
      if ← bufferMatch mem footer (lit "AVBf") then
        let vbmetaOffset ← readBe 8 mem (footer + 20)
        -- double check if the meta header exists
        let vbmeta := ptrAdd addr vbmetaOffset
        if ← bufferMatch mem vbmeta (lit "AVB0") then
          return ⟨{ flags with avb := true }, some footer, some vbmeta⟩
        else return { flags := flags, avbFooter := some footer }
      else return { flags := flags }

structure BootImg where
  /-- the image file -/
  file : Bytes
  /-- the mapped file -/
  mem : Bytes
  /-- the header, with the sizes of the kernel and the ramdisk themselves -/
  hdr : Hdr
  flags : Flags
  /-- `payload.data()` and `payload.size()` -/
  payload : ℕ × ℕ
  /-- the blocks as `get_block` finds them -/
  block : Block → ℕ
  kernel : KernelInfo
  ramdisk : RamdiskInfo
  eFmt : FileFormat
  avbFooter : Option ℕ
  vbmeta : Option ℕ

def parseExtra (mem : Bytes) (extra size : ℕ) : Except Stop FileFormat :=
  if size = 0 then .ok .unknown else checkFmtLg mem extra size

/-- The parts of an image whose blocks have been found. -/
def parseParts (env : Env) (file : Bytes) (addr : ℕ) (hdr : Hdr) (flags : Flags)
    (block : Block → ℕ) (off : ℕ) : Except Stop BootImg := do
  let mem := env.mapped file
  let k ← parseKernel mem (block .kernel) (hdr.size .kernel)
  let r ← parseRamdisk mem hdr (block .ramdisk) (block .vendorRamdiskTable)
  let eFmt ← parseExtra mem (block .extra) (hdr.size .extra)
  let t ← parseTail env mem addr off flags
  return { file := file, mem := mem, hdr := (hdr.setSize .kernel k.size).setSize .ramdisk r.size,
           flags := t.flags, payload := (addr, off), block := block, kernel := k, ramdisk := r,
           eFmt := eFmt, avbFooter := t.avbFooter, vbmeta := t.vbmeta }

/-- The flags stay set when the image is rejected. -/
def parseImage (env : Env) (file : Bytes) (flags : Flags) (addr : ℕ) (type : FileFormat) :
    Except Stop (Flags × Option BootImg) := do
  let mem := env.mapped file
  let (hdr, addr, flags) ← parseHdr mem addr type flags
  match hdr with
  | none => return (flags, none)
  | some hdr =>
    let flags := { flags with sha256 := flags.sha256 || hdr.idIsSha256 }
    let space ← hdr.hdrSpace
    match ← getBlocks env.mapAddr hdr addr mem.length Block.all (fun _ => 0, space) with
    | none => return (flags, none)
    | some (block, off) =>
      let img ← parseParts env file addr hdr flags block off
      return (flags, some img)

def dhtbHdrSize : ℕ := 512
def blobHdrSize : ℕ := 104

def loadFrom (env : Env) (file : Bytes) : ℕ → ℕ → Flags → Except Stop BootImg
  | 0, _, _ => .error .exit
  | fuel + 1, addr, flags =>
    if file.length ≤ addr then .error .exit
    else do
      match ← checkFmt (env.mapped file) addr file.length with
      | .chromeos => loadFrom env file fuel (addr + 65536) { flags with chromeos := true }
      | .dhtb =>
        loadFrom env file fuel (addr + dhtbHdrSize) { flags with dhtb := true, seandroid := true }
      | .blob => loadFrom env file fuel (addr + blobHdrSize) { flags with blob := true }
      | .aosp => do
        match ← parseImage env file flags addr .aosp with
        | (_, some img) => return img
        | (flags, none) => loadFrom env file fuel (addr + 1) flags
      | .aospVendor => do
        match ← parseImage env file flags addr .aospVendor with
        | (_, some img) => return img
        | (flags, none) => loadFrom env file fuel (addr + 1) flags
      | _ => loadFrom env file fuel (addr + 1) flags

/-- The constructor of `boot_img`. Each round goes on by one byte at least. -/
def load (env : Env) (file : Bytes) : Except Stop BootImg :=
  loadFrom env file (file.length + 1) 0 {}

end Magisk.Boot
