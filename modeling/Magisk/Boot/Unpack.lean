import Magisk.Boot.Parse

namespace Magisk.Boot

/-- The component files; `vendorRamdisk` is the content of the directory of that name. -/
structure Files where
  kernel : Option Bytes := none
  kernelDtb : Option Bytes := none
  ramdisk : Option Bytes := none
  vendorRamdisk : List (Bytes × Bytes) := []
  second : Option Bytes := none
  extra : Option Bytes := none
  recoveryDtbo : Option Bytes := none
  dtb : Option Bytes := none
  bootconfig : Option Bytes := none
  deriving DecidableEq, Repr

/-- `dump`, which writes no file for an empty part. -/
def dump (mem : Bytes) (off n : ℕ) : Except Stop (Option Bytes) :=
  if n = 0 then .ok none else (read mem off n).map some

def dumpPart (env : Env) (mem : Bytes) (skipDecomp : Bool) (fmt : FileFormat) (off n : ℕ) :
    Except Stop (Option Bytes) :=
  if !skipDecomp && fmtCompressed fmt then
    if n = 0 then .ok none else (read mem off n).map fun b => some (env.decompress fmt b)
  else dump mem off n

def ramdiskFile : Bytes := lit "ramdisk.cpio"

def Entry.name (e : Entry) : Bytes := view e.rest 4 32

/-- The name of a vendor ramdisk's file, in a large enough buffer. A name without a NUL is read
behind its end, and one with a slash is in no directory of this model. -/
def Entry.fileName (e : Entry) : Except Stop Bytes :=
  let name := e.name.takeWhile (· ≠ 0)
  if name.length = e.name.length ∨ 0x2f ∈ name then .error .undefined
  else if name = [] then .ok ramdiskFile
  else .ok (name ++ lit ".cpio")

/-- Writes a file of the directory, over the one of that name if there is one. -/
def putFile (dir : List (Bytes × Bytes)) (name data : Bytes) : List (Bytes × Bytes) :=
  dir.filter (·.1 ≠ name) ++ [(name, data)]

def dumpEntries (env : Env) (mem : Bytes) (skipDecomp : Bool) (ramdisk : ℕ) :
    List Entry → List (Bytes × Bytes) → Except Stop (List (Bytes × Bytes))
  | [], dir => .ok dir
  | e :: es, dir => do
    let name ← e.fileName
    let fmt ← checkFmtLg mem (ptrAdd ramdisk e.ramdiskOffset) e.ramdiskSize
    let data ← read mem (ptrAdd ramdisk e.ramdiskOffset) e.ramdiskSize
    let data := if !skipDecomp && fmtCompressed fmt then env.decompress fmt data else data
    dumpEntries env mem skipDecomp ramdisk es (putFile dir name data)

/-- The file of the ramdisk, or the directory of the vendor ramdisks. -/
def dumpRamdisk (env : Env) (boot : BootImg) (skipDecomp : Bool) :
    Except Stop (Option Bytes × List (Bytes × Bytes)) :=
  if boot.hdr.size .vendorRamdiskTable ≠ 0 then do
    let entries ← vendorRamdiskTbl boot.mem boot.hdr (boot.block .vendorRamdiskTable)
    let dir ← dumpEntries env boot.mem skipDecomp boot.ramdisk.ramdisk entries []
    return (none, dir)
  else do
    let ramdisk ← dumpPart env boot.mem skipDecomp boot.ramdisk.fmt boot.ramdisk.ramdisk
      (boot.hdr.size .ramdisk)
    return (ramdisk, [])

/-- `unpack` of a parsed image in an empty directory, without the `header` file. -/
def unpack (env : Env) (boot : BootImg) (skipDecomp : Bool) : Except Stop Files := do
  let mem := boot.mem
  let kernel ← dumpPart env mem skipDecomp boot.kernel.fmt boot.kernel.kernel (boot.hdr.size .kernel)
  let kernelDtb ← dump mem boot.kernel.dtb.1 boot.kernel.dtb.2
  let (ramdisk, vendorRamdisk) ← dumpRamdisk env boot skipDecomp
  let second ← dump mem (boot.block .second) (boot.hdr.size .second)
  let extra ← dumpPart env mem skipDecomp boot.eFmt (boot.block .extra) (boot.hdr.size .extra)
  let recoveryDtbo ← dump mem (boot.block .recoveryDtbo) (boot.hdr.size .recoveryDtbo)
  let dtb ← dump mem (boot.block .dtb) (boot.hdr.size .dtb)
  let bootconfig ← dump mem (boot.block .bootconfig) (boot.hdr.size .bootconfig)
  return { kernel := kernel, kernelDtb := kernelDtb, ramdisk := ramdisk,
           vendorRamdisk := vendorRamdisk, second := second, extra := extra,
           recoveryDtbo := recoveryDtbo, dtb := dtb, bootconfig := bootconfig }

end Magisk.Boot
