import Magisk.Cpio.Patch

namespace Magisk

def sIFLNK : UInt32 := 0o120000
def sIFBLK : UInt32 := 0o060000
def sIFCHR : UInt32 := 0o020000

/-- What `lstat` says about a file. -/
inductive FileType where
  | regular
  | symlink
  | blockDevice
  | charDevice
  | other
  deriving DecidableEq, Repr

/-- A file outside of the archive, with the device number that a device node has. -/
structure InFile where
  type : FileType
  rdevmajor : UInt64
  rdevminor : UInt64
  /-- All that can be read of it, through a link if it is one. -/
  content : Except Fault Bytes

namespace Cpio

def existsEntry (self : Cpio) (path : Str) : Bool := self.entries.contains (normPath path)

def add (self : Cpio) (mode : UInt32) (path : Str) (file : Except Fault InFile) :
    Except Fault Cpio := do
  if path.getLast? = some '/' then throw (.error "path cannot end with / for add")
  let attr ← file
  let entry : CpioEntry ←
    -- links are read as the files they point to
    if attr.type = .regular ∨ attr.type = .symlink then
      pure ⟨mode ||| sIFREG, 0, 0, 0, 0, ← attr.content⟩
    else if attr.type = .blockDevice then
      pure ⟨mode ||| sIFBLK, 0, 0, attr.rdevmajor, attr.rdevminor, []⟩
    else if attr.type = .charDevice then
      pure ⟨mode ||| sIFCHR, 0, 0, attr.rdevmajor, attr.rdevminor, []⟩
    else throw (.error "unsupported file type")
  return ⟨self.entries.insert (normPath path) entry⟩

def mkdir (self : Cpio) (mode : UInt32) (dir : Str) : Cpio :=
  ⟨self.entries.insert (normPath dir) ⟨mode ||| sIFDIR, 0, 0, 0, 0, []⟩⟩

def ln (self : Cpio) (src dst : Str) : Cpio :=
  ⟨self.entries.insert (normPath dst) ⟨sIFLNK, 0, 0, 0, 0, asBytes (normPath src)⟩⟩

def mv (self : Cpio) (source dest : Str) : Except Fault Cpio :=
  match self.entries[normPath source]? with
  | some entry => .ok ⟨(self.entries.erase (normPath source)).insert (normPath dest) entry⟩
  | none => .error (.error ("No such entry " ++ String.ofList source))

/-- The commands that change the archive. -/
inductive Command where
  | restore
  | patch
  | backup (origin : Str) (skipCompress : Bool)
  | rm (path : Str) (recursive : Bool)
  | mv (source dest : Str)
  | mkdir (mode : UInt32) (dir : Str)
  | ln (src dst : Str)
  | add (mode : UInt32) (path file : Str)

/-- The codec, the variables of the environment and the files that the commands name. -/
structure Env where
  xz : Xz
  keepVerity : Bool
  keepForceEncrypt : Bool
  attr : Str → Except Fault InFile
  map : Str → Except Fault Bytes

/-- What one round of the loop of `cpio_commands` does. -/
def exec (env : Env) (cpio : Cpio) : Command → Except Fault Cpio
  | .restore => .ok (cpio.restore env.xz)
  | .patch => .ok (cpio.patch env.keepVerity env.keepForceEncrypt)
  | .backup origin skipCompress => do
    let data ← env.map origin
    backup env.xz cpio data skipCompress
  | .rm path recursive => .ok (cpio.rm path recursive)
  | .mv source dest => cpio.mv source dest
  | .mkdir mode dir => .ok (cpio.mkdir mode dir)
  | .ln src dst => .ok (cpio.ln src dst)
  | .add mode path file => cpio.add mode path (env.attr file)

/-- The loop ends with the first command that fails. -/
def execStep (env : Env) (cpio : Cpio) (cmd : Command) : Option Cpio := (exec env cpio cmd).toOption

theorem execStep_eq_some {env : Env} {c c' : Cpio} {cmd : Command}
    (h : execStep env c cmd = some c') : exec env c cmd = .ok c' := by
  unfold execStep at h
  cases he : exec env c cmd with
  | error e =>
    rw [he] at h
    cases h
  | ok d =>
    rw [he] at h
    rw [Option.some.inj h]

end Cpio
end Magisk
