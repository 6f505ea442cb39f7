import Magisk.Cpio.Archive

namespace Magisk

/-- The XZ encoder and decoder, both from a third-party crate. -/
structure Xz where
  compress : Bytes → Option Bytes
  decompress : Bytes → Option Bytes

def sIFMT : UInt32 := 0o170000
def sIFREG : UInt32 := 0o100000
def sIFDIR : UInt32 := 0o040000

namespace CpioEntry

def regular (self : CpioEntry) : Bool := self.mode &&& sIFMT == sIFREG

/-- The compressed entry, or `none` when the entry stays as it is. -/
def compress (xz : Xz) (self : CpioEntry) : Option CpioEntry :=
  if self.regular then (xz.compress self.data).map fun data => { self with data } else none

def decompress (xz : Xz) (self : CpioEntry) : Option CpioEntry :=
  if self.regular then (xz.decompress self.data).map fun data => { self with data } else none

end CpioEntry

namespace Cpio

def normPath (path : Str) : Str :=
  List.intercalate ['/'] ((path.splitOn '/').filter (· ≠ []))

def rm (self : Cpio) (path : Str) (recursive : Bool) : Cpio :=
  let path := normPath path
  let entries := self.entries.erase path
  if recursive then
    ⟨entries.filter fun k _ => !(path ++ ['/']).isPrefixOf k⟩
  else ⟨entries⟩

abbrev Entries := Std.ExtTreeMap Str CpioEntry compare

def backupDir : Str := ".backup/".toList
def xzSuffix : Str := ".xz".toList
def rmlistFile : Str := ".rmlist".toList
def magiskFile : Str := ".magisk".toList

/-- The name and the entry that a file below `.backup/` stands for. -/
def restored (xz : Xz) (name : Str) (entry : CpioEntry) : Str × CpioEntry :=
  match if xzSuffix.isSuffixOf name then entry.decompress xz else none with
  | some entry => ((name.drop 8).take (name.length - 3 - 8), entry)
  | none => (name.drop 8, entry)

/-- One entry taken out by `extract_if`, in ascending order of the names. -/
def restoreStep (xz : Xz) (st : Entries × Str) (ne : Str × CpioEntry) : Entries × Str :=
  let (backups, rmList) := st
  let (name, entry) := ne
  if name = backupDir ++ rmlistFile then
    match fromUtf8 entry.data with
    | some data => (backups, rmList ++ data)
    | none => (backups, rmList)
  else if name ≠ backupDir ++ magiskFile then
    let (newName, entry) := restored xz name entry
    (backups.insert newName entry, rmList)
  else (backups, rmList)

def restore (xz : Xz) (self : Cpio) : Cpio :=
  let isBackup (name : Str) : Bool := backupDir.isPrefixOf name
  let taken := (self.entries.filter fun name _ => isBackup name).toList
  let (backups, rmList) := taken.foldl (restoreStep xz) (∅, [])
  let self := rm ⟨self.entries.filter fun name _ => !isBackup name⟩ ".backup".toList false
  if rmList = [] ∧ backups.isEmpty then new
  else
    let names := (rmList.splitOn '\x00').filter (· ≠ [])
    let self := names.foldl (fun self name => rm self name false) self
    ⟨self.entries.insertMany backups.toList⟩

inductive Action where
  | backup (name : Str) (entry : CpioEntry)
  | record (name : Str)
  | noop

/-- The two iterators with the items taken from them and not yet used. -/
structure MergeState where
  lhs : Option (Str × CpioEntry)
  left : List (Str × CpioEntry)
  rhs : Option (Str × CpioEntry)
  right : List (Str × CpioEntry)

/-- `if cur.is_none() { cur = iter.next() }` -/
def advance {α : Type} : Option α → List α → Option α × List α
  | some x, iter => (some x, iter)
  | none, [] => (none, [])
  | none, x :: iter => (some x, iter)

/-- One round of the merge loop; `none` is the `break`. -/
def mergeStep (st : MergeState) : Option (Action × MergeState) :=
  let (lhs, left) := advance st.lhs st.left
  let (rhs, right) := advance st.rhs st.right
  match lhs, rhs with
  | some (ln, le), some (rn, re) =>
    match compare ln rn with
    | .lt => some (.backup ln le, ⟨none, left, some (rn, re), right⟩)
    | .gt => some (.record rn, ⟨some (ln, le), left, none, right⟩)
    | .eq =>
      if re.data ≠ le.data then some (.backup ln le, ⟨none, left, none, right⟩)
      else some (.noop, ⟨none, left, none, right⟩)
  | some (ln, le), none => some (.backup ln le, ⟨none, left, none, right⟩)
  | none, some (rn, _) => some (.record rn, ⟨none, left, none, right⟩)
  | none, none => none

def MergeState.count (st : MergeState) : ℕ :=
  st.lhs.toList.length + st.left.length + (st.rhs.toList.length + st.right.length)

theorem advance_toList {α : Type} (cur : Option α) (iter : List α) :
    (advance cur iter).1.toList ++ (advance cur iter).2 = cur.toList ++ iter := by
  cases cur <;> cases iter <;> rfl

variable {st st' : MergeState} {a : Action} {xz : Xz} {skipCompress : Bool} {acc : Entries × Str}

theorem mergeStep_count (h : mergeStep st = some (a, st')) : st'.count < st.count := by
  have hl := congrArg List.length (advance_toList st.lhs st.left)
  have hr := congrArg List.length (advance_toList st.rhs st.right)
  unfold mergeStep at h
  simp only [List.length_append] at hl hr
  unfold MergeState.count
  rw [← hl, ← hr]
  dsimp only at h
  split at h
  · split at h
    · cases h; simp [*]
    · cases h; simp [*]
    · split_ifs at h <;> cases h <;> simp [*] <;> omega
  · cases h; simp [*]
  · cases h; simp [*]
  · cases h

def packed (xz : Xz) (skipCompress : Bool) (entry : CpioEntry) : Option CpioEntry :=
  if !skipCompress then entry.compress xz else none

/-- Name and entry under which an item of the origin is stored. -/
def backupEntry (xz : Xz) (skipCompress : Bool) (ne : Str × CpioEntry) : Str × CpioEntry :=
  match packed xz skipCompress ne.2 with
  | some entry => (backupDir ++ (ne.1 ++ xzSuffix), entry)
  | none => (backupDir ++ ne.1, ne.2)

/-- The map of backups and the remove list after one action. -/
def applyAction (xz : Xz) (skipCompress : Bool) (st : Entries × Str) : Action → Entries × Str
  | .backup name entry =>
    let (backup, entry) := backupEntry xz skipCompress (name, entry)
    (st.1.insert backup entry, st.2)
  | .record name => (st.1, st.2 ++ (name ++ ['\x00']))
  | .noop => st

def mergeLoop (xz : Xz) (skipCompress : Bool) (st : MergeState) (acc : Entries × Str) :
    Entries × Str :=
  match h : mergeStep st with
  | none => acc
  | some (a, st') =>
    have := mergeStep_count h
    mergeLoop xz skipCompress st' (applyAction xz skipCompress acc a)
termination_by st.count

theorem mergeLoop_none (h : mergeStep st = none) : mergeLoop xz skipCompress st acc = acc := by
  rw [mergeLoop]
  split <;> simp_all

theorem mergeLoop_some (h : mergeStep st = some (a, st')) :
    mergeLoop xz skipCompress st acc =
      mergeLoop xz skipCompress st' (applyAction xz skipCompress acc a) := by
  rw [mergeLoop]
  split <;> simp_all

def backup (xz : Xz) (self : Cpio) (origin : Bytes) (skipCompress : Bool) : Except Fault Cpio := do
  let backups : Entries := (∅ : Entries).insert ".backup".toList ⟨sIFDIR, 0, 0, 0, 0, []⟩
  let o ← loadFromData origin
  let o := rm o ".backup".toList true
  let self := rm self ".backup".toList true
  let (backups, rmList) := mergeLoop xz skipCompress
    ⟨none, o.entries.toList, none, self.entries.toList⟩ (backups, [])
  let backups :=
    if rmList ≠ [] then
      backups.insert (backupDir ++ rmlistFile) ⟨sIFREG, 0, 0, 0, 0, asBytes rmList⟩
    else backups
  return ⟨self.entries.insertMany backups.toList⟩

end Cpio
end Magisk
