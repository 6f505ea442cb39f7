import Magisk.Bytes

namespace Magisk

structure CpioEntry where
  mode : UInt32
  uid : UInt32
  gid : UInt32
  rdevmajor : UInt64
  rdevminor : UInt64
  data : Bytes
  deriving DecidableEq

/-- The entries in ascending order of their names, as the `BTreeMap` keeps them. -/
@[ext] structure Cpio where
  entries : Std.ExtTreeMap Str CpioEntry compare

namespace Cpio

def new : Cpio := ⟨∅⟩

structure Header where
  magic : Bytes
  ino : Bytes
  mode : Bytes
  uid : Bytes
  gid : Bytes
  nlink : Bytes
  mtime : Bytes
  filesize : Bytes
  devmajor : Bytes
  devminor : Bytes
  rdevmajor : Bytes
  rdevminor : Bytes
  namesize : Bytes
  check : Bytes

def hdrSz : ℕ := 110

/-- Field `k` behind the magic of the packed struct. -/
def field (b : Bytes) (k : ℕ) : Bytes := (b.drop (6 + 8 * k)).take 8

def Header.fromBytes (b : Bytes) : Header where
  magic := b.take 6
  ino := field b 0
  mode := field b 1
  uid := field b 2
  gid := field b 3
  nlink := field b 4
  mtime := field b 5
  filesize := field b 6
  devmajor := field b 7
  devminor := field b 8
  rdevmajor := field b 9
  rdevminor := field b 10
  namesize := field b 11
  check := field b 12

/-- Eight hexadecimal digits. A byte that is no digit is an error, be it because
the field is not UTF-8 or because the character has no value. -/
def x8u (x : Bytes) : Except Fault ℕ :=
  match hexValue x with
  | some n => .ok n
  | none => .error (.error "bad cpio header")

def align4 (x : ℕ) : ℕ := (x + 3) / 4 * 4

/-- `Utf8CStr::from_bytes`: exactly one NUL, at the end, and UTF-8 before it. -/
def cstrFromBytes (b : Bytes) : Except Fault Str :=
  if b.getLast? = some 0 ∧ 0 ∉ b.dropLast then
    match fromUtf8 b.dropLast with
    | some s => .ok s
    | none => .error (.error "invalid utf-8")
  else .error (.error "invalid nul terminator")

/-- The header at `pos`, the name behind it and the position after the name's padding. -/
def readName (data : Bytes) (pos : ℕ) : Except Fault (Header × Str × ℕ) := do
  let hdr := Header.fromBytes (← orPanic (slice data pos (pos + hdrSz)))
  if hdr.magic = lit "070701" then
    let nameSz ← x8u hdr.namesize
    let name ← cstrFromBytes (← orPanic (slice data (pos + hdrSz) (pos + hdrSz + nameSz)))
    return (hdr, name, align4 (pos + hdrSz + nameSz))
  else throw (.error "invalid cpio magic")

/-- The entry whose data starts at `pos` and the position after the data's padding. -/
def readEntry (hdr : Header) (data : Bytes) (pos : ℕ) : Except Fault (CpioEntry × ℕ) := do
  let fileSz ← x8u hdr.filesize
  let entry : CpioEntry :=
    { mode := .ofNat (← x8u hdr.mode)
      uid := .ofNat (← x8u hdr.uid)
      gid := .ofNat (← x8u hdr.gid)
      rdevmajor := .ofNat (← x8u hdr.rdevmajor)
      rdevminor := .ofNat (← x8u hdr.rdevminor)
      data := ← orPanic (slice data pos (pos + fileSz)) }
  return (entry, align4 (pos + fileSz))

/-- What one round of the loading loop does. -/
inductive Step where
  | next (pos : ℕ) (cpio : Cpio)
  | stop (cpio : Cpio)

def loadStep (data : Bytes) (pos : ℕ) (cpio : Cpio) : Except Fault Step := do
  let (hdr, name, pos) ← readName data pos
  if name = ".".toList ∨ name = "..".toList then
    return .next pos cpio
  else if name = "TRAILER!!!".toList then
    -- another archive may follow the trailer
    match find (← orPanic (slice data pos data.length)) (lit "070701") with
    | some x => return .next (pos + x) cpio
    | none => return .stop cpio
  else
    let (entry, pos) ← readEntry hdr data pos
    return .next pos ⟨cpio.entries.insert name entry⟩

theorem le_align4 (x : ℕ) : x ≤ align4 x := by unfold align4; omega

theorem dvd_align4 (x : ℕ) : 4 ∣ align4 x := Nat.dvd_mul_left ..

variable {data : Bytes} {pos p : ℕ} {cpio c : Cpio}

theorem readName_advances {hdr : Header} {name : Str}
    (h : readName data pos = .ok (hdr, name, p)) : pos + hdrSz ≤ p := by
  obtain ⟨b, -, h⟩ := bind_eq_ok.mp h
  dsimp only at h
  split_ifs at h
  · obtain ⟨nameSz, -, h⟩ := bind_eq_ok.mp h
    obtain ⟨raw, -, h⟩ := bind_eq_ok.mp h
    obtain ⟨s, -, h⟩ := bind_eq_ok.mp h
    cases h
    exact le_trans (by omega) (le_align4 _)

theorem readEntry_advances {hdr : Header} {entry : CpioEntry}
    (h : readEntry hdr data pos = .ok (entry, p)) : pos ≤ p := by
  obtain ⟨fileSz, -, h⟩ := bind_eq_ok.mp h
  iterate 6 obtain ⟨_, -, h⟩ := bind_eq_ok.mp h
  cases h
  exact le_trans (by omega) (le_align4 _)

theorem loadStep_advances (h : loadStep data pos cpio = .ok (.next p c)) : pos + hdrSz ≤ p := by
  obtain ⟨⟨hdr, name, q⟩, hn, h⟩ := bind_eq_ok.mp h
  have hq := readName_advances hn
  dsimp only at h
  split_ifs at h
  · cases h
    exact hq
  · obtain ⟨rest, -, h⟩ := bind_eq_ok.mp h
    split at h <;> cases h
    omega
  · obtain ⟨⟨entry, r⟩, he, h⟩ := bind_eq_ok.mp h
    cases h
    exact hq.trans (readEntry_advances he)

def loadLoop (data : Bytes) (pos : ℕ) (cpio : Cpio) : Except Fault Cpio :=
  if pos < data.length then
    match h : loadStep data pos cpio with
    | .error e => .error e
    | .ok (.stop c) => .ok c
    | .ok (.next p c) =>
      have : pos < p := Nat.lt_of_lt_of_le (by unfold hdrSz; omega) (loadStep_advances h)
      loadLoop data p c
  else .ok cpio
termination_by data.length - pos

def loadFromData (data : Bytes) : Except Fault Cpio := loadLoop data 0 new

theorem loadLoop_next (hp : pos < data.length) (h : loadStep data pos cpio = .ok (.next p c)) :
    loadLoop data pos cpio = loadLoop data p c := by
  rw [loadLoop, if_pos hp]
  split <;> simp_all

theorem loadLoop_stop (hp : pos < data.length)
    (h : loadStep data pos cpio = .ok (.stop c)) : loadLoop data pos cpio = .ok c := by
  rw [loadLoop, if_pos hp]
  split <;> simp_all

theorem loadLoop_error {e : Fault} (hp : pos < data.length)
    (h : loadStep data pos cpio = .error e) : loadLoop data pos cpio = .error e := by
  rw [loadLoop, if_pos hp]
  split <;> simp_all

/-- The formatted header line; the values stand in the order of the struct. -/
def headerText (values : List ℕ) : Bytes := lit "070701" ++ values.flatMap fmt08x

/-- The output file with the dumper's own position and inode counters. -/
structure DumpState where
  file : Bytes
  pos : ℕ
  inode : ℕ

/-- `pos += file.write(buf)`, where a write takes the whole buffer. -/
def DumpState.write (st : DumpState) (buf : Bytes) : DumpState :=
  { st with file := st.file ++ buf, pos := st.pos + buf.length }

/-- `file.write_zeros(align_4(pos) - pos)` and `pos = align_4(pos)`. -/
def DumpState.pad (st : DumpState) : DumpState :=
  { st with file := st.file ++ List.replicate (align4 st.pos - st.pos) 0, pos := align4 st.pos }

def dumpEntry (st : DumpState) (ne : Str × CpioEntry) : DumpState :=
  let (name, entry) := ne
  let st := st.write (headerText [st.inode, entry.mode.toNat, entry.uid.toNat, entry.gid.toNat,
    1, 0, entry.data.length, 0, 0, entry.rdevmajor.toNat, entry.rdevminor.toNat,
    (asBytes name).length + 1, 0])
  let st := ((st.write (asBytes name)).write [0]).pad
  let st := (st.write entry.data).pad
  { st with inode := st.inode + 1 }

def dumpTrailer (st : DumpState) : DumpState :=
  let st := st.write (headerText [st.inode, 0o755, 0, 0, 1, 0, 0, 0, 0, 0, 0, 11, 0])
  (st.write (lit "TRAILER!!!" ++ [0])).pad

def dump (self : Cpio) : Bytes :=
  (dumpTrailer (self.entries.toList.foldl dumpEntry ⟨[], 0, 300000⟩)).file

end Cpio
end Magisk
