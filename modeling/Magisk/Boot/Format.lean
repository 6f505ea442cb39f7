import Magisk.Memory

namespace Magisk.Boot

/-- How the program ends before it is done. -/
inductive Stop where
  /-- a read or write outside a mapping -/
  | segv
  /-- a division by zero -/
  | fpe
  /-- `exit(RETURN_ERROR)` -/
  | exit
  /-- a loop without an end -/
  | hang
  /-- undefined behaviour, such as a buffer overflow -/
  | undefined
  deriving DecidableEq, Repr

def read (mem : Bytes) (off n : ℕ) : Except Stop Bytes :=
  if (view mem off n).length = n then .ok (view mem off n) else .error .segv

def read32 (mem : Bytes) (off : ℕ) : Except Stop ℕ := (read mem off 4).map leValue

def readBe (n : ℕ) (mem : Bytes) (off : ℕ) : Except Stop ℕ :=
  (read mem off n).map fun b => leValue b.reverse

/-- `v` in `n` bytes, the highest first. -/
def beBytes (n v : ℕ) : Bytes := (leBytes n v).reverse

/-- `BUFFER_MATCH`: a comparison that ends at the first difference. -/
def bufferMatch (mem : Bytes) (off : ℕ) (magic : Bytes) : Except Stop Bool :=
  if view mem off magic.length = magic then .ok true
  else if (view mem off magic.length).isPrefixOf magic then .error .segv
  else .ok false

inductive FileFormat where
  | unknown
  | chromeos
  | aosp
  | aospVendor
  | dhtb
  | blob
  | gzip
  | zopfli
  | xz
  | lzma
  | bzip2
  | lz4
  | lz4Legacy
  | lz4Lg
  | lzop
  | mtk
  | dtb
  | zimage
  deriving DecidableEq, Repr

def fmtCompressed : FileFormat → Bool
  | .gzip | .zopfli | .xz | .lzma | .bzip2 | .lz4 | .lz4Legacy | .lz4Lg => true
  | _ => false

def fmtCompressedAny (fmt : FileFormat) : Bool := fmtCompressed fmt || fmt = .lzop

def bootMagic : Bytes := lit "ANDROID!"
def vendorBootMagic : Bytes := lit "VNDRBOOT"
def mtkMagic : Bytes := [0x88, 0x16, 0x88, 0x58]
def dtbMagic : Bytes := [0xd0, 0x0d, 0xfe, 0xed]
def zimageMagic : Bytes := [0x18, 0x28, 0x6f, 0x01]

/-- The magics that `check_fmt` looks for before LZMA. -/
def magics : List (Bytes × FileFormat) :=
  [(lit "CHROMEOS", .chromeos), (bootMagic, .aosp), (vendorBootMagic, .aospVendor),
    ([0x1f, 0x8b], .gzip), ([0x1f, 0x9e], .gzip), (0x89 :: lit "LZO", .lzop),
    (0xfd :: lit "7zXZ", .xz)]

/-- The magics that `check_fmt` looks for after LZMA. -/
def moreMagics : List (Bytes × FileFormat) :=
  [(lit "BZh", .bzip2), ([0x03, 0x21, 0x4c, 0x18], .lz4), ([0x04, 0x22, 0x4d, 0x18], .lz4),
    ([0x02, 0x21, 0x4c, 0x18], .lz4Legacy), (mtkMagic, .mtk), (dtbMagic, .dtb),
    ([0x44, 0x48, 0x54, 0x42, 0x01, 0x00, 0x00, 0x00], .dhtb),
    (lit "-SIGNED-BY-SIGNBLOB-", .blob)]

/-- The format of the first magic that matches, `CHECKED_MATCH` by `CHECKED_MATCH`. -/
def checkedMatch (mem : Bytes) (off len : ℕ) :
    List (Bytes × FileFormat) → Except Stop (Option FileFormat)
  | [] => .ok none
  | (magic, fmt) :: rest =>
    if magic.length ≤ len then do
      if ← bufferMatch mem off magic then return some fmt
      else checkedMatch mem off len rest
    else checkedMatch mem off len rest

def guessLzma (mem : Bytes) (off len : ℕ) : Except Stop Bool :=
  if len ≤ 13 then .ok false
  else do
    if ← bufferMatch mem off [0x5d] then
      let dictSz ← read32 mem (off + 1)
      if dictSz = 0 ∨ dictSz &&& (dictSz - 1) ≠ 0 then return false
      else bufferMatch mem (off + 5) (List.replicate 8 0xff)
    else return false

def checkFmt (mem : Bytes) (off len : ℕ) : Except Stop FileFormat := do
  match ← checkedMatch mem off len magics with
  | some fmt => return fmt
  | none =>
    if ← guessLzma mem off len then return .lzma
    else match ← checkedMatch mem off len moreMagics with
      | some fmt => return fmt
      | none =>
        if 0x28 ≤ len then
          if ← bufferMatch mem (off + 0x24) zimageMagic then return .zimage else return .unknown
        else return .unknown

/-- The walk over the blocks of an LZ4 archive, with 32-bit offsets. More rounds than there are
offsets mean that one of them has come back. -/
def isLz4Lg (mem : Bytes) (buf sz : ℕ) : ℕ → ℕ → Except Stop Bool
  | 0, _ => .error .hang
  | fuel + 1, off =>
    if off + 4 ≤ sz then do
      let blockSz ← read32 mem (buf + off)
      let off := (off + 4 + blockSz) % 2 ^ 32
      if sz < off then return true else isLz4Lg mem buf sz fuel off
    else return false

def checkFmtLg (mem : Bytes) (buf sz : ℕ) : Except Stop FileFormat := do
  let fmt ← checkFmt mem buf sz
  if fmt = .lz4Legacy then
    if ← isLz4Lg mem buf sz (sz + 1) 4 then return .lz4Lg else return fmt
  else return fmt

/-- The loop of `find_dtb_offset` from `buf + curr` on. Each round goes on 40 bytes, the size of
`fdt_header`, behind the magic it has found. -/
def findDtb (mem : Bytes) (buf sz : ℕ) : ℕ → ℕ → Except Stop (Option ℕ)
  | 0, _ => .ok none
  | fuel + 1, curr =>
    if sz ≤ curr then return none
    else do
      let hay ← read mem (buf + curr) (sz - curr)
      match find hay dtbMagic with
      | none => return none
      | some i =>
        let curr := curr + i
        let totalsize ← readBe 4 mem (buf + (curr + 4))
        -- fdt_header.totalsize does not overflow the kernel image size and is no empty dtb
        if sz - curr < totalsize ∨ totalsize ≤ 0x48 then findDtb mem buf sz fuel (curr + 40)
        else
          let offDtStruct ← readBe 4 mem (buf + (curr + 8))
          if sz - curr < offDtStruct then findDtb mem buf sz fuel (curr + 40)
          else
            let tag ← readBe 4 mem (buf + (curr + offDtStruct))
            -- FDT_BEGIN_NODE
            if tag ≠ 1 then findDtb mem buf sz fuel (curr + 40) else return some curr

def findDtbOffset (mem : Bytes) (buf sz : ℕ) : Except Stop (Option ℕ) := findDtb mem buf sz sz 0

variable (m : Bytes) (off len : ℕ)

theorem read_view {n i k : ℕ} (h : i + k ≤ n) : read (view m off n) i k = read m (off + i) k := by
  rw [read, read, view_view m off h]

theorem read_eq_ok {m b : Bytes} {off n : ℕ} :
    read m off n = .ok b ↔ b.length = n ∧ At m off b := by
  unfold read
  constructor
  · intro h
    split_ifs at h with hl
    cases h
    refine ⟨hl, ?_⟩
    rw [← view_eq_iff, hl]
  · rintro ⟨rfl, ha⟩
    rw [ha.view_eq, if_pos rfl]

theorem eq_view_of_read {m b : Bytes} {off n : ℕ} (h : read m off n = .ok b) :
    b = view m off n := by
  obtain ⟨rfl, ha⟩ := read_eq_ok.mp h
  exact ha.view_eq.symm

theorem eq_view_of_read32 {m : Bytes} {off v : ℕ} (h : read32 m off = .ok v) :
    v = leValue (view m off 4) := by
  obtain ⟨b, hb, rfl⟩ := map_eq_ok.mp h
  rw [eq_view_of_read hb]

theorem eq_of_bufferMatch {m magic : Bytes} {off : ℕ} {b : Bool}
    (h : bufferMatch m off magic = .ok b) : b = decide (view m off magic.length = magic) := by
  unfold bufferMatch at h
  split_ifs at h with he
  · cases h
    exact (decide_eq_true he).symm
  · cases h
    exact (decide_eq_false he).symm

theorem read_of_le {m : Bytes} {off n : ℕ} (h : off + n ≤ m.length) :
    read m off n = .ok (view m off n) := by
  rw [read, if_pos]
  rw [view_length]
  omega

theorem readBe_eq_ok {m : Bytes} {n off v : ℕ} :
    readBe n m off = .ok v ↔ ∃ b, b.length = n ∧ At m off b ∧ leValue b.reverse = v := by
  unfold readBe
  constructor
  · intro h
    cases hr : read m off n with
    | error e =>
      rw [hr] at h
      cases h
    | ok b =>
      rw [hr] at h
      obtain ⟨hl, ha⟩ := read_eq_ok.mp hr
      exact ⟨b, hl, ha, Except.ok.inj h⟩
  · rintro ⟨b, hl, ha, rfl⟩
    rw [read_eq_ok.mpr ⟨hl, ha⟩]
    rfl

theorem bufferMatch_view {n i : ℕ} {magic : Bytes} (h : i + magic.length ≤ n) :
    bufferMatch (view m off n) i magic = bufferMatch m (off + i) magic := by
  rw [bufferMatch, bufferMatch, view_view m off h]

theorem bufferMatch_cons_ne {x y : UInt8} (h : x ≠ y) (mem magic : Bytes) :
    bufferMatch (x :: mem) 0 (y :: magic) = .ok false := by
  have hview : view (x :: mem) 0 (y :: magic).length = x :: mem.take magic.length := rfl
  have hne : x :: mem.take magic.length ≠ y :: magic := fun he => h (List.cons.inj he).1
  have hstarts : (x :: mem.take magic.length).isPrefixOf (y :: magic) = false := by
    rw [List.isPrefixOf_cons_cons, beq_false_of_ne h, Bool.false_and]
  rw [bufferMatch, hview, if_neg hne, hstarts]
  rfl

theorem checkedMatch_append {x : UInt8} {l : List (Bytes × FileFormat)}
    (h : ∀ p ∈ l, p.1.head?.any (· ≠ x)) (mem : Bytes) (len : ℕ)
    (rest : List (Bytes × FileFormat)) :
    checkedMatch (x :: mem) 0 len (l ++ rest) = checkedMatch (x :: mem) 0 len rest := by
  induction l with
  | nil => rfl
  | cons p l ih =>
    obtain ⟨magic, fmt⟩ := p
    have hne := h (magic, fmt) List.mem_cons_self
    have hrest := ih fun p hp => h p (List.mem_cons_of_mem _ hp)
    cases magic with
    | nil => cases hne
    | cons y magic =>
      have hxy : x ≠ y := (of_decide_eq_true hne).symm
      rw [List.cons_append, checkedMatch, bufferMatch_cons_ne hxy]
      split_ifs
      · exact hrest
      · exact hrest

end Magisk.Boot
