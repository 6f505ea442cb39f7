import Magisk.Compress.Chunker

namespace Magisk.Lz4

/-- The calls into the LZ4 library: `compress_bound`, `compress_to_buffer` at the highest
level and `decompress_to_buffer` with a buffer of one block. -/
structure Codec where
  compressBound : ℕ → Option ℕ
  compress : Bytes → Option Bytes
  decompress : Bytes → Option Bytes

inductive IoError where
  | unexpectedEof
  | codec
  deriving DecidableEq, Repr

/-- What a reader hands over for one `read` call, of `n` bytes asked for and `avail` left. -/
structure Source where
  give : ℕ → ℕ → ℕ
  give_le : ∀ n avail, give n avail ≤ min n avail
  give_pos : ∀ n avail, 0 < n → 0 < avail → 0 < give n avail

def blockSize : ℕ := 0x800000
def magic : ℕ := 0x184c2102

/-- `compress_bound(LZ4_BLOCK_SIZE).unwrap_or(LZ4_BLOCK_SIZE)` -/
def Codec.bufSize (z : Codec) : ℕ := (z.compressBound blockSize).getD blockSize

def orIo {α : Type} : Option α → Except IoError α
  | some a => .ok a
  | none => .error .codec

structure Encoder where
  write : Bytes
  chunker : Chunker
  total : UInt32
  isLg : Bool

namespace Encoder

def new (isLg : Bool) : Encoder := ⟨[], Chunker.new blockSize (by decide), 0, isLg⟩

def encodeBlock (z : Codec) (write chunk : Bytes) : Except IoError Bytes := do
  let compressed ← orIo (z.compress chunk)
  return write ++ (leBytes 4 compressed.length ++ compressed)

def writeLoop (z : Codec) (self : Encoder) (buf : Bytes) : Except IoError Encoder :=
  if h : buf = [] then .ok self
  else
    have := self.chunker.addData_buf_lt h
    match (self.chunker.addData buf).chunk with
    | some chunk => do
      let write ← encodeBlock z self.write chunk
      writeLoop z { self with write, chunker := (self.chunker.addData buf).self }
        (self.chunker.addData buf).buf
    | none =>
      writeLoop z { self with chunker := (self.chunker.addData buf).self }
        (self.chunker.addData buf).buf
termination_by buf.length

def writeAll (z : Codec) (self : Encoder) (buf : Bytes) : Except IoError Encoder :=
  let self := if self.total = 0 then { self with write := self.write ++ leBytes 4 magic } else self
  writeLoop z { self with total := self.total + UInt32.ofNat buf.length } buf

def finish (z : Codec) (self : Encoder) : Except IoError Bytes := do
  let chunk := self.chunker.getAvailable
  let write ← if chunk ≠ [] then encodeBlock z self.write chunk else pure self.write
  return if self.isLg then write ++ leBytes 4 self.total.toNat else write

end Encoder

/-- The archive of a sequence of `write_all` calls. -/
def encode (z : Codec) (isLg : Bool) (writes : List Bytes) : Except IoError Bytes := do
  let enc ← writes.foldlM (Encoder.writeAll z) (Encoder.new isLg)
  enc.finish z

/-- `out` is `out_buf[out_pos..out_len]`. -/
structure Decoder where
  read : Bytes
  out : Bytes

namespace Decoder

def new (read : Bytes) : Decoder := ⟨read, []⟩

/-- `read_exact`: the next `n` bytes and what is left. -/
def readExact (read : Bytes) (n : ℕ) : Except IoError (Bytes × Bytes) :=
  if n ≤ read.length then .ok (read.take n, read.drop n) else .error .unexpectedEof

def readPod (read : Bytes) : Except IoError (ℕ × Bytes) := do
  let (b, read) ← readExact read 4
  return (leValue b, read)

/-- The next block; `none` is an early `Ok(0)`. -/
def nextBlock (z : Codec) (src : Source) (read : Bytes) :
    Except IoError (Option Bytes × Bytes) := do
  match readPod read with
  | .error .unexpectedEof => return (none, [])
  | .error e => throw e
  | .ok (size, read) =>
    let (size, read) ← if size = magic then readPod read else pure (size, read)
    -- this may be the LG format trailer
    if size > z.bufSize then return (none, read)
    let len := src.give size read.length
    if len = 0 then return (none, read)
    let (remain, read') ← readExact (read.drop len) (size - len)
    let out ← orIo (z.decompress (read.take len ++ remain))
    return (some out, read')

def readInto (z : Codec) (src : Source) (self : Decoder) (n : ℕ) :
    Except IoError (Bytes × Decoder) := do
  if self.out = [] then
    match ← nextBlock z src self.read with
    | (none, read) => return ([], { self with read })
    | (some out, read) => return (out.take n, ⟨read, out.drop n⟩)
  else return (self.out.take n, { self with out := self.out.drop n })

/-- Reads with buffers of the given sizes up to the first end of file, with all bytes read
and whether the end was reached. -/
def reads (z : Codec) (src : Source) (self : Decoder) : List ℕ → Except IoError (Bytes × Bool)
  | [] => .ok ([], false)
  | n :: sizes => do
    let (b, self) ← readInto z src self n
    if b = [] then return ([], true)
    let (bs, eof) ← reads z src self sizes
    return (b ++ bs, eof)

end Decoder
end Magisk.Lz4
