import Magisk.Compress.Chunker
import Magisk.Memory

namespace Magisk

open List Option

variable {m src : Bytes} {a : ℕ}

theorem slice_tail (h : a ≤ m.length) : slice m a m.length = some (m.drop a) := by
  rw [slice_of_le h le_rfl, take_of_length_le (by rw [length_drop])]

theorem slice_front {b : ℕ} (h : b ≤ m.length) : slice m 0 b = some (m.take b) := by
  rw [slice_of_le (Nat.zero_le b) h, drop_zero, Nat.sub_zero]

/-- `m[a..b].copy_from_slice(src)`, `none` for a panic. -/
def copyInto (m : Bytes) (a b : ℕ) (src : Bytes) : Option Bytes :=
  if a ≤ b ∧ b ≤ m.length ∧ src.length = b - a then some (overwrite m a src) else none

theorem copyInto_of_le (h : a + src.length ≤ m.length) :
    copyInto m a (a + src.length) src = some (overwrite m a src) :=
  if_pos ⟨by omega, h, by omega⟩

theorem take_overwrite (h : a + src.length ≤ m.length) :
    (overwrite m a src).take (a + src.length) = m.take a ++ src := by
  have ha : (m.take a).length = a := length_take_of_le (by omega)
  rw [overwrite, take_take, Nat.min_eq_left h, ← append_assoc]
  exact take_left' (by rw [length_append, ha])

structure RawChunker where
  /-- The whole buffer, of which the bytes in front of `pos` are in use. -/
  chunk : Bytes
  chunkSize : ℕ
  pos : ℕ
deriving DecidableEq, Repr

namespace RawChunker

/-- The buffer is not initialized: any bytes can be in it. -/
def new (chunkSize : ℕ) (uninit : Bytes) : RawChunker := ⟨uninit, chunkSize, 0⟩

def addData (self : RawChunker) (buf : Bytes) : Option (RawChunker × Bytes × Option Bytes) :=
  if 0 < self.pos then do
    -- try to fill the chunk
    let len := min (self.chunkSize - self.pos) buf.length
    let chunk ← copyInto self.chunk self.pos (self.pos + len) (← slice buf 0 len)
    let pos := self.pos + len
    -- if the chunk is filled, consume it
    if pos = self.chunkSize then
      let full ← slice chunk 0 self.chunkSize
      return (⟨chunk, self.chunkSize, 0⟩, ← slice buf len buf.length, some full)
    else
      return (⟨chunk, self.chunkSize, pos⟩, ← slice buf len buf.length, none)
  else if self.chunkSize ≤ buf.length then do
    -- directly consume a chunk from buf
    let full ← slice buf 0 self.chunkSize
    return (self, ← slice buf self.chunkSize buf.length, some full)
  else do
    let chunk ← copyInto self.chunk self.pos (self.pos + buf.length) buf
    return (⟨chunk, self.chunkSize, self.pos + buf.length⟩, [], none)

def getAvailable (self : RawChunker) : Option (RawChunker × Bytes) := do
  let chunk ← slice self.chunk 0 self.pos
  return ({ self with pos := 0 }, chunk)

/-- `while !buf.is_empty()`, with the chunks that come out; `none` for a panic or if the loop has
not ended after `fuel` turns. -/
def feedLoop : ℕ → RawChunker → Bytes → Option (RawChunker × List Bytes)
  | 0, self, buf => if buf.isEmpty then some (self, []) else none
  | fuel + 1, self, buf =>
    if buf.isEmpty then some (self, [])
    else do
      let (self, buf, chunk) ← self.addData buf
      let (self, chunks) ← feedLoop fuel self buf
      return (self, chunk.toList ++ chunks)

def feed (self : RawChunker) : List Bytes → Option (RawChunker × List Bytes)
  | [] => some (self, [])
  | buf :: rest => do
    let (self, chunks) ← feedLoop buf.length self buf
    let (self, later) ← self.feed rest
    return (self, chunks ++ later)

structure Holds (r : RawChunker) (c : Chunker) : Prop where
  size : r.chunkSize = c.chunkSize
  room : c.chunkSize ≤ r.chunk.length
  pos : r.pos = c.chunk.length
  filled : r.chunk.take r.pos = c.chunk

theorem holds_new {chunkSize : ℕ} (h : 0 < chunkSize) {uninit : Bytes}
    (hu : uninit.length = chunkSize) : (new chunkSize uninit).Holds (.new chunkSize h) :=
  ⟨rfl, hu.ge, rfl, rfl⟩

section Step

variable {r : RawChunker} {c : Chunker}

theorem Holds.getAvailable (h : r.Holds c) :
    r.getAvailable = some ({ r with pos := 0 }, c.getAvailable) := by
  have hpos : r.pos ≤ r.chunk.length := by
    have := c.pos_lt
    have := h.room
    have := h.pos
    omega
  unfold RawChunker.getAvailable
  rw [slice_front hpos, h.filled]
  rfl

theorem Holds.copy (h : r.Holds c) {b : Bytes} (hle : c.chunk.length + b.length ≤ c.chunkSize) :
    ∃ chunk, copyInto r.chunk c.chunk.length (c.chunk.length + b.length) b = some chunk ∧
      c.chunkSize ≤ chunk.length ∧ chunk.take (c.chunk.length + b.length) = c.chunk ++ b := by
  have hroom : c.chunk.length + b.length ≤ r.chunk.length := hle.trans h.room
  have hfilled := h.filled
  rw [h.pos] at hfilled
  refine ⟨_, copyInto_of_le hroom, ?_, ?_⟩
  · rw [overwrite_length]
    exact h.room
  · rw [take_overwrite hroom, hfilled]

theorem Holds.addData (h : r.Holds c) (buf : Bytes) :
    ∃ r', r.addData buf = some (r', (c.addData buf).buf, (c.addData buf).chunk) ∧
      r'.Holds (c.addData buf).self := by
  have hlt := c.pos_lt
  unfold RawChunker.addData Chunker.addData
  rw [h.size, h.pos]
  by_cases hpos : 0 < c.chunk.length
  · have hlen : (buf.take (min (c.chunkSize - c.chunk.length) buf.length)).length =
        min (c.chunkSize - c.chunk.length) buf.length := length_take_of_le (by omega)
    obtain ⟨chunk, hcopy, hroom, hfilled⟩ :=
      h.copy (b := buf.take (min (c.chunkSize - c.chunk.length) buf.length)) (by omega)
    rw [hlen] at hcopy hfilled
    simp only [if_pos hpos, slice_front (Nat.min_le_right _ _), slice_tail (Nat.min_le_right _ _),
      hcopy, bind_eq_bind, bind_some, length_append, hlen]
    by_cases hfull : c.chunk.length + min (c.chunkSize - c.chunk.length) buf.length = c.chunkSize
    · rw [hfull] at hfilled
      simp only [if_pos hfull, dif_pos hfull, slice_front hroom, hfilled]
      exact ⟨_, rfl, rfl, hroom, rfl, rfl⟩
    · simp only [if_neg hfull, dif_neg hfull]
      refine ⟨_, rfl, rfl, hroom, ?_, hfilled⟩
      rw [length_append, hlen]
  · have hnil : c.chunk = [] := eq_nil_of_length_eq_zero (by omega)
    by_cases hbuf : c.chunkSize ≤ buf.length
    · simp only [if_neg hpos, if_pos hbuf, dif_pos hbuf, slice_front hbuf, slice_tail hbuf]
      exact ⟨r, rfl, h⟩
    · have hle : c.chunk.length + buf.length ≤ c.chunkSize := by omega
      obtain ⟨chunk, hcopy, hroom, hfilled⟩ := h.copy hle
      simp only [if_neg hpos, if_neg hbuf, dif_neg hbuf, hcopy]
      refine ⟨_, rfl, rfl, hroom, ?_, ?_⟩
      · simp [hnil]
      · rw [hfilled, hnil]
        rfl

end Step

/-- The chunker after some data, with the chunks that came out of it. -/
structure Fed (c c' : Chunker) (chunks : List Bytes) (data : Bytes) : Prop where
  size : c'.chunkSize = c.chunkSize
  whole : ∀ chunk ∈ chunks, chunk.length = c.chunkSize
  content : chunks.flatten ++ c'.chunk = c.chunk ++ data

theorem Fed.refl (c : Chunker) : Fed c c [] [] := ⟨rfl, by simp, by simp⟩

theorem Fed.trans {a b c : Chunker} {l m : List Bytes} {x y : Bytes} (h : Fed a b l x)
    (h' : Fed b c m y) : Fed a c (l ++ m) (x ++ y) where
  size := h'.size.trans h.size
  whole chunk hc := by
    rcases mem_append.mp hc with hc | hc
    · exact h.whole chunk hc
    · exact (h'.whole chunk hc).trans h.size
  content := by
    rw [flatten_append, append_assoc, h'.content, ← append_assoc, h.content,
      append_assoc]

variable {c : Chunker} {buf : Bytes} {r : RawChunker}

theorem Fed.addData {c c' : Chunker} {chunks : List Bytes}
    (h : Fed (c.addData buf).self c' chunks (c.addData buf).buf) :
    Fed c c' ((c.addData buf).chunk.toList ++ chunks) buf := by
  obtain ⟨hsplit, hsize, hwhole⟩ := c.addData_spec buf
  refine ⟨h.size.trans hsize, fun chunk hc => ?_, ?_⟩
  · rcases mem_append.mp hc with hc | hc
    · exact hwhole chunk (mem_toList.mp hc)
    · exact (h.whole chunk hc).trans hsize
  · have hflat : (c.addData buf).chunk.toList.flatten = (c.addData buf).chunk.getD [] := by
      cases (c.addData buf).chunk <;> simp
    rw [flatten_append, append_assoc, h.content, hflat, ← hsplit, append_assoc]

theorem feedLoop_spec {fuel : ℕ} (h : r.Holds c)
    (hf : buf.length ≤ fuel) : ∃ r' c' chunks, feedLoop fuel r buf = some (r', chunks) ∧
      r'.Holds c' ∧ Fed c c' chunks buf := by
  induction fuel generalizing r c buf with
  | zero =>
    obtain rfl : buf = [] := eq_nil_of_length_eq_zero (by omega)
    exact ⟨r, c, [], rfl, h, .refl c⟩
  | succ fuel ih =>
    by_cases hbuf : buf = []
    · subst hbuf
      exact ⟨r, c, [], rfl, h, .refl c⟩
    · have hlt := c.addData_buf_lt hbuf
      obtain ⟨r₁, hadd, hr₁⟩ := h.addData buf
      have hle : (c.addData buf).buf.length ≤ fuel := by omega
      obtain ⟨r₂, c₂, chunks, hloop, hr₂, hfed⟩ := ih hr₁ hle
      refine ⟨r₂, c₂, (c.addData buf).chunk.toList ++ chunks, ?_, hr₂, hfed.addData⟩
      rw [feedLoop, if_neg (by simpa using hbuf), hadd]
      simp only [bind_eq_bind, bind_some, hloop]
      rfl

theorem feed_spec (h : r.Holds c) (inputs : List Bytes) :
    ∃ r' c' chunks, r.feed inputs = some (r', chunks) ∧ r'.Holds c' ∧
      Fed c c' chunks inputs.flatten := by
  induction inputs generalizing r c with
  | nil => exact ⟨r, c, [], rfl, h, .refl c⟩
  | cons buf rest ih =>
    obtain ⟨r₁, c₁, chunks, hloop, hr₁, hfed⟩ := feedLoop_spec h le_rfl
    obtain ⟨r₂, c₂, later, hrest, hr₂, hfed'⟩ := ih hr₁
    refine ⟨r₂, c₂, chunks ++ later, ?_, hr₂, hfed.trans hfed'⟩
    rw [feed, hloop]
    simp only [bind_eq_bind, bind_some, hrest]
    rfl

/-- The loop ends, all chunks are whole, and with what is left they are the input. -/
theorem feed_new {chunkSize : ℕ} (h : 0 < chunkSize) {uninit : Bytes}
    (hu : uninit.length = chunkSize) (inputs : List Bytes) :
    ∃ r chunks r' rest, (new chunkSize uninit).feed inputs = some (r, chunks) ∧
      r.getAvailable = some (r', rest) ∧ (∀ chunk ∈ chunks, chunk.length = chunkSize) ∧
      chunks.flatten ++ rest = inputs.flatten := by
  obtain ⟨r, c, chunks, hfeed, hr, hfed⟩ := feed_spec (holds_new h hu) inputs
  exact ⟨r, chunks, _, c.getAvailable, hfeed, hr.getAvailable, hfed.whole, hfed.content⟩

theorem feed_new_four :
    ∃ r chunks r' rest, (new 4 (zeros 4)).feed [[1, 2, 3], [4, 5, 6, 7, 8, 9, 10], [], [11]] =
        some (r, chunks) ∧
      r.getAvailable = some (r', rest) ∧ (∀ chunk ∈ chunks, chunk.length = 4) ∧
      chunks.flatten ++ rest = [1, 2, 3, 4, 5, 6, 7, 8, 9, 10, 11] :=
  feed_new (by decide) rfl [[1, 2, 3], [4, 5, 6, 7, 8, 9, 10], [], [11]]

end RawChunker
end Magisk
