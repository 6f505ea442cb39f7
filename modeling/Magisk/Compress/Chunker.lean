import Magisk.Bytes

namespace Magisk

open List

/-- `chunk` is the filled part of the buffer, which never holds a whole chunk. -/
structure Chunker where
  chunk : Bytes
  chunkSize : ℕ
  pos_lt : chunk.length < chunkSize

namespace Chunker

def new (chunkSize : ℕ) (h : 0 < chunkSize) : Chunker := ⟨[], chunkSize, h⟩

/-- What `add_data` leaves: the chunker, the remaining slice and a chunk that is full. -/
structure Added where
  self : Chunker
  buf : Bytes
  chunk : Option Bytes

def addData (self : Chunker) (buf : Bytes) : Added :=
  if 0 < self.chunk.length then
    -- try to fill the chunk
    let len := min (self.chunkSize - self.chunk.length) buf.length
    let chunk := self.chunk ++ buf.take len
    if h : chunk.length = self.chunkSize then
      ⟨⟨[], self.chunkSize, Nat.zero_lt_of_lt self.pos_lt⟩, buf.drop len, some chunk⟩
    else
      ⟨⟨chunk, self.chunkSize, by
        have := self.pos_lt
        simp only [chunk, len, length_append, length_take] at h ⊢
        omega⟩, buf.drop len, none⟩
  else if h : self.chunkSize ≤ buf.length then
    ⟨self, buf.drop self.chunkSize, some (buf.take self.chunkSize)⟩
  else
    ⟨⟨buf, self.chunkSize, by omega⟩, [], none⟩

def getAvailable (self : Chunker) : Bytes := self.chunk

/-- One call passes the bytes on in order: into a full chunk, the buffer or what remains. -/
theorem addData_spec (self : Chunker) (buf : Bytes) :
    (self.addData buf).chunk.getD [] ++ (self.addData buf).self.chunk ++ (self.addData buf).buf =
        self.chunk ++ buf ∧
      (self.addData buf).self.chunkSize = self.chunkSize ∧
      ∀ c, (self.addData buf).chunk = some c → c.length = self.chunkSize := by
  unfold addData
  dsimp only
  split_ifs with hpos hfull hdirect
  · simp only [Option.getD_some, append_nil, append_assoc, take_append_drop,
      Option.some.injEq, true_and]
    rintro c rfl
    exact hfull
  · simp
  · have h0 : self.chunk = [] := eq_nil_of_length_eq_zero (by omega)
    simp only [h0, Option.getD_some, append_nil, take_append_drop, nil_append,
      Option.some.injEq, true_and]
    rintro c rfl
    exact length_take_of_le hdirect
  · have h0 : self.chunk = [] := eq_nil_of_length_eq_zero (by omega)
    simp [h0]

theorem addData_buf_lt (self : Chunker) {buf : Bytes} (h : buf ≠ []) :
    (self.addData buf).buf.length < buf.length := by
  have hb := length_pos_of_ne_nil h
  have hp := self.pos_lt
  unfold addData
  dsimp only
  split_ifs <;> simp only [length_drop, length_nil] <;> omega

end Chunker
end Magisk
