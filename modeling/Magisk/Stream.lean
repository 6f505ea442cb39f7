import Magisk.Bytes

namespace Magisk

open List

/-- A stream with a buffer of `size` bytes; a buffer of none is one that is always full. -/
structure Stream where
  size : ℕ
  file : Bytes
  pending : Bytes
  deriving DecidableEq

namespace Stream

def create (size : ℕ) : Stream := ⟨size, [], []⟩

def put (s : Stream) (b : UInt8) : Stream :=
  if s.size ≤ s.pending.length + 1 then ⟨s.size, s.file ++ (s.pending ++ [b]), []⟩
  else ⟨s.size, s.file, s.pending ++ [b]⟩

def print (s : Stream) (text : Bytes) : Stream := text.foldl put s

/-- A write to the descriptor of the file, past the buffer. -/
def writeFd (s : Stream) (b : Bytes) : Stream := { s with file := s.file ++ b }

def close (s : Stream) : Bytes := s.file ++ s.pending

theorem print_append (s : Stream) (a b : Bytes) : s.print (a ++ b) = (s.print a).print b :=
  foldl_append

theorem foldl_print {α : Type*} (f : α → Bytes) (s : Stream) (l : List α) :
    l.foldl (fun s a => s.print (f a)) s = s.print (l.flatMap f) := by
  induction l generalizing s with
  | nil => rfl
  | cons a l ih => rw [foldl_cons, ih, flatMap_cons, print_append]

/-- The number of bytes that stay in the buffer after `n`. -/
def rest (size n : ℕ) : ℕ := n % max size 1

theorem rest_succ (size n : ℕ) :
    rest size (n + 1) = if size ≤ rest size n + 1 then 0 else rest size n + 1 := by
  have hlt : n % max size 1 < max size 1 := Nat.mod_lt n (by omega)
  have hdiv : n + 1 = max size 1 * (n / max size 1) + (n % max size 1 + 1) := by
    have h := Nat.div_add_mod n (max size 1)
    omega
  unfold rest
  rw [hdiv, Nat.mul_add_mod]
  split_ifs with h
  · have hfull : n % max size 1 + 1 = max size 1 := by omega
    rw [hfull, Nat.mod_self]
  · exact Nat.mod_eq_of_lt (by omega)

/-- The whole buffers of a text. -/
def flushed (size : ℕ) (text : Bytes) : Bytes := text.take (text.length - rest size text.length)

/-- What the buffer holds after a text. -/
def held (size : ℕ) (text : Bytes) : Bytes := text.drop (text.length - rest size text.length)

variable (size : ℕ) (text b : Bytes)

theorem flushed_append_held : flushed size text ++ held size text = text :=
  take_append_drop _ _

theorem held_length : (held size text).length = rest size text.length := by
  have hle : rest size text.length ≤ text.length := Nat.mod_le _ _
  rw [held, length_drop]
  omega

theorem create_print : (create size).print text = ⟨size, flushed size text, held size text⟩ := by
  induction text using List.reverseRecOn with
  | nil => rfl
  | append_singleton text b ih =>
    have hle : rest size text.length ≤ text.length := Nat.mod_le _ _
    have hl : (text ++ [b]).length ≤ text.length + 1 := by simp
    rw [print_append, ih]
    show put _ b = _
    rw [put, held_length, flushed, held, flushed, held, length_append, length_singleton,
      rest_succ]
    split_ifs with h
    · rw [← append_assoc, take_append_drop, Nat.sub_zero, take_of_length_le hl,
        drop_of_length_le hl]
    · rw [Nat.add_sub_add_right, take_append_of_le_length (by omega),
        drop_append_of_le_length (by omega)]

theorem close_writeFd :
    (((create size).print text).writeFd b).close = flushed size text ++ (b ++ held size text) := by
  rw [create_print, writeFd, close, append_assoc]

theorem close_writeFd_eq_iff :
    (((create size).print text).writeFd b).close = text ++ b ↔
      b ++ held size text = held size text ++ b := by
  have ht : text ++ b = flushed size text ++ (held size text ++ b) := by
    rw [← append_assoc, flushed_append_held]
  rw [close_writeFd, ht, append_cancel_left_eq]

theorem length_close_writeFd :
    (((create size).print text).writeFd b).close.length = text.length + b.length := by
  have hl := congrArg List.length (flushed_append_held size text)
  rw [length_append] at hl
  rw [close_writeFd, length_append, length_append]
  omega

end Stream

end Magisk
