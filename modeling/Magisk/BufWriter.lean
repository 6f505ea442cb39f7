import Magisk.Bytes

namespace Magisk

open List

/-- How a call of `write` ends: at most `n` bytes are taken, or it fails. -/
inductive WriteAnswer where
  | wrote (n : ℕ)
  | failed
  deriving DecidableEq, Repr

/-- A file, with the answers to the next writes to it. Behind them every write is complete. -/
structure Sink where
  file : Bytes
  answers : List WriteAnswer
  deriving DecidableEq, Repr

namespace Sink

/-- `write_all`, until a write fails or takes nothing: what is left over, and the file. -/
def writeAll (file : Bytes) : List WriteAnswer → Bytes → Bytes × Sink
  | answers, [] => ([], ⟨file, answers⟩)
  | [], b => ([], ⟨file ++ b, []⟩)
  | .failed :: answers, b => (b, ⟨file, answers⟩)
  | .wrote n :: answers, b =>
    if n = 0 then (b, ⟨file, answers⟩) else writeAll (file ++ b.take n) answers (b.drop n)

theorem writeAll_append (file : Bytes) (answers : List WriteAnswer) (b : Bytes) :
    (writeAll file answers b).2.file ++ (writeAll file answers b).1 = file ++ b := by
  fun_induction writeAll file answers b with
  | case1 => rfl
  | case2 => rw [append_nil]
  | case3 => rfl
  | case4 => rfl
  | case5 file n answers b _ _ ih => rw [ih, append_assoc, take_append_drop]

theorem writeAll_nil (file b : Bytes) : writeAll file [] b = ([], ⟨file ++ b, []⟩) := by
  cases b with
  | nil => rw [writeAll, append_nil]
  | cons x b => rfl

end Sink

structure BufWriter where
  capacity : ℕ
  buf : Bytes
  sink : Sink
  deriving DecidableEq, Repr

namespace BufWriter

/-- `with_capacity` on an empty file. -/
def create (capacity : ℕ) (answers : List WriteAnswer) : BufWriter := ⟨capacity, [], ⟨[], answers⟩⟩

def flushBuf (w : BufWriter) : Option BufWriter :=
  match Sink.writeAll w.sink.file w.sink.answers w.buf with
  | ([], sink) => some ⟨w.capacity, [], sink⟩
  | (_ :: _, _) => none

/-- Flushes the buffer if it has no room for `n` more bytes. -/
def makeRoom (w : BufWriter) (n : ℕ) : Option BufWriter :=
  if w.capacity < w.buf.length + n then w.flushBuf else some w

/-- A piece that is as large as the buffer goes to the file. -/
def store (w : BufWriter) (b : Bytes) : Option BufWriter :=
  if w.capacity ≤ b.length then
    match Sink.writeAll w.sink.file w.sink.answers b with
    | ([], sink) => some { w with sink := sink }
    | (_ :: _, _) => none
  else some { w with buf := w.buf ++ b }

/-- `write_all`, with the fast path for a piece that leaves room in the buffer. -/
def put (w : BufWriter) (b : Bytes) : Option BufWriter :=
  if w.buf.length + b.length < w.capacity then some { w with buf := w.buf ++ b }
  else (w.makeRoom b.length).bind fun w => w.store b

def putAll (w : BufWriter) : List Bytes → Option BufWriter
  | [] => some w
  | b :: bs => (w.put b).bind fun w => w.putAll bs

/-- What the file holds after the writer is dropped. -/
def dropped (w : BufWriter) : Bytes := (Sink.writeAll w.sink.file w.sink.answers w.buf).2.file

/-- What the flush of the drop does not write. -/
def lost (w : BufWriter) : Bytes := (Sink.writeAll w.sink.file w.sink.answers w.buf).1

/-- What is written and what the buffer holds. -/
def held (w : BufWriter) : Bytes := w.sink.file ++ w.buf

theorem dropped_append_lost (w : BufWriter) : w.dropped ++ w.lost = w.held :=
  Sink.writeAll_append _ _ _

theorem dropped_eq_held_iff (w : BufWriter) : w.dropped = w.held ↔ w.lost = [] := by
  rw [← w.dropped_append_lost]
  exact self_eq_append_right

variable {w w' : BufWriter}

theorem flushBuf_eq_some (h : w.flushBuf = some w') :
    w'.held = w.held ∧ w'.buf = [] ∧ w'.capacity = w.capacity := by
  have happend := Sink.writeAll_append w.sink.file w.sink.answers w.buf
  unfold flushBuf at h
  split at h
  · rename_i sink hs
    obtain rfl := Option.some.inj h
    rw [hs] at happend
    exact ⟨happend, rfl, rfl⟩
  · cases h

theorem makeRoom_eq_some {n : ℕ} (h : w.makeRoom n = some w') :
    w'.held = w.held ∧ w'.capacity = w.capacity ∧
      (w'.buf = [] ∨ w'.buf.length + n ≤ w'.capacity) := by
  unfold makeRoom at h
  split_ifs at h with hfull
  · obtain ⟨hheld, hbuf, hcap⟩ := flushBuf_eq_some h
    exact ⟨hheld, hcap, Or.inl hbuf⟩
  · obtain rfl := Option.some.inj h
    exact ⟨rfl, rfl, Or.inr (by omega)⟩

theorem store_held {b : Bytes} (hroom : w.buf = [] ∨ w.buf.length + b.length ≤ w.capacity)
    (h : w.store b = some w') : w'.held = w.held ++ b := by
  unfold store at h
  split_ifs at h with hlarge
  · have hbuf : w.buf = [] := by
      rcases hroom with hbuf | hsum
      · exact hbuf
      · exact length_eq_zero_iff.mp (by omega)
    have happend := Sink.writeAll_append w.sink.file w.sink.answers b
    split at h
    · rename_i sink hs
      obtain rfl := Option.some.inj h
      rw [hs, append_nil] at happend
      simp only [held, hbuf, append_nil]
      exact happend
    · cases h
  · obtain rfl := Option.some.inj h
    exact (append_assoc _ _ _).symm

theorem put_held {b : Bytes} (h : w.put b = some w') : w'.held = w.held ++ b := by
  unfold put at h
  split_ifs at h with hsmall
  · obtain rfl := Option.some.inj h
    exact (append_assoc _ _ _).symm
  · obtain ⟨v, hv, h⟩ := Option.bind_eq_some_iff.mp h
    obtain ⟨hheld, -, hroom⟩ := makeRoom_eq_some hv
    rw [← hheld]
    exact store_held hroom h

theorem putAll_held {bs : List Bytes} (h : w.putAll bs = some w') :
    w'.held = w.held ++ bs.flatten := by
  induction bs generalizing w with
  | nil =>
    obtain rfl := Option.some.inj h
    rw [flatten_nil, append_nil]
  | cons b bs ih =>
    obtain ⟨v, hv, h⟩ := Option.bind_eq_some_iff.mp h
    rw [ih h, put_held hv, flatten_cons, append_assoc]

theorem put_complete (b : Bytes) (h : w.sink.answers = []) :
    ∃ w', w.put b = some w' ∧ w'.sink.answers = [] := by
  have hroom : ∃ v, w.makeRoom b.length = some v ∧ v.sink.answers = [] := by
    unfold makeRoom flushBuf
    split_ifs
    · rw [h, Sink.writeAll_nil]
      exact ⟨_, rfl, rfl⟩
    · exact ⟨w, rfl, h⟩
  obtain ⟨v, hv, hanswers⟩ := hroom
  unfold put
  split_ifs
  · exact ⟨_, rfl, h⟩
  · rw [hv, Option.bind_some, store, hanswers, Sink.writeAll_nil]
    split_ifs
    · exact ⟨_, rfl, rfl⟩
    · exact ⟨_, rfl, hanswers⟩

theorem putAll_complete (bs : List Bytes) (h : w.sink.answers = []) :
    ∃ w', w.putAll bs = some w' ∧ w'.lost = [] := by
  induction bs generalizing w with
  | nil => exact ⟨w, rfl, by rw [lost, h, Sink.writeAll_nil]⟩
  | cons b bs ih =>
    obtain ⟨v, hv, hanswers⟩ := put_complete b h
    obtain ⟨w', hw', hlost⟩ := ih hanswers
    exact ⟨w', by rw [putAll, hv]; exact hw', hlost⟩

end BufWriter

end Magisk
