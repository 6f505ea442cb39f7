import Magisk.Memory

namespace Magisk

open List Option

/-- An open input. The offsets of a file that can seek are signed 64-bit numbers. -/
structure Input where
  data : Bytes
  seekable : Bool
  length_lt : seekable → data.length < 2 ^ 63

namespace Input

/-- `read_exact`: the next `n` bytes and the position behind them; `none` at the end of the
input. -/
def readExact (i : Input) (pos n : ℕ) : Option (Bytes × ℕ) :=
  if (view i.data pos n).length = n then some (view i.data pos n, pos + n) else none

def seekCurrent (i : Input) (pos : ℕ) (d : ℤ) : Option ℕ :=
  if i.seekable = true ∧ 0 ≤ (pos : ℤ) + d ∧ (pos : ℤ) + d < 2 ^ 63 then some ((pos : ℤ) + d).toNat
  else none

theorem readExact_of_le {i : Input} {pos n : ℕ} (h : pos + n ≤ i.data.length) :
    i.readExact pos n = some (view i.data pos n, pos + n) := by
  have hlen : (view i.data pos n).length = n := by
    rw [view_length]
    omega
  rw [readExact, if_pos hlen]

theorem readExact_eq_some {i : Input} {pos n pos' : ℕ} {b : Bytes}
    (h : i.readExact pos n = some (b, pos')) :
    b = view i.data pos n ∧ b.length = n ∧ pos' = pos + n := by
  unfold readExact at h
  split_ifs at h with hlen
  obtain ⟨rfl, rfl⟩ := Prod.mk.inj (some.inj h)
  exact ⟨rfl, hlen, rfl⟩

end Input

def writeAt (f : Bytes) (off : ℕ) (b : Bytes) : Bytes :=
  if b = [] then f else overwrite (f ++ zeros (off + b.length - f.length)) off b

/-- The file after the writes, each an offset and the bytes for it. -/
def writeAll (f : Bytes) (ws : List (ℕ × Bytes)) : Bytes :=
  ws.foldl (fun f w => writeAt f w.1 w.2) f

/-- What a write puts at `x`. -/
def putAt (w : ℕ × Bytes) (x : ℕ) : Option UInt8 := if w.1 ≤ x then w.2[x - w.1]? else none

/-- What the last of the writes to `x` puts there. -/
def lastWritten : List (ℕ × Bytes) → ℕ → Option UInt8
  | [], _ => none
  | w :: ws, x => (lastWritten ws x).or (putAt w x)

/-- Where a write ends; a write of no bytes does not reach anywhere. -/
def writeEnd (w : ℕ × Bytes) : ℕ := if w.2 = [] then 0 else w.1 + w.2.length

/-- Where the last of the written bytes ends. -/
def writesEnd : List (ℕ × Bytes) → ℕ
  | [] => 0
  | w :: ws => max (writeEnd w) (writesEnd ws)

/-- The byte at `x` of an empty file after the writes. -/
def cellAfter (ws : List (ℕ × Bytes)) (x : ℕ) : Option UInt8 :=
  (lastWritten ws x).or (if x < writesEnd ws then some 0 else none)

variable {w : ℕ × Bytes} {x : ℕ} (ws : List (ℕ × Bytes)) (f : Bytes)

theorem putAt_eq_none_iff : putAt w x = none ↔ x < w.1 ∨ w.1 + w.2.length ≤ x := by
  unfold putAt
  split_ifs with h
  · rw [List.getElem?_eq_none_iff]
    omega
  · simp only [true_iff]
    omega

theorem getElem?_writeAt (w : ℕ × Bytes) (x : ℕ) :
    (writeAt f w.1 w.2)[x]? =
      (putAt w x).or (f[x]?.or (if x < writeEnd w then some 0 else none)) := by
  obtain ⟨off, b⟩ := w
  unfold writeAt writeEnd
  dsimp only
  split_ifs with hb hx hx
  · omega
  · subst hb
    have hnone : putAt (off, []) x = none := putAt_eq_none_iff.mpr (by simp; omega)
    rw [hnone, or_none, none_or]
  all_goals
    have hlen : (f ++ zeros (off + b.length - f.length)).length =
        max f.length (off + b.length) := by
      rw [length_append, zeros_length]
      omega
    by_cases hput : x < off ∨ off + b.length ≤ x
  · -- before the write: the old byte, or the gap
    rw [putAt_eq_none_iff.mpr hput, getElem?_overwrite_of_not_mem _ hput, none_or]
    by_cases hf : x < f.length
    · rw [getElem?_append_left hf, getElem?_eq_getElem hf, some_or]
    · rw [getElem?_append_right (by omega), getElem?_eq_none (l := f) (by omega),
        none_or, zeros, getElem?_replicate, if_pos (by omega)]
  · obtain ⟨i, rfl⟩ := Nat.exists_eq_add_of_le (show off ≤ x by omega)
    rw [getElem?_overwrite_of_mem _ (by omega) (by omega), putAt, if_pos (by simp),
      Nat.add_sub_cancel_left, getElem?_eq_getElem (by omega), some_or]
  · rw [putAt_eq_none_iff.mpr hput, getElem?_overwrite_of_not_mem _ hput, none_or,
      or_none]
    by_cases hf : x < f.length
    · rw [getElem?_append_left hf]
    · rw [getElem?_append_right (by omega), getElem?_eq_none (l := f) (by omega),
        zeros, getElem?_replicate, if_neg (by omega)]
  · omega

theorem getElem?_writeAll (x : ℕ) :
    (writeAll f ws)[x]? =
      (lastWritten ws x).or (f[x]?.or (if x < writesEnd ws then some 0 else none)) := by
  induction ws generalizing f with
  | nil => simp [writeAll, lastWritten, writesEnd]
  | cons w ws ih =>
    have hstep : writeAll f (w :: ws) = writeAll (writeAt f w.1 w.2) ws := rfl
    rw [hstep, ih, getElem?_writeAt, lastWritten, writesEnd]
    simp only [Option.or_assoc]
    congr 3
    by_cases h1 : x < writeEnd w
    · rw [if_pos h1, if_pos (lt_max_of_lt_left h1), some_or]
    · rw [if_neg h1, none_or]
      congr 1
      rw [lt_max_iff, or_iff_right h1]

theorem getElem?_writeAll_nil (x : ℕ) : (writeAll [] ws)[x]? = cellAfter ws x := by
  rw [getElem?_writeAll, cellAfter, getElem?_nil, none_or]

theorem lastWritten_eq_none {ws : List (ℕ × Bytes)} (h : ∀ w ∈ ws, putAt w x = none) :
    lastWritten ws x = none := by
  induction ws with
  | nil => rfl
  | cons w ws ih =>
    rw [lastWritten, ih fun u hu => h u (mem_cons_of_mem _ hu), h w mem_cons_self,
      none_or]

theorem lastWritten_of_unique {ws : List (ℕ × Bytes)} {v : UInt8}
    (hw : w ∈ ws) (hput : putAt w x = some v) (h : ∀ u ∈ ws, u ≠ w → putAt u x = none) :
    lastWritten ws x = some v := by
  induction ws with
  | nil => cases hw
  | cons u ws ih =>
    rw [lastWritten]
    by_cases hmem : w ∈ ws
    · rw [ih hmem fun u hu => h u (mem_cons_of_mem _ hu), some_or]
    · obtain rfl | hmem' := mem_cons.mp hw
      · have hnone : lastWritten ws x = none := by
          apply lastWritten_eq_none
          intro u hu
          exact h u (mem_cons_of_mem _ hu) fun he => hmem (he ▸ hu)
        rw [hnone, none_or, hput]
      · exact absurd hmem' hmem

end Magisk
