import Magisk.Loops
import Magisk.Memory
import Magisk.Utf8

namespace Magisk

open List

/-- `Utf8CStrBufArr` and `Utf8CStrBufRef`, which differ in where the bytes are. -/
structure Utf8CStrBuf where
  used : ℕ
  buf : Bytes
deriving DecidableEq, Repr

/-- The destination afterwards and the number of bytes copied. -/
def copyCstrTruncate (dest src : Bytes) : Bytes × ℕ :=
  if dest.length ≤ 1 then (dest, 0)
  else
    let len := min src.length (dest.length - 1)
    let dest := if 0 < len then overwrite dest 0 (src.take len) else dest
    (dest.set len 0, len)

namespace Utf8CStrBuf

def new (n : ℕ) : Utf8CStrBuf := ⟨0, zeros n⟩

def fromSlice (buf : Bytes) : Utf8CStrBuf := ⟨0, buf.set 0 0⟩

variable (self : Utf8CStrBuf)

/-- The bytes of the string slice, which are not checked again. -/
def asStr : Bytes := self.buf.take self.used

def pushStr (s : Str) : Utf8CStrBuf × ℕ :=
  let (dest, len) := copyCstrTruncate (self.buf.drop self.used) (asBytes s)
  (⟨self.used + len, self.buf.take self.used ++ dest⟩, len)

def clear : Utf8CStrBuf := ⟨0, self.buf.set 0 0⟩

def truncate (newLen : ℕ) : Utf8CStrBuf :=
  if self.used ≤ newLen then self else ⟨newLen, self.buf.set newLen 0⟩

/-- Whether the text is accepted is returned as well. -/
def rebuild : Utf8CStrBuf × Bool :=
  match self.buf.findIdx? (· = 0) with
  | some n =>
    if (fromUtf8 (self.buf.take n)).isSome then (⟨n, self.buf⟩, true) else (self.clear, false)
  | none => (self.clear, false)

/-- The buffer to which `append_path` pushes the path. -/
def beforePath (path : Str) : Utf8CStrBuf :=
  let self := if path.head? = some '/' then self.clear else self
  if self.used ≠ 0 ∧ self.asStr.getLast? ≠ some 47 then (self.pushStr ['/']).1 else self

def appendPath (path : Str) : Utf8CStrBuf := ((self.beforePath path).pushStr path).1

inductive Op
  | pushStr (s : Str)
  | clear
  | truncate (newLen : ℕ)
  | appendPath (path : Str)
  | rebuild
deriving DecidableEq, Repr

/-- The bytes in front of `n` are whole characters. -/
def charBoundary (n : ℕ) : Bool := (fromUtf8 (self.asStr.take n)).isSome

/-- The text is truncated between characters only. -/
def step : Op → Option Utf8CStrBuf
  | .pushStr s => some (self.pushStr s).1
  | .clear => some self.clear
  | .truncate newLen => if self.charBoundary newLen then some (self.truncate newLen) else none
  | .appendPath path => some (self.appendPath path)
  | .rebuild => some self.rebuild.1

end Utf8CStrBuf

theorem overwrite_zero {m b : Bytes} (h : b.length ≤ m.length) :
    overwrite m 0 b = b ++ m.drop b.length := by
  rw [overwrite, take_zero, nil_append, Nat.zero_add]
  exact take_of_length_le (by simp; omega)

theorem copyCstrTruncate_eq {dest src b : Bytes} (h : dest[0]? = some 0)
    (hb : src.take (dest.length - 1) = b) :
    copyCstrTruncate dest src = (b ++ 0 :: dest.drop (b.length + 1), b.length) := by
  obtain ⟨hpos, hzero⟩ := List.getElem?_eq_some_iff.mp h
  have hlen : min src.length (dest.length - 1) = b.length := by
    rw [← hb, length_take, Nat.min_comm]
  unfold copyCstrTruncate
  split_ifs with hshort
  · -- the NUL that is there already
    obtain ⟨x, rfl⟩ := length_eq_one_iff.mp (by omega : dest.length = 1)
    obtain rfl : x = 0 := hzero
    obtain rfl : [] = b := hb
    rfl
  · have hle : b.length < dest.length := by omega
    have htake : src.take b.length = b := by
      rw [← hlen, ← take_take, hb]
      exact take_of_length_le (by omega)
    have hcopy : (if 0 < b.length then overwrite dest 0 b else dest) =
        b ++ dest.drop b.length := by
      split_ifs with hb0
      · exact overwrite_zero hle.le
      · obtain rfl : b = [] := eq_nil_of_length_eq_zero (by omega)
        rfl
    dsimp only
    rw [hlen, htake, hcopy, set_append_right _ _ le_rfl, Nat.sub_self,
      drop_eq_getElem_cons hle, set_cons_zero]

namespace Utf8CStrBuf

/-- A buffer of `n` bytes with a NUL behind the used ones. -/
structure Terminated (n : ℕ) (b : Utf8CStrBuf) : Prop where
  length : b.buf.length = n
  used_lt : b.used < n
  nul : b.buf[b.used]? = some 0

variable {n : ℕ} {b : Utf8CStrBuf}

theorem terminated_set {buf : Bytes} (h : buf.length = n) {k : ℕ} (hk : k < n) :
    Terminated n ⟨k, buf.set k 0⟩ where
  length := length_set.trans h
  used_lt := hk
  nul := getElem?_set_self (h ▸ hk)

theorem terminated_clear (h : b.Terminated n) : b.clear.Terminated n :=
  terminated_set h.length (Nat.zero_lt_of_lt h.used_lt)

theorem terminated_truncate (h : b.Terminated n) (newLen : ℕ) :
    (b.truncate newLen).Terminated n := by
  unfold truncate
  split_ifs with hle
  · exact h
  · exact terminated_set h.length ((not_le.mp hle).trans h.used_lt)

theorem terminated_rebuild (h : b.Terminated n) : b.rebuild.1.Terminated n := by
  unfold rebuild
  cases hfind : b.buf.findIdx? (· = 0) with
  | none => exact terminated_clear h
  | some k =>
    dsimp only
    split_ifs with htext
    · obtain ⟨hk, hzero, -⟩ := findIdx?_eq_some_iff_getElem.mp hfind
      refine ⟨h.length, h.length ▸ hk, ?_⟩
      rw [getElem?_eq_getElem hk, of_decide_eq_true hzero]
    · exact terminated_clear h

/-- The bytes of a text that there is room for. -/
def fitting (b : Utf8CStrBuf) (s : Str) : Bytes := (asBytes s).take (b.buf.length - 1 - b.used)

theorem pushStr_eq (h : b.Terminated n) (s : Str) :
    b.pushStr s = (⟨b.used + (b.fitting s).length,
      b.asStr ++ (b.fitting s ++ 0 :: b.buf.drop (b.used + ((b.fitting s).length + 1)))⟩,
      (b.fitting s).length) := by
  have hnul : (b.buf.drop b.used)[0]? = some 0 := by
    rw [getElem?_drop]
    exact h.nul
  have hfit : (asBytes s).take ((b.buf.drop b.used).length - 1) = b.fitting s := by
    rw [length_drop, Nat.sub_right_comm]
    rfl
  unfold pushStr
  rw [copyCstrTruncate_eq hnul hfit, drop_drop]
  rfl

theorem asStr_length (h : b.Terminated n) : b.asStr.length = b.used :=
  length_take_of_le (h.length ▸ h.used_lt.le)

theorem fitting_length_lt (h : b.Terminated n) (s : Str) :
    b.used + (b.fitting s).length < n := by
  have := h.used_lt
  rw [fitting, h.length, length_take]
  omega

theorem terminated_pushStr (h : b.Terminated n) (s : Str) : (b.pushStr s).1.Terminated n := by
  have hlt := fitting_length_lt h s
  rw [pushStr_eq h s]
  refine ⟨?_, hlt, ?_⟩
  · simp only [length_append, length_cons, length_drop, asStr_length h, h.length]
    omega
  · dsimp only
    rw [getElem?_append_right (by rw [asStr_length h]; omega), asStr_length h,
      Nat.add_sub_cancel_left, getElem?_append_right le_rfl, Nat.sub_self]
    rfl

theorem asStr_pushStr (h : b.Terminated n) (s : Str) :
    (b.pushStr s).1.asStr = b.asStr ++ b.fitting s := by
  rw [pushStr_eq h s, asStr, ← append_assoc]
  exact take_left' (by rw [length_append, asStr_length h])

theorem beforePath_keeps {P : Utf8CStrBuf → Prop} (h : P b) (hclear : P b.clear)
    (hslash : ∀ c, P c → P (c.pushStr ['/']).1) (path : Str) : P (b.beforePath path) := by
  have hstart : P (if path.head? = some '/' then b.clear else b) := by
    split_ifs
    · exact hclear
    · exact h
  unfold beforePath
  generalize (if path.head? = some '/' then b.clear else b) = c at hstart
  dsimp only
  split_ifs
  · exact hslash c hstart
  · exact hstart

theorem terminated_beforePath (h : b.Terminated n) (path : Str) :
    (b.beforePath path).Terminated n :=
  beforePath_keeps h (terminated_clear h) (fun _ hc => terminated_pushStr hc _) path

variable {newLen : ℕ} {b' : Utf8CStrBuf} {op : Op} {s : Str}

theorem step_truncate (hs : b.step (.truncate newLen) = some b') :
    b.charBoundary newLen ∧ b' = b.truncate newLen := by
  simp only [step, Option.ite_none_right_eq_some, Option.some.injEq] at hs
  exact ⟨hs.1, hs.2.symm⟩

theorem terminated_step (h : b.Terminated n) (hs : b.step op = some b') : b'.Terminated n := by
  cases op with
  | pushStr s =>
    cases hs
    exact terminated_pushStr h s
  | clear =>
    cases hs
    exact terminated_clear h
  | truncate newLen =>
    obtain ⟨-, rfl⟩ := step_truncate hs
    exact terminated_truncate h newLen
  | appendPath path =>
    cases hs
    exact terminated_pushStr (terminated_beforePath h path) path
  | rebuild =>
    cases hs
    exact terminated_rebuild h

def Text (b : Utf8CStrBuf) : Prop := (fromUtf8 b.asStr).isSome

instance (b : Utf8CStrBuf) : Decidable b.Text := inferInstanceAs (Decidable (_ = true))

theorem text_clear (b : Utf8CStrBuf) : b.clear.Text := rfl

theorem text_truncate (ht : b.Text) (hb : b.charBoundary newLen) :
    (b.truncate newLen).Text := by
  unfold truncate
  split_ifs with hle
  · exact ht
  · have hstr : (b.buf.set newLen 0).take newLen = b.asStr.take newLen := by
      rw [asStr, take_take, Nat.min_eq_left (not_le.mp hle).le, take_set_of_le le_rfl]
    unfold Text asStr
    rw [hstr]
    exact hb

theorem text_rebuild (b : Utf8CStrBuf) : b.rebuild.1.Text := by
  unfold rebuild
  cases b.buf.findIdx? (· = 0) with
  | none => exact text_clear b
  | some k =>
    dsimp only
    split_ifs with htext
    · exact htext
    · exact text_clear b

/-- What there is room for of the text ends between two characters. -/
def Fits (b : Utf8CStrBuf) (s : Str) : Prop := ∃ k, b.fitting s = asBytes (s.take k)

theorem text_pushStr_iff (h : b.Terminated n) (ht : b.Text) (s : Str) :
    (b.pushStr s).1.Text ↔ b.Fits s := by
  obtain ⟨c, hc⟩ := Option.isSome_iff_exists.mp ht
  unfold Text Fits
  rw [asStr_pushStr h, ← asBytes_of_fromUtf8 hc, fromUtf8_append, Option.isSome_map]
  exact isSome_fromUtf8_iff (take_append_drop _ _)

theorem fits_slash (b : Utf8CStrBuf) : b.Fits ['/'] := by
  have hlen : (asBytes ['/']).length = 1 := by decide
  unfold Fits fitting
  cases b.buf.length - 1 - b.used with
  | zero => exact ⟨0, rfl⟩
  | succ k => exact ⟨1, take_of_length_le (by omega)⟩

theorem text_beforePath (h : b.Terminated n) (ht : b.Text) (path : Str) :
    (b.beforePath path).Terminated n ∧ (b.beforePath path).Text := by
  refine beforePath_keeps (P := fun c => c.Terminated n ∧ c.Text) ⟨h, ht⟩
    ⟨terminated_clear h, text_clear b⟩ (fun c hc => ?_) path
  exact ⟨terminated_pushStr hc.1 _, (text_pushStr_iff hc.1 hc.2 _).mpr (fits_slash c)⟩

/-- The pushes of an operation end between two characters. -/
def Whole (b : Utf8CStrBuf) : Op → Prop
  | .pushStr s => b.Fits s
  | .appendPath path => (b.beforePath path).Fits path
  | .clear | .truncate _ | .rebuild => True

theorem text_step_iff (h : b.Terminated n) (ht : b.Text)
    (hs : b.step op = some b') : b'.Text ↔ b.Whole op := by
  cases op with
  | pushStr s =>
    cases hs
    exact text_pushStr_iff h ht s
  | clear =>
    cases hs
    exact iff_of_true (text_clear b) trivial
  | truncate newLen =>
    obtain ⟨hb, rfl⟩ := step_truncate hs
    exact iff_of_true (text_truncate ht hb) trivial
  | appendPath path =>
    cases hs
    obtain ⟨hterm, htext⟩ := text_beforePath h ht path
    exact text_pushStr_iff hterm htext path
  | rebuild =>
    cases hs
    exact iff_of_true (text_rebuild b) trivial

/-- What the string slice relies on, for a buffer of `n` bytes. -/
structure Valid (n : ℕ) (b : Utf8CStrBuf) : Prop where
  used_le : b.used ≤ n - 1
  nul : b.buf[b.used]? = some 0
  text : b.Text

theorem Terminated.valid_iff (h : b.Terminated n) : b.Valid n ↔ b.Text :=
  ⟨Valid.text, fun ht => ⟨Nat.le_sub_one_of_lt h.used_lt, h.nul, ht⟩⟩

/-- The two ways to start with a buffer of `n` bytes. -/
def Started (n : ℕ) (b : Utf8CStrBuf) : Prop :=
  b = new n ∨ ∃ buf : Bytes, buf.length = n ∧ b = fromSlice buf

theorem Started.terminated (hn : 0 < n) (hb : b.Started n) : b.Terminated n := by
  rcases hb with rfl | ⟨buf, hbuf, rfl⟩
  · refine ⟨zeros_length n, hn, ?_⟩
    exact getElem?_replicate_of_lt hn
  · exact terminated_set hbuf hn

theorem Started.text (hb : b.Started n) : b.Text := by
  rcases hb with rfl | ⟨buf, -, rfl⟩ <;> rfl

theorem terminated_throughout (hn : 0 < n) (hb : b.Started n) (ops : List Op) :
    Throughout step (Terminated n) b ops :=
  throughout_of_invariant (fun _ _ _ h hs => terminated_step h hs) (hb.terminated hn) ops

/-- The string slice is legitimate throughout exactly if no push cuts through a character. -/
theorem valid_throughout_iff (hn : 0 < n) (hb : b.Started n) (ops : List Op) :
    Throughout step (Valid n) b ops ↔ Along step Whole b ops := by
  have hterm := hb.terminated hn
  apply throughout_iff_along (I := Terminated n)
  · exact fun s op s' hs _ hstep => terminated_step hs hstep
  · intro s op s' hs hv hstep
    rw [(terminated_step hs hstep).valid_iff]
    exact text_step_iff hs hv.text hstep
  · exact hterm
  · exact hterm.valid_iff.mpr hb.text

theorem valid_throughout_path :
    Started 8 (new 8) ∧
      Throughout step (Valid 8) (new 8)
        [.pushStr "é".toList, .appendPath "a".toList, .rebuild] := by
  refine ⟨.inl rfl, (valid_throughout_iff (by decide) (.inl rfl) _).mpr ?_⟩
  intro b₁ h₁
  cases h₁
  refine ⟨⟨1, by decide⟩, ?_⟩
  intro b₂ h₂
  cases h₂
  refine ⟨⟨1, by decide⟩, ?_⟩
  intro b₃ h₃
  exact ⟨trivial, trivial⟩

/-- Of the two bytes of the second character, only the first one fits. -/
theorem cut_character :
    ¬ Throughout step (Valid 3) (new 3) [.pushStr "aé".toList] ∧
      ((new 3).pushStr "aé".toList).1.asStr = [0x61, 0xc3] := by
  refine ⟨fun h => ?_, by decide⟩
  have hv : ((new 3).pushStr "aé".toList).1.Valid 3 := h.2 _ rfl
  exact absurd hv.text (by decide)

end Utf8CStrBuf

end Magisk
