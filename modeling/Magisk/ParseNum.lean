import Magisk.Utf8

namespace Magisk.ParseNum

/-- The integer type of an instance: its largest value, and numbers taken modulo its size. -/
structure IntType (T : Type) [Add T] [Mul T] [Neg T] where
  ofNat : ℕ → T
  max : ℕ
  ofNat_add : ∀ a b, ofNat (a + b) = ofNat a + ofNat b
  ofNat_mul : ∀ a b, ofNat (a * b) = ofNat a * ofNat b
  zero_ne : ofNat 0 ≠ -ofNat 1

def int : IntType Int32 :=
  ⟨Int32.ofNat, 2 ^ 31 - 1, Int32.ofNat_add, Int32.ofNat_mul, by decide⟩

def uint32 : IntType UInt32 :=
  ⟨UInt32.ofNat, 2 ^ 32 - 1, UInt32.ofNat_add, UInt32.ofNat_mul, by decide⟩

def isdigit (c : UInt8) : Bool := 0x30 ≤ c && c ≤ 0x39

def isupper (c : UInt8) : Bool := 0x41 ≤ c && c ≤ 0x5a

def isalpha (c : UInt8) : Bool := isupper c || (0x61 ≤ c && c ≤ 0x7a)

/-- What the body of the loop makes of a character, `none` where it returns. -/
def digit (base : ℕ) (c : UInt8) : Option ℕ :=
  let value : Option UInt8 :=
    if isdigit c then some (c - 0x30)
    else if 10 < base && isalpha c then some (c - (if isupper c then 0x41 - 10 else 0x61 - 10))
    else none
  value.bind fun c => if base ≤ c.toNat then none else some c.toNat

section Generic

variable {T : Type} [Add T] [Mul T] [Neg T] (t : IntType T) (base : ℕ)

def parseNumLoop (val : T) : Bytes → T
  | [] => val
  | c :: s =>
    match digit base c with
    | some d => parseNumLoop (val * t.ofNat base + t.ofNat d) s
    | none => -t.ofNat 1

def parseNum (s : Bytes) : T := parseNumLoop t base (t.ofNat 0) s

/-- A product or a sum of the loop is larger than the type allows. -/
def OverflowsFrom (val : ℕ) : Bytes → Prop
  | [] => False
  | c :: s =>
    match digit base c with
    | some d => t.max < val * base ∨ t.max < val * base + d ∨ OverflowsFrom (val * base + d) s
    | none => False

def Overflows (s : Bytes) : Prop := OverflowsFrom t base 0 s

end Generic

def parseInt (s : Bytes) : Int32 := parseNum int 10 s

def parseUint32Hex (s : Bytes) : UInt32 := parseNum uint32 16 s

def decimalValue (c : UInt8) : Option ℕ :=
  if '0'.toNat ≤ c.toNat ∧ c.toNat ≤ '9'.toNat then some (c.toNat - '0'.toNat) else none

def hexValue (c : UInt8) : Option ℕ :=
  if 'a'.toNat ≤ c.toNat ∧ c.toNat ≤ 'f'.toNat then some (c.toNat - 'a'.toNat + 10)
  else if 'A'.toNat ≤ c.toNat ∧ c.toNat ≤ 'F'.toNat then some (c.toNat - 'A'.toNat + 10)
  else decimalValue c

/-- The value of a text of digits, behind digits with the value `v`. -/
def valueFrom (digit : UInt8 → Option ℕ) (base v : ℕ) : Bytes → Option ℕ
  | [] => some v
  | c :: s => (digit c).bind fun d => valueFrom digit base (v * base + d) s

/-- The text is a numeral, that is digits and at least one, of the value `n`. -/
def Denotes (digit : UInt8 → Option ℕ) (base : ℕ) (s : Bytes) (n : ℕ) : Prop :=
  s ≠ [] ∧ valueFrom digit base 0 s = some n

/-- The result is the number that the text denotes, if the type has it, and -1 otherwise. -/
def Correct {T : Type} [Add T] [Mul T] [Neg T] (t : IntType T) (digit : UInt8 → Option ℕ)
    (base : ℕ) (s : Bytes) (result : T) : Prop :=
  (∀ n ≤ t.max, Denotes digit base s n → result = t.ofNat n) ∧
    ((∀ n ≤ t.max, ¬ Denotes digit base s n) → result = -t.ofNat 1)

/-- The value of the digits in front of the first other character. -/
def leadingValue (digit : UInt8 → Option ℕ) (base : ℕ) (v : ℕ) : Bytes → ℕ
  | [] => v
  | c :: s =>
    match digit c with
    | some d => leadingValue digit base (v * base + d) s
    | none => v

theorem digit_ten (c : UInt8) : digit 10 c = decimalValue c := by
  have h : ∀ n < 256, digit 10 (UInt8.ofNat n) = decimalValue (UInt8.ofNat n) := by decide +kernel
  have hc := h c.toNat c.toNat_lt
  rwa [UInt8.ofNat_toNat] at hc

theorem digit_sixteen (c : UInt8) : digit 16 c = hexValue c := by
  have h : ∀ n < 256, digit 16 (UInt8.ofNat n) = hexValue (UInt8.ofNat n) := by decide +kernel
  have hc := h c.toNat c.toNat_lt
  rwa [UInt8.ofNat_toNat] at hc

section Generic

variable {T : Type} [Add T] [Mul T] [Neg T] {t : IntType T} {base : ℕ}

theorem le_leadingValue (hbase : 0 < base) (v : ℕ) (s : Bytes) :
    v ≤ leadingValue (digit base) base v s := by
  induction s generalizing v with
  | nil => exact le_rfl
  | cons c s ih =>
    unfold leadingValue
    cases digit base c with
    | none => exact le_rfl
    | some d =>
      have := Nat.le_mul_of_pos_right v hbase
      exact le_trans (by omega) (ih (v * base + d))

theorem overflowsFrom_iff (hbase : 0 < base) {v : ℕ} (hv : v ≤ t.max) (s : Bytes) :
    OverflowsFrom t base v s ↔ t.max < leadingValue (digit base) base v s := by
  induction s generalizing v with
  | nil => exact iff_of_false id (not_lt.mpr hv)
  | cons c s ih =>
    unfold OverflowsFrom leadingValue
    cases digit base c with
    | none => exact iff_of_false id (not_lt.mpr hv)
    | some d =>
      dsimp only
      by_cases hd : v * base + d ≤ t.max
      · rw [ih hd]
        constructor
        · rintro (h | h | h)
          · omega
          · omega
          · exact h
        · exact fun h => .inr (.inr h)
      · have := le_leadingValue hbase (v * base + d) s
        exact iff_of_true (.inr (.inl (by omega))) (by omega)

theorem parseNumLoop_ofNat (v : ℕ) (s : Bytes) :
    parseNumLoop t base (t.ofNat v) s =
      (valueFrom (digit base) base v s).elim (-t.ofNat 1) t.ofNat := by
  induction s generalizing v with
  | nil => rfl
  | cons c s ih =>
    unfold parseNumLoop valueFrom
    cases digit base c with
    | none => rfl
    | some d =>
      dsimp only [Option.bind_some]
      rw [← t.ofNat_mul, ← t.ofNat_add, ih]

theorem leadingValue_of_valueFrom {v n : ℕ} {s : Bytes}
    (h : valueFrom (digit base) base v s = some n) : leadingValue (digit base) base v s = n := by
  induction s generalizing v with
  | nil => exact Option.some.inj h
  | cons c s ih =>
    obtain ⟨d, hd, h⟩ := Option.bind_eq_some_iff.mp h
    unfold leadingValue
    rw [hd]
    exact ih h

/-- The result is correct and nothing overflows exactly if there is a character and the leading
digits are in the range of the type. -/
theorem parseNum_iff (hbase : 0 < base) (s : Bytes) :
    Correct t (digit base) base s (parseNum t base s) ∧ ¬ Overflows t base s ↔
      s ≠ [] ∧ leadingValue (digit base) base 0 s ≤ t.max := by
  unfold Overflows parseNum
  rw [overflowsFrom_iff hbase (Nat.zero_le _), not_lt, parseNumLoop_ofNat]
  constructor
  · rintro ⟨⟨-, hother⟩, hle⟩
    refine ⟨?_, hle⟩
    rintro rfl
    exact t.zero_ne (hother fun n _ h => h.1 rfl)
  · rintro ⟨hne, hle⟩
    refine ⟨⟨fun n _ h => ?_, fun h => ?_⟩, hle⟩
    · rw [h.2]
      rfl
    · cases hv : valueFrom (digit base) base 0 s with
      | none => rfl
      | some n =>
        rw [leadingValue_of_valueFrom hv] at hle
        exact absurd ⟨hne, hv⟩ (h n hle)

end Generic

theorem parse_correct_iff (s : Bytes) :
    (Correct int decimalValue 10 s (parseInt s) ∧ ¬ Overflows int 10 s ↔
      s ≠ [] ∧ leadingValue decimalValue 10 0 s < 2 ^ 31) ∧
    (Correct uint32 hexValue 16 s (parseUint32Hex s) ∧ ¬ Overflows uint32 16 s ↔
      s ≠ [] ∧ leadingValue hexValue 16 0 s < 2 ^ 32) := by
  have hten : decimalValue = digit 10 := funext fun c => (digit_ten c).symm
  have hsixteen : hexValue = digit 16 := funext fun c => (digit_sixteen c).symm
  have hint : ∀ n, n < 2 ^ 31 ↔ n ≤ int.max := fun n => Nat.lt_iff_le_pred (by decide)
  have huint : ∀ n, n < 2 ^ 32 ↔ n ≤ uint32.max := fun n => Nat.lt_iff_le_pred (by decide)
  rw [hten, hsixteen, hint, huint]
  exact ⟨parseNum_iff (by decide) s, parseNum_iff (by decide) s⟩

/-- An empty text is 0, and so are two numbers that are out of range. -/
theorem parse_out_of_range :
    (parseInt [] = 0 ∧ ¬ Correct int decimalValue 10 [] (parseInt [])) ∧
    (parseInt (asBytes "4294967296".toList) = 0 ∧
      Overflows int 10 (asBytes "4294967296".toList)) ∧
    parseUint32Hex (asBytes "100000000".toList) = 0 ∧
      ¬ Correct uint32 hexValue 16 (asBytes "100000000".toList)
        (parseUint32Hex (asBytes "100000000".toList)) := by
  refine ⟨⟨rfl, fun h => ?_⟩, ⟨by decide +kernel, ?_⟩, by decide +kernel, fun h => ?_⟩
  · exact absurd (h.2 fun n _ hn => hn.1 rfl) (by decide)
  · exact (overflowsFrom_iff (by decide) (Nat.zero_le _) _).mpr (by decide +kernel)
  · have hvalue : valueFrom hexValue 16 0 (asBytes "100000000".toList) = some (16 ^ 8) := by
      decide +kernel
    refine absurd (h.2 fun n hn hd => ?_) (by decide +kernel)
    have hsome := hd.2
    rw [hvalue, Option.some.injEq] at hsome
    exact absurd hn (by rw [← hsome]; decide)

end Magisk.ParseNum
