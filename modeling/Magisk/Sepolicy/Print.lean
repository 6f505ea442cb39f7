import Magisk.Sepolicy.HexSets

namespace Magisk.Sepolicy

open List

/-- The text of a C string of ASCII characters. -/
def nameText (name : Bytes) : Str := name.map fun b => Char.ofNat b.toNat

def isIdentChar (c : Char) : Bool := c.isAlphanum || c ∈ ['_', '-', '.']

/-- What `cil_verify_name` asks of the names that a policy declares. -/
def isIdentifier (name : Bytes) : Bool :=
  (nameText name).head?.any Char.isAlpha && (nameText name).all isIdentChar

/-- A symbol table, whose names are told apart by the part that `hashtab_find` compares. -/
structure Symbols {α : Type} (table : List (Bytes × α)) : Prop where
  ident : ∀ e ∈ table, isIdentifier e.1
  distinct : (table.map fun e => e.1.take 255).Nodup

/-- The permissions of a class and of the common it inherits. -/
def ClassDatum.perms (cls : ClassDatum) : List (Bytes × PermDatum) :=
  cls.permissions ++ cls.comdatum.getD []

/-- A policy with `p_type_val_to_name`, which leads to the table of types. -/
structure NamedPolicy extends Policydb where
  typeName : UInt16 → Option Bytes
  typeName_mem : ∀ {v name}, typeName v = some name → ∃ t, (name, t) ∈ types ∧ t.value = v.toNat
  types_symbols : Symbols types
  classes_symbols : Symbols classes
  perms_symbols : ∀ e ∈ classes, Symbols e.2.perms

/-- `p_class_val_to_name` and `class_val_to_struct` -/
def Policydb.classOf (db : Policydb) (value : UInt16) : Option (Bytes × ClassDatum) :=
  db.classes.find? fun e => e.2.value = value

/-- `class_perm_names`: a later permission takes the place of an earlier one. -/
def ClassDatum.permName (cls : ClassDatum) (i : ℕ) : Option Bytes :=
  (cls.perms.reverse.find? fun e => e.2.bit.val = i).map Prod.fst

/-- One round of the loop: the first bit of the current run and the ranges so far. -/
def rangeStep (perms : UInt8 → Bool) (s : Option ℕ × List (ℕ × ℕ)) (i : ℕ) :
    Option ℕ × List (ℕ × ℕ) :=
  match perms (UInt8.ofNat i), s with
  | true, (low, ranges) =>
    (some (low.getD i), if i = 255 then ranges ++ [(low.getD i, 255)] else ranges)
  | false, (some low, ranges) => (none, ranges ++ [(low, i - 1)])
  | false, (none, ranges) => (none, ranges)

def xpermRanges (perms : UInt8 → Bool) : List (ℕ × ℕ) :=
  ((List.range 256).foldl (rangeStep perms) (none, [])).2

/-- What the loop has done after `n` rounds. -/
structure RangesOk (perms : UInt8 → Bool) (n : ℕ) (s : Option ℕ × List (ℕ × ℕ)) : Prop where
  sound : ∀ r ∈ s.2, r.1 ≤ r.2 ∧ r.2 < n ∧ ∀ i, r.1 ≤ i → i ≤ r.2 → perms (UInt8.ofNat i)
  run : ∀ low ∈ s.1, low < n ∧ ∀ i, low ≤ i → i < n → perms (UInt8.ofNat i)
  complete : ∀ i < n, perms (UInt8.ofNat i) →
    (∃ r ∈ s.2, r.1 ≤ i ∧ i ≤ r.2) ∨ n ≤ 255 ∧ ∃ low ∈ s.1, low ≤ i

variable {perms : UInt8 → Bool} {n : ℕ} (v : UInt16)

theorem RangesOk.sound_succ {s : Option ℕ × List (ℕ × ℕ)}
    (h : RangesOk perms n s) : ∀ r ∈ s.2,
      r.1 ≤ r.2 ∧ r.2 < n + 1 ∧ ∀ i, r.1 ≤ i → i ≤ r.2 → perms (UInt8.ofNat i) := by
  intro r hr
  obtain ⟨h1, h2, h3⟩ := h.sound r hr
  exact ⟨h1, by omega, h3⟩

theorem RangesOk.step {s : Option ℕ × List (ℕ × ℕ)}
    (hn : n < 256) (h : RangesOk perms n s) : RangesOk perms (n + 1) (rangeStep perms s n) := by
  obtain ⟨low, ranges⟩ := s
  have hsound := h.sound_succ
  unfold rangeStep
  cases hb : perms (UInt8.ofNat n) with
  | true =>
    -- the run goes on, or starts here
    have hrun : low.getD n < n + 1 ∧
        ∀ i, low.getD n ≤ i → i < n + 1 → perms (UInt8.ofNat i) := by
      cases low with
      | none =>
        refine ⟨Nat.lt_succ_self n, fun i h1 h2 => ?_⟩
        rw [Option.getD_none] at h1
        obtain rfl : i = n := by omega
        exact hb
      | some low =>
        obtain ⟨hlow, hset⟩ := h.run low rfl
        refine ⟨by rw [Option.getD_some]; omega, fun i h1 h2 => ?_⟩
        rcases Nat.lt_succ_iff_lt_or_eq.mp h2 with hi | rfl
        · exact hset i h1 hi
        · exact hb
    have hcover : ∀ i < n + 1, perms (UInt8.ofNat i) →
        (∃ r ∈ ranges, r.1 ≤ i ∧ i ≤ r.2) ∨ low.getD n ≤ i := by
      intro i hi hp
      rcases Nat.lt_succ_iff_lt_or_eq.mp hi with hi | rfl
      · refine (h.complete i hi hp).imp_right ?_
        rintro ⟨-, l, hl, hle⟩
        cases hl
        exact hle
      · exact .inr (Nat.lt_succ_iff.mp hrun.1)
    split_ifs with h255
    · subst h255
      refine ⟨?_, fun l hl => (Option.some.inj hl) ▸ hrun, ?_⟩
      · intro r hr
        rcases mem_append.mp hr with hr | hr
        · exact hsound r hr
        · rw [mem_singleton.mp hr]
          exact ⟨Nat.lt_succ_iff.mp hrun.1, Nat.lt_succ_self _,
            fun i h1 h2 => hrun.2 i h1 (Nat.lt_succ_of_le h2)⟩
      · intro i hi hp
        left
        rcases hcover i hi hp with ⟨r, hr, hri⟩ | hle
        · exact ⟨r, mem_append_left _ hr, hri⟩
        · exact ⟨_, mem_append_right _ mem_cons_self, hle, Nat.lt_succ_iff.mp hi⟩
    · refine ⟨hsound, fun l hl => (Option.some.inj hl) ▸ hrun, ?_⟩
      intro i hi hp
      refine (hcover i hi hp).imp_right fun hle => ?_
      exact ⟨by omega, _, rfl, hle⟩
  | false =>
    have hlt : ∀ i < n + 1, perms (UInt8.ofNat i) → i < n := by
      intro i hi hp
      rcases Nat.lt_succ_iff_lt_or_eq.mp hi with hi | rfl
      · exact hi
      · rw [hb] at hp
        cases hp
    cases low with
    | none =>
      refine ⟨hsound, (fun l hl => nomatch hl), fun i hi hp => ?_⟩
      rcases h.complete i (hlt i hi hp) hp with hr | ⟨-, l, hl, -⟩
      · exact .inl hr
      · cases hl
    | some low =>
      -- the run ends before this bit
      obtain ⟨hlow, hset⟩ := h.run low rfl
      refine ⟨?_, (fun l hl => nomatch hl), fun i hi hp => .inl ?_⟩
      · intro r hr
        rcases mem_append.mp hr with hr | hr
        · exact hsound r hr
        · rw [mem_singleton.mp hr]
          refine ⟨?_, ?_, fun i h1 h2 => hset i h1 ?_⟩
          all_goals dsimp only at *; omega
      · have hi' := hlt i hi hp
        rcases h.complete i hi' hp with ⟨r, hr, hri⟩ | ⟨-, l, hl, hle⟩
        · exact ⟨r, mem_append_left _ hr, hri⟩
        · cases hl
          refine ⟨_, mem_append_right _ mem_cons_self, hle, ?_⟩
          omega

theorem rangesOk_range (perms : UInt8 → Bool) (hn : n ≤ 256) :
    RangesOk perms n ((List.range n).foldl (rangeStep perms) (none, [])) := by
  induction n with
  | zero => exact ⟨(fun r hr => nomatch hr), (fun l hl => nomatch hl), fun i hi => by omega⟩
  | succ n ih =>
    rw [range_succ, foldl_append]
    exact (ih (by omega)).step (by omega)

theorem xpermRanges_sound {r : ℕ × ℕ} (hr : r ∈ xpermRanges perms) :
    r.1 ≤ r.2 ∧ r.2 < 256 ∧ ∀ i, r.1 ≤ i → i ≤ r.2 → perms (UInt8.ofNat i) :=
  (rangesOk_range perms le_rfl).sound r hr

theorem xpermRanges_complete {b : UInt8} (hb : perms b) :
    ∃ r ∈ xpermRanges perms, r.1 ≤ b.toNat ∧ b.toNat ≤ r.2 := by
  have h := (rangesOk_range perms le_rfl).complete b.toNat b.toNat_lt
  rw [UInt8.ofNat_toNat] at h
  exact (h hb).resolve_right fun h => absurd h.1 (by decide)

def upperDigit (d : ℕ) : Char := Char.ofNat (if d < 10 then 48 + d else 55 + d)

def hex04 (v : UInt16) : Str :=
  [upperDigit (v.toNat / 4096), upperDigit (v.toNat / 256 % 16), upperDigit (v.toNat / 16 % 16),
    upperDigit (v.toNat % 16)]

def ExtendedPerms.toValue (x : ExtendedPerms) (val : ℕ) : UInt16 :=
  if x.specified = .ioctlFunction then UInt16.ofNat (x.driver.toNat <<< 8 ||| val)
  else UInt16.ofNat (val <<< 8)

def ExtendedPerms.item (x : ExtendedPerms) (range : ℕ × ℕ) : SetItem :=
  let low := x.toValue range.1
  let high := x.toValue range.2
  if low = high then .value (hex04 low) else .range (hex04 low) (hex04 high)

def Effect.word : Effect → Str
  | allowed => "allow".toList
  | auditallow => "auditallow".toList
  | auditdeny => "dontaudit".toList

def XpermEffect.word : XpermEffect → Str
  | allowed => "allowxperm".toList
  | auditallow => "auditallowxperm".toList
  | dontaudit => "dontauditxperm".toList

/-- Invert the rules for dontaudit -/
def Effect.printedData (effect : Effect) (data : BitVec 32) : BitVec 32 :=
  if effect = .auditdeny then ~~~data else data

/-- The names of the permissions that an access vector line lists. -/
def printedPerms (cls : ClassDatum) (effect : Effect) (data : BitVec 32) : List Bytes :=
  (List.range 32).filterMap fun i =>
    if (effect.printedData data).getLsbD i then cls.permName i else none

def braces (words : List Str) : List Str := ['\x7b'] :: (words ++ [['\x7d']])

def avWords (effect : Effect) (src tgt cls : Bytes) (perms : List Bytes) : List Str :=
  effect.word :: nameText src :: nameText tgt :: nameText cls :: braces (perms.map nameText)

def xpermWords (effect : XpermEffect) (src tgt cls : Bytes) (items : List SetItem) : List Str :=
  effect.word :: nameText src :: nameText tgt :: nameText cls :: "ioctl".toList ::
    braces (items.map SetItem.text)

/-- What the `specified` field of a key makes of its nodes. -/
inductive Printed where
  | av (effect : Effect)
  | type (word : Str)
  | xperms (effect : XpermEffect)
  | nothing

def Specified.printed : Specified → Printed
  | allowed => .av .allowed
  | auditallow => .av .auditallow
  | auditdeny => .av .auditdeny
  | transition => .type "type_transition".toList
  | member => .type "type_member".toList
  | change => .type "type_change".toList
  | xpermsAllowed => .xperms .allowed
  | xpermsAuditallow => .xperms .auditallow
  | xpermsDontaudit => .xperms .dontaudit
  | neverallow | xpermsNeverallow => .nothing

/-- The words of the line for a node, if it prints one. -/
def printAvtab (p : NamedPolicy) (node : Key × Datum) : Option (List Str) := do
  let src ← p.typeName node.1.sourceType
  let tgt ← p.typeName node.1.targetType
  let (cls, clz) ← p.classOf node.1.targetClass
  match node.1.specified.printed with
  | .av effect =>
    let perms := printedPerms clz effect node.2.data
    if perms = [] then none else some (avWords effect src tgt cls perms)
  | .type word =>
    let dflt ← p.typeName (UInt16.ofNat node.2.data.toNat)
    some [word, nameText src, nameText tgt, nameText cls, nameText dflt]
  | .xperms effect =>
    let xperms ← node.2.xperms
    let ranges := xpermRanges xperms.perms
    if ranges = [] then none
    else some (xpermWords effect src tgt cls (ranges.map xperms.item))
  | .nothing => none

/-- A node of an access vector or of ioctl codes. -/
def isRule (node : Key × Datum) : Bool :=
  match node.1.specified.printed with
  | .av _ => true
  | .xperms _ => node.2.slot.isSome
  | _ => false

/-- The lines that `print_rules` prints for access vectors and ioctl codes. -/
def ruleLines (p : NamedPolicy) : List (List Str) :=
  (p.teAvtab.table.nodes.filter isRule).filterMap (printAvtab p)

def printLine (words : List Str) : Str := wordsLine words ++ ['\n']

def printRules (p : NamedPolicy) : Str := (ruleLines p).flatMap printLine

theorem hexDigit_upperDigit {d : ℕ} (hd : d < 16) : hexDigit (upperDigit d) = some d := by
  interval_cases d <;> decide

theorem isDigit_upperDigit {d : ℕ} (hd : d < 16) : (upperDigit d).isDigit = decide (d < 10) := by
  interval_cases d <;> decide

theorem hexDigits_hex04 : hexDigits (hex04 v) =
    [v.toNat % 16, v.toNat / 16 % 16, v.toNat / 256 % 16, v.toNat / 4096] := by
  have hv := v.toNat_lt
  have h3 : v.toNat / 4096 < 16 := by omega
  simp only [hexDigits, hex04, reverse_cons, reverse_nil, nil_append,
    cons_append, map_cons, map_nil]
  rw [hexDigit_upperDigit h3, hexDigit_upperDigit (Nat.mod_lt _ (by decide)),
    hexDigit_upperDigit (Nat.mod_lt _ (by decide)), hexDigit_upperDigit (Nat.mod_lt _ (by decide))]
  rfl

theorem isHex_hex04 : IsHex (hex04 v) := by
  have hv := v.toNat_lt
  have h3 : v.toNat / 4096 < 16 := by omega
  refine ⟨by simp [hex04], by simp [hex04], ?_⟩
  simp only [hex04, all_cons, all_nil]
  rw [hexDigit_upperDigit h3, hexDigit_upperDigit (Nat.mod_lt _ (by decide)),
    hexDigit_upperDigit (Nat.mod_lt _ (by decide)), hexDigit_upperDigit (Nat.mod_lt _ (by decide))]
  rfl

theorem hexValue_hex04 : hexValue (hex04 v) = v.toNat := by
  rw [hexValue, hexDigits_hex04]
  simp only [Nat.ofDigits_cons, Nat.ofDigits_nil]
  omega

/-- A printed code is read as a smaller one, and under a smaller driver, unless it is a single
decimal digit. -/
theorem readValue_hex04 :
    (readValue (hex04 v)).toNat ≤ v.toNat ∧
      ((readValue (hex04 v)).toNat = v.toNat ↔ v.toNat ≤ 9) ∧
      (256 ≤ v.toNat → (readValue (hex04 v)).toNat / 256 < v.toNat / 256) := by
  have heq := readValue_eq_iff (isHex_hex04 v)
  rw [hexValue_hex04] at heq
  have hread := readValue_toNat (isHex_hex04 v)
  have hv := v.toNat_lt
  have h2 : v.toNat / 256 = v.toNat / 16 / 16 := by omega
  have h3 : v.toNat / 4096 = v.toNat / 256 / 16 := by omega
  rw [hexDigits_hex04] at hread
  simp only [Nat.ofDigits_cons, Nat.ofDigits_nil] at hread
  refine ⟨?_, heq, ?_⟩
  · split_ifs at hread <;> omega
  · intro h256
    split_ifs at hread with hall
    · simp only [hex04, all_cons, all_nil, Bool.and_true, Bool.and_eq_true] at hall
      rw [isDigit_upperDigit (by omega), isDigit_upperDigit (by omega),
        isDigit_upperDigit (by omega), isDigit_upperDigit (by omega)] at hall
      simp only [decide_eq_true_eq] at hall
      omega
    · omega

end Magisk.Sepolicy
