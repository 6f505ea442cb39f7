import Magisk.Sepolicy.Lines

namespace Magisk.Sepolicy

open List Option

def hexDigit (c : Char) : Option ℕ :=
  if c.isDigit then some (c.toNat - '0'.toNat)
  else if 'a' ≤ c ∧ c ≤ 'f' then some (c.toNat - 'a'.toNat + 10)
  else if 'A' ≤ c ∧ c ≤ 'F' then some (c.toNat - 'A'.toNat + 10)
  else none

/-- The digits of a value from 0x0000 to 0xFFFF. -/
def IsHex (v : Str) : Prop := 1 ≤ v.length ∧ v.length ≤ 4 ∧ v.all fun c => (hexDigit c).isSome

instance (v : Str) : Decidable (IsHex v) := inferInstanceAs (Decidable (_ ∧ _))

/-- The digits of a number, the last one first. -/
def hexDigits (v : Str) : List ℕ := v.reverse.map fun c => (hexDigit c).getD 0

def hexValue (v : Str) : ℕ := Nat.ofDigits 16 (hexDigits v)

/-- The value that the tokenizer reads from the text after `0x`. -/
def readValue (v : Str) : UInt16 := (parseU16 v).getD 0

theorem ofDigits_ten_le (l : List ℕ) : Nat.ofDigits 10 l ≤ Nat.ofDigits 16 l := by
  induction l with
  | nil => rfl
  | cons d l ih =>
    rw [Nat.ofDigits_cons, Nat.ofDigits_cons]
    omega

theorem ofDigits_ten_eq_iff {l : List ℕ} (hl : ∀ d ∈ l, d ≤ 9) :
    Nat.ofDigits 10 l = Nat.ofDigits 16 l ↔ Nat.ofDigits 16 l ≤ 9 := by
  cases l with
  | nil => simp
  | cons d l =>
    have hd := hl d mem_cons_self
    have hle := ofDigits_ten_le l
    rw [Nat.ofDigits_cons, Nat.ofDigits_cons]
    omega

theorem le_ofDigits {l : List ℕ} {d : ℕ} (h : d ∈ l) : d ≤ Nat.ofDigits 16 l := by
  induction l with
  | nil => cases h
  | cons e l ih =>
    rw [Nat.ofDigits_cons]
    rcases mem_cons.mp h with rfl | h
    · omega
    · have := ih h
      omega

variable {c : Char} {v : Str} {set : SetText}

theorem hexDigit_of_isDigit (h : c.isDigit) : hexDigit c = some (c.toNat - '0'.toNat) :=
  if_pos h

theorem isDigit_toNat (h : c.isDigit) : 48 ≤ c.toNat ∧ c.toNat ≤ 57 := by
  simp only [Char.isDigit, Bool.and_eq_true, decide_eq_true_eq] at h
  exact ⟨h.1, h.2⟩

theorem ten_le_hexDigit (h : ¬ c.isDigit) (hs : (hexDigit c).isSome) :
    10 ≤ (hexDigit c).getD 0 := by
  unfold hexDigit at hs ⊢
  split_ifs at hs ⊢
  · simp
  · simp
  · simp at hs

theorem hexDigits_le_nine (h : ∀ c ∈ v, c.isDigit) : ∀ d ∈ hexDigits v, d ≤ 9 := by
  intro d hd
  obtain ⟨c, hc, rfl⟩ := List.mem_map.mp hd
  have hdig := h c (mem_reverse.mp hc)
  have hnat := isDigit_toNat hdig
  rw [hexDigit_of_isDigit hdig, getD_some]
  change c.toNat - 48 ≤ 9
  omega

theorem hexDigits_of_digits (h : ∀ c ∈ v, c.isDigit) :
    (v.reverse.map fun c => c.toNat - '0'.toNat) = hexDigits v := by
  apply map_congr_left
  intro c hc
  rw [hexDigit_of_isDigit (h c (mem_reverse.mp hc)), getD_some]

theorem readValue_toNat (h : IsHex v) :
    (readValue v).toNat = if v.all Char.isDigit then Nat.ofDigits 10 (hexDigits v) else 0 := by
  obtain ⟨hpos, hlen, hhex⟩ := h
  have h0 : v ≠ [] := length_pos_iff.mp hpos
  have hplus : ¬ v.head? = some '+' := by
    intro hv
    exact absurd (List.all_eq_true.mp hhex '+' (mem_of_mem_head? hv)) (by decide)
  unfold readValue parseU16
  simp only [if_neg hplus]
  by_cases hall : v.all Char.isDigit
  · have hdig : ∀ c ∈ v, c.isDigit := List.all_eq_true.mp hall
    have hlt : Nat.ofDigits 10 (hexDigits v) < 10 ^ (hexDigits v).length :=
      Nat.ofDigits_lt_base_pow_length (by decide) fun d hd =>
        Nat.lt_succ_of_le (hexDigits_le_nine hdig d hd)
    have hl : (hexDigits v).length ≤ 4 := by simpa [hexDigits] using hlen
    have hbound : Nat.ofDigits 10 (hexDigits v) < 2 ^ 16 := by
      have hpow : 10 ^ (hexDigits v).length ≤ 10 ^ 4 := Nat.pow_le_pow_right (by decide) hl
      omega
    rw [if_pos ⟨h0, hall⟩, if_pos hall, hexDigits_of_digits hdig, if_pos hbound, getD_some]
    exact UInt16.toNat_ofNat_of_lt' hbound
  · rw [if_neg fun hc => hall hc.2, if_neg hall]
    rfl

theorem readValue_eq_iff (h : IsHex v) : (readValue v).toNat = hexValue v ↔ hexValue v ≤ 9 := by
  rw [readValue_toNat h, hexValue]
  split_ifs with hall
  · exact ofDigits_ten_eq_iff (hexDigits_le_nine (List.all_eq_true.mp hall))
  · -- a letter alone makes the value at least 10
    obtain ⟨c, hc, hdig⟩ : ∃ c ∈ v, ¬ c.isDigit := by simpa using hall
    have hmem : (hexDigit c).getD 0 ∈ hexDigits v :=
      List.mem_map_of_mem (mem_reverse.mpr hc)
    have h10 := ten_le_hexDigit hdig (List.all_eq_true.mp h.2.2 c hc)
    have hle := le_ofDigits hmem
    omega

/-- A value or a range, with what stands after each `0x`. -/
inductive SetItem where
  | value (v : Str)
  | range (v w : Str)

def SetItem.text : SetItem → Str
  | value v => "0x".toList ++ v
  | range v w => "0x".toList ++ v ++ '-' :: "0x".toList ++ w

def SetItem.values : SetItem → List Str
  | value v => [v]
  | range v w => [v, w]

/-- The limits of an item, for a reading of its values. -/
def SetItem.bounds {α : Type} (read : Str → α) : SetItem → α × α
  | value v => (read v, read v)
  | range v w => (read v, read w)

/-- The element that the tokenizer reads. -/
def SetItem.element : SetItem → Element
  | value v => .value (readValue v)
  | range v w => .range (readValue v) (readValue w)

/-- A set of values: one alone, or items in braces, each with the spacing behind it, after an
optional complement operator with its spacing. -/
inductive SetText where
  | alone (v : Str)
  | braces (complement : Option Str) (space : Str) (items : List (SetItem × Str))

def SetText.text : SetText → Str
  | alone v => "0x".toList ++ v
  | braces complement space items =>
    complement.elim [] ('~' :: ·) ++ '\x7b' :: space ++
      items.flatMap (fun i => i.1.text ++ i.2) ++ ['\x7d']

def SetText.values : SetText → List Str
  | alone v => [v]
  | braces _ _ items => items.flatMap fun i => i.1.values

/-- The limits of the items, for a reading of the values. -/
def SetText.bounds {α : Type} (read : Str → α) : SetText → List (α × α)
  | alone v => [(read v, read v)]
  | braces _ _ items => items.map fun i => i.1.bounds read

def IsSpace (s : Str) : Prop := ∀ c ∈ s, isWhitespace c

/-- The text after `0x` ends with the token. -/
def IsDigits (v : Str) : Prop := ∀ c ∈ v, ¬ isWhitespace c ∧ c ∉ separators.map Prod.fst

/-- Items are separated, and braces may have any spacing. -/
def SetText.Spaced : SetText → Prop
  | alone _ => True
  | braces complement space items =>
    (∀ s ∈ complement, IsSpace s) ∧ IsSpace space ∧ items ≠ [] ∧ (∀ i ∈ items, IsSpace i.2) ∧
      ∀ i ∈ items.dropLast, i.2 ≠ []

/-- Only a set in braces may stand directly after a name. -/
def SetText.Joined (s : Str) : SetText → Prop
  | braces none _ _ => True
  | _ => ∃ c ∈ s.getLast?, isWhitespace c

def XpermEffect.token : XpermEffect → Token
  | allowed => .AX
  | auditallow => .AY
  | dontaudit => .DX

def XpermEffect.method : XpermEffect →
    List Str → List Str → List Str → List Xperm → Method
  | allowed => .allowxperm
  | auditallow => .auditallowxperm
  | dontaudit => .dontauditxperm

/-- A statement on the ioctl codes of a set. -/
structure XpermText where
  effect : XpermEffect
  src : List Str
  tgt : List Str
  cls : List Str
  head : Str
  set : SetText
  trail : Str
  args : List (List Token)
  head_tokens : tokenizeStatement head = effect.token :: args.flatten ++ [.ID "ioctl".toList]
  args_parsed : List.Forall₂ (fun a v => parseSterm a = .ok (v, [])) args [src, tgt, cls]
  joined : set.Joined head
  spaced : set.Spaced
  digits : ∀ v ∈ set.values, IsDigits v
  trail_space : IsSpace trail

def XpermText.text (x : XpermText) : Str := x.head ++ x.set.text ++ x.trail

theorem extractToken_number (h : IsDigits v) :
    extractToken ("0x".toList ++ v) = [.HX (readValue v)] := by
  apply extractToken_hex
  intro sep hsep hm
  exact (h _ hm).2 (List.mem_map_of_mem hsep)

theorem tokenizeStatement_number (h : IsDigits v) :
    tokenizeStatement ("0x".toList ++ v) = [.HX (readValue v)] := by
  have hx : ∀ c ∈ "0x".toList, ¬ isWhitespace c := by simp [isWhitespace]
  rw [tokenizeStatement_word, extractToken_number h]
  intro c hc
  rcases mem_append.mp hc with hc | hc
  · exact hx c hc
  · exact (h c hc).1

theorem tokenizeStatement_item {i : SetItem} (h : ∀ v ∈ i.values, IsDigits v) :
    tokenizeStatement i.text = i.element.tokens := by
  cases i with
  | value v => exact tokenizeStatement_number (h v (by simp [SetItem.values]))
  | range v w =>
    have hv := tokenizeStatement_number (h v (by simp [SetItem.values]))
    have hw := tokenizeStatement_number (h w (by simp [SetItem.values]))
    have hsep : ('-', Token.HP) ∈ separators := by decide
    have ht := tokenizeStatement_separator hsep ("0x".toList ++ v) ("0x".toList ++ w)
    rw [SetItem.text, append_assoc, cons_append, ht, hv, hw]
    rfl

theorem tokenizeStatement_items {items : List (SetItem × Str)}
    (hv : ∀ i ∈ items, ∀ v ∈ i.1.values, IsDigits v) (hs : ∀ i ∈ items, IsSpace i.2)
    (hl : ∀ i ∈ items.dropLast, i.2 ≠ []) :
    tokenizeStatement (items.flatMap fun i => i.1.text ++ i.2) =
      items.flatMap fun i => i.1.element.tokens := by
  induction items with
  | nil => rfl
  | cons i items ih =>
    have hi := tokenizeStatement_item (hv i mem_cons_self)
    have hsi : IsSpace i.2 := hs i mem_cons_self
    have hih := ih (fun j hj => hv j (mem_cons_of_mem i hj))
      (fun j hj => hs j (mem_cons_of_mem i hj))
    cases items with
    | nil =>
      simp only [flatMap_singleton]
      rw [tokenizeStatement_append_spaces hsi, hi]
    | cons j items =>
      rw [dropLast_cons_cons] at hl
      have hne := hl i mem_cons_self
      obtain ⟨c, sp, hc⟩ := exists_cons_of_ne_nil hne
      rw [hc] at hsi
      have hsp : ∀ d ∈ sp, isWhitespace d := fun d hd => hsi d (mem_cons_of_mem c hd)
      rw [flatMap_cons, hc, append_assoc, cons_append,
        tokenizeStatement_space (hsi c mem_cons_self), hi,
        tokenizeStatement_spaces_append hsp,
        hih fun k hk => hl k (mem_cons_of_mem i hk)]
      rfl

/-- The elements that a set in braces is read into. -/
def elementsOf (items : List (SetItem × Str)) : List Element := items.map fun i => i.1.element

def SetText.tokens : SetText → List Token
  | alone v => [.HX (readValue v)]
  | braces complement _ items =>
    complement.elim [] (fun _ => [.TL]) ++ .LB :: ((elementsOf items).flatMap Element.tokens ++ [.RB])

theorem tokenizeStatement_braces {space : Str} {items : List (SetItem × Str)}
    (hspace : IsSpace space)
    (hv : ∀ i ∈ items, ∀ v ∈ i.1.values, IsDigits v) (hs : ∀ i ∈ items, IsSpace i.2)
    (hl : ∀ i ∈ items.dropLast, i.2 ≠ []) (x : Str) :
    tokenizeStatement (x ++ '\x7b' :: (space ++
        (items.flatMap (fun i => i.1.text ++ i.2) ++ ['\x7d']))) =
      tokenizeStatement x ++ .LB :: ((elementsOf items).flatMap Element.tokens ++ [.RB]) := by
  have hlb : ('\x7b', Token.LB) ∈ separators := by decide
  have hrb : ('\x7d', Token.RB) ∈ separators := by decide
  rw [tokenizeStatement_separator hlb, tokenizeStatement_spaces_append hspace,
    tokenizeStatement_separator hrb, tokenizeStatement_items hv hs hl, tokenizeStatement_nil]
  simp [elementsOf, flatMap_map]

theorem SetText.tokenizeStatement_text (hs : set.Spaced)
    (hv : ∀ v ∈ set.values, IsDigits v) : tokenizeStatement set.text = set.tokens := by
  cases set with
  | alone v => exact tokenizeStatement_number (hv v (by simp [SetText.values]))
  | braces complement space items =>
    obtain ⟨hc, hspace, -, hsi, hl⟩ := hs
    have hvi : ∀ i ∈ items, ∀ v ∈ i.1.values, IsDigits v :=
      fun i hi v h => hv v (mem_flatMap.mpr ⟨i, hi, h⟩)
    have ht := tokenizeStatement_braces hspace hvi hsi hl (complement.elim [] ('~' :: ·))
    have hx : tokenizeStatement (complement.elim [] ('~' :: ·)) =
        complement.elim [] fun _ => [.TL] := by
      cases complement with
      | none => rfl
      | some sp =>
        have htl : tokenizeStatement ['~'] = [.TL] := by decide +kernel
        exact (tokenizeStatement_append_spaces (hc sp rfl) ['~']).trans htl
    rw [hx] at ht
    rw [SetText.tokens, ← ht, SetText.text]
    simp only [append_assoc, cons_append]

theorem tokenizeStatement_append_set {s : Str} (hs : set.Spaced)
    (hv : ∀ v ∈ set.values, IsDigits v) (hj : set.Joined s) :
    tokenizeStatement (s ++ set.text) = tokenizeStatement s ++ set.tokens := by
  have hspace : (∃ c ∈ s.getLast?, isWhitespace c) →
      tokenizeStatement (s ++ set.text) = tokenizeStatement s ++ set.tokens := by
    rintro ⟨c, hc, hw⟩
    obtain ⟨s', rfl⟩ := getLast?_eq_some_iff.mp hc
    have hs' : tokenizeStatement (s' ++ [c]) = tokenizeStatement s' := by
      rw [tokenizeStatement_space hw, tokenizeStatement_nil, append_nil]
    rw [append_assoc, singleton_append, tokenizeStatement_space hw,
      SetText.tokenizeStatement_text hs hv, hs']
  match set, hs, hv, hj with
  | .alone v, _, _, hj => exact hspace hj
  | .braces (some sp) space items, _, _, hj => exact hspace hj
  | .braces none space items, hs, hv, _ =>
    obtain ⟨-, hsp, -, hsi, hl⟩ := hs
    have ht := tokenizeStatement_braces hsp
      (fun i hi v h => hv v (mem_flatMap.mpr ⟨i, hi, h⟩)) hsi hl s
    rw [SetText.tokens, elim_none, nil_append, ← ht, SetText.text]
    simp only [append_assoc, cons_append, elim_none, nil_append]

theorem XpermText.tokenizeStatement_text (x : XpermText) :
    tokenizeStatement x.text =
      x.effect.token :: (x.args.flatten ++ .ID "ioctl".toList :: x.set.tokens) := by
  rw [XpermText.text, tokenizeStatement_append_spaces x.trail_space,
    tokenizeStatement_append_set x.spaced x.digits x.joined, x.head_tokens]
  simp

theorem parseSterm_append {a rest : List Token} {v : List Str} (h : parseSterm a = .ok (v, [])) :
    parseSterm (a ++ rest) = .ok (v, rest) := by
  rcases parseSterm_eq_ok.mp h with ⟨n, rfl, rfl⟩ | ⟨rfl, rfl⟩ | ⟨names, rfl, rfl⟩
  · rfl
  · rfl
  · exact parseSterm_eq_ok.mpr (.inr (.inr ⟨names, by simp, rfl⟩))

theorem matchString_eq_ok {pattern : Str} {tokens rest : List Token} {u : Unit} :
    matchString pattern tokens = .ok (u, rest) ↔ tokens = .ID pattern :: rest := by
  constructor
  · intro h
    rcases tokens with _ | ⟨t, tokens⟩
    · cases h
    cases t
    case ID s =>
      change (if s = pattern then (pure () : Parser Unit) else throw .General) tokens = _ at h
      split_ifs at h with hs
      · cases h
        rw [hs]
      · cases h
    all_goals cases h
  · rintro rfl
    change (if pattern = pattern then (pure () : Parser Unit) else throw .General) rest = _
    rw [if_pos rfl]
    rfl

theorem xpermStatement_eq_ok {action : Token}
    {method : List Str → List Str → List Str → List Xperm → Method} {tokens rest : List Token}
    {m : Method} :
    xpermStatement action method tokens = .ok (m, rest) ↔ ∃ s t c p args set,
      m = method s t c p ∧ rest = [] ∧ tokens = args.flatten ++ .ID "ioctl".toList :: set ∧
      List.Forall₂ (fun a v => parseSterm a = .ok (v, [])) args [s, t, c] ∧
      parseXperms set = .ok (p, []) := by
  unfold xpermStatement
  simp only [orError_eq_ok, parser_bind_eq_ok, checkAdditionalArgs_eq_ok, parser_pure_eq_ok,
    matchString_eq_ok]
  constructor
  · rintro ⟨s, l₁, hs, t, l₂, ht, c, l₃, hc, u, l₄, rfl, p, l₅, hp, u', l₆, ⟨rfl, rfl⟩, rfl, rfl⟩
    obtain ⟨a₁, rfl, h₁⟩ := tokens_of_parseSterm hs
    obtain ⟨a₂, rfl, h₂⟩ := tokens_of_parseSterm ht
    obtain ⟨a₃, rfl, h₃⟩ := tokens_of_parseSterm hc
    exact ⟨s, t, c, p, [a₁, a₂, a₃], l₄, rfl, rfl, by simp, by simp [h₁, h₂, h₃], hp⟩
  · rintro ⟨s, t, c, p, args, set, rfl, rfl, rfl, hargs, hp⟩
    obtain ⟨a₁, l₁, h₁, hl₁, rfl⟩ := forall₂_cons_right_iff.mp hargs
    obtain ⟨a₂, l₂, h₂, hl₂, rfl⟩ := forall₂_cons_right_iff.mp hl₁
    obtain ⟨a₃, l₃, h₃, hl₃, rfl⟩ := forall₂_cons_right_iff.mp hl₂
    obtain rfl := forall₂_nil_right_iff.mp hl₃
    refine ⟨s, a₂ ++ (a₃ ++ .ID "ioctl".toList :: set), ?_, t, a₃ ++ .ID "ioctl".toList :: set,
      parseSterm_append h₂, c, _, parseSterm_append h₃, (), set, rfl, p, [], hp, (), [],
      ⟨rfl, rfl⟩, rfl, rfl⟩
    rw [← parseSterm_append h₁]
    simp

def SetText.xperms : SetText → List Xperm
  | alone v => if 0 < readValue v then [⟨readValue v, readValue v, false⟩] else [⟨0, 0xFFFF, false⟩]
  | braces complement _ items => (elementsOf items).map (Element.xperm complement.isSome)

theorem SetText.parseXperms_tokens (h : set.Spaced) :
    parseXperms set.tokens = .ok (set.xperms, []) := by
  match set, h with
  | .alone v, _ => exact parseXperms_value _ _
  | .braces complement space items, ⟨_, _, hne, _, _⟩ =>
    obtain ⟨i, l, rfl⟩ := exists_cons_of_ne_nil hne
    cases complement with
    | none => exact xpermList_tokens false i.1.element (elementsOf l) [] []
    | some sp => exact xpermList_tokens true i.1.element (elementsOf l) [] []

theorem parseAction_xperm (effect : XpermEffect) :
    parseAction effect.token = xpermStatement effect.token effect.method := by
  cases effect <;> rfl

theorem XpermText.calledMethod_text (x : XpermText) :
    calledMethod x.text = some (x.effect.method x.src x.tgt x.cls x.set.xperms) := by
  rw [calledMethod_eq_some x.tokenizeStatement_text]
  refine ⟨[], ?_⟩
  rw [parseAction_xperm, xpermStatement_eq_ok]
  exact ⟨_, _, _, _, x.args, _, rfl, rfl, rfl, x.args_parsed, SetText.parseXperms_tokens x.spaced⟩

/-- The parser reads no number. -/
def KeepsHex {α : Type} (p : Parser α) : Prop :=
  ∀ tokens a rest, p tokens = .ok (a, rest) → ∀ n, .HX n ∈ tokens → .HX n ∈ rest

/-- The parser reads a whole statement without a number. -/
def NoHex {α : Type} (p : Parser α) : Prop :=
  ∀ tokens r, p tokens = .ok r → ∀ n, .HX n ∉ tokens

section NoHex

variable {α β : Type}

theorem noHex_orError {e : ParseError} {p : Parser α} (h : NoHex p) : NoHex (orError e p) :=
  fun tokens r hp => h tokens r (orError_eq_ok.mp hp)

theorem noHex_bind {p : Parser α} {f : α → Parser β} (hp : KeepsHex p) (hf : ∀ a, NoHex (f a)) :
    NoHex (p >>= f) := by
  intro tokens r h n hn
  obtain ⟨a, tokens', h₁, h₂⟩ := parser_bind_eq_ok.mp h
  exact hf a tokens' r h₂ n (hp tokens a tokens' h₁ n hn)

theorem noHex_end (a : α) : NoHex (checkAdditionalArgs >>= fun _ => pure a) := by
  intro tokens r h n hn
  obtain ⟨u, tokens', h₁, -⟩ := parser_bind_eq_ok.mp h
  rw [(checkAdditionalArgs_eq_ok.mp h₁).1] at hn
  cases hn

theorem keepsHex_peek : KeepsHex peek := by
  intro tokens a rest h n hn
  cases h
  exact hn

theorem keepsHex_pure (a : α) : KeepsHex (pure a) := by
  intro tokens b rest h n hn
  rw [← (parser_pure_eq_ok.mp h).2]
  exact hn

theorem keepsHex_parseId : KeepsHex parseId := by
  intro tokens a rest h n hn
  rw [parseId_eq_ok.mp h] at hn
  simpa using hn

theorem keepsHex_parseTerm : KeepsHex parseTerm := by
  intro tokens a rest h n hn
  rcases parseTerm_eq_ok.mp h with ⟨m, rfl, -⟩ | rfl
  · simpa using hn
  · simpa using hn

theorem hex_notMem_setTokens (names : List (Option Str)) (n : UInt16) :
    .HX n ∉ setTokens names := by
  have hname : ∀ m, nameToken m ≠ .HX n := by
    intro m
    cases m <;> simp [nameToken]
  simp [setTokens, hname]

theorem keepsHex_parseSterm : KeepsHex parseSterm := by
  intro tokens a rest h n hn
  rcases parseSterm_eq_ok.mp h with ⟨m, rfl, -⟩ | ⟨rfl, -⟩ | ⟨names, rfl, -⟩
  · simpa using hn
  · simpa using hn
  · simpa [hex_notMem_setTokens] using hn

end NoHex

theorem noHex_parseAction {action : Token} (h : ∀ effect : XpermEffect, action ≠ effect.token) :
    NoHex (parseAction action) := by
  have hav : ∀ method, NoHex (avStatement action method) := fun _ =>
    noHex_orError (noHex_bind keepsHex_parseSterm fun _ => noHex_bind keepsHex_parseSterm fun _ =>
      noHex_bind keepsHex_parseSterm fun _ => noHex_bind keepsHex_parseSterm fun _ => noHex_end _)
  have hstate : ∀ method, NoHex (stateStatement action method) := fun _ =>
    noHex_orError (noHex_bind keepsHex_parseSterm fun _ => noHex_end _)
  have htype : ∀ method, NoHex (typeStatement action method) := fun _ =>
    noHex_orError (noHex_bind keepsHex_parseId fun _ => noHex_bind keepsHex_parseId fun _ =>
      noHex_bind keepsHex_parseId fun _ => noHex_bind keepsHex_parseId fun _ => noHex_end _)
  cases action
  case AX => exact absurd rfl (h .allowed)
  case AY => exact absurd rfl (h .auditallow)
  case DX => exact absurd rfl (h .dontaudit)
  case AL | DN | AA | DA => exact hav _
  case PM | EF => exact hstate _
  case TC | TM => exact htype _
  case TA =>
    exact noHex_orError (noHex_bind keepsHex_parseTerm fun _ => noHex_bind keepsHex_parseTerm
      fun _ => noHex_end _)
  case TY =>
    refine noHex_orError (noHex_bind keepsHex_parseId fun _ => noHex_bind keepsHex_peek fun p => ?_)
    cases p with
    | none => exact noHex_bind (keepsHex_pure _) fun _ => noHex_end _
    | some t => exact noHex_bind keepsHex_parseTerm fun _ => noHex_end _
  case AT => exact noHex_orError (noHex_bind keepsHex_parseId fun _ => noHex_end _)
  case TT =>
    refine noHex_orError (noHex_bind keepsHex_parseId fun _ => noHex_bind keepsHex_parseId fun _ =>
      noHex_bind keepsHex_parseId fun _ => noHex_bind keepsHex_parseId fun _ =>
      noHex_bind keepsHex_peek fun p => ?_)
    cases p with
    | none => exact noHex_bind (keepsHex_pure _) fun _ => noHex_end _
    | some t => exact noHex_bind keepsHex_parseId fun _ => noHex_end _
  case GF =>
    exact noHex_orError (noHex_bind keepsHex_parseId fun _ => noHex_bind keepsHex_parseId fun _ =>
      noHex_bind keepsHex_parseId fun _ => noHex_end _)
  all_goals
    intro tokens r hp
    cases hp

theorem exists_of_forall₂ {α β : Type} {R : α → β → Prop} {l : List α} {l' : List β}
    (h : List.Forall₂ R l l') {a : α} (ha : a ∈ l) : ∃ b, R a b := by
  induction h with
  | nil => cases ha
  | cons hr _ ih =>
    rcases mem_cons.mp ha with rfl | ha
    · exact ⟨_, hr⟩
    · exact ih ha

theorem hex_in_set {line : Str} {m : Method} {n : UInt16} (hm : calledMethod line = some m)
    (hn : .HX n ∈ tokenizeStatement line) :
    ∃ (effect : XpermEffect) (args : List (List Token)) (set : List Token),
      tokenizeStatement line = effect.token :: (args.flatten ++ .ID "ioctl".toList :: set) ∧
      .HX n ∉ args.flatten ∧ ∃ s t c p, m = effect.method s t c p ∧
        parseXperms set = .ok (p, []) := by
  cases htok : tokenizeStatement line with
  | nil => simp [htok] at hn
  | cons action tokens =>
    obtain ⟨rest, hp⟩ := (calledMethod_eq_some htok).mp hm
    by_cases ha : ∀ effect : XpermEffect, action ≠ effect.token
    · rw [htok, mem_cons] at hn
      rcases hn with rfl | hn
      · cases hp
      · exact absurd hn (noHex_parseAction ha tokens _ hp n)
    · push Not at ha
      obtain ⟨effect, rfl⟩ := ha
      rw [parseAction_xperm, xpermStatement_eq_ok] at hp
      obtain ⟨s, t, c, p, args, set, hm, -, rfl, hargs, hx⟩ := hp
      refine ⟨effect, args, set, rfl, ?_, s, t, c, p, hm, hx⟩
      intro hmem
      obtain ⟨a, ha, hna⟩ := mem_flatten.mp hmem
      obtain ⟨v, hv⟩ := exists_of_forall₂ hargs ha
      cases keepsHex_parseSterm a v [] hv n hna

theorem bounds_eq_iff {α : Type} {f g : Str → α} (i : SetItem) :
    i.bounds f = i.bounds g ↔ ∀ v ∈ i.values, f v = g v := by
  cases i <;> simp [SetItem.bounds, SetItem.values]

theorem xperms_braces (complement : Option Str) (space : Str) (items : List (SetItem × Str)) :
    (SetText.braces complement space items).xperms.map (fun q => (q.low.toNat, q.high.toNat)) =
      items.map fun i => i.1.bounds fun v => (readValue v).toNat := by
  simp only [SetText.xperms, elementsOf, List.map_map]
  apply map_congr_left
  intro i _
  rcases i with ⟨i, sp⟩
  cases i <;> rfl

/-- A set of values is read right when each is a single decimal digit, and a value alone not 0. -/
theorem xperms_eq_bounds_iff (h : ∀ v ∈ set.values, IsHex v) :
    set.xperms.map (fun q => (q.low.toNat, q.high.toNat)) = set.bounds hexValue ↔
      (∀ v ∈ set.values, hexValue v ≤ 9) ∧ ∀ v, set = .alone v → hexValue v ≠ 0 := by
  cases set with
  | alone v =>
    have hv := readValue_eq_iff (h v (by simp [SetText.values]))
    have hpos : 0 < readValue v ↔ 0 < (readValue v).toNat := UInt16.lt_iff_toNat_lt
    simp only [SetText.xperms, SetText.bounds, SetText.values, mem_singleton, forall_eq,
      SetText.alone.injEq, forall_eq']
    split_ifs with h0
    · rw [hpos] at h0
      simp only [map_cons, map_nil, cons.injEq, Prod.mk.injEq, and_true, and_self]
      omega
    · rw [hpos] at h0
      simp only [map_cons, map_nil, cons.injEq, Prod.mk.injEq, and_true]
      have hmax : (0xFFFF : UInt16).toNat = 65535 := rfl
      have hzero : (0 : UInt16).toNat = 0 := rfl
      omega
  | braces complement space items =>
    have hread : ∀ i ∈ items, ∀ v ∈ i.1.values,
        ((readValue v).toNat = hexValue v ↔ hexValue v ≤ 9) :=
      fun i hi v hv => readValue_eq_iff (h v (mem_flatMap.mpr ⟨i, hi, hv⟩))
    rw [xperms_braces]
    simp only [SetText.bounds, map_inj_left, bounds_eq_iff, SetText.values, mem_flatMap,
      reduceCtorEq, false_implies, implies_true, and_true]
    constructor
    · rintro he v ⟨i, hi, hv⟩
      exact (hread i hi v hv).mp (he i hi v hv)
    · intro hle i hi v hv
      exact (hread i hi v hv).mpr (hle v ⟨i, hi, hv⟩)

/-- A statement means what is written exactly when each value is a single decimal digit, and one
that stands alone is not 0. A number that is no value is never rejected in the set, and always
elsewhere. -/
theorem xpermText_iff (x : XpermText) :
    (((∀ v ∈ x.set.values, IsHex v) → ∃ p,
        calledMethod x.text = some (x.effect.method x.src x.tgt x.cls p) ∧
        p.map (fun q => (q.low.toNat, q.high.toNat)) = x.set.bounds hexValue) ∧
      ((∃ v ∈ x.set.values, ¬ IsHex v) → calledMethod x.text = none) ↔
    (∀ v ∈ x.set.values, IsHex v ∧ hexValue v ≤ 9) ∧ ∀ v, x.set = .alone v → hexValue v ≠ 0) ∧
    ∀ line m n, calledMethod line = some m → .HX n ∈ tokenizeStatement line →
      ∃ (effect : XpermEffect) (args : List (List Token)) (set : List Token),
        tokenizeStatement line = effect.token :: (args.flatten ++ .ID "ioctl".toList :: set) ∧
        .HX n ∉ args.flatten ∧ ∃ s t c p, m = effect.method s t c p ∧
          parseXperms set = .ok (p, []) := by
  refine ⟨?_, fun line m n => hex_in_set⟩
  have hcall := x.calledMethod_text
  have hinj : ∀ p, calledMethod x.text = some (x.effect.method x.src x.tgt x.cls p) ↔
      x.set.xperms = p := by
    intro p
    rw [hcall]
    cases x.effect <;> simp [XpermEffect.method]
  simp only [hinj, exists_eq_left']
  by_cases hhex : ∀ v ∈ x.set.values, IsHex v
  · have hnone : ¬ ∃ v ∈ x.set.values, ¬ IsHex v := by simpa using hhex
    have hle : (∀ v ∈ x.set.values, IsHex v ∧ hexValue v ≤ 9) ↔
        ∀ v ∈ x.set.values, hexValue v ≤ 9 :=
      forall_congr' fun v => forall_congr' fun hv => and_iff_right (hhex v hv)
    rw [imp_iff_right hhex, xperms_eq_bounds_iff hhex, hle]
    simp only [hnone, false_implies, and_true]
  · constructor
    · rintro ⟨-, h⟩
      have hnone := h (by simpa using hhex)
      rw [hcall] at hnone
      cases hnone
    · rintro ⟨h, -⟩
      exact absurd (fun v hv => (h v hv).1) hhex

/-- A set of two values, as a statement may have it. -/
def sampleXpermText : XpermText where
  effect := .allowed
  src := ["init".toList]
  tgt := []
  cls := ["dir".toList]
  head := "allowxperm init * dir ioctl".toList
  set := .braces none [' '] [(.value "7".toList, [' ']), (.range "0001".toList "5".toList, [])]
  trail := []
  args := [[.ID "init".toList], [.ST], [.ID "dir".toList]]
  head_tokens := by decide +kernel
  args_parsed := by simp [parseSterm_eq_ok]
  joined := trivial
  spaced := by simp [SetText.Spaced, IsSpace, isWhitespace]
  digits := by simp [SetText.values, SetItem.values, IsDigits, isWhitespace, separators]
  trail_space := by simp [IsSpace]

set_option maxRecDepth 10000 in
theorem xpermText_sample : ∃ p,
    calledMethod sampleXpermText.text =
      some (.allowxperm ["init".toList] [] ["dir".toList] p) ∧
    p.map (fun q => (q.low.toNat, q.high.toNat)) = [(7, 7), (1, 5)] := by
  have hv : ∀ v ∈ sampleXpermText.set.values, IsHex v ∧ hexValue v ≤ 9 := by decide +kernel
  have h := (xpermText_iff sampleXpermText).1.mpr ⟨hv, fun v hv => nomatch hv⟩
  exact h.1 fun v h' => (hv v h').1

set_option maxRecDepth 10000 in
/-- The example of the help text grants the code 0x22CE, and a value with a letter every code. -/
theorem xpermText_help :
    hexValue "8910".toList = 0x8910 ∧
      calledMethod "allowxperm init file dir ioctl 0x8910".toList =
        some (.allowxperm ["init".toList] ["file".toList] ["dir".toList]
          [⟨0x22CE, 0x22CE, false⟩]) ∧
      calledMethod "allowxperm init file dir ioctl 0x892A".toList =
        some (.allowxperm ["init".toList] ["file".toList] ["dir".toList] [⟨0, 0xFFFF, false⟩]) ∧
      calledMethod "allowxperm init file dir ioctl 0xyz".toList =
        some (.allowxperm ["init".toList] ["file".toList] ["dir".toList] [⟨0, 0xFFFF, false⟩]) := by
  refine ⟨?_, ?_, ?_, ?_⟩ <;> decide +kernel

end Magisk.Sepolicy
