import Magisk.Sepolicy.Statement
import Magisk.Words

namespace Magisk.Sepolicy

open List

variable {c : Char} {s a b n : Str} {t : Token}

/-- `str::parse` for `u16`: decimal digits after an optional plus. -/
def parseU16 (s : Str) : Option UInt16 :=
  let digits := if s.head? = some '+' then s.tail else s
  if digits ≠ [] ∧ digits.all Char.isDigit then
    let n := Nat.ofDigits 10 (digits.reverse.map fun c => c.toNat - '0'.toNat)
    if n < 2 ^ 16 then some (UInt16.ofNat n) else none
  else none

/-- The words that are tokens as a whole. -/
def keywords : List (Str × Token) :=
  [("allow".toList, .AL), ("deny".toList, .DN), ("auditallow".toList, .AA),
    ("dontaudit".toList, .DA), ("allowxperm".toList, .AX), ("auditallowxperm".toList, .AY),
    ("dontauditxperm".toList, .DX), ("permissive".toList, .PM), ("enforce".toList, .EF),
    ("typeattribute".toList, .TA), ("type".toList, .TY), ("attribute".toList, .AT),
    ("type_transition".toList, .TT), ("type_change".toList, .TC), ("type_member".toList, .TM),
    ("genfscon".toList, .GF), ("*".toList, .ST)]

/-- The characters that a word is split at, in the order in which they are searched. -/
def separators : List (Char × Token) := [('\x7b', .LB), ('\x7d', .RB), (',', .CM), ('-', .HP)]

/-- The separator that splits a word, with the parts before and after it. -/
def splitSeparator (s : Str) : Option (Str × Token × Str) :=
  separators.findSome? fun sep => (splitAtChar s sep.1).map fun p => (p.1, sep.2, p.2)

theorem splitSeparator_eq_some (h : splitSeparator s = some (a, t, b)) :
    ∃ c, (c, t) ∈ separators ∧ s = a ++ c :: b := by
  obtain ⟨sep, hsep, h⟩ := exists_of_findSome?_eq_some h
  obtain ⟨⟨a', b'⟩, hp, h⟩ := Option.map_eq_some_iff.mp h
  cases h
  exact ⟨sep.1, hsep, splitAtChar_eq_some hp⟩

theorem splitSeparator_eq_none : splitSeparator s = none ↔ ∀ sep ∈ separators, sep.1 ∉ s := by
  rw [splitSeparator, findSome?_eq_none_iff]
  refine forall_congr' fun sep => imp_congr_right fun _ => ?_
  rw [Option.map_eq_none_iff, splitAtChar]
  split_ifs with h <;> simp [h]

theorem splitSeparator_length (h : splitSeparator s = some (a, t, b)) :
    a.length < s.length ∧ b.length < s.length := by
  obtain ⟨c, -, rfl⟩ := splitSeparator_eq_some h
  rw [length_append, length_cons]
  omega

def extractToken (s : Str) : List Token :=
  match keywords.lookup s with
  | some t => [t]
  | none =>
    match _h : splitSeparator s with
    | some (a, t, b) => extractToken a ++ t :: extractToken b
    | none =>
      match s with
      | [] => []
      | '~' :: s => .TL :: extractToken s
      | '0' :: 'x' :: s => [.HX ((parseU16 s).getD 0)]
      | s => [.ID s]
termination_by s.length
decreasing_by
  · exact (splitSeparator_length _h).1
  · exact (splitSeparator_length _h).2
  · exact Nat.lt_succ_self _

def tokenizeStatement (s : Str) : List Token := (splitWhitespace s).flatMap extractToken

section Exec

variable (other : OtherMethod → Policydb → Policydb)

/-- A line that is a syntax error changes nothing. -/
def parseStatement (db : Policydb) (line : Str) : Policydb :=
  let statement := trim line
  if statement = [] ∨ statement.head? = some '#' then db
  else
    match execStatement other db (tokenizeStatement statement) with
    | .ok db => db
    | .error _ => db

/-- The lines that `read_line` returns, after the characters `line` of the first one. -/
def linesFrom (line : Str) : Str → List Str
  | [] => if line = [] then [] else [line]
  | c :: s => if c = '\n' then (line ++ [c]) :: linesFrom [] s else linesFrom (line ++ [c]) s

def loadRules (db : Policydb) (rules : Str) : Policydb :=
  (linesFrom [] rules).foldl (parseStatement other) db

end Exec

/-- The call that a statement ends in. -/
def parseTokens : List Token → Except ParseError Method
  | [] => .error .ShowHelp
  | action :: tokens => (parseAction action tokens).map Prod.fst

variable {ws : Str} (other : OtherMethod → Policydb → Policydb) (db : Policydb)

theorem execStatement_eq (tokens : List Token) :
    execStatement other db tokens = (parseTokens tokens).map fun m => m.call other db := by
  cases tokens with
  | nil => rfl
  | cons action tokens =>
    rw [execStatement, parseTokens]
    cases parseAction action tokens <;> rfl

theorem lookup_keywords_of_mem {sep : Char × Token} (hsep : sep ∈ separators)
    (hs : sep.1 ∈ s) : keywords.lookup s = none := by
  have hk : ∀ sep ∈ separators, ∀ k ∈ keywords, sep.1 ∉ k.1 := by decide
  rw [lookup_eq_none_iff]
  intro k hmem
  have hne : s ≠ k.1 := by
    intro h
    exact hk sep hsep k hmem (h ▸ hs)
  simpa using hne

theorem extractToken_of_split (h : splitSeparator s = some (a, t, b)) :
    extractToken s = extractToken a ++ t :: extractToken b := by
  obtain ⟨c, hsep, hs⟩ := splitSeparator_eq_some h
  have hk : keywords.lookup s = none := lookup_keywords_of_mem hsep (by simp [hs])
  rw [extractToken, hk]
  dsimp only
  split
  · rename_i h'
    rw [h] at h'
    cases h'
    rfl
  · rename_i h'
    rw [h] at h'
    cases h'

theorem separators_unique {t t' : Token} (h : (c, t) ∈ separators)
    (h' : (c, t') ∈ separators) : t = t' := by
  have hall : ∀ p ∈ separators, ∀ q ∈ separators, p.1 = q.1 → p.2 = q.2 := by decide
  exact hall _ h _ h' rfl

theorem extractToken_append (hsep : (c, t) ∈ separators) (a b : Str) :
    extractToken (a ++ c :: b) = extractToken a ++ t :: extractToken b := by
  induction hn : (a ++ c :: b).length using Nat.strong_induction_on generalizing a b c t with
  | _ n ih =>
  have hsome : splitSeparator (a ++ c :: b) ≠ none := by
    intro h
    exact splitSeparator_eq_none.mp h _ hsep (by simp)
  obtain ⟨⟨a', t', b'⟩, h⟩ := Option.ne_none_iff_exists'.mp hsome
  obtain ⟨c', hsep', hs⟩ := splitSeparator_eq_some h
  have hlen := congrArg List.length hs
  rw [extractToken_of_split h]
  subst hn
  -- the first separator is the one at `c`, or behind it, or before it
  rcases append_eq_append_iff.mp hs with ⟨x, rfl, hx⟩ | ⟨x, rfl, hx⟩
  · rcases x with _ | ⟨d, x⟩
    · obtain ⟨rfl, rfl⟩ := cons.inj hx
      rw [append_nil, separators_unique hsep hsep']
    · rw [cons_append] at hx
      obtain ⟨rfl, rfl⟩ := cons.inj hx
      simp only [length_append, length_cons] at hlen ih
      rw [ih _ (by omega) hsep a x rfl, ih _ (by omega) hsep' x b' rfl]
      simp
  · rcases x with _ | ⟨d, x⟩
    · obtain ⟨rfl, rfl⟩ := cons.inj hx
      rw [append_nil, separators_unique hsep hsep']
    · rw [cons_append] at hx
      obtain ⟨rfl, rfl⟩ := cons.inj hx
      simp only [length_append, length_cons] at hlen ih
      rw [ih _ (by omega) hsep' a' x rfl, ih _ (by omega) hsep x b rfl]
      simp

theorem lookup_keywords_of_head (h : ∀ k ∈ keywords, k.1.head? ≠ some c) (s : Str) :
    keywords.lookup (c :: s) = none := by
  rw [lookup_eq_none_iff]
  intro k hk
  have hne : c :: s ≠ k.1 := by
    intro he
    exact h k hk (he ▸ rfl)
  simpa using hne

@[simp] theorem extractToken_nil : extractToken [] = [] := by
  rw [extractToken]
  rfl

theorem extractToken_tilde (hs : ∀ sep ∈ separators, sep.1 ∉ s) :
    extractToken ('~' :: s) = .TL :: extractToken s := by
  have hk : keywords.lookup ('~' :: s) = none := lookup_keywords_of_head (by decide) _
  have hd : ∀ sep ∈ separators, sep.1 ≠ '~' := by decide
  have hn : splitSeparator ('~' :: s) = none := by
    rw [splitSeparator_eq_none]
    intro sep hsep
    simp [hd sep hsep, hs sep hsep]
  rw [extractToken, hk]
  dsimp only
  split
  · simp_all
  · rfl

theorem extractToken_hex (hs : ∀ sep ∈ separators, sep.1 ∉ s) :
    extractToken ('0' :: 'x' :: s) = [.HX ((parseU16 s).getD 0)] := by
  have hk : keywords.lookup ('0' :: 'x' :: s) = none := lookup_keywords_of_head (by decide) _
  have hd : ∀ sep ∈ separators, sep.1 ≠ '0' ∧ sep.1 ≠ 'x' := by decide
  have hn : splitSeparator ('0' :: 'x' :: s) = none := by
    rw [splitSeparator_eq_none]
    intro sep hsep
    simp [hd sep hsep, hs sep hsep]
  rw [extractToken, hk]
  dsimp only
  split
  · simp_all
  · rfl

/-- The words that are read as one name. -/
def IsName (s : Str) : Prop :=
  s ≠ [] ∧ keywords.lookup s = none ∧ (∀ sep ∈ separators, sep.1 ∉ s) ∧
    s.head? ≠ some '~' ∧ ¬ ['0', 'x'] <+: s

theorem extractToken_name (h : IsName s) : extractToken s = [.ID s] := by
  obtain ⟨h0, hk, hsep, ht, hx⟩ := h
  have hn := splitSeparator_eq_none.mpr hsep
  rw [extractToken, hk]
  dsimp only
  split
  · simp_all
  · split
    · exact absurd rfl h0
    · exact absurd rfl ht
    · exact absurd (prefix_append _ _) hx
    · rfl

theorem extractToken_keyword (h : keywords.lookup s = some t) : extractToken s = [t] := by
  rw [extractToken, h]

theorem mem_keywords (h : keywords.lookup s = some t) : (s, t) ∈ keywords := by
  obtain ⟨l, l', he, -⟩ := lookup_eq_some_iff.mp h
  rw [he]
  exact mem_append_right _ mem_cons_self

theorem extractToken_cases (s : Str) :
    (s = [] ∧ extractToken s = []) ∨
    (∃ t, keywords.lookup s = some t ∧ extractToken s = [t]) ∨
    (∃ a c t b, (c, t) ∈ separators ∧ s = a ++ c :: b ∧
      extractToken s = extractToken a ++ t :: extractToken b) ∨
    (∃ s', s = '~' :: s' ∧ extractToken s = .TL :: extractToken s') ∨
    (∃ s', s = '0' :: 'x' :: s' ∧ extractToken s = [.HX ((parseU16 s').getD 0)]) ∨
    (IsName s ∧ extractToken s = [.ID s]) := by
  by_cases h0 : s = []
  · exact .inl ⟨h0, h0 ▸ extractToken_nil⟩
  cases hk : keywords.lookup s with
  | some t => exact .inr (.inl ⟨t, rfl, extractToken_keyword hk⟩)
  | none =>
    cases hs : splitSeparator s with
    | some p =>
      obtain ⟨c, hsep, he⟩ := splitSeparator_eq_some hs
      exact .inr (.inr (.inl ⟨p.1, c, p.2.1, p.2.2, hsep, he, extractToken_of_split hs⟩))
    | none =>
      have hsep := splitSeparator_eq_none.mp hs
      by_cases ht : s.head? = some '~'
      · obtain ⟨s', rfl⟩ := head?_eq_some_iff.mp ht
        refine .inr (.inr (.inr (.inl ⟨s', rfl, extractToken_tilde ?_⟩)))
        exact fun sep h hm => hsep sep h (mem_cons_of_mem _ hm)
      by_cases hx : ['0', 'x'] <+: s
      · obtain ⟨s', rfl⟩ := hx
        refine .inr (.inr (.inr (.inr (.inl ⟨s', rfl, extractToken_hex ?_⟩))))
        exact fun sep h hm => hsep sep h (mem_append_right _ hm)
      have hname : IsName s := ⟨h0, hk, hsep, ht, hx⟩
      exact .inr (.inr (.inr (.inr (.inr ⟨hname, extractToken_name hname⟩))))

theorem extractToken_ne_nil (h : s ≠ []) : extractToken s ≠ [] := by
  rcases extractToken_cases s with ⟨h0, -⟩ | ⟨t, -, he⟩ | ⟨a, c, t, b, -, -, he⟩ | ⟨s', -, he⟩ |
    ⟨s', -, he⟩ | ⟨-, he⟩
  · exact absurd h0 h
  all_goals simp [he]

theorem keywords_ne_id : ∀ k ∈ keywords, ∀ n, k.2 ≠ .ID n := by simp [keywords]

theorem separators_ne_id : ∀ sep ∈ separators, ∀ n, sep.2 ≠ .ID n := by simp [separators]

theorem extractToken_eq_id_iff : extractToken s = [.ID n] ↔ IsName s ∧ n = s := by
  constructor
  · intro h
    rcases extractToken_cases s with ⟨-, he⟩ | ⟨t, hk, he⟩ | ⟨a, c, t, b, hsep, -, he⟩ |
      ⟨s', -, he⟩ | ⟨s', -, he⟩ | ⟨hname, he⟩
    · simp [he] at h
    · rw [he, singleton_inj] at h
      exact absurd h (keywords_ne_id _ (mem_keywords hk) n)
    · have hm : t ∈ extractToken s := by simp [he]
      rw [h, mem_singleton] at hm
      exact absurd hm (separators_ne_id _ hsep n)
    · simp [he] at h
    · simp [he] at h
    · rw [he, singleton_inj] at h
      exact ⟨hname, (Token.ID.inj h).symm⟩
  · rintro ⟨h, rfl⟩
    exact extractToken_name h

theorem ne_nil_of_mem_extractToken (h : .ID n ∈ extractToken s) : n ≠ [] := by
  induction hl : s.length using Nat.strong_induction_on generalizing s with
  | _ l ih =>
  have hkey : ∀ k ∈ keywords, ∀ n, .ID n ≠ k.2 := by simp [keywords]
  have hsepId : ∀ sep ∈ separators, ∀ n, .ID n ≠ sep.2 := by simp [separators]
  rcases extractToken_cases s with ⟨-, he⟩ | ⟨t, hk, he⟩ | ⟨a, c, t, b, hsep, hs, he⟩ |
    ⟨s', hs, he⟩ | ⟨s', -, he⟩ | ⟨hname, he⟩
  · simp [he] at h
  · rw [he, mem_singleton] at h
    exact absurd h (hkey _ (mem_keywords hk) n)
  · have hlen := congrArg List.length hs
    simp only [length_append, length_cons] at hlen
    rw [he, mem_append, mem_cons] at h
    rcases h with h | h | h
    · exact ih _ (by omega) h rfl
    · exact absurd h (hsepId _ hsep n)
    · exact ih _ (by omega) h rfl
  · have hlen := congrArg List.length hs
    rw [length_cons] at hlen
    simp only [he, mem_cons, reduceCtorEq, false_or] at h
    exact ih _ (by omega) h rfl
  · simp [he] at h
  · rw [he, mem_singleton] at h
    cases h
    exact hname.1

theorem tokenizeStatement_nil : tokenizeStatement [] = [] := rfl

/-- The tokens after the characters `word` of a word. -/
def tokensFrom (word s : Str) : List Token := (splitWords word s).flatMap extractToken

theorem tokensFrom_nil (word : Str) : tokensFrom word [] = extractToken word := by
  unfold tokensFrom splitWords
  split_ifs with h <;> simp [h]

theorem tokensFrom_space (hc : isWhitespace c) (word s : Str) :
    tokensFrom word (c :: s) = extractToken word ++ tokensFrom [] s := by
  rw [← tokensFrom_nil word]
  simp [tokensFrom, splitWords, hc]

theorem tokensFrom_char (hc : ¬ isWhitespace c) (word s : Str) :
    tokensFrom word (c :: s) = tokensFrom (word ++ [c]) s := by
  simp [tokensFrom, splitWords, hc]

theorem tokensFrom_append_space (hc : isWhitespace c) (word x y : Str) :
    tokensFrom word (x ++ c :: y) = tokensFrom word x ++ tokensFrom [] y := by
  induction x generalizing word with
  | nil => rw [nil_append, tokensFrom_space hc, tokensFrom_nil]
  | cons d x ih =>
    rw [cons_append]
    by_cases hd : isWhitespace d
    · rw [tokensFrom_space hd, tokensFrom_space hd, ih, append_assoc]
    · rw [tokensFrom_char hd, tokensFrom_char hd, ih]

theorem tokensFrom_word_append (hsep : (c, t) ∈ separators) (word z y : Str) :
    tokensFrom (word ++ c :: z) y = extractToken word ++ t :: tokensFrom z y := by
  induction y generalizing z with
  | nil => rw [tokensFrom_nil, tokensFrom_nil, extractToken_append hsep]
  | cons d y ih =>
    by_cases hd : isWhitespace d
    · rw [tokensFrom_space hd, tokensFrom_space hd, extractToken_append hsep]
      simp
    · rw [tokensFrom_char hd, tokensFrom_char hd, append_assoc, cons_append, ih]

theorem not_isWhitespace_of_separator (hsep : (c, t) ∈ separators) : ¬ isWhitespace c := by
  have hall : ∀ sep ∈ separators, ¬ isWhitespace sep.1 := by decide
  exact hall _ hsep

theorem tokensFrom_append_separator (hsep : (c, t) ∈ separators) (word x y : Str) :
    tokensFrom word (x ++ c :: y) = tokensFrom word x ++ t :: tokensFrom [] y := by
  induction x generalizing word with
  | nil =>
    rw [nil_append, tokensFrom_char (not_isWhitespace_of_separator hsep),
      tokensFrom_word_append hsep, tokensFrom_nil]
  | cons d x ih =>
    rw [cons_append]
    by_cases hd : isWhitespace d
    · rw [tokensFrom_space hd, tokensFrom_space hd, ih, append_assoc]
    · rw [tokensFrom_char hd, tokensFrom_char hd, ih]

theorem tokenizeStatement_space (hc : isWhitespace c) (x y : Str) :
    tokenizeStatement (x ++ c :: y) = tokenizeStatement x ++ tokenizeStatement y :=
  tokensFrom_append_space hc [] x y

theorem tokenizeStatement_separator (hsep : (c, t) ∈ separators) (x y : Str) :
    tokenizeStatement (x ++ c :: y) = tokenizeStatement x ++ t :: tokenizeStatement y :=
  tokensFrom_append_separator hsep [] x y

theorem tokenizeStatement_word {w : Str} (hw : ∀ c ∈ w, ¬ isWhitespace c) :
    tokenizeStatement w = extractToken w := by
  have h : ∀ word, tokensFrom word w = extractToken (word ++ w) := by
    induction w with
    | nil =>
      intro word
      rw [tokensFrom_nil, append_nil]
    | cons c w ih =>
      intro word
      have hc := hw c mem_cons_self
      rw [tokensFrom_char hc, ih (fun d hd => hw d (mem_cons_of_mem c hd)), append_assoc]
      rfl
  exact h []

theorem tokenizeStatement_spaces_append (hws : ∀ c ∈ ws, isWhitespace c) (s : Str) :
    tokenizeStatement (ws ++ s) = tokenizeStatement s := by
  induction ws with
  | nil => rfl
  | cons c ws ih =>
    have h := tokenizeStatement_space (hws c mem_cons_self) [] (ws ++ s)
    rw [cons_append]
    rw [nil_append] at h
    rw [h, tokenizeStatement_nil, nil_append, ih]
    exact fun d hd => hws d (mem_cons_of_mem c hd)

theorem tokenizeStatement_append_spaces (hws : ∀ c ∈ ws, isWhitespace c) (s : Str) :
    tokenizeStatement (s ++ ws) = tokenizeStatement s := by
  cases ws with
  | nil => rw [append_nil]
  | cons c ws =>
    have hs := tokenizeStatement_spaces_append
      (fun d hd => hws d (mem_cons_of_mem c hd)) []
    rw [append_nil] at hs
    rw [tokenizeStatement_space (hws c mem_cons_self), hs, tokenizeStatement_nil,
      append_nil]

theorem tokenizeStatement_trim (s : Str) : tokenizeStatement (trim s) = tokenizeStatement s := by
  set u := s.dropWhile isWhitespace with hu
  have hlead : ∀ c ∈ s.takeWhile isWhitespace, isWhitespace c := fun _ => mem_takeWhile_imp
  have htrail : ∀ c ∈ u.rtakeWhile isWhitespace, isWhitespace c := by
    intro c hc
    exact mem_rtakeWhile_imp hc
  have hs := tokenizeStatement_spaces_append hlead u
  rw [hu, takeWhile_append_dropWhile] at hs
  have ht := tokenizeStatement_append_spaces htrail (u.rdropWhile isWhitespace)
  rw [rdropWhile_append_rtakeWhile] at ht
  rw [hs, trim, ← ht]

theorem ne_nil_of_mem_tokenizeStatement (h : .ID n ∈ tokenizeStatement s) : n ≠ [] := by
  obtain ⟨w, -, hw⟩ := mem_flatMap.mp h
  exact ne_nil_of_mem_extractToken hw

theorem extractToken_hash (s : Str) : ∃ n l, extractToken ('#' :: s) = .ID n :: l := by
  induction hl : s.length using Nat.strong_induction_on generalizing s with
  | _ l ih =>
  have hk : keywords.lookup ('#' :: s) = none := lookup_keywords_of_head (by decide) s
  have hd : ∀ sep ∈ separators, sep.1 ≠ '#' := by decide
  rcases extractToken_cases ('#' :: s) with ⟨h, -⟩ | ⟨t, h, -⟩ | ⟨a, c, t, b, hsep, hs, he⟩ |
    ⟨s', h, -⟩ | ⟨s', h, -⟩ | ⟨-, he⟩
  · cases h
  · rw [hk] at h
    cases h
  · rcases a with _ | ⟨d, a⟩
    · exact absurd (cons.inj hs).1.symm (hd _ hsep)
    · rw [cons_append] at hs
      obtain ⟨rfl, rfl⟩ := cons.inj hs
      simp only [length_append, length_cons] at hl
      obtain ⟨n, l', ha⟩ := ih a.length (by omega) a rfl
      exact ⟨n, l' ++ t :: extractToken b, by rw [he, ha, cons_append]⟩
  · cases h
  · cases h
  · exact ⟨_, [], he⟩

theorem tokenizeStatement_hash (s : Str) : ∃ n l, tokenizeStatement ('#' :: s) = .ID n :: l := by
  have h : ∀ word, ∃ n l, tokensFrom ('#' :: word) s = .ID n :: l := by
    induction s with
    | nil =>
      intro word
      rw [tokensFrom_nil]
      exact extractToken_hash word
    | cons c s ih =>
      intro word
      by_cases hc : isWhitespace c
      · obtain ⟨n, l, hw⟩ := extractToken_hash word
        exact ⟨n, l ++ tokensFrom [] s, by rw [tokensFrom_space hc, hw, cons_append]⟩
      · rw [tokensFrom_char hc]
        exact ih (word ++ [c])
  obtain ⟨n, l, hs⟩ := h []
  refine ⟨n, l, ?_⟩
  rw [← hs]
  exact tokensFrom_char (by decide) [] s

/-- The call that a line ends in. -/
def calledMethod (line : Str) : Option Method := (parseTokens (tokenizeStatement line)).toOption

theorem parseStatement_eq (line : Str) :
    parseStatement other db line = (calledMethod line).elim db fun m => m.call other db := by
  have htrim := tokenizeStatement_trim line
  rw [calledMethod, ← htrim]
  unfold parseStatement
  dsimp only
  split_ifs with h
  · have hnone : (parseTokens (tokenizeStatement (trim line))).toOption = none := by
      rcases h with h | h
      · rw [h]
        rfl
      · obtain ⟨s, hs⟩ := head?_eq_some_iff.mp h
        obtain ⟨n, l, ht⟩ := tokenizeStatement_hash s
        rw [hs, ht]
        rfl
    rw [hnone]
    rfl
  · rw [execStatement_eq]
    cases parseTokens (tokenizeStatement (trim line)) <;> rfl

end Magisk.Sepolicy
