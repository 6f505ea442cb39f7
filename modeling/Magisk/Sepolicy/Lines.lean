import Magisk.Sepolicy.Grammar
import Magisk.Sepolicy.Tokenizer

namespace Magisk.Sepolicy

open List

def wordsLine (words : List Str) : Str := List.intercalate [' '] words

theorem tokenizeStatement_wordsLine {words : List Str}
    (h : ∀ w ∈ words, ∀ c ∈ w, ¬ isWhitespace c) :
    tokenizeStatement (wordsLine words) = words.flatMap extractToken := by
  induction words with
  | nil => rfl
  | cons w words ih =>
    have hw := tokenizeStatement_word (h w mem_cons_self)
    cases words with
    | nil => rw [wordsLine, intercalate_singleton, hw, flatMap_singleton]
    | cons w' words =>
      have hl : wordsLine (w :: w' :: words) = w ++ ' ' :: wordsLine (w' :: words) := by
        simp [wordsLine, intercalate_cons_cons]
      rw [hl, tokenizeStatement_space (by decide), hw, flatMap_cons,
        ih fun w' hw' => h w' (mem_cons_of_mem w hw')]


/-- A word without braces. -/
def IsWord (s : Str) : Prop :=
  s ≠ [] ∧ (∀ c ∈ s, ¬ isWhitespace c) ∧ '\x7b' ∉ s ∧ '\x7d' ∉ s

/-- A word that the tokenizer does not split or read as something else than a name. -/
def Verbatim (s : Str) : Prop :=
  ',' ∉ s ∧ '-' ∉ s ∧ s.head? ≠ some '~' ∧ ¬ "0x".toList <+: s ∧ s ∉ keywords.map Prod.fst

theorem isName_iff {s : Str} (h : IsWord s) : IsName s ↔ Verbatim s := by
  have hk : keywords.lookup s = none ↔ s ∉ keywords.map Prod.fst := by
    rw [lookup_eq_none_iff, List.mem_map]
    constructor
    · rintro h ⟨k, hk, rfl⟩
      simpa using h k hk
    · intro h k hk
      have hne : s ≠ k.1 := fun he => h ⟨k, hk, he.symm⟩
      simpa using hne
  obtain ⟨h0, -, hl, hr⟩ := h
  have hx : "0x".toList = ['0', 'x'] := rfl
  unfold IsName Verbatim
  simp only [separators, forall_mem_cons, hk, hx]
  simp [h0, hl, hr]
  tauto

variable {tokens rest : List Token} {m : Method} {action : Token} {args : List Str}

theorem parseAction_genfscon :
    parseAction .GF tokens = .ok (m, rest) ↔ ∃ s t c, tokens = [.ID s, .ID t, .ID c] ∧
      m = .other (.genfscon s t c) ∧ rest = [] := by
  unfold parseAction
  simp only [orError_eq_ok, parser_bind_eq_ok, parseId_eq_ok, checkAdditionalArgs_eq_ok,
    parser_pure_eq_ok]
  constructor
  · rintro ⟨s, l, rfl, t, l', rfl, c, l'', rfl, u, l''', ⟨rfl, rfl⟩, rfl, rfl⟩
    exact ⟨s, t, c, rfl, rfl, rfl⟩
  · rintro ⟨s, t, c, rfl, rfl, rfl⟩
    exact ⟨s, _, rfl, t, _, rfl, c, _, rfl, (), [], ⟨rfl, rfl⟩, rfl, rfl⟩

theorem parseAction_typeTransition {s t c d o : Str} (ho : o ≠ []) :
    parseAction .TT tokens = .ok (.other (.typeTransition s t c d o), rest) ↔
      tokens = [.ID s, .ID t, .ID c, .ID d, .ID o] ∧ rest = [] := by
  constructor
  · intro h
    unfold parseAction at h
    simp only [orError_eq_ok, parser_bind_eq_ok, parseId_eq_ok] at h
    obtain ⟨s', l₁, rfl, t', l₂, rfl, c', l₃, rfl, d', l₄, rfl, p, l₅, hp, h⟩ := h
    -- the object name is read when a token is left
    cases l₄ with
    | nil =>
      cases hp
      cases h
      exact absurd rfl ho
    | cons x l₄ =>
      cases hp
      change (do
        let o ← parseId
        checkAdditionalArgs
        return .other (.typeTransition s' t' c' d' o) : Parser Method) (x :: l₄) = _ at h
      simp only [parser_bind_eq_ok, parseId_eq_ok, checkAdditionalArgs_eq_ok,
        parser_pure_eq_ok] at h
      obtain ⟨o', l₆, hx, u, l₇, ⟨rfl, rfl⟩, hm, rfl⟩ := h
      cases hx
      cases hm
      exact ⟨rfl, rfl⟩
  · rintro ⟨rfl, rfl⟩
    rfl

theorem calledMethod_eq_some {line : Str} (h : tokenizeStatement line = action :: tokens) :
    calledMethod line = some m ↔ ∃ rest, parseAction action tokens = .ok (m, rest) := by
  rw [calledMethod, h, parseTokens]
  cases parseAction action tokens with
  | error e => simp [Except.map, Except.toOption]
  | ok r => simp [Except.map, Except.toOption, Prod.ext_iff]

theorem flatMap_extractToken_iff (h : ∀ a ∈ args, a ≠ []) :
    args.flatMap extractToken = args.map .ID ↔ ∀ a ∈ args, IsName a := by
  rw [flatMap_eq_map_iff fun a ha => extractToken_ne_nil (h a ha)]
  refine forall_congr' fun a => imp_congr_right fun _ => ?_
  rw [extractToken_eq_id_iff, and_iff_left rfl]

theorem tokenizeStatement_statement {action : Str} {t : Token}
    (hk : keywords.lookup action = some t)
    (h : ∀ w ∈ action :: args, ∀ c ∈ w, ¬ isWhitespace c) :
    tokenizeStatement (wordsLine (action :: args)) = t :: args.flatMap extractToken := by
  rw [tokenizeStatement_wordsLine h, flatMap_cons, extractToken_keyword hk]
  rfl

theorem args_tokens_iff {action : Str} {t : Token} (hk : keywords.lookup action = some t)
    (ha : ∀ c ∈ action, ¬ isWhitespace c) (h : ∀ a ∈ args, IsWord a) :
    ∃ tokens, tokenizeStatement (wordsLine (action :: args)) = t :: tokens ∧
      (tokens = args.map .ID ↔ ∀ a ∈ args, Verbatim a) := by
  have hw : ∀ w ∈ action :: args, ∀ c ∈ w, ¬ isWhitespace c :=
    forall_mem_cons.mpr ⟨ha, fun a h' => (h a h').2.1⟩
  refine ⟨args.flatMap extractToken, tokenizeStatement_statement hk hw, ?_⟩
  rw [flatMap_extractToken_iff fun a h' => (h a h').1]
  exact forall_congr' fun a => forall_congr' fun h' => isName_iff (h a h')

/-- The lines carry their arguments verbatim exactly when these have no comma or hyphen, do not
begin like a complement or a number, and are no keywords. -/
theorem calledMethod_verbatim_iff {fs path context s t c d o : Str} (hfs : IsWord fs)
    (hpath : IsWord path) (hcontext : IsWord context) (ho : IsWord o)
    (hs : IsWord s ∧ IsName s) (ht : IsWord t ∧ IsName t) (hc : IsWord c ∧ IsName c)
    (hd : IsWord d ∧ IsName d) :
    (calledMethod (wordsLine ["genfscon".toList, fs, path, context]) =
        some (.other (.genfscon fs path context)) ↔
      Verbatim fs ∧ Verbatim path ∧ Verbatim context) ∧
    (calledMethod (wordsLine ["type_transition".toList, s, t, c, d, o]) =
        some (.other (.typeTransition s t c d o)) ↔ Verbatim o) := by
  constructor
  · have hk : keywords.lookup "genfscon".toList = some .GF := by decide
    have hargs : ∀ a ∈ [fs, path, context], IsWord a := by simp [hfs, hpath, hcontext]
    obtain ⟨tokens, htok, h⟩ := args_tokens_iff hk (by simp [isWhitespace]) hargs
    have hv : (∀ a ∈ [fs, path, context], Verbatim a) ↔
        Verbatim fs ∧ Verbatim path ∧ Verbatim context := by simp
    rw [calledMethod_eq_some htok, ← hv, ← h]
    simp only [parseAction_genfscon]
    constructor
    · rintro ⟨rest, s', t', c', rfl, hm, -⟩
      cases hm
      rfl
    · rintro rfl
      exact ⟨[], fs, path, context, rfl, rfl, rfl⟩
  · have hk : keywords.lookup "type_transition".toList = some .TT := by decide
    have hargs : ∀ a ∈ [s, t, c, d, o], IsWord a := by simp [hs, ht, hc, hd, ho]
    obtain ⟨tokens, htok, h⟩ := args_tokens_iff hk (by simp [isWhitespace]) hargs
    have hv : (∀ a ∈ [s, t, c, d, o], Verbatim a) ↔ Verbatim o := by
      have hname : ∀ {a : Str}, IsWord a ∧ IsName a → Verbatim a := fun h => (isName_iff h.1).mp h.2
      simp [hname hs, hname ht, hname hc, hname hd]
    rw [calledMethod_eq_some htok, ← hv, ← h]
    simp only [parseAction_typeTransition ho.1]
    constructor
    · rintro ⟨rest, rfl, -⟩
      rfl
    · rintro rfl
      exact ⟨[], rfl, rfl⟩

theorem calledMethod_verbatim_proc :
    calledMethod (wordsLine ["genfscon".toList, "proc".toList, "/fs".toList,
        "u:object_r:proc:s0".toList]) =
      some (.other (.genfscon "proc".toList "/fs".toList "u:object_r:proc:s0".toList)) := by
  have hw : ∀ w ∈ ["proc".toList, "/fs".toList, "u:object_r:proc:s0".toList, "init".toList],
      IsWord w ∧ Verbatim w := by
    simp [IsWord, isWhitespace, Verbatim, keywords]
  simp only [forall_mem_cons] at hw
  obtain ⟨hfs, hpath, hcontext, hname, -⟩ := hw
  have hid := And.intro hname.1 ((isName_iff hname.1).mpr hname.2)
  exact (calledMethod_verbatim_iff hfs.1 hpath.1 hcontext.1 hfs.1 hid hid hid hid).1.mpr
    ⟨hfs.2, hpath.2, hcontext.2⟩

set_option maxRecDepth 10000 in
/-- A context with two categories is split at the comma, and a file name at the hyphen. -/
theorem calledMethod_verbatim_categories :
    IsWord "u:object_r:x:s0:c1,c2".toList ∧ IsWord "wpa-socket".toList ∧
      calledMethod "genfscon proc /fs u:object_r:x:s0:c1,c2".toList = none ∧
      calledMethod "type_transition init file dir file wpa-socket".toList = none := by
  refine ⟨?_, ?_, by decide +kernel, by decide +kernel⟩
  · simp [IsWord, isWhitespace]
  · simp [IsWord, isWhitespace]

/-- The arguments of the rules on access vectors and of the statements on type states. -/
def Method.sterms : Method → List (List Str)
  | .allow s t c p => [s, t, c, p]
  | .deny s t c p => [s, t, c, p]
  | .auditallow s t c p => [s, t, c, p]
  | .dontaudit s t c p => [s, t, c, p]
  | .other (.permissive t) => [t]
  | .other (.enforce t) => [t]
  | _ => []

/-- One of the names that `expand` goes through is empty, and so stands for all types, classes or
permissions. -/
def MatchesAll (v : List Str) : Prop := [] ∈ expandVec v

theorem tokens_of_parseSterm {v : List Str} (h : parseSterm tokens = .ok (v, rest)) :
    ∃ a, tokens = a ++ rest ∧ parseSterm a = .ok (v, []) := by
  rcases parseSterm_eq_ok.mp h with ⟨n, rfl, rfl⟩ | ⟨rfl, rfl⟩ | ⟨names, rfl, rfl⟩
  · exact ⟨[.ID n], rfl, rfl⟩
  · exact ⟨[.ST], rfl, rfl⟩
  · refine ⟨setTokens names, rfl, parseSterm_eq_ok.mpr (.inr (.inr ⟨names, ?_, rfl⟩))⟩
    rw [append_nil]

theorem avStatement_args {method : List Str → List Str → List Str → List Str → Method}
    (h : avStatement action method tokens = .ok (m, rest)) :
    ∃ s t c p args, m = method s t c p ∧ tokens = args.flatten ∧
      List.Forall₂ (fun a v => parseSterm a = .ok (v, [])) args [s, t, c, p] := by
  unfold avStatement at h
  simp only [orError_eq_ok, parser_bind_eq_ok, checkAdditionalArgs_eq_ok, parser_pure_eq_ok] at h
  obtain ⟨s, l₁, hs, t, l₂, ht, c, l₃, hc, p, l₄, hp, u, l₅, ⟨rfl, rfl⟩, rfl, -⟩ := h
  obtain ⟨a₁, rfl, h₁⟩ := tokens_of_parseSterm hs
  obtain ⟨a₂, rfl, h₂⟩ := tokens_of_parseSterm ht
  obtain ⟨a₃, rfl, h₃⟩ := tokens_of_parseSterm hc
  obtain ⟨a₄, rfl, h₄⟩ := tokens_of_parseSterm hp
  exact ⟨s, t, c, p, [a₁, a₂, a₃, a₄], rfl, by simp, by simp [h₁, h₂, h₃, h₄]⟩

theorem stateStatement_args {method : List Str → OtherMethod}
    (h : stateStatement action method tokens = .ok (m, rest)) :
    ∃ t, m = .other (method t) ∧ parseSterm tokens = .ok (t, []) := by
  unfold stateStatement at h
  simp only [orError_eq_ok, parser_bind_eq_ok, checkAdditionalArgs_eq_ok, parser_pure_eq_ok] at h
  obtain ⟨t, l, ht, u, l', ⟨rfl, rfl⟩, rfl, -⟩ := h
  exact ⟨t, rfl, ht⟩

theorem args_of_parseAction (ha : action ∈ [Token.AL, .DN, .AA, .DA, .PM, .EF])
    (h : parseAction action tokens = .ok (m, rest)) :
    ∃ args, tokens = args.flatten ∧
      List.Forall₂ (fun a v => parseSterm a = .ok (v, [])) args m.sterms := by
  simp only [mem_cons, not_mem_nil, or_false] at ha
  have hav : ∀ method, (∀ s t c p, (method s t c p).sterms = [s, t, c, p]) →
      avStatement action method tokens = .ok (m, rest) → ∃ args, tokens = args.flatten ∧
        List.Forall₂ (fun a v => parseSterm a = .ok (v, [])) args m.sterms := by
    intro method hm h
    obtain ⟨s, t, c, p, args, rfl, hargs, hv⟩ := avStatement_args h
    exact ⟨args, hargs, hm s t c p ▸ hv⟩
  have hstate : ∀ method, (∀ t, (Method.other (method t)).sterms = [t]) →
      stateStatement action method tokens = .ok (m, rest) → ∃ args, tokens = args.flatten ∧
        List.Forall₂ (fun a v => parseSterm a = .ok (v, [])) args m.sterms := by
    intro method hm h
    obtain ⟨t, rfl, ht⟩ := stateStatement_args h
    exact ⟨[tokens], by simp, by simp [hm, ht]⟩
  rcases ha with rfl | rfl | rfl | rfl | rfl | rfl
  · exact hav .allow (fun _ _ _ _ => rfl) h
  · exact hav .deny (fun _ _ _ _ => rfl) h
  · exact hav .auditallow (fun _ _ _ _ => rfl) h
  · exact hav .dontaudit (fun _ _ _ _ => rfl) h
  · exact hstate .permissive (fun _ => rfl) h
  · exact hstate .enforce (fun _ => rfl) h

theorem nameToken_mem_setTokens {names : List (Option Str)} {n : Option Str} :
    nameToken n ∈ setTokens names ↔ n ∈ names := by
  have hb : nameToken n ≠ .LB ∧ nameToken n ≠ .RB := by cases n <;> simp [nameToken]
  rw [setTokens, mem_append, mem_cons, mem_singleton,
    List.mem_map_of_injective nameToken_injective]
  simp [hb]

theorem setTokens_eq_braces {names : List (Option Str)} :
    setTokens names = [.LB, .RB] ↔ names = [] := by
  constructor
  · intro h
    have hl := congrArg List.length h
    simp only [setTokens, length_append, length_cons, length_map,
      length_nil] at hl
    exact eq_nil_of_length_eq_zero (by omega)
  · rintro rfl
    rfl

theorem matchesAll_imp_star_iff {a : List Token} {v : List Str} (h : parseSterm a = .ok (v, []))
    (hid : ∀ n, .ID n ∈ a → n ≠ []) : (MatchesAll v → .ST ∈ a) ↔ a ≠ [.LB, .RB] := by
  have hvec : ∀ v : List Str, [] ∈ expandVec v ↔ v = [] ∨ [] ∈ v := by
    intro v
    unfold expandVec
    split_ifs with hv <;> simp [hv]
  unfold MatchesAll
  rw [hvec]
  rcases parseSterm_eq_ok.mp h with ⟨n, rfl, rfl⟩ | ⟨rfl, rfl⟩ | ⟨names, ha, rfl⟩
  · have hn := hid n mem_cons_self
    simp [Ne.symm hn]
  · simp
  rw [append_nil] at ha
  subst ha
  have hst : Token.ST ∈ setTokens names ↔ none ∈ names :=
    nameToken_mem_setTokens (n := none)
  rw [hst, Ne, setTokens_eq_braces, namesUntilStar]
  split_ifs with hstar
  · have h0 : names ≠ [] := ne_nil_of_mem hstar
    simp [hstar, h0]
  · have hempty : [] ∉ names.reduceOption := by
      rw [reduceOption_mem_iff]
      intro hm
      exact hid [] (nameToken_mem_setTokens (n := some []).mpr hm) rfl
    have hnil : names.reduceOption = [] ↔ names = [] := by
      cases names with
      | nil => simp
      | cons n names =>
        cases n with
        | none => simp at hstar
        | some n => simp
    simp [hstar, hempty, hnil]

theorem args_matchesAll_iff {args : List (List Token)} {vs : List (List Str)}
    (h : List.Forall₂ (fun a v => parseSterm a = .ok (v, [])) args vs)
    (hid : ∀ a ∈ args, ∀ n, .ID n ∈ a → n ≠ []) :
    List.Forall₂ (fun a v => MatchesAll v → .ST ∈ a) args vs ↔ [.LB, .RB] ∉ args := by
  induction h with
  | nil => simp
  | cons h _ ih =>
    have hhead := matchesAll_imp_star_iff h (hid _ mem_cons_self)
    have htail := ih fun a ha => hid a (mem_cons_of_mem _ ha)
    simp only [forall₂_cons, hhead, htail, mem_cons, not_or, ne_comm]

/-- What `parse_term` and `parse_sterm` have beyond their grammars, and that empty braces are the
one argument of a statement that matches all without the operator. -/
theorem term_grammar_iff (tokens : List Token) :
    (Follows parseTerm TermPhrase tokens ↔ ¬ [.LB, .RB] <+: tokens) ∧
    (Follows parseSterm StermPhrase tokens ↔ ∀ names, setTokens names <+: tokens →
      names ≠ [] ∧ (none ∈ names → names.getLast? = some none)) ∧
    ∀ line action m, tokenizeStatement line = action :: tokens →
      action ∈ [Token.AL, .DN, .AA, .DA, .PM, .EF] → calledMethod line = some m →
      ∃ args, tokens = args.flatten ∧
        List.Forall₂ (fun a v => parseSterm a = .ok (v, [])) args m.sterms ∧
        (List.Forall₂ (fun a v => MatchesAll v → .ST ∈ a) args m.sterms ↔ [.LB, .RB] ∉ args) := by
  refine ⟨follows_parseTerm_iff tokens, follows_parseSterm_iff tokens, ?_⟩
  intro line action m htok ha hm
  obtain ⟨rest, hp⟩ := (calledMethod_eq_some htok).mp hm
  obtain ⟨args, rfl, hargs⟩ := args_of_parseAction ha hp
  refine ⟨args, rfl, hargs, ?_⟩
  -- the names of a text are not empty
  have hid : ∀ a ∈ args, ∀ n, .ID n ∈ a → n ≠ [] := by
    intro a ha n hn
    apply ne_nil_of_mem_tokenizeStatement (s := line)
    rw [htok]
    exact mem_cons_of_mem _ (mem_flatten.mpr ⟨a, ha, hn⟩)
  exact args_matchesAll_iff hargs hid

set_option maxRecDepth 10000 in
theorem term_grammar_allow : ∃ args, [.ID "init".toList, .ST, .ID "dir".toList, .LB,
      .ID "search".toList, .RB] = args.flatten ∧
    List.Forall₂ (fun a v => parseSterm a = .ok (v, [])) args
      [["init".toList], [], ["dir".toList], ["search".toList]] ∧
    (List.Forall₂ (fun a v => MatchesAll v → .ST ∈ a) args
      [["init".toList], [], ["dir".toList], ["search".toList]] ↔ [.LB, .RB] ∉ args) :=
  (term_grammar_iff _).2.2 "allow init * dir \x7bsearch\x7d".toList .AL
    (.allow ["init".toList] [] ["dir".toList] ["search".toList]) (by decide +kernel) (by decide)
    (by decide +kernel)

set_option maxRecDepth 10000 in
/-- Empty braces deny the permission to every type. -/
theorem term_grammar_braces :
    '*' ∉ "deny \x7b\x7d init dir search".toList ∧ MatchesAll [] ∧
      calledMethod "deny \x7b\x7d init dir search".toList =
        some (.deny [] ["init".toList] ["dir".toList] ["search".toList]) := by
  refine ⟨by decide +kernel, ?_, by decide +kernel⟩
  simp [MatchesAll, expandVec]

end Magisk.Sepolicy
