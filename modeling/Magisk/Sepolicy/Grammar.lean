import Magisk.Sepolicy.Statement

namespace Magisk.Sepolicy

open List

/-- The parser accepts exactly the streams that start with a phrase, reads that phrase and
returns its value. -/
def Follows {α : Type} (p : Parser α) (phrase : List Token → α → Prop) (tokens : List Token) :
    Prop :=
  ∀ v rest, p tokens = .ok (v, rest) ↔ ∃ l, tokens = l ++ rest ∧ phrase l v

section Parser

variable {α β : Type} {tokens rest : List Token}

theorem parser_bind_eq_ok {p : Parser α} {f : α → Parser β} {r : β × List Token} :
    (p >>= f) tokens = .ok r ↔ ∃ a tokens', p tokens = .ok (a, tokens') ∧ f a tokens' = .ok r := by
  change (p tokens >>= fun s => f s.1 s.2) = .ok r ↔ _
  rw [bind_eq_ok, Prod.exists]

theorem parser_pure_eq_ok {a b : α} :
    (pure a : Parser α) tokens = .ok (b, rest) ↔ a = b ∧ tokens = rest := by
  change Except.ok (a, tokens) = .ok (b, rest) ↔ _
  rw [Except.ok.injEq, Prod.mk.injEq]

theorem orError_eq_ok {e : ParseError} {p : Parser α} {r : α × List Token} :
    orError e p tokens = .ok r ↔ p tokens = .ok r := by
  unfold orError
  cases p tokens <;> simp [Except.mapError]

theorem checkAdditionalArgs_eq_ok {u : Unit} :
    checkAdditionalArgs tokens = .ok (u, rest) ↔ tokens = [] ∧ rest = [] := by
  cases tokens with
  | nil =>
    change Except.ok ((), []) = .ok (u, rest) ↔ _
    simp [eq_comm]
  | cons t tokens =>
    change Except.error _ = .ok (u, rest) ↔ _
    simp

theorem parseId_eq_ok {n : Str} : parseId tokens = .ok (n, rest) ↔ tokens = .ID n :: rest := by
  constructor
  · intro h
    rcases tokens with _ | ⟨t, tokens⟩
    · cases h
    cases t
    case ID name =>
      cases h
      rfl
    all_goals cases h
  · rintro rfl
    rfl

end Parser

inductive XpermPhrase : List Token → Xperm → Prop
  | value (low : UInt16) : XpermPhrase [.HX low] ⟨low, low, false⟩
  | range (low high : UInt16) : XpermPhrase [.HX low, .HP, .HX high] ⟨low, high, false⟩

inductive XpermListPhrase : List Token → List Xperm → Prop
  | one {l : List Token} {p : Xperm} : XpermPhrase l p → XpermListPhrase l [p]
  | push {l l' : List Token} {ps : List Xperm} {p : Xperm} :
      XpermListPhrase l ps → XpermPhrase l' p → XpermListPhrase (l ++ l') (ps ++ [p])

inductive XpermsPhrase : List Token → List Xperm → Prop
  | value (low : UInt16) : XpermsPhrase [.HX low]
      (if 0 < low then [⟨low, low, false⟩] else [⟨0, 0xFFFF, true⟩])
  | list {l : List Token} {ps : List Xperm} :
      XpermListPhrase l ps → XpermsPhrase (.LB :: l ++ [.RB]) ps
  | complement {l : List Token} {ps : List Xperm} :
      XpermListPhrase l ps →
      XpermsPhrase (.TL :: .LB :: l ++ [.RB]) (ps.map fun x => { x with reset := true })
  | all : XpermsPhrase [.ST] [⟨0, 0xFFFF, false⟩]

variable {l tokens rest : List Token} {ps : List Xperm} {names : List (Option Str)} {v : List Str}

theorem xpermPhrase_iff {p : Xperm} :
    XpermPhrase l p ↔ ∃ e : Element, l = e.tokens ∧ p = e.xperm false := by
  constructor
  · intro h
    cases h with
    | value low => exact ⟨.value low, rfl, rfl⟩
    | range low high => exact ⟨.range low high, rfl, rfl⟩
  · rintro ⟨e, rfl, rfl⟩
    cases e with
    | value low => exact .value low
    | range low high => exact .range low high

theorem xpermListPhrase_iff :
    XpermListPhrase l ps ↔ ∃ e es, l = (e :: es).flatMap Element.tokens ∧
      ps = (e :: es).map (Element.xperm false) := by
  constructor
  · intro h
    induction h with
    | one hp =>
      obtain ⟨e, rfl, rfl⟩ := xpermPhrase_iff.mp hp
      exact ⟨e, [], by simp, rfl⟩
    | push _ hp ih =>
      obtain ⟨e, es, rfl, rfl⟩ := ih
      obtain ⟨e', rfl, rfl⟩ := xpermPhrase_iff.mp hp
      exact ⟨e, es ++ [e'], by simp, by simp⟩
  · rintro ⟨e, es, rfl, rfl⟩
    induction es using List.reverseRecOn with
    | nil =>
      rw [flatMap_singleton]
      exact .one (xpermPhrase_iff.mpr ⟨e, rfl, rfl⟩)
    | append_singleton es e' ih =>
      rw [← cons_append, flatMap_append, map_append, flatMap_singleton]
      exact .push ih (xpermPhrase_iff.mpr ⟨e', rfl, rfl⟩)

theorem element_of_parseXperm {x : Xperm} (h : parseXperm tokens = .ok (x, rest)) :
    ∃ e : Element, tokens = e.tokens ++ rest ∧ x = e.xperm false := by
  rcases tokens_of_parseXperm h with ⟨low, rfl, rfl⟩ | ⟨low, high, rfl, rfl⟩
  · exact ⟨.value low, rfl, rfl⟩
  · exact ⟨.range low high, rfl, rfl⟩

theorem Element.xperm_reset (e : Element) (reset : Bool) :
    { e.xperm false with reset := reset } = e.xperm reset := by
  cases e <;> rfl

theorem elements_of_xpermList {reset : Bool} {xperms ps : List Xperm}
    (h : xpermList reset xperms tokens = .ok (ps, rest)) :
    ∃ e es, tokens = (e :: es).flatMap Element.tokens ++ .RB :: rest ∧
      ps = xperms ++ (e :: es).map (Element.xperm reset) := by
  induction hn : tokens.length using Nat.strong_induction_on generalizing xperms tokens with
  | _ n ih =>
  cases hp : parseXperm tokens with
  | error e =>
    rw [xpermList] at h
    split at h
    · cases h
    · simp_all
  | ok r =>
    obtain ⟨x, tokens'⟩ := r
    have hlen := parseXperm_length hp
    obtain ⟨e, rfl, rfl⟩ := element_of_parseXperm hp
    rw [xpermList_of_ok reset xperms hp, e.xperm_reset] at h
    split_ifs at h with hrb
    · cases h
      obtain ⟨rest, rfl⟩ := head?_eq_some_iff.mp hrb
      exact ⟨e, [], by simp, rfl⟩
    · obtain ⟨e', es, rfl, rfl⟩ := ih _ (hn ▸ hlen) h rfl
      exact ⟨e, e' :: es, by simp, by simp⟩

theorem xpermList_eq_ok {reset : Bool} :
    xpermList reset [] tokens = .ok (ps, rest) ↔
      ∃ l ps', tokens = l ++ .RB :: rest ∧ XpermListPhrase l ps' ∧
        ps = ps'.map fun x => { x with reset := reset } := by
  have hmap : ∀ l : List Element, (l.map (Element.xperm false)).map
      (fun x => { x with reset := reset }) = l.map (Element.xperm reset) := by
    intro l
    rw [List.map_map]
    exact map_congr_left fun e _ => e.xperm_reset reset
  constructor
  · intro h
    obtain ⟨e, es, rfl, rfl⟩ := elements_of_xpermList h
    exact ⟨_, _, rfl, xpermListPhrase_iff.mpr ⟨e, es, rfl, rfl⟩, (hmap _).symm⟩
  · rintro ⟨l, ps', rfl, hl, rfl⟩
    obtain ⟨e, es, rfl, rfl⟩ := xpermListPhrase_iff.mp hl
    rw [hmap, xpermList_tokens]
    rfl

theorem parseXperms_value (low : UInt16) (tokens : List Token) :
    parseXperms (.HX low :: tokens) =
      .ok (if 0 < low then [⟨low, low, false⟩] else [⟨0, 0xFFFF, false⟩], tokens) := by
  change (if 0 < low then (pure [⟨low, low, false⟩] : Parser (List Xperm))
    else pure [⟨0, 0xFFFF, false⟩]) tokens = _
  split_ifs <;> rfl

theorem parseXperms_list (tokens : List Token) :
    parseXperms (.LB :: tokens) = xpermList false [] tokens := rfl

theorem XpermListPhrase.map_reset (h : XpermListPhrase l ps) :
    (ps.map fun x => { x with reset := false }) = ps := by
  obtain ⟨e, es, -, rfl⟩ := xpermListPhrase_iff.mp h
  rw [List.map_map]
  exact map_congr_left fun e _ => e.xperm_reset false

theorem phrase_of_parseXperms
    (h0 : tokens.head? ≠ some (.HX 0)) (h : parseXperms tokens = .ok (ps, rest)) :
    ∃ l, tokens = l ++ rest ∧ XpermsPhrase l ps := by
  rcases tokens with _ | ⟨t, tokens⟩
  · cases h
  cases t
  case HX low =>
    have hlow : 0 < low := by
      rw [UInt16.pos_iff_ne_zero]
      rintro rfl
      exact h0 rfl
    have hv := XpermsPhrase.value low
    rw [if_pos hlow] at hv
    rw [parseXperms_value, if_pos hlow] at h
    cases h
    exact ⟨_, rfl, hv⟩
  case LB =>
    obtain ⟨l, ps', rfl, hl, rfl⟩ := xpermList_eq_ok.mp h
    rw [hl.map_reset]
    exact ⟨_, by simp, .list hl⟩
  case TL =>
    rcases tokens with _ | ⟨t, tokens⟩
    · cases h
    cases t
    case LB =>
      obtain ⟨l, ps', rfl, hl, rfl⟩ := xpermList_eq_ok.mp h
      exact ⟨_, by simp, .complement hl⟩
    all_goals cases h
  case ST =>
    cases h
    exact ⟨_, rfl, .all⟩
  all_goals cases h

theorem parseXperms_of_phrase (hl : XpermsPhrase l ps)
    (h0 : (l ++ rest).head? ≠ some (.HX 0)) : parseXperms (l ++ rest) = .ok (ps, rest) := by
  cases hl with
  | value low =>
    have hlow : 0 < low := by
      rw [UInt16.pos_iff_ne_zero]
      rintro rfl
      exact h0 rfl
    rw [singleton_append, parseXperms_value, if_pos hlow, if_pos hlow]
  | list hl =>
    exact xpermList_eq_ok.mpr ⟨_, _, by simp, hl, hl.map_reset.symm⟩
  | complement hl =>
    exact xpermList_eq_ok.mpr ⟨_, _, by simp, hl, rfl⟩
  | all => rfl

/-- The parser follows the grammar except for the value 0 alone, which is documented to clear
all rules. -/
theorem follows_parseXperms_iff (tokens : List Token) :
    Follows parseXperms XpermsPhrase tokens ↔ tokens.head? ≠ some (.HX 0) := by
  constructor
  · intro h h0
    obtain ⟨rest, rfl⟩ := head?_eq_some_iff.mp h0
    have hp := (h [⟨0, 0xFFFF, true⟩] rest).mpr ⟨[.HX 0], rfl, .value 0⟩
    rw [parseXperms_value] at hp
    simp at hp
  · intro h0 ps rest
    constructor
    · exact phrase_of_parseXperms h0
    · rintro ⟨l, rfl, hl⟩
      exact parseXperms_of_phrase hl h0

/-- The value 0 alone permits every ioctl. -/
theorem parseXperms_zero :
    XpermsPhrase [.HX 0] [⟨0, 0xFFFF, true⟩] ∧
      parseXperms [.HX 0] = .ok ([⟨0, 0xFFFF, false⟩], []) :=
  ⟨.value 0, rfl⟩

/-- `names` of a term -/
inductive NamesPhrase : List Token → List Str → Prop
  | one (n : Str) : NamesPhrase [.ID n] [n]
  | push {l : List Token} {v : List Str} (n : Str) :
      NamesPhrase l v → NamesPhrase (l ++ [.ID n]) (v ++ [n])

inductive TermPhrase : List Token → List Str → Prop
  | id (n : Str) : TermPhrase [.ID n] [n]
  | names {l : List Token} {v : List Str} :
      NamesPhrase l v → TermPhrase (.LB :: l ++ [.RB]) v

/-- `names` of an sterm -/
inductive SnamesPhrase : List Token → List Str → Prop
  | star : SnamesPhrase [.ST] []
  | one (n : Str) : SnamesPhrase [.ID n] [n]
  | push {l : List Token} {v : List Str} (n : Str) :
      SnamesPhrase l v → SnamesPhrase (l ++ [.ID n]) (v ++ [n])
  | pushStar {l : List Token} {v : List Str} : SnamesPhrase l v → SnamesPhrase (l ++ [.ST]) []

inductive StermPhrase : List Token → List Str → Prop
  | star : StermPhrase [.ST] []
  | id (n : Str) : StermPhrase [.ID n] [n]
  | names {l : List Token} {v : List Str} :
      SnamesPhrase l v → StermPhrase (.LB :: l ++ [.RB]) v

/-- The token of a name, or of the match-all operator. -/
def nameToken : Option Str → Token
  | none => .ST
  | some n => .ID n

theorem nameToken_injective : Function.Injective nameToken := by
  intro a b h
  cases a <;> cases b <;> simp_all [nameToken]

def setTokens (names : List (Option Str)) : List Token :=
  .LB :: names.map nameToken ++ [.RB]

/-- The value of the grammar for `names`: what stands after the last star. -/
def namesAfterStar (names : List (Option Str)) : List Str :=
  names.foldl (fun v n => n.elim [] fun n => v ++ [n]) []

/-- The value of the parser: nothing after a star is kept. -/
def namesUntilStar (names : List (Option Str)) : List Str :=
  if none ∈ names then [] else names.reduceOption

theorem namesAfterStar_concat (names : List (Option Str)) (n : Option Str) :
    namesAfterStar (names ++ [n]) = n.elim [] fun n => namesAfterStar names ++ [n] := by
  rw [namesAfterStar, foldl_append]
  rfl

theorem namesAfterStar_eq (h : none ∉ names) : namesAfterStar names = names.reduceOption := by
  induction names using List.reverseRecOn with
  | nil => rfl
  | append_singleton names n ih =>
    rw [mem_append, not_or] at h
    cases n with
    | none => simp at h
    | some n =>
      rw [namesAfterStar_concat, ih h.1]
      simp [reduceOption_append]

theorem namesAfterStar_eq_nil (h : none ∈ names) :
    namesAfterStar names = [] ↔ names.getLast? = some none := by
  rcases eq_nil_or_concat names with rfl | ⟨names', n, rfl⟩
  · cases h
  rw [concat_eq_append, namesAfterStar_concat, getLast?_concat]
  cases n <;> simp

theorem namesUntilStar_eq_iff (names : List (Option Str)) :
    namesUntilStar names = namesAfterStar names ↔
      (none ∈ names → names.getLast? = some none) := by
  unfold namesUntilStar
  split_ifs with h
  · rw [eq_comm, namesAfterStar_eq_nil h]
    simp [h]
  · simp [h, namesAfterStar_eq h]

theorem snamesPhrase_iff :
    SnamesPhrase l v ↔ ∃ names, names ≠ [] ∧ l = names.map nameToken ∧ v = namesAfterStar names := by
  constructor
  · intro h
    induction h with
    | star => exact ⟨[none], by simp, rfl, rfl⟩
    | one n => exact ⟨[some n], by simp, rfl, rfl⟩
    | push n _ ih =>
      obtain ⟨names, -, rfl, rfl⟩ := ih
      exact ⟨names ++ [some n], by simp, by simp [nameToken], by simp [namesAfterStar_concat]⟩
    | pushStar _ ih =>
      obtain ⟨names, -, rfl, rfl⟩ := ih
      exact ⟨names ++ [none], by simp, by simp [nameToken], by simp [namesAfterStar_concat]⟩
  · rintro ⟨names, h, rfl, rfl⟩
    induction names using List.reverseRecOn with
    | nil => exact absurd rfl h
    | append_singleton names n ih =>
      rw [map_append, namesAfterStar_concat]
      by_cases h0 : names = []
      · subst h0
        cases n with
        | none => exact .star
        | some n => exact .one n
      · cases n with
        | none => exact .pushStar (ih h0)
        | some n => exact .push n (ih h0)

theorem namesPhrase_iff : NamesPhrase l v ↔ v ≠ [] ∧ l = v.map .ID := by
  constructor
  · intro h
    induction h with
    | one n => exact ⟨by simp, rfl⟩
    | push n _ ih =>
      obtain ⟨-, rfl⟩ := ih
      exact ⟨by simp, by simp⟩
  · rintro ⟨h, rfl⟩
    induction v using List.reverseRecOn with
    | nil => exact absurd rfl h
    | append_singleton v n ih =>
      by_cases h0 : v = []
      · subst h0
        exact .one n
      · rw [map_append]
        exact .push n (ih h0)

theorem termNames_eq_ok {names v : List Str} :
    termNames names tokens = .ok (v, rest) ↔
      ∃ ns : List Str, tokens = ns.map .ID ++ .RB :: rest ∧ v = names ++ ns := by
  constructor
  · intro h
    induction tokens generalizing names with
    | nil => cases h
    | cons t tokens ih =>
      cases t
      case ID n =>
        obtain ⟨ns, rfl, rfl⟩ := ih h
        exact ⟨n :: ns, rfl, by simp⟩
      case RB =>
        cases h
        exact ⟨[], rfl, by simp⟩
      all_goals cases h
  · rintro ⟨ns, rfl, rfl⟩
    induction ns generalizing names with
    | nil => simp [termNames]
    | cons n ns ih =>
      rw [map_cons, cons_append, termNames, ih]
      simp

theorem stermNames_eq_ok {names v : Option (List Str)} :
    stermNames names tokens = .ok (v, rest) ↔
      ∃ ns : List (Option Str), tokens = ns.map nameToken ++ .RB :: rest ∧
        v = if none ∈ ns then none else names.map (· ++ ns.reduceOption) := by
  constructor
  · intro h
    induction tokens generalizing names with
    | nil => cases h
    | cons t tokens ih =>
      cases t
      case ID n =>
        obtain ⟨ns, rfl, rfl⟩ := ih h
        refine ⟨some n :: ns, rfl, ?_⟩
        simp [Function.comp_def]
      case ST =>
        obtain ⟨ns, rfl, rfl⟩ := ih h
        exact ⟨none :: ns, rfl, by simp⟩
      case RB =>
        cases h
        exact ⟨[], rfl, by simp⟩
      all_goals cases h
  · rintro ⟨ns, rfl, rfl⟩
    induction ns generalizing names with
    | nil => simp [stermNames]
    | cons n ns ih =>
      cases n with
      | none =>
        rw [map_cons, cons_append, nameToken, stermNames, ih]
        simp
      | some n =>
        rw [map_cons, cons_append, nameToken, stermNames, ih]
        simp [Function.comp_def]

theorem parseTerm_eq_ok :
    parseTerm tokens = .ok (v, rest) ↔
      (∃ n, tokens = .ID n :: rest ∧ v = [n]) ∨ tokens = .LB :: v.map .ID ++ .RB :: rest := by
  constructor
  · intro h
    rcases tokens with _ | ⟨t, tokens⟩
    · cases h
    cases t
    case ID n =>
      cases h
      exact .inl ⟨n, rfl, rfl⟩
    case LB =>
      obtain ⟨ns, rfl, rfl⟩ := termNames_eq_ok.mp h
      exact .inr rfl
    all_goals cases h
  · rintro (⟨n, rfl, rfl⟩ | rfl)
    · rfl
    · exact termNames_eq_ok.mpr ⟨v, rfl, rfl⟩

theorem parseSterm_eq_ok :
    parseSterm tokens = .ok (v, rest) ↔
      (∃ n, tokens = .ID n :: rest ∧ v = [n]) ∨ (tokens = .ST :: rest ∧ v = []) ∨
        ∃ names, tokens = setTokens names ++ rest ∧ v = namesUntilStar names := by
  have hset : ∀ names, setTokens names ++ rest = .LB :: (names.map nameToken ++ .RB :: rest) := by
    intro names
    simp [setTokens]
  have hlb : ∀ tokens, parseSterm (.LB :: tokens) = .ok (v, rest) ↔
      ∃ names, stermNames (some []) tokens = .ok (names, rest) ∧ names.getD [] = v := by
    intro tokens
    change (do
      let names ← stermNames (some [])
      return names.getD [] : Parser (List Str)) tokens = _ ↔ _
    simp only [parser_bind_eq_ok, parser_pure_eq_ok]
    constructor
    · rintro ⟨names, tokens', h, hv, rfl⟩
      exact ⟨names, h, hv⟩
    · rintro ⟨names, h, hv⟩
      exact ⟨names, rest, h, hv, rfl⟩
  have hval : ∀ names : List (Option Str), (if none ∈ names then none
      else (some []).map (· ++ names.reduceOption)).getD [] = namesUntilStar names := by
    intro names
    unfold namesUntilStar
    split_ifs <;> simp
  constructor
  · intro h
    rcases tokens with _ | ⟨t, tokens⟩
    · cases h
    cases t
    case ID n =>
      cases h
      exact .inl ⟨n, rfl, rfl⟩
    case ST =>
      cases h
      exact .inr (.inl ⟨rfl, rfl⟩)
    case LB =>
      obtain ⟨names, hn, rfl⟩ := (hlb tokens).mp h
      obtain ⟨ns, rfl, rfl⟩ := stermNames_eq_ok.mp hn
      exact .inr (.inr ⟨ns, (hset ns).symm, hval ns⟩)
    all_goals cases h
  · rintro (⟨n, rfl, rfl⟩ | ⟨rfl, rfl⟩ | ⟨ns, rfl, rfl⟩)
    · rfl
    · rfl
    · rw [hset, hlb]
      exact ⟨_, stermNames_eq_ok.mpr ⟨ns, rfl, rfl⟩, hval ns⟩

theorem stermPhrase_setTokens :
    StermPhrase (setTokens names) v ↔ names ≠ [] ∧ v = namesAfterStar names := by
  constructor
  · intro h
    generalize hl : setTokens names = l at h
    cases h with
    | star => simp [setTokens] at hl
    | id n => simp [setTokens] at hl
    | names hp =>
      obtain ⟨names', h0, rfl, rfl⟩ := snamesPhrase_iff.mp hp
      have hm := append_cancel_right (cons.inj hl).2
      rw [nameToken_injective.list_map hm]
      exact ⟨h0, rfl⟩
  · rintro ⟨h, rfl⟩
    exact .names (snamesPhrase_iff.mpr ⟨names, h, rfl, rfl⟩)

theorem TermPhrase.ne_nil (h : TermPhrase l v) : v ≠ [] := by
  cases h with
  | id n => simp
  | names hp => exact (namesPhrase_iff.mp hp).1

theorem follows_parseTerm_iff (tokens : List Token) :
    Follows parseTerm TermPhrase tokens ↔ ¬ [.LB, .RB] <+: tokens := by
  constructor
  · rintro h ⟨rest, rfl⟩
    obtain ⟨l, -, hl⟩ := (h [] rest).mp (parseTerm_eq_ok.mpr (.inr rfl))
    exact hl.ne_nil rfl
  · intro h0 v rest
    rw [parseTerm_eq_ok]
    constructor
    · rintro (⟨n, rfl, rfl⟩ | rfl)
      · exact ⟨_, rfl, .id n⟩
      · have hv : v ≠ [] := by
          rintro rfl
          exact h0 ⟨rest, rfl⟩
        exact ⟨.LB :: v.map .ID ++ [.RB], by simp, .names (namesPhrase_iff.mpr ⟨hv, rfl⟩)⟩
    · rintro ⟨l, rfl, hl⟩
      cases hl with
      | id n => exact .inl ⟨n, rfl, rfl⟩
      | names hp =>
        obtain ⟨-, rfl⟩ := namesPhrase_iff.mp hp
        exact .inr (by simp)

/-- The parser of terms with the match-all operator accepts empty braces besides, and gives
another value for a set in which a name stands after the operator. -/
theorem follows_parseSterm_iff (tokens : List Token) :
    Follows parseSterm StermPhrase tokens ↔ ∀ names, setTokens names <+: tokens →
      names ≠ [] ∧ (none ∈ names → names.getLast? = some none) := by
  constructor
  · rintro h names ⟨rest, rfl⟩
    have hp : parseSterm (setTokens names ++ rest) = .ok (namesUntilStar names, rest) :=
      parseSterm_eq_ok.mpr (.inr (.inr ⟨names, rfl, rfl⟩))
    obtain ⟨l, he, hl⟩ := (h _ rest).mp hp
    rw [← append_cancel_right he, stermPhrase_setTokens] at hl
    exact ⟨hl.1, (namesUntilStar_eq_iff names).mp hl.2⟩
  · intro hset v rest
    rw [parseSterm_eq_ok]
    constructor
    · rintro (⟨n, rfl, rfl⟩ | ⟨rfl, rfl⟩ | ⟨names, rfl, rfl⟩)
      · exact ⟨_, rfl, .id n⟩
      · exact ⟨_, rfl, .star⟩
      · obtain ⟨h0, hstar⟩ := hset names ⟨rest, rfl⟩
        exact ⟨_, rfl, stermPhrase_setTokens.mpr ⟨h0, (namesUntilStar_eq_iff names).mpr hstar⟩⟩
    · rintro ⟨l, rfl, hl⟩
      cases hl with
      | star => exact .inr (.inl ⟨rfl, rfl⟩)
      | id n => exact .inl ⟨n, rfl, rfl⟩
      | names hp =>
        obtain ⟨names, -, rfl, rfl⟩ := snamesPhrase_iff.mp hp
        obtain ⟨-, hstar⟩ := hset names ⟨rest, rfl⟩
        exact .inr (.inr ⟨names, rfl, ((namesUntilStar_eq_iff names).mpr hstar).symm⟩)

end Magisk.Sepolicy
