import Magisk.Sepolicy.MatchAll
import Magisk.Sepolicy.Print

namespace Magisk.Sepolicy

open List

variable {c : Char} {s : Str} {name : Bytes} {words v : List Str} {t : Token} {i : SetItem}

theorem isIdentChar_toNat (h : isIdentChar c) : 45 ≤ c.toNat ∧ c.toNat ≤ 122 := by
  simp only [isIdentChar, Char.isAlphanum, Char.isAlpha, Char.isUpper, Char.isLower, Char.isDigit,
    Bool.or_eq_true, Bool.and_eq_true, decide_eq_true_eq, UInt32.le_iff_toNat_le, ge_iff_le,
    mem_cons, not_mem_nil, or_false] at h
  rcases h with ((h | h) | h) | rfl | rfl | rfl
  · exact ⟨le_trans (by decide) h.1, le_trans h.2 (by decide)⟩
  · exact ⟨le_trans (by decide) h.1, le_trans h.2 (by decide)⟩
  · exact ⟨le_trans (by decide) h.1, le_trans h.2 (by decide)⟩
  all_goals decide

theorem not_isWhitespace_of_isIdentChar (h : isIdentChar c) : ¬ isWhitespace c := by
  have hc := isIdentChar_toNat h
  simp only [isWhitespace, decide_eq_true_eq]
  omega

theorem keywords_plain : ∀ k ∈ keywords, k.1.all isIdentChar →
    k.2 ∉ [Token.ST, .LB, .RB, .TL] := by
  decide +kernel

theorem separators_plain : ∀ sep ∈ separators, isIdentChar sep.1 →
    sep.2 ∉ [Token.ST, .LB, .RB, .TL] := by
  decide +kernel

section Identifier

variable {name : Bytes} (h : isIdentifier name)
include h

theorem isIdentChar_of_mem : ∀ c ∈ nameText name, isIdentChar c := by
  rw [isIdentifier, Bool.and_eq_true] at h
  exact List.all_eq_true.mp h.2

theorem head_nameText : ∃ c ∈ (nameText name).head?, c.isAlpha := by
  rw [isIdentifier, Bool.and_eq_true, Option.any_eq_true] at h
  exact h.1

theorem nameText_ne_nil : nameText name ≠ [] := by
  obtain ⟨c, hc, -⟩ := head_nameText h
  rintro h0
  simp [h0] at hc

theorem asBytes_nameText : asBytes (nameText name) = name := by
  have hb : ∀ b : UInt8, (Char.ofNat b.toNat).toNat ≤ 122 →
      String.utf8EncodeChar (Char.ofNat b.toNat) = [b] := by decide +kernel
  have hall := isIdentChar_of_mem h
  clear h
  induction name with
  | nil => rfl
  | cons b name ih =>
    rw [nameText, map_cons, forall_mem_cons] at hall
    have hhead := hb b (isIdentChar_toNat hall.1).2
    rw [nameText, map_cons, asBytes, flatMap_cons, hhead]
    exact congrArg (b :: ·) (ih hall.2)

theorem zero_notMem_of_isIdentifier : 0 ∉ name := by
  intro h0
  have hc : Char.ofNat 0 ∈ nameText name := List.mem_map_of_mem (f := fun b => Char.ofNat b.toNat) h0
  exact absurd (isIdentChar_of_mem h _ hc) (by decide)

theorem isWord_nameText : IsWord (nameText name) := by
  have hc := isIdentChar_of_mem h
  refine ⟨nameText_ne_nil h, fun c hm => not_isWhitespace_of_isIdentChar (hc c hm), ?_, ?_⟩
  · exact fun hm => absurd (hc _ hm) (by decide)
  · exact fun hm => absurd (hc _ hm) (by decide)

theorem isName_nameText_iff :
    IsName (nameText name) ↔ '-' ∉ nameText name ∧ nameText name ∉ keywords.map Prod.fst := by
  have hc := isIdentChar_of_mem h
  obtain ⟨c, hhead, halpha⟩ := head_nameText h
  have hcomma : ',' ∉ nameText name := fun hm => absurd (hc _ hm) (by decide)
  have htilde : (nameText name).head? ≠ some '~' := by
    intro ht
    cases hhead.symm.trans ht
    exact absurd halpha (by decide)
  have hzero : ¬ "0x".toList <+: nameText name := by
    rintro ⟨s, hs⟩
    rw [← hs] at hhead
    cases hhead
    exact absurd halpha (by decide)
  rw [isName_iff (isWord_nameText h), Verbatim]
  simp only [hcomma, htilde, hzero, not_false_eq_true, ne_eq, true_and]

theorem exists_token_of_not_isName (hn : ¬ IsName (nameText name)) :
    ∃ t ∈ extractToken (nameText name), (∀ n, t ≠ .ID n) ∧ t ∉ [Token.ST, .LB, .RB] := by
  have hc := isIdentChar_of_mem h
  have hsub : ∀ t : Token, t ∉ [Token.ST, .LB, .RB, .TL] → t ∉ [Token.ST, .LB, .RB] := by
    intro t
    simp only [mem_cons]
    tauto
  rcases extractToken_cases (nameText name) with ⟨h0, -⟩ | ⟨t, hk, he⟩ |
    ⟨a, c, t, b, hsep, hs, he⟩ | ⟨s', hs, -⟩ | ⟨s', hs, -⟩ | ⟨hname, -⟩
  · exact absurd h0 (nameText_ne_nil h)
  · have hmem := mem_keywords hk
    exact ⟨t, by simp [he], keywords_ne_id _ hmem,
      hsub t (keywords_plain _ hmem (List.all_eq_true.mpr hc))⟩
  · exact ⟨t, by simp [he], separators_ne_id _ hsep,
      hsub t (separators_plain _ hsep (hc c (by simp [hs])))⟩
  · have ht := hc '~' (by simp [hs])
    exact absurd ht (by decide)
  · obtain ⟨c, hhead, halpha⟩ := head_nameText h
    rw [hs] at hhead
    cases hhead
    exact absurd halpha (by decide)
  · exact absurd hname hn

end Identifier

theorem plain_of_mem_extractToken (hs : ∀ c ∈ s, isIdentChar c) :
    ∀ t ∈ extractToken s, t ∉ [Token.LB, .ST, .TL] := by
  induction hl : s.length using Nat.strong_induction_on generalizing s with
  | _ l ih =>
  have hsub : ∀ t : Token, t ∉ [Token.ST, .LB, .RB, .TL] → t ∉ [Token.LB, .ST, .TL] := by
    intro t
    simp only [mem_cons]
    tauto
  intro t ht
  rcases extractToken_cases s with ⟨-, he⟩ | ⟨t', hk, he⟩ | ⟨a, c, t', b, hsep, rfl, he⟩ |
    ⟨s', rfl, he⟩ | ⟨s', -, he⟩ | ⟨-, he⟩
  · simp [he] at ht
  · rw [he, mem_singleton] at ht
    exact ht ▸ hsub _ (keywords_plain _ (mem_keywords hk) (List.all_eq_true.mpr hs))
  · simp only [length_append, length_cons] at hl
    rw [he, mem_append, mem_cons] at ht
    rcases ht with ht | rfl | ht
    · exact ih _ (by omega) (fun d hd => hs d (by simp [hd])) rfl t ht
    · exact hsub _ (separators_plain _ hsep (hs c (by simp)))
    · exact ih _ (by omega) (fun d hd => hs d (by simp [hd])) rfl t ht
  · exact absurd (hs '~' (by simp)) (by decide)
  · rw [he, mem_singleton] at ht
    simp [ht]
  · rw [he, mem_singleton] at ht
    simp [ht]

theorem hashtabFind_nameText {α : Type} {table : List (Bytes × α)} (ht : Symbols table) {a : α}
    (hm : (name, a) ∈ table) :
    hashtabFind table (nameText name) = if name.length ≤ 255 then some a else none := by
  have hid := ht.ident _ hm
  have h0 : ∀ b ∈ name.take 255, decide (b ≠ 0) := by
    intro b hb
    apply decide_eq_true
    rintro rfl
    exact zero_notMem_of_isIdentifier hid (mem_of_mem_take hb)
  have hkey : ∀ b, (name.take 255, b) ∈ table → (name.take 255, b) = (name, a) := by
    intro b hb
    apply inj_on_of_nodup_map ht.distinct hb hm
    rw [take_take, min_self]
  rw [hashtabFind, asBytes_nameText hid, takeWhile_eq_self_iff.mpr h0]
  cases hf : table.lookup (name.take 255) with
  | none =>
    split_ifs with hlen
    · rw [take_of_length_le hlen, lookup_eq_none_iff] at hf
      exact absurd (hf _ hm) (by simp)
    · rfl
  | some b =>
    obtain ⟨l, l', he, -⟩ := lookup_eq_some_iff.mp hf
    have hb := hkey b (by simp [he])
    have hlen := congrArg (fun e => e.1.length) hb
    simp only [length_take] at hlen
    rw [if_pos (by omega), (Prod.mk.inj hb).2]

theorem findPerm_eq (cls : ClassDatum) (p : Str) : findPerm cls p = hashtabFind cls.perms p := by
  unfold findPerm hashtabFind ClassDatum.perms
  rw [List.lookup_append]
  cases List.lookup _ cls.permissions with
  | some perm => rfl
  | none =>
    cases cls.comdatum with
    | none => rfl
    | some permissions => rfl

theorem linesFrom_line {line w rest : Str} (hw : '\n' ∉ w) :
    linesFrom line (w ++ '\n' :: rest) = (line ++ w ++ ['\n']) :: linesFrom [] rest := by
  induction w generalizing line with
  | nil => simp [linesFrom]
  | cons c w ih =>
    rw [mem_cons, not_or] at hw
    rw [cons_append, linesFrom, if_neg (Ne.symm hw.1), ih hw.2]
    simp

/-- The words of a line have no whitespace. -/
def Unspaced (words : List Str) : Prop := ∀ w ∈ words, ∀ c ∈ w, ¬ isWhitespace c

theorem newline_notMem_wordsLine (h : Unspaced words) : '\n' ∉ wordsLine words := by
  induction words with
  | nil => exact not_mem_nil
  | cons w words ih =>
    have hw : '\n' ∉ w := fun hm => h w mem_cons_self _ hm (by decide)
    have hwords := ih fun w' hw' => h w' (mem_cons_of_mem w hw')
    cases words with
    | nil => simpa [wordsLine] using hw
    | cons w' words =>
      rw [wordsLine] at hwords
      simp [wordsLine, intercalate_cons_cons, hw, hwords]

theorem linesFrom_printLines {lines : List (List Str)} (h : ∀ words ∈ lines, Unspaced words) :
    linesFrom [] (lines.flatMap printLine) = lines.map printLine := by
  induction lines with
  | nil => rfl
  | cons words lines ih =>
    rw [forall_mem_cons] at h
    have hl : linesFrom [] (wordsLine words ++ '\n' :: lines.flatMap printLine) =
        ([] ++ wordsLine words ++ ['\n']) :: linesFrom [] (lines.flatMap printLine) :=
      linesFrom_line (newline_notMem_wordsLine h.1)
    rw [flatMap_cons, printLine, append_assoc, singleton_append, hl, ih h.2]
    rfl

theorem tokenizeStatement_printLine (h : Unspaced words) :
    tokenizeStatement (printLine words) = words.flatMap extractToken := by
  have hnl : ∀ c ∈ ['\n'], isWhitespace c := by simp [isWhitespace]
  rw [printLine, tokenizeStatement_append_spaces hnl, tokenizeStatement_wordsLine h]

def Effect.token : Effect → Token
  | allowed => .AL
  | auditallow => .AA
  | auditdeny => .DA

def Effect.method : Effect → List Str → List Str → List Str → List Str → Method
  | allowed => .allow
  | auditallow => .auditallow
  | auditdeny => .dontaudit

theorem lookup_effect_word (effect : Effect) :
    keywords.lookup effect.word = some effect.token := by
  cases effect <;> decide

theorem lookup_xpermEffect_word (effect : XpermEffect) :
    keywords.lookup effect.word = some effect.token := by
  cases effect <;> decide

theorem extractToken_braces (words : List Str) :
    (braces words).flatMap extractToken = .LB :: (words.flatMap extractToken ++ [.RB]) := by
  have hl : extractToken ['\x7b'] = [.LB] := by decide +kernel
  have hr : extractToken ['\x7d'] = [.RB] := by decide +kernel
  simp [braces, hl, hr]

theorem token_of_parseSterm {a : List Token} (h : parseSterm a = .ok (v, [])) :
    ∀ t ∈ a, (∃ n, t = .ID n) ∨ t ∈ [Token.ST, .LB, .RB] := by
  intro t ht
  rcases parseSterm_eq_ok.mp h with ⟨n, rfl, -⟩ | ⟨rfl, -⟩ | ⟨names, rfl, -⟩
  · exact .inl ⟨n, mem_singleton.mp ht⟩
  · simp [mem_singleton.mp ht]
  · rw [append_nil, setTokens, mem_append, mem_cons, List.mem_map,
      mem_singleton] at ht
    rcases ht with (rfl | ⟨n, -, rfl⟩) | rfl
    · simp
    · cases n with
      | none => simp [nameToken]
      | some n => exact .inl ⟨n, rfl⟩
    · simp

theorem avStatement_names (action : Token)
    (method : List Str → List Str → List Str → List Str → Method) (s t c : Str) (perms : List Str) :
    avStatement action method (.ID s :: .ID t :: .ID c :: .LB :: (perms.map .ID ++ [.RB])) =
      .ok (method [s] [t] [c] perms, []) := by
  have hp : parseSterm (.LB :: (perms.map .ID ++ [.RB])) = .ok (perms, []) := by
    rw [parseSterm_eq_ok]
    refine .inr (.inr ⟨perms.map some, ?_, ?_⟩)
    · simp [setTokens, nameToken]
    · simp [namesUntilStar, List.reduceOption]
  unfold avStatement
  simp only [orError_eq_ok, parser_bind_eq_ok, checkAdditionalArgs_eq_ok, parser_pure_eq_ok]
  exact ⟨[s], _, rfl, [t], _, rfl, [c], _, rfl, perms, [], hp, (), [], ⟨rfl, rfl⟩, rfl, rfl⟩

theorem unspaced_keyword (h : keywords.lookup s = some t) : ∀ c ∈ s, ¬ isWhitespace c := by
  have hall : keywords.all (fun k => k.1.all fun c => !isWhitespace c) := by decide +kernel
  intro c hc
  have hk := List.all_eq_true.mp hall _ (mem_keywords h)
  simpa using List.all_eq_true.mp hk c hc

theorem unspaced_nameText (h : isIdentifier name) :
    ∀ c ∈ nameText name, ¬ isWhitespace c :=
  (isWord_nameText h).2.1

theorem unspaced_braces (h : Unspaced words) : Unspaced (braces words) := by
  intro w hw
  rw [braces, mem_cons, mem_append, mem_singleton] at hw
  rcases hw with rfl | hw | rfl
  · simp [isWhitespace]
  · exact h w hw
  · simp [isWhitespace]

section Av

variable {src tgt cls : Bytes} {perms : List Bytes} (effect : Effect)
  (hid : ∀ n ∈ src :: tgt :: cls :: perms, isIdentifier n)
include hid

theorem unspaced_avWords : Unspaced (avWords effect src tgt cls perms) := by
  have hword := unspaced_keyword (lookup_effect_word effect)
  simp only [forall_mem_cons] at hid
  obtain ⟨hs, ht, hc, hp⟩ := hid
  have hb : Unspaced (braces (perms.map nameText)) := by
    apply unspaced_braces
    intro w hw
    obtain ⟨n, hn, rfl⟩ := List.mem_map.mp hw
    exact unspaced_nameText (hp n hn)
  simp only [Unspaced, avWords, forall_mem_cons]
  exact ⟨hword, unspaced_nameText hs, unspaced_nameText ht, unspaced_nameText hc, hb⟩

theorem tokens_avWords :
    tokenizeStatement (printLine (avWords effect src tgt cls perms)) =
      effect.token :: (extractToken (nameText src) ++ (extractToken (nameText tgt) ++
        (extractToken (nameText cls) ++
          .LB :: ((perms.map nameText).flatMap extractToken ++ [.RB])))) := by
  rw [tokenizeStatement_printLine (unspaced_avWords effect hid), avWords]
  simp only [flatMap_cons, extractToken_braces, extractToken_keyword (lookup_effect_word effect)]
  rfl

/-- A line calls its method with its names, when all of them are names for the tokenizer. -/
theorem calledMethod_avWords (hn : ∀ n ∈ src :: tgt :: cls :: perms, IsName (nameText n)) :
    calledMethod (printLine (avWords effect src tgt cls perms)) =
      some (effect.method [nameText src] [nameText tgt] [nameText cls] (perms.map nameText)) := by
  simp only [forall_mem_cons] at hn
  obtain ⟨hs, ht, hc, hp⟩ := hn
  have hperms : (perms.map nameText).flatMap extractToken = (perms.map nameText).map .ID := by
    rw [flatMap_extractToken_iff]
    · exact List.forall_mem_map.mpr hp
    · exact List.forall_mem_map.mpr fun n h => (hp n h).1
  have haction : parseAction effect.token = avStatement effect.token effect.method := by
    cases effect <;> rfl
  rw [calledMethod_eq_some (tokens_avWords effect hid), haction, extractToken_name hs,
    extractToken_name ht, extractToken_name hc, hperms]
  exact ⟨[], avStatement_names _ _ _ _ _ _⟩

theorem calledMethod_avWords_eq_none
    (hn : ¬ ∀ n ∈ src :: tgt :: cls :: perms, IsName (nameText n)) :
    calledMethod (printLine (avWords effect src tgt cls perms)) = none := by
  by_contra hsome
  obtain ⟨m, hm⟩ := Option.ne_none_iff_exists'.mp hsome
  have htok := tokens_avWords effect hid
  obtain ⟨rest, hp⟩ := (calledMethod_eq_some htok).mp hm
  have haction : effect.token ∈ [Token.AL, .DN, .AA, .DA, .PM, .EF] := by
    cases effect <;> simp [Effect.token]
  obtain ⟨args, hargs, hall⟩ := args_of_parseAction haction hp
  push Not at hn
  obtain ⟨n, hmem, hn⟩ := hn
  obtain ⟨t, ht, hid', hset⟩ := exists_token_of_not_isName (hid n hmem) hn
  -- the token stands in one of the arguments
  have hflat : t ∈ args.flatten := by
    rw [← hargs]
    simp only [mem_cons] at hmem
    rcases hmem with rfl | rfl | rfl | hmem
    · simp [ht]
    · simp [ht]
    · simp [ht]
    · have hin : t ∈ (perms.map nameText).flatMap extractToken :=
        mem_flatMap.mpr ⟨_, List.mem_map_of_mem hmem, ht⟩
      simp [hin]
  obtain ⟨a, ha, hta⟩ := mem_flatten.mp hflat
  obtain ⟨v, hv⟩ := exists_of_forall₂ hall ha
  rcases token_of_parseSterm hv t hta with ⟨n', rfl⟩ | hmem'
  · exact hid' n' rfl
  · exact hset hmem'

end Av

theorem unspaced_item (h : ∀ v ∈ i.values, IsDigits v) : ∀ c ∈ i.text, ¬ isWhitespace c := by
  have hx : ∀ c ∈ "0x".toList, ¬ isWhitespace c := by simp [isWhitespace]
  have hv : ∀ v ∈ i.values, ∀ c ∈ "0x".toList ++ v, ¬ isWhitespace c := by
    intro v hv c hc
    rcases mem_append.mp hc with hc | hc
    · exact hx c hc
    · exact (h v hv c hc).1
  intro c hc
  cases i with
  | value v => exact hv v (by simp [SetItem.values]) c hc
  | range v w =>
    rw [SetItem.text, append_assoc, cons_append, mem_append, mem_cons] at hc
    rcases hc with hc | rfl | hc
    · exact hv v (by simp [SetItem.values]) c hc
    · decide
    · exact hv w (by simp [SetItem.values]) c hc

theorem extractToken_item (h : ∀ v ∈ i.values, IsDigits v) :
    extractToken i.text = i.element.tokens := by
  rw [← tokenizeStatement_word (unspaced_item h), tokenizeStatement_item h]

theorem parseSterm_plain {rest rest' : List Token}
    (ht : t ∉ [Token.LB, .ST, .TL]) (h : parseSterm (t :: rest) = .ok (v, rest')) :
    ∃ n, t = .ID n ∧ rest' = rest := by
  rcases parseSterm_eq_ok.mp h with ⟨n, he, -⟩ | ⟨he, -⟩ | ⟨names, he, -⟩
  · obtain ⟨rfl, rfl⟩ := cons.inj he
    exact ⟨n, rfl, rfl⟩
  · obtain ⟨rfl, -⟩ := cons.inj he
    simp at ht
  · obtain ⟨rfl, -⟩ := cons.inj he
    simp at ht

theorem parseXperms_plain {rest : List Token} {p : List Xperm}
    (ht : t ∉ [Token.LB, .ST, .TL]) (h : parseXperms (t :: rest) = .ok (p, [])) : rest = [] := by
  cases t
  case HX low =>
    rw [parseXperms_value] at h
    exact (Prod.mk.inj (Except.ok.inj h)).2
  case LB | ST | TL => simp at ht
  all_goals cases h

theorem xpermStatement_plain {action : Token}
    {method : List Str → List Str → List Str → List Xperm → Method} {pre set : List Token}
    {r : Method × List Token} (hpre : ∀ t ∈ pre, t ∉ [Token.LB, .ST, .TL]) (hlen : 4 ≤ pre.length)
    (h : xpermStatement action method (pre ++ .LB :: set) = .ok r) :
    ∃ x y z n, pre = [.ID x, .ID y, .ID z, .ID n] := by
  match pre, hlen with
  | t₁ :: t₂ :: t₃ :: t₄ :: pre', _ =>
    simp only [forall_mem_cons] at hpre
    obtain ⟨h₁, h₂, h₃, -, hpre⟩ := hpre
    unfold xpermStatement at h
    simp only [orError_eq_ok, parser_bind_eq_ok, checkAdditionalArgs_eq_ok, cons_append] at h
    obtain ⟨s, l₁, hs, t, l₂, ht, c, l₃, hc, u, l₄, hi, p, l₅, hp, -, -, ⟨rfl, -⟩, -⟩ := h
    obtain ⟨x, rfl, rfl⟩ := parseSterm_plain h₁ hs
    obtain ⟨y, rfl, rfl⟩ := parseSterm_plain h₂ ht
    obtain ⟨z, rfl, rfl⟩ := parseSterm_plain h₃ hc
    obtain ⟨rfl, rfl⟩ := cons.inj (matchString_eq_ok.mp hi)
    cases pre' with
    | nil => exact ⟨x, y, z, _, rfl⟩
    | cons t₅ pre' =>
      have hnil := parseXperms_plain (hpre t₅ mem_cons_self) hp
      simp at hnil

section Xperm

variable {src tgt cls : Bytes} {items : List SetItem} (effect : XpermEffect)
  (hid : ∀ n ∈ [src, tgt, cls], isIdentifier n) (hitems : ∀ i ∈ items, ∀ v ∈ i.values, IsDigits v)
include hid hitems

theorem unspaced_xpermWords : Unspaced (xpermWords effect src tgt cls items) := by
  have hword := unspaced_keyword (lookup_xpermEffect_word effect)
  have hioctl : ∀ c ∈ "ioctl".toList, ¬ isWhitespace c := by simp [isWhitespace]
  have hb : Unspaced (braces (items.map SetItem.text)) := by
    apply unspaced_braces
    intro w hw
    obtain ⟨i, hi, rfl⟩ := List.mem_map.mp hw
    exact unspaced_item (hitems i hi)
  simp only [forall_mem_cons] at hid
  obtain ⟨hs, ht, hc, -⟩ := hid
  simp only [Unspaced, xpermWords, forall_mem_cons]
  exact ⟨hword, unspaced_nameText hs, unspaced_nameText ht, unspaced_nameText hc, hioctl, hb⟩

theorem tokens_xpermWords :
    tokenizeStatement (printLine (xpermWords effect src tgt cls items)) =
      effect.token :: (extractToken (nameText src) ++ (extractToken (nameText tgt) ++
        (extractToken (nameText cls) ++ .ID "ioctl".toList ::
          .LB :: ((items.map SetItem.element).flatMap Element.tokens ++ [.RB])))) := by
  have hioctl : extractToken "ioctl".toList = [.ID "ioctl".toList] := by decide +kernel
  have hi : (items.map SetItem.text).flatMap extractToken =
      (items.map SetItem.element).flatMap Element.tokens := by
    rw [flatMap_map, flatMap_map]
    exact flatMap_congr fun i h => extractToken_item (hitems i h)
  rw [tokenizeStatement_printLine (unspaced_xpermWords effect hid hitems), xpermWords]
  simp only [flatMap_cons, extractToken_braces,
    extractToken_keyword (lookup_xpermEffect_word effect), hioctl, hi]
  rfl

theorem calledMethod_xpermWords (h0 : items ≠ [])
    (hn : ∀ n ∈ [src, tgt, cls], IsName (nameText n)) :
    calledMethod (printLine (xpermWords effect src tgt cls items)) =
      some (effect.method [nameText src] [nameText tgt] [nameText cls]
        (items.map fun i => i.element.xperm false)) := by
  simp only [forall_mem_cons] at hn
  obtain ⟨hs, ht, hc, -⟩ := hn
  obtain ⟨i, l, rfl⟩ := exists_cons_of_ne_nil h0
  have hx : parseXperms (.LB :: (((i :: l).map SetItem.element).flatMap Element.tokens ++ [.RB])) =
      .ok ((i :: l).map fun i => i.element.xperm false, []) := by
    rw [parseXperms_list, map_cons, xpermList_tokens]
    simp
  rw [calledMethod_eq_some (tokens_xpermWords effect hid hitems), parseAction_xperm,
    extractToken_name hs, extractToken_name ht, extractToken_name hc]
  exact ⟨[], xpermStatement_ids _ _ _ _ _ hx⟩

theorem calledMethod_xpermWords_eq_none (hn : ¬ ∀ n ∈ [src, tgt, cls], IsName (nameText n)) :
    calledMethod (printLine (xpermWords effect src tgt cls items)) = none := by
  by_contra hsome
  obtain ⟨m, hm⟩ := Option.ne_none_iff_exists'.mp hsome
  obtain ⟨rest, hp⟩ := (calledMethod_eq_some (tokens_xpermWords effect hid hitems)).mp hm
  simp only [forall_mem_cons] at hid
  obtain ⟨hs, ht, hc, -⟩ := hid
  have hplain : ∀ {n}, isIdentifier n → ∀ t ∈ extractToken (nameText n), t ∉ [Token.LB, .ST, .TL] :=
    fun h => plain_of_mem_extractToken (isIdentChar_of_mem h)
  have hpos : ∀ {n}, isIdentifier n → 1 ≤ (extractToken (nameText n)).length :=
    fun h => length_pos_iff.mpr (extractToken_ne_nil (nameText_ne_nil h))
  have hls := hpos hs
  have hlt := hpos ht
  have hlc := hpos hc
  set a := extractToken (nameText src) with ha
  set b := extractToken (nameText tgt) with hb
  set c := extractToken (nameText cls) with hc'
  have hpre : ∀ l, a ++ (b ++ (c ++ .ID "ioctl".toList :: .LB :: l)) =
      (a ++ (b ++ (c ++ [.ID "ioctl".toList]))) ++ .LB :: l := by simp
  rw [parseAction_xperm, hpre] at hp
  have hplain' : ∀ t ∈ a ++ (b ++ (c ++ [.ID "ioctl".toList])), t ∉ [Token.LB, .ST, .TL] := by
    simp only [mem_append, mem_singleton]
    rintro t (h | h | h | rfl)
    · exact hplain hs t h
    · exact hplain ht t h
    · exact hplain hc t h
    · simp
  obtain ⟨x, y, z, n, he⟩ := xpermStatement_plain hplain'
    (by simp only [length_append, length_singleton]; omega) hp
  have hlen := congrArg List.length he
  simp only [length_append, length_cons, length_nil] at hlen
  obtain ⟨t₁, h₁⟩ := length_eq_one_iff.mp (show a.length = 1 by omega)
  obtain ⟨t₂, h₂⟩ := length_eq_one_iff.mp (show b.length = 1 by omega)
  obtain ⟨t₃, h₃⟩ := length_eq_one_iff.mp (show c.length = 1 by omega)
  rw [h₁, h₂, h₃] at he
  simp only [cons_append, nil_append, cons.injEq, and_true] at he
  obtain ⟨rfl, rfl, rfl, -⟩ := he
  apply hn
  simp only [forall_mem_cons]
  exact ⟨(extractToken_eq_id_iff.mp h₁).1, (extractToken_eq_id_iff.mp h₂).1,
    (extractToken_eq_id_iff.mp h₃).1, fun n hn => nomatch hn⟩

end Xperm

theorem isDigits_hex04 (v : UInt16) : IsDigits (hex04 v) := by
  have hdigit : ∀ d < 16, ¬ isWhitespace (upperDigit d) ∧
      upperDigit d ∉ separators.map Prod.fst := by decide +kernel
  have hv := v.toNat_lt
  intro c hc
  simp only [hex04, mem_cons, not_mem_nil, or_false] at hc
  rcases hc with rfl | rfl | rfl | rfl <;> exact hdigit _ (by omega)

theorem isDigits_item (x : ExtendedPerms) (range : ℕ × ℕ) :
    ∀ v ∈ (x.item range).values, IsDigits v := by
  unfold ExtendedPerms.item
  dsimp only
  split_ifs
  · simp [SetItem.values, isDigits_hex04]
  · simp [SetItem.values, isDigits_hex04]

end Magisk.Sepolicy
