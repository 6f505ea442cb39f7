import Magisk.Sepolicy.Tokenizer

namespace Magisk.Sepolicy

open List

/-- What a piece stands for: a keyword or `*`, a complement of what follows, a number or a name. -/
def classify : Str → List Token
  | [] => []
  | c :: s =>
    match keywords.lookup (c :: s) with
    | some t => [t]
    | none =>
      if c = '~' then .TL :: classify s
      else if c = '0' ∧ s.head? = some 'x' then [.HX ((parseU16 s.tail).getD 0)]
      else [.ID (c :: s)]

/-- The scan of a text, after the characters `piece` of a piece. -/
def scan (piece : Str) : Str → List Token
  | [] => classify piece
  | c :: s =>
    if isWhitespace c then classify piece ++ scan [] s
    else
      match separators.lookup c with
      | some t => classify piece ++ t :: scan [] s
      | none => scan (piece ++ [c]) s

theorem extractToken_eq_classify {piece : Str} (h : ∀ sep ∈ separators, sep.1 ∉ piece) :
    extractToken piece = classify piece := by
  induction piece with
  | nil => exact extractToken_nil
  | cons c s ih =>
    have hs : ∀ sep ∈ separators, sep.1 ∉ s := fun sep hsep hm =>
      h sep hsep (mem_cons_of_mem c hm)
    rw [classify]
    cases hk : keywords.lookup (c :: s) with
    | some t => exact extractToken_keyword hk
    | none =>
      dsimp only
      split_ifs with ht hx
      · rw [ht, extractToken_tilde hs, ih hs]
      · obtain ⟨rfl, hx⟩ := hx
        obtain ⟨digits, rfl⟩ := head?_eq_some_iff.mp hx
        apply extractToken_hex
        exact fun sep hsep hm => hs sep hsep (mem_cons_of_mem _ hm)
      · apply extractToken_name
        refine ⟨cons_ne_nil c s, hk, h, ?_, ?_⟩
        · exact fun he => ht (Option.some.inj he)
        · rintro ⟨r, hr⟩
          obtain ⟨rfl, rfl⟩ := cons.inj hr
          exact hx ⟨rfl, rfl⟩

theorem tokensFrom_eq_scan {piece : Str} (h : ∀ sep ∈ separators, sep.1 ∉ piece) (s : Str) :
    tokensFrom piece s = scan piece s := by
  have hnil : ∀ sep ∈ separators, sep.1 ∉ ([] : Str) := fun _ _ => not_mem_nil
  induction s generalizing piece with
  | nil => rw [tokensFrom_nil, scan, extractToken_eq_classify h]
  | cons c s ih =>
    rw [scan]
    split_ifs with hc
    · rw [tokensFrom_space hc, extractToken_eq_classify h, ih hnil]
    · rw [tokensFrom_char hc]
      cases hsep : separators.lookup c with
      | some t =>
        obtain ⟨l, l', he, -⟩ := lookup_eq_some_iff.mp hsep
        have hmem : (c, t) ∈ separators := by
          rw [he]
          exact mem_append_right l mem_cons_self
        rw [tokensFrom_word_append hmem, extractToken_eq_classify h, ih hnil]
      | none =>
        apply ih
        intro sep hmem hin
        rcases mem_append.mp hin with hin | hin
        · exact h sep hmem hin
        · have hne := lookup_eq_none_iff.mp hsep sep hmem
          rw [mem_singleton.mp hin] at hne
          simp at hne

/-- The tokens of a text are those of the scan, and spacing around separators never changes them. -/
theorem tokenizeStatement_scan :
    (∀ s, tokenizeStatement s = scan [] s) ∧
    ∀ sep ∈ separators, ∀ x y ws ws' : Str, (∀ c ∈ ws ++ ws', isWhitespace c) →
      tokenizeStatement (x ++ (ws ++ sep.1 :: (ws' ++ y))) =
        tokenizeStatement (x ++ sep.1 :: y) := by
  refine ⟨fun s => tokensFrom_eq_scan (fun _ _ => not_mem_nil) s, ?_⟩
  intro sep hsep x y ws ws' hws
  rw [forall_mem_append] at hws
  rw [← append_assoc, tokenizeStatement_separator hsep, tokenizeStatement_separator hsep,
    tokenizeStatement_append_spaces hws.1, tokenizeStatement_spaces_append hws.2]

-- The hyphen splits the word although a brace is looked for first.
example : scan [] "a-~\x7b0x10,*\x7d".toList =
    [.ID ['a'], .HP, .TL, .LB, .HX 10, .CM, .ST, .RB] := by decide

end Magisk.Sepolicy
