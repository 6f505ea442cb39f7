import Magisk.Boot.RemovePattern

namespace Magisk.Boot

open List

/-- An option of a flags field, a keyword or `keyword=value`. -/
structure Flag where
  keyword : Bytes
  value : Option Bytes
  keyword_ne_nil : keyword ≠ []
  keyword_plain : ∀ c ∈ keyword, c ∉ [44, 61, 32, 10, 0]
  value_plain : ∀ v ∈ value, ∀ c ∈ v, c ∉ [44, 32, 10, 0]

def Flag.text (f : Flag) : Bytes :=
  match f.value with
  | none => f.keyword
  | some v => f.keyword ++ 61 :: v

def flagsText (fs : List Flag) : Bytes := [44].intercalate (fs.map Flag.text)

/-- The options in a text, those that are not empty. -/
def options (b : Bytes) : List Bytes := (b.splitOn 44).filter (· ≠ [])

/-- From the flags `fs`, `patch` removes those with one of the keywords and no others. -/
def RemovesExactly (patch : Bytes → Bytes × ℕ) (keywords : List Bytes) (fs : List Flag) : Prop :=
  options ((patch (flagsText fs)).1.take (patch (flagsText fs)).2) =
    (fs.filter (·.keyword ∉ keywords)).map Flag.text

/-- No flag that is to stay contains a keyword or stands behind a flag that is to go and has a
value. -/
def Separable (keywords : List Bytes) (fs : List Flag) : Prop :=
  ∀ l f r, fs = l ++ f :: r → f.keyword ∉ keywords →
    (∀ p ∈ keywords, ¬p <:+: f.text) ∧ ∀ g ∈ l, g.keyword ∈ keywords → g.value = none

section Texts

/-- The text of flags that follow another one. -/
def tailText (fs : List Flag) : Bytes := fs.flatMap fun f => 44 :: f.text

variable (f : Flag) (b : Bytes) (fs : List Flag)

@[simp] theorem tailText_cons : tailText (f :: fs) = 44 :: (f.text ++ tailText fs) := by
  rfl

theorem flagsText_cons : flagsText (f :: fs) = f.text ++ tailText fs := by
  induction fs generalizing f with
  | nil => simp [flagsText, tailText]
  | cons g fs ih =>
    have hg := ih g
    unfold flagsText at hg ⊢
    rw [map_cons, map_cons, intercalate_cons_cons, ← map_cons, hg,
      tailText_cons, append_assoc]
    rfl

theorem Flag.text_plain : ∀ c ∈ f.text, c ∉ [44, 32, 10, 0] := by
  have hk : ∀ c ∈ f.keyword, c ∉ [44, 32, 10, 0] := by
    intro c hc hmem
    apply f.keyword_plain c hc
    simp only [mem_cons] at hmem ⊢
    tauto
  intro c hc
  unfold Flag.text at hc
  cases hv : f.value with
  | none =>
    rw [hv] at hc
    exact hk c hc
  | some v =>
    rw [hv] at hc
    rcases mem_append.mp hc with hc | hc
    · exact hk c hc
    · rcases mem_cons.mp hc with rfl | hc
      · decide
      · exact f.value_plain v hv c hc

theorem Flag.comma_notMem : 44 ∉ f.text :=
  fun h => f.text_plain 44 h (by decide)

theorem Flag.keyword_starts_text : f.keyword <+: f.text := by
  unfold Flag.text
  cases f.value with
  | none => exact prefix_rfl
  | some v => exact prefix_append _ _

theorem Flag.text_ne_nil : f.text ≠ [] := by
  intro h
  have hp := f.keyword_starts_text
  rw [h] at hp
  exact f.keyword_ne_nil (prefix_nil.mp hp)

theorem tailText_plain : ∀ c ∈ tailText fs, c ∉ [32, 10, 0] := by
  intro c hc hmem
  obtain ⟨f, -, hc⟩ := mem_flatMap.mp hc
  rcases mem_cons.mp hc with rfl | hc
  · exact absurd hmem (by decide)
  · exact f.text_plain c hc (mem_cons_of_mem _ hmem)

theorem text_append_plain {t : Bytes} (ht : ∀ c ∈ t, c ∉ [44, 32, 10, 0]) (fs : List Flag) :
    ∀ c ∈ t ++ tailText fs, c ∉ [32, 10, 0] := by
  intro c hc
  rcases mem_append.mp hc with hc | hc
  · exact fun h => ht c hc (mem_cons_of_mem _ h)
  · exact tailText_plain fs c hc

theorem options_comma : options (44 :: b) = options b := by
  unfold options
  rw [splitOn_cons_eq_if_modifyHead, if_pos (by decide), filter_cons_of_neg (by simp)]

theorem options_tailText : options (tailText fs) = fs.map Flag.text := by
  induction fs with
  | nil => decide
  | cons f fs ih =>
    rw [tailText_cons, options_comma, map_cons]
    have hcons : ∀ l, (f.text :: l).filter (fun b => decide (b ≠ [])) =
        f.text :: l.filter fun b => decide (b ≠ []) := by
      intro l
      apply filter_cons_of_pos
      rw [decide_eq_true_eq]
      exact f.text_ne_nil
    cases fs with
    | nil =>
      rw [tailText, flatMap_nil, append_nil, options,
        splitOn_eq_singleton f.comma_notMem, hcons]
      rfl
    | cons g fs =>
      rw [← ih, tailText_cons, options_comma, options,
        splitOn_append_cons_self_of_not_mem f.comma_notMem, hcons]
      rfl

theorem flatten_splitOn : (b.splitOn 44).flatten = b.filter (· ≠ 44) := by
  induction b with
  | nil => rfl
  | cons c b ih =>
    rw [splitOn_cons_eq_if_modifyHead]
    split_ifs with h
    · rw [flatten_cons, nil_append, ih, filter_cons_of_neg (by simpa using h)]
    · rw [filter_cons_of_pos (by simpa using h), ← ih]
      obtain ⟨w, ws, hw⟩ := exists_cons_of_ne_nil (splitOn_ne_nil 44 b)
      rw [hw]
      rfl

theorem flatten_options : (options b).flatten = b.filter (· ≠ 44) := by
  rw [options, flatten_filter_ne_nil, flatten_splitOn]

end Texts

/-- Keywords without a comma or an equals sign, where none is taken for another one. -/
structure IsKeywords (ps : List Bytes) : Prop where
  ne_nil : ∀ p ∈ ps, p ≠ []
  comma : ∀ p ∈ ps, 44 ∉ p
  equals : ∀ p ∈ ps, 61 ∉ p
  self : ∀ p ∈ ps, (ps.find? fun q => q.isPrefixOf p) = some p

theorem isKeywords_verity : IsKeywords verityPatterns := by
  constructor <;> decide

theorem isKeywords_encryption : IsKeywords encryptionPatterns := by
  constructor <;> decide

theorem prefix_append_cons_iff {p t : Bytes} {c : UInt8} (hc : c ∉ p) (r : Bytes) :
    p <+: t ++ c :: r ↔ p <+: t := by
  constructor
  · intro h
    refine prefix_of_prefix_length_le h (prefix_append t _) ?_
    by_contra hlt
    have hle : t ++ [c] <+: p := by
      have hstart : t ++ [c] <+: t ++ c :: r := ⟨r, by simp⟩
      refine prefix_of_prefix_length_le hstart h ?_
      rw [length_append, length_singleton]
      omega
    exact hc (hle.subset (by simp))
  · exact fun h => h.trans (prefix_append t _)

theorem prefix_append_tailText_iff {p t : Bytes} (hp : 44 ∉ p) (fs : List Flag) :
    p <+: t ++ tailText fs ↔ p <+: t := by
  cases fs with
  | nil => rw [tailText, flatMap_nil, append_nil]
  | cons f fs => rw [tailText_cons, prefix_append_cons_iff hp]

theorem valueLength_eq {b : Bytes} (hb : ∀ c ∈ b, c ∉ [32, 10, 0]) :
    valueLength b = if b.head? = some 61 then b.length else 0 := by
  unfold valueLength
  rw [takeWhile_eq_self_iff.mpr]
  intro c hc
  rw [decide_eq_true_eq]
  exact hb c hc

theorem commaLength_eq_zero {t r : Bytes} (ht : t ≠ []) (hc : 44 ∉ t) :
    commaLength (t ++ r) = 0 := by
  obtain ⟨c, t, rfl⟩ := exists_cons_of_ne_nil ht
  apply if_neg
  intro h
  cases h
  exact hc mem_cons_self

section OneFlag

variable {ps : List Bytes}

variable {x t : Bytes} {f : Flag}

theorem dropMatches_comma (hps : IsKeywords ps) (hx : commaLength x = 0) :
    dropMatches (matchPatterns ps) (44 :: x) =
      if matchPatterns ps x = none then 44 :: dropMatches (matchPatterns ps) x
      else dropMatches (matchPatterns ps) x := by
  have hm : matchPatterns ps (44 :: x) = (matchPatterns ps x).map (· + 1) := by
    rw [matchPatterns_eq, matchPatterns_eq, hx, Option.map_map]
    have h1 : commaLength (44 :: x) = 1 := if_pos rfl
    rw [h1, drop_zero, drop_succ_cons, drop_zero]
    congr 1
    funext p
    rw [Function.comp_apply, Nat.add_comm 1, drop_succ_cons, Nat.zero_add]
    omega
  cases h : matchPatterns ps x with
  | none =>
    rw [h] at hm
    rw [if_pos rfl, dropMatches_of_none hm]
  | some n =>
    rw [h] at hm
    rw [if_neg (by simp), dropMatches_of_some (Nat.le_add_left 1 n) hm, drop_succ_cons]
    cases x with
    | nil => rw [drop_nil]
    | cons c x =>
      have hn := (matchPatterns_bounded hps.ne_nil _ n (cons_ne_nil c x) h).1
      rw [dropMatches_of_some hn h]

theorem matchPatterns_keyword (hps : IsKeywords ps) (hf : f.keyword ∈ ps)
    (fs : List Flag) : matchPatterns ps (f.text ++ tailText fs) =
      some (f.keyword.length + valueLength ((f.text ++ tailText fs).drop f.keyword.length)) := by
  have hfind : (ps.find? fun p => p.isPrefixOf (f.text ++ tailText fs)) = some f.keyword := by
    rw [← hps.self f.keyword hf]
    apply find?_congr
    intro p hp
    rw [Bool.eq_iff_iff, isPrefixOf_iff_prefix, isPrefixOf_iff_prefix,
      prefix_append_tailText_iff (hps.comma p hp)]
    unfold Flag.text
    cases f.value with
    | none => rfl
    | some v => exact prefix_append_cons_iff (hps.equals p hp) v
  rw [matchPatterns_eq, commaLength_eq_zero f.text_ne_nil f.comma_notMem, drop_zero, hfind,
    Option.map_some, Nat.zero_add]

theorem dropMatches_flag (hps : IsKeywords ps) (hf : f.keyword ∈ ps)
    (hv : f.value = none) (fs : List Flag) :
    dropMatches (matchPatterns ps) (f.text ++ tailText fs) =
      dropMatches (matchPatterns ps) (tailText fs) := by
  have htext : f.text = f.keyword := by rw [Flag.text, hv]
  have hm := matchPatterns_keyword hps hf fs
  have hval : valueLength (tailText fs) = 0 := by
    apply if_neg
    cases fs with
    | nil => intro h; cases h
    | cons g fs =>
      intro h
      cases h
  rw [htext, drop_left, hval, Nat.add_zero] at hm
  rw [htext, dropMatches_of_some (length_pos_iff.mpr f.keyword_ne_nil) hm, drop_left]

theorem dropMatches_flag_value (hps : IsKeywords ps) (hf : f.keyword ∈ ps)
    (hv : f.value ≠ none) (fs : List Flag) :
    dropMatches (matchPatterns ps) (f.text ++ tailText fs) = [] := by
  obtain ⟨v, hv⟩ := Option.ne_none_iff_exists'.mp hv
  have htext : f.text = f.keyword ++ 61 :: v := by rw [Flag.text, hv]
  have hm := matchPatterns_keyword hps hf fs
  rw [htext, append_assoc, drop_left] at hm
  have hplain : ∀ c ∈ (61 :: v) ++ tailText fs, c ∉ [32, 10, 0] := by
    intro c hc
    apply text_append_plain f.text_plain fs c
    rw [htext, append_assoc]
    exact mem_append_right _ hc
  have hval : valueLength ((61 :: v) ++ tailText fs) = ((61 :: v) ++ tailText fs).length := by
    rw [valueLength_eq hplain]
    exact if_pos rfl
  rw [hval, ← length_append] at hm
  have hpos : 1 ≤ (f.keyword ++ ((61 :: v) ++ tailText fs)).length := by
    rw [length_append]
    have := length_pos_iff.mpr f.keyword_ne_nil
    omega
  rw [htext, append_assoc, dropMatches_of_some hpos hm, drop_length, dropMatches_nil]

theorem matchPatterns_text_eq_none (hps : IsKeywords ps) (ht : t ≠ []) (hc : 44 ∉ t)
    (fs : List Flag) :
    matchPatterns ps (t ++ tailText fs) = none ↔ ∀ p ∈ ps, ¬p <+: t := by
  rw [matchPatterns_eq_none, commaLength_eq_zero ht hc, drop_zero]
  refine forall₂_congr fun p hp => ?_
  rw [prefix_append_tailText_iff (hps.comma p hp)]

theorem dropMatches_match (hps : IsKeywords ps) (ht : t ≠ [])
    (hplain : ∀ c ∈ t, c ∉ [44, 32, 10, 0]) {fs : List Flag} {n : ℕ}
    (hm : matchPatterns ps (t ++ tailText fs) = some n) :
    ∃ p ∈ ps, p <+: t ∧ (dropMatches (matchPatterns ps) (t ++ tailText fs) = [] ∨
      dropMatches (matchPatterns ps) (t ++ tailText fs) =
        dropMatches (matchPatterns ps) (t.drop p.length ++ tailText fs)) := by
  obtain ⟨p, hp, hpre, hn⟩ := matchPatterns_eq_some hm
  have hcomma : commaLength (t ++ tailText fs) = 0 :=
    commaLength_eq_zero ht fun h => hplain 44 h (by decide)
  rw [hcomma, drop_zero, prefix_append_tailText_iff (hps.comma p hp)] at hpre
  have hvalue : ∀ c ∈ (t ++ tailText fs).drop p.length, c ∉ [32, 10, 0] :=
    fun c hc => text_append_plain hplain fs c (mem_of_mem_drop hc)
  rw [hcomma, Nat.zero_add, valueLength_eq hvalue] at hn
  have hppos := length_pos_iff.mpr (hps.ne_nil p hp)
  refine ⟨p, hp, hpre, ?_⟩
  rw [dropMatches_of_some (by omega) hm, ← hn]
  split_ifs
  · left
    rw [length_drop, drop_eq_nil_of_le (by omega), dropMatches_nil]
  · right
    rw [Nat.add_zero, drop_append_of_le_length hpre.length_le]

theorem dropMatches_text (hps : IsKeywords ps) (hc : 44 ∉ t)
    (ht : ∀ p ∈ ps, ¬p <:+: t) (fs : List Flag) :
    dropMatches (matchPatterns ps) (t ++ tailText fs) =
      t ++ dropMatches (matchPatterns ps) (tailText fs) := by
  induction t with
  | nil => rfl
  | cons c t ih =>
    have hnone := (matchPatterns_text_eq_none hps (cons_ne_nil c t) hc fs).mpr
      fun p hp hpre => ht p hp hpre.isInfix
    rw [cons_append] at hnone
    rw [cons_append, dropMatches_of_none hnone, ih (fun h => hc (mem_cons_of_mem c h))
      fun p hp hin => ht p hp (hin.trans (suffix_cons c t).isInfix)]
    rfl

/-- The number of bytes left of a text, without the commas. -/
def leftover (ps : List Bytes) (b : Bytes) : ℕ :=
  ((dropMatches (matchPatterns ps) b).filter (· ≠ 44)).length

theorem leftover_comma (hps : IsKeywords ps) (hx : commaLength x = 0) :
    leftover ps (44 :: x) = leftover ps x := by
  unfold leftover
  rw [dropMatches_comma hps hx]
  split_ifs
  · rw [filter_cons_of_neg (by simp)]
  · rfl

theorem leftover_text (hps : IsKeywords ps) (ht : ∀ c ∈ t, c ∉ [44, 32, 10, 0]) (fs : List Flag) :
    leftover ps (t ++ tailText fs) ≤ t.length + leftover ps (tailText fs) ∧
      ((∃ p ∈ ps, p <:+: t) →
        leftover ps (t ++ tailText fs) < t.length + leftover ps (tailText fs)) := by
  induction hk : t.length using Nat.strong_induction_on generalizing t with
  | _ k ih =>
    cases t with
    | nil =>
      subst hk
      refine ⟨by simp, ?_⟩
      rintro ⟨p, hp, hin⟩
      exact absurd (infix_nil.mp hin) (hps.ne_nil p hp)
    | cons c t =>
      rw [length_cons] at hk
      have hc : 44 ∉ c :: t := fun h => ht 44 h (by decide)
      have hcne : c ≠ 44 := fun h => hc (h ▸ mem_cons_self)
      cases hm : matchPatterns ps (c :: t ++ tailText fs) with
      | none =>
        -- the byte is kept, and a keyword can only be further on
        have hleft : leftover ps (c :: t ++ tailText fs) = leftover ps (t ++ tailText fs) + 1 := by
          rw [cons_append] at hm
          unfold leftover
          rw [cons_append, dropMatches_of_none hm,
            filter_cons_of_pos (by simpa using hcne), length_cons]
        obtain ⟨hle, hlt⟩ :=
          ih t.length (by omega) (fun x hx => ht x (mem_cons_of_mem c hx)) rfl
        refine ⟨by omega, ?_⟩
        rintro ⟨p, hp, hin⟩
        rcases infix_cons_iff.mp hin with hpre | hin
        · have hno := (matchPatterns_text_eq_none hps (cons_ne_nil c t) hc fs).mp hm
          exact absurd hpre (hno p hp)
        · have := hlt ⟨p, hp, hin⟩
          omega
      | some n =>
        obtain ⟨p, hp, hpre, hdrop⟩ := dropMatches_match hps (cons_ne_nil c t) ht hm
        have hppos := length_pos_iff.mpr (hps.ne_nil p hp)
        have hlt : leftover ps (c :: t ++ tailText fs) < k + leftover ps (tailText fs) := by
          rcases hdrop with hnil | hkey
          · rw [leftover, hnil, filter_nil, length_nil]
            omega
          · have hdlen : ((c :: t).drop p.length).length = k - p.length := by
              rw [length_drop, length_cons, hk]
            have hrest := (ih (k - p.length) (by omega)
              (fun x hx => ht x (mem_of_mem_drop hx)) hdlen).1
            have hplen := hpre.length_le
            rw [length_cons] at hplen
            have hleft : leftover ps (c :: t ++ tailText fs) =
                leftover ps ((c :: t).drop p.length ++ tailText fs) := by
              rw [leftover, hkey]
              rfl
            omega
        exact ⟨hlt.le, fun _ => hlt⟩

end OneFlag

section Flags

variable {ps : List Bytes}

theorem separable_nil : Separable ps [] := by
  intro l f r h
  exact absurd h.symm (by simp)

theorem separable_cons_iff {f : Flag} {fs : List Flag} : Separable ps (f :: fs) ↔
    (f.keyword ∉ ps → ∀ p ∈ ps, ¬p <:+: f.text) ∧
      (f.keyword ∈ ps → f.value ≠ none → ∀ g ∈ fs, g.keyword ∈ ps) ∧ Separable ps fs := by
  constructor
  · intro h
    refine ⟨fun hf => (h [] f fs rfl hf).1, fun hf hv g hg => ?_, fun l g r hfs hg => ?_⟩
    · by_contra hgk
      obtain ⟨l, r, rfl⟩ := append_of_mem hg
      exact hv ((h (f :: l) g r rfl hgk).2 f mem_cons_self hf)
    · obtain ⟨hin, hl⟩ := h (f :: l) g r (by rw [hfs]; rfl) hg
      exact ⟨hin, fun x hx => hl x (mem_cons_of_mem f hx)⟩
  · rintro ⟨hin, hval, hfs⟩ l g r hlr hg
    cases l with
    | nil =>
      cases hlr
      exact ⟨hin hg, fun x hx => absurd hx not_mem_nil⟩
    | cons x l =>
      cases hlr
      obtain ⟨hin', hl⟩ := hfs l g r rfl hg
      refine ⟨hin', fun y hy hyk => ?_⟩
      rcases mem_cons.mp hy with rfl | hy
      · by_contra hv
        exact hg (hval hyk hv g (by simp))
      · exact hl y hy hyk

theorem commaLength_text (f : Flag) (fs : List Flag) : commaLength (f.text ++ tailText fs) = 0 :=
  commaLength_eq_zero f.text_ne_nil f.comma_notMem

theorem dropMatches_tailText (hps : IsKeywords ps) {fs : List Flag} (h : Separable ps fs) :
    dropMatches (matchPatterns ps) (tailText fs) = tailText (fs.filter (·.keyword ∉ ps)) := by
  induction fs with
  | nil => exact dropMatches_nil
  | cons f fs ih =>
    obtain ⟨hin, hval, hfs⟩ := separable_cons_iff.mp h
    rw [tailText_cons, dropMatches_comma hps (commaLength_text f fs)]
    by_cases hf : f.keyword ∈ ps
    · rw [filter_cons_of_neg (by simpa using hf), ← ih hfs,
        if_neg (by rw [matchPatterns_keyword hps hf]; simp)]
      by_cases hv : f.value = none
      · exact dropMatches_flag hps hf hv fs
      · have hnil : fs.filter (·.keyword ∉ ps) = [] := by
          rw [filter_eq_nil_iff]
          intro g hg
          simpa using hval hf hv g hg
        rw [dropMatches_flag_value hps hf hv, ih hfs, hnil]
        rfl
    · have hnone := (matchPatterns_text_eq_none hps f.text_ne_nil f.comma_notMem fs).mpr
        fun p hp hpre => hin hf p hp hpre.isInfix
      rw [filter_cons_of_pos (by simpa using hf), tailText_cons, if_pos hnone,
        dropMatches_text hps f.comma_notMem (hin hf), ih hfs]

/-- The number of bytes in the flags that are to stay. -/
def keptLength (ps : List Bytes) (fs : List Flag) : ℕ :=
  ((fs.filter (·.keyword ∉ ps)).map Flag.text).flatten.length

theorem keptLength_cons (f : Flag) (fs : List Flag) : keptLength ps (f :: fs) =
    (if f.keyword ∈ ps then 0 else f.text.length) + keptLength ps fs := by
  unfold keptLength
  split_ifs with hf
  · rw [filter_cons_of_neg (by simpa using hf), Nat.zero_add]
  · rw [filter_cons_of_pos (by simpa using hf), map_cons, flatten_cons,
      length_append]

/-- Never more than the flags that are to stay is left, and all of them only if they can be told
from the others. -/
theorem leftover_tailText (hps : IsKeywords ps) (fs : List Flag) :
    leftover ps (tailText fs) ≤ keptLength ps fs ∧
      (leftover ps (tailText fs) = keptLength ps fs → Separable ps fs) := by
  induction fs with
  | nil => exact ⟨by simp [leftover, tailText], fun _ => separable_nil⟩
  | cons f fs ih =>
    obtain ⟨hle, hsep⟩ := ih
    rw [tailText_cons, leftover_comma hps (commaLength_text f fs), keptLength_cons,
      separable_cons_iff]
    by_cases hf : f.keyword ∈ ps
    · rw [if_pos hf, Nat.zero_add]
      by_cases hv : f.value = none
      · have hleft : leftover ps (f.text ++ tailText fs) = leftover ps (tailText fs) := by
          rw [leftover, dropMatches_flag hps hf hv]
          rfl
        rw [hleft]
        exact ⟨hle, fun he => ⟨fun h => absurd hf h, fun _ h => absurd hv h, hsep he⟩⟩
      · have hleft : leftover ps (f.text ++ tailText fs) = 0 := by
          rw [leftover, dropMatches_flag_value hps hf hv]
          rfl
        rw [hleft]
        refine ⟨Nat.zero_le _, fun he => ⟨fun h => absurd hf h, fun _ _ g hg => ?_, ?_⟩⟩
        · by_contra hgk
          have hnil := eq_nil_of_length_eq_zero he.symm
          rw [flatten_eq_nil_iff] at hnil
          refine g.text_ne_nil (hnil _ (List.mem_map_of_mem (mem_filter.mpr ⟨hg, ?_⟩)))
          simpa using hgk
        · exact hsep (by omega)
    · rw [if_neg hf]
      obtain ⟨htext, hlt⟩ := leftover_text hps f.text_plain fs
      refine ⟨by omega, fun he => ⟨fun _ p hp hin => ?_, fun h => absurd h hf, hsep (by omega)⟩⟩
      have := hlt ⟨p, hp, hin⟩
      omega

theorem options_dropMatches_flagsText (hps : IsKeywords ps) (fs : List Flag) :
    options (dropMatches (matchPatterns ps) (flagsText fs)) =
      options (dropMatches (matchPatterns ps) (tailText fs)) := by
  cases fs with
  | nil => rfl
  | cons f fs =>
    rw [flagsText_cons, tailText_cons, dropMatches_comma hps (commaLength_text f fs)]
    split_ifs
    · rw [options_comma]
    · rfl

theorem removesExactly_iff (hps : IsKeywords ps) (fs : List Flag) :
    RemovesExactly (fun b => removePattern b (matchPatterns ps)) ps fs ↔ Separable ps fs := by
  unfold RemovesExactly
  rw [removePattern_take, options_dropMatches_flagsText hps]
  constructor
  · intro h
    have hflat := congrArg (fun l => l.flatten.length) h
    rw [flatten_options] at hflat
    exact (leftover_tailText hps fs).2 hflat
  · intro h
    rw [dropMatches_tailText hps h, options_tailText]

end Flags

/-- The flags with a keyword are removed and all others kept exactly when no other flag contains
one of the keywords or stands behind a removed flag that has a value. -/
theorem patch_removesExactly_iff (fs : List Flag) :
    (RemovesExactly patchVerity verityPatterns fs ↔ Separable verityPatterns fs) ∧
      (RemovesExactly patchEncryption encryptionPatterns fs ↔ Separable encryptionPatterns fs) :=
  ⟨removesExactly_iff isKeywords_verity fs, removesExactly_iff isKeywords_encryption fs⟩

def flag (keyword : Bytes) (hne : keyword ≠ []) (h : ∀ c ∈ keyword, c ∉ [44, 61, 32, 10, 0]) :
    Flag where
  keyword := keyword
  value := none
  keyword_ne_nil := hne
  keyword_plain := h
  value_plain := by
    intro v hv
    cases hv

def logicalFlags : List Flag :=
  [flag (lit "wait") (by decide +kernel) (by decide +kernel),
    ⟨lit "avb", some (lit "vbmeta"), by decide +kernel, by decide +kernel, by
      intro v hv
      cases hv
      decide +kernel⟩,
    flag (lit "logical") (by decide +kernel) (by decide +kernel)]

/-- The value of `avb` takes `logical` with it. -/
theorem patchVerity_logical : flagsText logicalFlags = lit "wait,avb=vbmeta,logical" ∧
    patchVerity (flagsText logicalFlags) = (lit "wait" ++ zeros 19, 4) ∧
    ¬RemovesExactly patchVerity verityPatterns logicalFlags := by
  refine ⟨by decide +kernel, by decide +kernel, ?_⟩
  unfold RemovesExactly
  decide

end Magisk.Boot
