import Magisk.Boot.Format
import Magisk.Boot.Patch
import Magisk.DropMatches

namespace Magisk.Boot

open List Option

/-- The buffer and the counters of the loop. -/
structure Removal where
  buf : Bytes
  write : ℕ
  read : ℕ
  sz : ℕ

/-- A round of `while read < buf.len()`, or `none` when the loop ends. An unchecked access outside
of the buffer is undefined. -/
def removeRound (matcher : Bytes → Option ℕ) (st : Removal) : Except Stop (Option Removal) :=
  if h : st.read < st.buf.length then
    match matcher (st.buf.drop st.read) with
    | some len =>
      if st.read + len ≤ st.buf.length then
        .ok (some { st with sz := st.sz - len, read := st.read + len })
      else .error .undefined
    | none =>
      if st.write < st.buf.length then
        .ok (some { st with
          buf := st.buf.set st.write st.buf[st.read]
          write := st.write + 1
          read := st.read + 1 })
      else .error .undefined
  else .ok none

/-- More rounds than there are bytes mean a match of length zero, where the loop stays for ever. -/
def removeRounds (matcher : Bytes → Option ℕ) : ℕ → Removal → Except Stop Removal
  | 0, _ => .error .hang
  | fuel + 1, st => do
    match ← removeRound matcher st with
    | none => return st
    | some st => removeRounds matcher fuel st

def removePatternInPlace (buf : Bytes) (matcher : Bytes → Option ℕ) : Except Stop (Bytes × ℕ) := do
  let st ← removeRounds matcher (buf.length + 1) ⟨buf, 0, 0, buf.length⟩
  -- `fill(0)` from `write` on
  return (st.buf.take st.write ++ zeros (st.buf.length - st.write), st.sz)

/-- The loop gets from `st` to `st'`. -/
def Removes (matcher : Bytes → Option ℕ) : Removal → Removal → Prop :=
  Relation.ReflTransGen fun st st' => removeRound matcher st = .ok (some st')

section Loop

variable {matcher : Bytes → Option ℕ} {buf : Bytes} {st st' : Removal}

/-- What is before `write` is settled and what is from `read` on has not been touched. -/
structure Removal.Consistent (matcher : Bytes → Option ℕ) (buf : Bytes) (st : Removal) : Prop where
  length : st.buf.length = buf.length
  write_le : st.write ≤ st.read
  read_le : st.read ≤ st.buf.length
  unread : st.buf.drop st.read = buf.drop st.read
  kept : dropMatches matcher buf =
    st.buf.take st.write ++ dropMatches matcher (st.buf.drop st.read)
  sz : st.sz = st.write + (st.buf.length - st.read)

theorem consistent_start (matcher : Bytes → Option ℕ) (buf : Bytes) :
    Removal.Consistent matcher buf ⟨buf, 0, 0, buf.length⟩ where
  length := rfl
  write_le := le_rfl
  read_le := Nat.zero_le _
  unread := rfl
  kept := rfl
  sz := by simp

theorem removeRound_of_le (h : st.buf.length ≤ st.read) : removeRound matcher st = .ok none :=
  dif_neg (Nat.not_lt.mpr h)

/-- All that a round can do. -/
inductive Round (matcher : Bytes → Option ℕ) (st : Removal) : Removal → Prop
  | skip {len : ℕ} : st.read < st.buf.length → matcher (st.buf.drop st.read) = some len →
      st.read + len ≤ st.buf.length →
      Round matcher st { st with sz := st.sz - len, read := st.read + len }
  | copy (h : st.read < st.buf.length) : matcher (st.buf.drop st.read) = none →
      st.write < st.buf.length →
      Round matcher st { st with
        buf := st.buf.set st.write st.buf[st.read]
        write := st.write + 1
        read := st.read + 1 }

theorem removeRound_eq_some : removeRound matcher st = .ok (some st') ↔ Round matcher st st' := by
  constructor
  · intro he
    by_cases h : st.read < st.buf.length
    · rw [removeRound, dif_pos h] at he
      cases hm : matcher (st.buf.drop st.read) with
      | some len =>
        rw [hm] at he
        dsimp only at he
        split_ifs at he with hle
        cases he
        exact .skip h hm hle
      | none =>
        rw [hm] at he
        split_ifs at he with hw
        cases he
        exact .copy h hm hw
    · rw [removeRound_of_le (Nat.not_lt.mp h)] at he
      cases he
  · intro hr
    cases hr with
    | skip h hm hle =>
      rw [removeRound, dif_pos h, hm]
      exact if_pos hle
    | copy h hm hw =>
      rw [removeRound, dif_pos h, hm]
      exact if_pos hw

theorem drop_read_ne_nil (h : st.read < st.buf.length) : st.buf.drop st.read ≠ [] := by
  rw [Ne, drop_eq_nil_iff]
  omega

theorem Removal.Consistent.round (hb : Bounded matcher) (hc : st.Consistent matcher buf)
    (h : Round matcher st st') : st'.Consistent matcher buf ∧ st.read < st'.read := by
  cases h with
  | @skip len hlt hm hle =>
    have hpos := (hb _ len (drop_read_ne_nil hlt) hm).1
    refine ⟨⟨hc.length, ?_, hle, ?_, ?_, ?_⟩, ?_⟩
    · exact hc.write_le.trans (Nat.le_add_right _ _)
    · rw [← drop_drop, ← drop_drop, hc.unread]
    · rw [hc.kept, dropMatches_of_some hpos hm, drop_drop]
    · have := hc.sz
      dsimp only
      omega
    · dsimp only
      omega
  | copy hlt hm hw =>
    have hset : (st.buf.set st.write st.buf[st.read]).drop (st.read + 1) =
        st.buf.drop (st.read + 1) := by
      apply drop_set_of_lt
      exact Nat.lt_succ_of_le hc.write_le
    refine ⟨⟨?_, ?_, ?_, ?_, ?_, ?_⟩, ?_⟩
    · rw [length_set]
      exact hc.length
    · exact Nat.succ_le_succ hc.write_le
    · rw [length_set]
      exact hlt
    · rw [hset, ← drop_drop, ← drop_drop, hc.unread]
    · have hcons : st.buf.drop st.read = st.buf[st.read] :: st.buf.drop (st.read + 1) :=
        drop_eq_getElem_cons hlt
      rw [hcons] at hm
      rw [hset, hc.kept, hcons, dropMatches_of_none hm]
      rw [take_succ_eq_append_getElem (by rw [length_set]; exact hw), getElem_set_self,
        take_set_of_le le_rfl, append_assoc]
      rfl
    · have := hc.sz
      dsimp only
      rw [length_set]
      omega
    · exact Nat.lt_succ_self _

theorem Removal.Consistent.exists_round (hb : Bounded matcher) (hc : st.Consistent matcher buf)
    (hlt : st.read < st.buf.length) : ∃ st', Round matcher st st' := by
  cases hm : matcher (st.buf.drop st.read) with
  | some len =>
    have hle := (hb _ len (drop_read_ne_nil hlt) hm).2
    rw [length_drop] at hle
    exact ⟨_, .skip hlt hm (by omega)⟩
  | none => exact ⟨_, .copy hlt hm (hc.write_le.trans_lt hlt)⟩

theorem Removal.Consistent.removes (hb : Bounded matcher) (hc : st.Consistent matcher buf)
    (h : Removes matcher st st') : st'.Consistent matcher buf := by
  induction h with
  | refl => exact hc
  | tail _ hr ih => exact (ih.round hb (removeRound_eq_some.mp hr)).1

theorem removeRounds_of_consistent (hb : Bounded matcher) (fuel : ℕ)
    (hc : st.Consistent matcher buf) (hf : st.buf.length - st.read < fuel) :
    ∃ st', removeRounds matcher fuel st = .ok st' ∧ st'.Consistent matcher buf ∧
      st'.read = st'.buf.length := by
  induction fuel generalizing st with
  | zero => omega
  | succ fuel ih =>
    rw [removeRounds]
    by_cases hlt : st.read < st.buf.length
    · obtain ⟨st', hr⟩ := hc.exists_round hb hlt
      obtain ⟨hc', hread⟩ := hc.round hb hr
      have hlen : st'.buf.length = st.buf.length := hc'.length.trans hc.length.symm
      rw [removeRound_eq_some.mpr hr]
      exact ih hc' (by omega)
    · rw [removeRound_of_le (Nat.not_lt.mp hlt)]
      exact ⟨st, rfl, hc, le_antisymm hc.read_le (Nat.not_lt.mp hlt)⟩

theorem removePatternInPlace_eq (hb : Bounded matcher) (buf : Bytes) :
    removePatternInPlace buf matcher =
      .ok (dropMatches matcher buf ++ zeros (buf.length - (dropMatches matcher buf).length),
        (dropMatches matcher buf).length) := by
  obtain ⟨st, hrun, hc, hend⟩ := removeRounds_of_consistent hb (buf.length + 1)
    (consistent_start matcher buf) (Nat.lt_succ_self _)
  have hwrite : st.write ≤ st.buf.length := hend ▸ hc.write_le
  have hkept : dropMatches matcher buf = st.buf.take st.write := by
    rw [hc.kept, hend, drop_length, dropMatches_nil, append_nil]
  have hlen : (dropMatches matcher buf).length = st.write := by
    rw [hkept, length_take, min_eq_left hwrite]
  have hsz : st.sz = st.write := by
    have := hc.sz
    omega
  rw [removePatternInPlace, hrun, hlen, hkept, ← hc.length]
  exact congrArg (fun n => Except.ok (_, n)) hsz

end Loop

theorem removeLoop_fst (matcher : Bytes → Option ℕ) (skip : ℕ) (buf : Bytes) :
    (removeLoop matcher skip buf).1 = dropMatches matcher (buf.drop skip) := by
  fun_induction removeLoop matcher skip buf with
  | case1 skip => rw [drop_nil, dropMatches_nil]
  | case2 skip c b r ih => exact ih
  | case3 c b len hm r ih =>
    rw [drop_zero, dropMatches, hm]
    exact ih
  | case4 c b hm r ih =>
    rw [drop_zero, dropMatches_of_none hm]
    exact congrArg (c :: ·) ih

theorem removePattern_eq (buf : Bytes) (matcher : Bytes → Option ℕ) :
    removePattern buf matcher =
      (dropMatches matcher buf ++ zeros (buf.length - (dropMatches matcher buf).length),
        (dropMatches matcher buf).length) := by
  have hfst : (removeLoop matcher 0 buf).1 = dropMatches matcher buf := removeLoop_fst matcher 0 buf
  have hlen := removeLoop_length matcher 0 buf
  rw [hfst] at hlen
  have hremoved : (removeLoop matcher 0 buf).2 = buf.length - (dropMatches matcher buf).length := by
    omega
  have hleft : buf.length - (removeLoop matcher 0 buf).2 = (dropMatches matcher buf).length := by
    omega
  rw [removePattern, hfst, hleft, hremoved]

theorem removePatternInPlace_eq_removePattern {matcher : Bytes → Option ℕ} (hb : Bounded matcher)
    (buf : Bytes) : removePatternInPlace buf matcher = .ok (removePattern buf matcher) := by
  rw [removePatternInPlace_eq hb, removePattern_eq]

theorem removePattern_take (buf : Bytes) (matcher : Bytes → Option ℕ) :
    (removePattern buf matcher).1.take (removePattern buf matcher).2 = dropMatches matcher buf := by
  rw [removePattern_eq]
  exact take_left

section Patterns

/-- The bytes that stand in a keyword. -/
def keywordBytes : Bytes := (verityPatterns ++ encryptionPatterns).flatten

variable {patterns : List Bytes}

/-- The length of the comma in front of a keyword. -/
def commaLength (buf : Bytes) : ℕ := if buf.head? = some 44 then 1 else 0

/-- The length of the value behind a keyword, the equals sign included. -/
def valueLength (b : Bytes) : ℕ :=
  if b.head? = some 61 then (b.takeWhile fun c => c ∉ [32, 10, 0]).length else 0

theorem matchPatterns_eq (patterns : List Bytes) (buf : Bytes) :
    matchPatterns patterns buf =
      (patterns.find? fun p => p.isPrefixOf (buf.drop (commaLength buf))).map fun p =>
        commaLength buf + p.length + valueLength (buf.drop (commaLength buf + p.length)) := by
  unfold matchPatterns commaLength
  dsimp only
  cases patterns.find? fun p => p.isPrefixOf (buf.drop (if buf.head? = some 44 then 1 else 0)) with
  | none => rfl
  | some p =>
    dsimp only [map_some, valueLength]
    split_ifs <;> rfl

theorem matchPatterns_eq_none {buf : Bytes} : matchPatterns patterns buf = none ↔
    ∀ p ∈ patterns, ¬p <+: buf.drop (commaLength buf) := by
  rw [matchPatterns_eq, map_eq_none_iff, find?_eq_none]
  exact forall₂_congr fun p _ => not_congr isPrefixOf_iff_prefix

theorem matchPatterns_eq_some {buf : Bytes} {n : ℕ} (h : matchPatterns patterns buf = some n) :
    ∃ p ∈ patterns, p <+: buf.drop (commaLength buf) ∧
      commaLength buf + p.length + valueLength (buf.drop (commaLength buf + p.length)) = n := by
  rw [matchPatterns_eq] at h
  obtain ⟨p, hp, hn⟩ := map_eq_some_iff.mp h
  have hpre := find?_some hp
  exact ⟨p, mem_of_find?_eq_some hp, isPrefixOf_iff_prefix.mp hpre, hn⟩

theorem valueLength_le (b : Bytes) : valueLength b ≤ b.length := by
  unfold valueLength
  split_ifs
  · exact (takeWhile_sublist _).length_le
  · exact Nat.zero_le _

/-- The byte behind a keyword is none of a keyword, wherever the scan would find one. -/
def KeywordsEnd (patterns : List Bytes) (data : Bytes) : Prop :=
  ∀ t, t <:+ data → ∀ p, (patterns.find? fun p => p.isPrefixOf t) = some p →
    ∀ c ∈ (t.drop p.length).head?, c ∉ keywordBytes

instance (patterns : List Bytes) (data : Bytes) : Decidable (KeywordsEnd patterns data) :=
  decidable_of_iff (∀ t ∈ data.tails, ∀ p ∈ (patterns.find? fun p : Bytes => p.isPrefixOf t),
    ∀ c ∈ (t.drop p.length).head?, c ∉ keywordBytes) (by simp only [mem_tails]; rfl)

theorem head_drop_valueLength {b : Bytes} (h : ∀ c ∈ b.head?, c ∉ keywordBytes) :
    ∀ c ∈ (b.drop (valueLength b)).head?, c ∉ keywordBytes := by
  unfold valueLength
  split_ifs
  · -- a value ends at a blank, a newline or a NUL
    have hends : ∀ c ∈ ([32, 10, 0] : Bytes), c ∉ keywordBytes := by decide +kernel
    have hsplit := takeWhile_append_dropWhile (p := fun c => decide (c ∉ [32, 10, 0])) (l := b)
    have hstop := head?_dropWhile_not (fun c => decide (c ∉ [32, 10, 0])) b
    intro c hc
    nth_rewrite 2 [← hsplit] at hc
    rw [drop_left] at hc
    rw [hc] at hstop
    exact hends c (not_not.mp (of_decide_eq_false hstop))
  · exact h

theorem KeywordsEnd.matchesEnd {data : Bytes} (h : KeywordsEnd patterns data) :
    MatchesEnd (matchPatterns patterns) (· ∈ keywordBytes) data := by
  intro t ht _ n hn
  rw [matchPatterns_eq] at hn
  obtain ⟨p, hp, rfl⟩ := map_eq_some_iff.mp hn
  rw [← drop_drop]
  apply head_drop_valueLength
  rw [← drop_drop]
  exact h _ ((drop_suffix _ t).trans ht) p hp

theorem mem_keywordBytes {p : Bytes} (hp : p ∈ verityPatterns ++ encryptionPatterns) :
    ∀ c ∈ p, c ∈ keywordBytes :=
  fun _ hc => mem_flatten_of_mem hp hc

theorem matchPatterns_bounded (hne : ∀ p ∈ patterns, p ≠ []) : Bounded (matchPatterns patterns) := by
  intro buf n hbuf h
  obtain ⟨p, hp, hpre, rfl⟩ := matchPatterns_eq_some h
  have hpos := length_pos_iff.mpr (hne p hp)
  have hle := hpre.length_le
  have hval := valueLength_le (buf.drop (commaLength buf + p.length))
  rw [length_drop] at hle hval
  omega

theorem matchPatterns_ne_none (hne : ∀ p ∈ patterns, p ≠ []) (hcomma : ∀ p ∈ patterns, 44 ∉ p)
    {p t : Bytes} (hp : p ∈ patterns) (hpre : p <+: t) : matchPatterns patterns t ≠ none := by
  have hhead : commaLength t = 0 := by
    apply if_neg
    intro hh
    obtain ⟨c, q, rfl⟩ := exists_cons_of_ne_nil (hne p hp)
    obtain ⟨r, rfl⟩ := hpre
    cases hh
    exact hcomma _ hp mem_cons_self
  intro hnone
  rw [matchPatterns_eq_none, hhead] at hnone
  exact hnone p hp hpre

theorem exists_match_iff (hne : ∀ p ∈ patterns, p ≠ []) (hcomma : ∀ p ∈ patterns, 44 ∉ p)
    {l : Bytes} : (∃ t, t ≠ [] ∧ t <:+ l ∧ matchPatterns patterns t ≠ none) ↔
      ∃ p ∈ patterns, p <:+: l := by
  constructor
  · rintro ⟨t, -, hs, hm⟩
    obtain ⟨n, hn⟩ := ne_none_iff_exists'.mp hm
    obtain ⟨p, hp, hpre, -⟩ := matchPatterns_eq_some hn
    exact ⟨p, hp, hpre.isInfix.trans ((drop_suffix _ t).trans hs).isInfix⟩
  · rintro ⟨p, hp, hin⟩
    obtain ⟨t, hpre, hs⟩ := infix_iff_prefix_suffix.mp hin
    have ht : t ≠ [] := by
      rintro rfl
      exact hne p hp (prefix_nil.mp hpre)
    exact ⟨t, ht, hs, matchPatterns_ne_none hne hcomma hp hpre⟩

/-- The scan leaves none of its keywords, as nothing joins to one around what it drops. -/
theorem KeywordsEnd.not_infix (hne : ∀ p ∈ patterns, p ≠ []) (hcomma : ∀ p ∈ patterns, 44 ∉ p)
    (hbytes : ∀ p ∈ patterns, ∀ c ∈ p, c ∈ keywordBytes) {data : Bytes}
    (h : KeywordsEnd patterns data) :
    ∀ p ∈ patterns, ¬ p <:+: dropMatches (matchPatterns patterns) data := by
  intro p hp hin
  obtain ⟨u, hpre, hs⟩ := infix_iff_prefix_suffix.mp hin
  obtain ⟨t, ht, rfl⟩ := exists_suffix_dropMatches hs
  obtain ⟨s, rfl, -, hnone⟩ := dropMatches_word (matchPatterns_bounded hne) h.matchesEnd ht
    (hbytes p hp) hpre
  exact matchPatterns_ne_none hne hcomma hp (prefix_append p s) (hnone (hne p hp))

/-- Another scan makes no new keyword either. -/
theorem KeywordsEnd.infix_of_dropMatches (hne : ∀ p ∈ patterns, p ≠ []) {data : Bytes}
    (h : KeywordsEnd patterns data) {p : Bytes} (hp : ∀ c ∈ p, c ∈ keywordBytes)
    (hin : p <:+: dropMatches (matchPatterns patterns) data) : p <:+: data := by
  obtain ⟨u, hpre, hs⟩ := infix_iff_prefix_suffix.mp hin
  obtain ⟨t, ht, rfl⟩ := exists_suffix_dropMatches hs
  obtain ⟨s, rfl, -⟩ := dropMatches_word (matchPatterns_bounded hne) h.matchesEnd ht hp hpre
  exact (prefix_append p s).isInfix.trans ht.isInfix

/-- Keywords none of which starts another one still end after a scan for others. -/
theorem KeywordsEnd.left_by_scan (hne : ∀ p ∈ patterns, p ≠ []) {data : Bytes}
    (h : KeywordsEnd patterns data) {qs : List Bytes}
    (hbytes : ∀ p ∈ qs, ∀ c ∈ p, c ∈ keywordBytes) (hqs : ∀ p ∈ qs, ∀ q ∈ qs, p <+: q → p = q)
    (hq : KeywordsEnd qs data) : KeywordsEnd qs (dropMatches (matchPatterns patterns) data) := by
  intro u hu p hfind
  obtain ⟨t, ht, rfl⟩ := exists_suffix_dropMatches hu
  have hp := mem_of_find?_eq_some hfind
  have hpre := find?_some hfind
  have hpre := isPrefixOf_iff_prefix.mp hpre
  obtain ⟨s, rfl, hs, -⟩ := dropMatches_word (matchPatterns_bounded hne) h.matchesEnd ht
    (hbytes p hp) hpre
  rw [hs, drop_left]
  have hend : ∀ c ∈ s.head?, c ∉ keywordBytes := by
    have hfirst : (qs.find? fun q => q.isPrefixOf (p ++ s)) = some p := by
      cases hq' : qs.find? fun q => q.isPrefixOf (p ++ s) with
      | none =>
        have hstart : p.isPrefixOf (p ++ s) :=
          isPrefixOf_iff_prefix.mpr (prefix_append p s)
        exact absurd hstart (find?_eq_none.mp hq' p hp)
      | some q =>
        have hqpre := find?_some hq'
        have hqpre := isPrefixOf_iff_prefix.mp hqpre
        have hqmem := mem_of_find?_eq_some hq'
        rcases prefix_or_prefix_of_prefix hqpre (prefix_append p s) with hle | hle
        · rw [hqs q hqmem p hp hle]
        · rw [hqs p hp q hqmem hle]
    have hhead := hq (p ++ s) ht p hfirst
    rwa [drop_left] at hhead
  cases s with
  | nil => simp
  | cons c s =>
    have hsuf : c :: s <:+ data := (suffix_append p (c :: s)).trans ht
    by_cases hm : matchPatterns patterns (c :: s) = none
    · rwa [dropMatches_of_none hm]
    · exact head_dropMatches (matchPatterns_bounded hne) h.matchesEnd hsuf (cons_ne_nil c s) hm

end Patterns

theorem verityPatterns_ne_nil : ∀ p ∈ verityPatterns, p ≠ [] := by decide

theorem encryptionPatterns_ne_nil : ∀ p ∈ encryptionPatterns, p ≠ [] := by decide

/-- The loop in place gives what the scan of the text gives and never leaves the buffer. -/
theorem removePatternInPlace_scan (buf : Bytes) {matcher : Bytes → Option ℕ}
    (hb : Bounded matcher) :
    removePatternInPlace buf matcher =
        .ok (dropMatches matcher buf ++ zeros (buf.length - (dropMatches matcher buf).length),
          (dropMatches matcher buf).length) ∧
      (∀ st, Removes matcher ⟨buf, 0, 0, buf.length⟩ st →
        st.buf.length = buf.length ∧ st.write ≤ st.read ∧ st.read ≤ buf.length) ∧
      Bounded (matchPatterns verityPatterns) ∧ Bounded (matchPatterns encryptionPatterns) := by
  refine ⟨removePatternInPlace_eq hb buf, fun st hst => ?_,
    matchPatterns_bounded verityPatterns_ne_nil, matchPatterns_bounded encryptionPatterns_ne_nil⟩
  have hc := (consistent_start matcher buf).removes hb hst
  exact ⟨hc.length, hc.write_le, hc.length ▸ hc.read_le⟩

theorem removePatternInPlace_scan_verify : Bounded (matchPatterns verityPatterns) ∧
    removePatternInPlace (lit "wait,verify") (matchPatterns verityPatterns) =
      .ok (lit "wait" ++ zeros 7, 4) := by
  have hb := matchPatterns_bounded verityPatterns_ne_nil
  have h := (removePatternInPlace_scan (lit "wait,verify") hb).1
  have hleft : dropMatches (matchPatterns verityPatterns) (lit "wait,verify") = lit "wait" := by
    rw [← removePattern_take]
    decide
  rw [hleft] at h
  exact ⟨hb, h⟩

end Magisk.Boot
