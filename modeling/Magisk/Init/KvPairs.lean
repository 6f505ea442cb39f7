import Magisk.Bytes

namespace Magisk.Init

open List

def quote : UInt8 := '"'.toUInt8
def space : UInt8 := ' '.toUInt8
def equals : UInt8 := '='.toUInt8
def newline : UInt8 := '\n'.toUInt8

/-- The text up to the end, a character of `breaks` or, outside of quotes, one of
`escapes`. Quotes are left out and change the state `quoted`. -/
def extractQuotedStrUntil (escapes breaks : Bytes) (quoted : Bool) : Bytes → Bytes × Bytes × Bool
  | [] => ([], [], quoted)
  | c :: str =>
    if c ∈ breaks ∨ quoted = false ∧ c ∈ escapes then ([], c :: str, quoted)
    else if c = quote then extractQuotedStrUntil escapes breaks (!quoted) str
    else
      let (result, rest) := extractQuotedStrUntil escapes breaks quoted str
      (c :: result, rest)

/-- One turn of the loop of `parse_impl`: the pair, the position after it and the state. -/
def parsePair (delim eq : UInt8) (padding : Bytes) (quoted : Bool) (str : Bytes) :
    (Bytes × Bytes) × Bytes × Bool :=
  let (key, rest, quoted) := extractQuotedStrUntil (padding ++ [delim]) [eq] quoted str
  let rest := rest.dropWhile (· ∈ eq :: padding)
  if rest = [] ∨ rest.head? = some delim then ((key, []), rest, quoted)
  else
    let (value, rest, quoted) := extractQuotedStrUntil [delim] [] quoted rest
    ((key, value), rest, quoted)

theorem length_extract_le (escapes breaks : Bytes) (quoted : Bool) (str : Bytes) :
    (extractQuotedStrUntil escapes breaks quoted str).2.1.length ≤ str.length := by
  induction str generalizing quoted with
  | nil => simp [extractQuotedStrUntil]
  | cons c str ih =>
    rw [extractQuotedStrUntil]
    split_ifs with hstop hquote
    · exact le_rfl
    · exact (ih _).trans (by simp)
    · exact (ih _).trans (by simp)

theorem extract_moves (escapes breaks : Bytes) (quoted : Bool) (c : UInt8) (str : Bytes) :
    (extractQuotedStrUntil escapes breaks quoted (c :: str)).2.1.length ≤ str.length ∨
      c ∈ breaks ++ escapes ∧
        (extractQuotedStrUntil escapes breaks quoted (c :: str)).2.1 = c :: str := by
  rw [extractQuotedStrUntil]
  split_ifs with hstop hquote
  · right
    refine ⟨?_, rfl⟩
    rw [mem_append]
    exact hstop.imp id And.right
  · exact Or.inl (length_extract_le _ _ _ _)
  · exact Or.inl (length_extract_le _ _ _ _)

theorem length_parsePair_le (delim eq : UInt8) (padding : Bytes) (quoted : Bool) (str : Bytes) :
    (parsePair delim eq padding quoted str).2.1.length ≤
      ((extractQuotedStrUntil (padding ++ [delim]) [eq] quoted str).2.1.dropWhile
        (· ∈ eq :: padding)).length := by
  unfold parsePair
  dsimp only
  split_ifs with hend
  · exact le_rfl
  · exact length_extract_le _ _ _ _

theorem length_rest_lt (delim eq : UInt8) (padding : Bytes) (quoted : Bool) (c : UInt8)
    (str : Bytes) :
    ((parsePair delim eq padding quoted (c :: str)).2.1.dropWhile (· = delim)).length
      < (c :: str).length := by
  have hdelim := (dropWhile_sublist (· = delim)
    (l := (parsePair delim eq padding quoted (c :: str)).2.1)).length_le
  have hpair := length_parsePair_le delim eq padding quoted (c :: str)
  have hskip := (dropWhile_sublist (fun x => decide (x ∈ eq :: padding))
    (l := (extractQuotedStrUntil (padding ++ [delim]) [eq] quoted (c :: str)).2.1)).length_le
  rcases extract_moves (padding ++ [delim]) [eq] quoted c str with hlt | ⟨hmem, hstay⟩
  · rw [length_cons]
    omega
  rw [hstay] at hpair
  by_cases hc : c ∈ eq :: padding
  · rw [dropWhile_cons_of_pos (by simpa using hc)] at hpair
    have h := (dropWhile_sublist (fun x => decide (x ∈ eq :: padding)) (l := str)).length_le
    rw [length_cons]
    omega
  -- Neither the key nor the skipped characters move, so the pair ends at the delimiter.
  obtain rfl : c = delim := by
    rw [mem_append, mem_append, mem_singleton, mem_singleton] at hmem
    rw [mem_cons, not_or] at hc
    tauto
  have hrest : (parsePair c eq padding quoted (c :: str)).2.1 = c :: str := by
    unfold parsePair
    dsimp only
    rw [hstay, dropWhile_cons_of_neg (by simpa using hc), head?_cons,
      if_pos (Or.inr rfl)]
  rw [hrest, dropWhile_cons_of_pos (by simp)]
  have h := (dropWhile_sublist (fun x => decide (x = c)) (l := str)).length_le
  rw [length_cons]
  omega

/-- The loop of `parse_impl` from a position on. -/
def parseLoop (delim eq : UInt8) (padding : Bytes) (quoted : Bool) : Bytes → List (Bytes × Bytes)
  | [] => []
  | c :: str =>
    (parsePair delim eq padding quoted (c :: str)).1 ::
      parseLoop delim eq padding (parsePair delim eq padding quoted (c :: str)).2.2
        ((parsePair delim eq padding quoted (c :: str)).2.1.dropWhile (· = delim))
termination_by str => str.length
decreasing_by exact length_rest_lt delim eq padding quoted c str

def parseImpl (delim eq : UInt8) (padding str : Bytes) : List (Bytes × Bytes) :=
  parseLoop delim eq padding false str

def parseCmdline (str : Bytes) : List (Bytes × Bytes) := parseImpl space equals [] str
def parseBootconfig (str : Bytes) : List (Bytes × Bytes) := parseImpl newline equals [space] str

section Extract

variable {escapes breaks : Bytes}

theorem extract_append {w : Bytes} (quoted : Bool)
    (h : ∀ c ∈ w, c ∉ breaks ∧ c ≠ quote ∧ (quoted = false → c ∉ escapes)) (str : Bytes) :
    extractQuotedStrUntil escapes breaks quoted (w ++ str) =
      (w ++ (extractQuotedStrUntil escapes breaks quoted str).1,
        (extractQuotedStrUntil escapes breaks quoted str).2) := by
  induction w with
  | nil => rfl
  | cons c w ih =>
    obtain ⟨hbreak, hquote, hescape⟩ := h c mem_cons_self
    have hstop : ¬(c ∈ breaks ∨ quoted = false ∧ c ∈ escapes) := by
      rintro (hb | ⟨hq, he⟩)
      · exact hbreak hb
      · exact hescape hq he
    rw [cons_append, extractQuotedStrUntil, if_neg hstop, if_neg hquote,
      ih fun d hd => h d (mem_cons_of_mem _ hd)]
    rfl

theorem extract_quote (quoted : Bool) (hbreak : quote ∉ breaks) (hescape : quote ∉ escapes)
    (str : Bytes) : extractQuotedStrUntil escapes breaks quoted (quote :: str) =
      extractQuotedStrUntil escapes breaks (!quoted) str := by
  have hstop : ¬(quote ∈ breaks ∨ quoted = false ∧ quote ∈ escapes) := by
    rintro (hb | ⟨-, he⟩)
    · exact hbreak hb
    · exact hescape he
  rw [extractQuotedStrUntil, if_neg hstop, if_pos rfl]

theorem extract_stop {str : Bytes} (h : ∀ c ∈ str.head?, c ∈ breaks ++ escapes) :
    extractQuotedStrUntil escapes breaks false str = ([], str, false) := by
  cases str with
  | nil => rfl
  | cons c str =>
    have hc := mem_append.mp (h c rfl)
    rw [extractQuotedStrUntil, if_pos (hc.imp id fun he => ⟨rfl, he⟩)]

theorem extract_quoted {w str : Bytes} (hescape : quote ∉ escapes) (hw : quote ∉ w) :
    extractQuotedStrUntil escapes [] false (quote :: (w ++ quote :: str)) =
      (w ++ (extractQuotedStrUntil escapes [] false str).1,
        (extractQuotedStrUntil escapes [] false str).2) := by
  rw [extract_quote false not_mem_nil hescape, Bool.not_false,
    extract_append true, extract_quote true not_mem_nil hescape, Bool.not_true]
  intro c hc
  exact ⟨not_mem_nil, fun h => hw (h ▸ hc), fun h => nomatch h⟩

end Extract

/-- What stands after the key of a kernel parameter. -/
inductive Arg where
  | none
  | plain (value : Bytes)
  | quoted (value : Bytes)

namespace Arg

/-- The values that can stand on the command line. -/
def Ok : Arg → Prop
  | none => True
  | plain v => ∀ c ∈ v, c ≠ quote ∧ c ≠ newline ∧ c ≠ space
  | quoted v => ∀ c ∈ v, c ≠ quote ∧ c ≠ newline

instance : DecidablePred Ok
  | none => inferInstanceAs (Decidable True)
  | plain v => inferInstanceAs (Decidable (∀ c ∈ v, c ≠ quote ∧ c ≠ newline ∧ c ≠ space))
  | quoted v => inferInstanceAs (Decidable (∀ c ∈ v, c ≠ quote ∧ c ≠ newline))

def text : Arg → Bytes
  | none => []
  | plain v => equals :: v
  | quoted v => equals :: quote :: (v ++ [quote])

def value : Arg → Bytes
  | none => []
  | plain v => v
  | quoted v => v

/-- The value as it stands on the line begins with `=`. -/
def StartsWithEquals : Arg → Prop
  | plain v => v.head? = some equals
  | _ => False

instance : DecidablePred StartsWithEquals
  | plain v => inferInstanceAs (Decidable (v.head? = some equals))
  | none | quoted _ => inferInstanceAs (Decidable False)

end Arg

structure Param where
  key : Bytes
  arg : Arg
  key_ne : key ≠ []
  key_plain : ∀ c ∈ key, c ≠ space ∧ c ≠ equals ∧ c ≠ quote ∧ c ≠ newline
  arg_ok : arg.Ok

namespace Param

def text (p : Param) : Bytes := p.key ++ p.arg.text
def pair (p : Param) : Bytes × Bytes := (p.key, p.arg.value)

/-- The pair that is found when `e` follows the parameter. -/
def found (p : Param) (e : Bytes) : Bytes × Bytes :=
  match p.arg with
  | .none => (p.key ++ e, [])
  | .plain v => (p.key, v.dropWhile (· = equals) ++ e)
  | .quoted v => (p.key, v ++ e)

end Param

def cmdlineText (ps : List Param) (e : Bytes) : Bytes :=
  List.intercalate [space] (ps.map Param.text) ++ e

def procCmdline (ps : List Param) : Bytes := cmdlineText ps [newline]

/-- The pairs that are found when `e` ends the line. -/
def foundPairs (e : Bytes) : List Param → List (Bytes × Bytes)
  | [] => []
  | [p] => [p.found e]
  | p :: q :: ps => p.found [] :: foundPairs e (q :: ps)

section Cmdline

variable {e s : Bytes}

/-- The position after a parameter is at a space or at the end. -/
def AtEnd (s : Bytes) : Prop := ∀ c ∈ s.head?, c = space

/-- A text without the characters that the command line gives a meaning. -/
def Inert (e : Bytes) : Prop := ∀ c ∈ e, c ≠ space ∧ c ≠ equals ∧ c ≠ quote

theorem AtEnd.dropWhile_equals (h : AtEnd s) : s.dropWhile (· ∈ [equals]) = s := by
  cases s with
  | nil => rfl
  | cons c s =>
    rw [h c rfl]
    exact dropWhile_cons_of_neg (by decide)

theorem extract_key {w : Bytes} (hw : Inert w)
    (hs : ∀ c ∈ s.head?, c ∈ [equals] ++ ([] ++ [space])) :
    extractQuotedStrUntil ([] ++ [space]) [equals] false (w ++ s) = (w, s, false) := by
  rw [extract_append false, extract_stop hs, append_nil]
  intro c hc
  obtain ⟨hspace, hequals, hquote⟩ := hw c hc
  exact ⟨by simpa using hequals, hquote, fun _ => by simpa using hspace⟩

theorem extract_value {w : Bytes} (hw : ∀ c ∈ w, c ≠ space ∧ c ≠ quote) (hs : AtEnd s) :
    extractQuotedStrUntil [space] [] false (w ++ s) = (w, s, false) := by
  rw [extract_append false, extract_stop, append_nil]
  · intro c hc
    simp [hs c hc]
  · intro c hc
    exact ⟨not_mem_nil, (hw c hc).2, fun _ => by simpa using (hw c hc).1⟩

variable (p : Param) (ps : List Param)

theorem Param.inert_key : Inert p.key := fun c hc =>
  ⟨(p.key_plain c hc).1, (p.key_plain c hc).2.1, (p.key_plain c hc).2.2.1⟩

theorem parsePair_of_key {key rest rest' value : Bytes} {str : Bytes}
    (hkey : extractQuotedStrUntil ([] ++ [space]) [equals] false str = (key, rest, false))
    (hskip : rest.dropWhile (· ∈ [equals]) = rest')
    (hvalue : extractQuotedStrUntil [space] [] false rest' = (value, s, false)) :
    parsePair space equals [] false str = ((key, value), s, false) := by
  unfold parsePair
  dsimp only
  rw [hkey]
  rw [hskip]
  split_ifs with hend
  · -- at the end the value that would be read is empty
    rw [extract_stop] at hvalue
    · cases hvalue
      rfl
    · intro c hc
      rcases hend with rfl | hhead
      · cases hc
      · rw [hhead] at hc
        cases hc
        simp
  · rw [hvalue]

theorem dropWhile_equals_append {v : Bytes} (he : Inert e) (hs : AtEnd s) :
    (v ++ (e ++ s)).dropWhile (· ∈ [equals]) = v.dropWhile (· = equals) ++ (e ++ s) := by
  induction v with
  | nil =>
    cases e with
    | nil => exact hs.dropWhile_equals
    | cons c e =>
      have hc := (he c mem_cons_self).2.1
      exact dropWhile_cons_of_neg (by simpa using hc)
  | cons c v ih =>
    by_cases hc : c = equals
    · rw [cons_append, dropWhile_cons_of_pos (by simpa using hc), ih,
        dropWhile_cons_of_pos (by simpa using hc)]
    · rw [cons_append, dropWhile_cons_of_neg (by simpa using hc),
        dropWhile_cons_of_neg (by simpa using hc), cons_append]

theorem parsePair_param (he : Inert e) (hs : AtEnd s) :
    parsePair space equals [] false (p.text ++ (e ++ s)) = (p.found e, s, false) := by
  obtain ⟨key, arg, hne, hkey, hok⟩ := p
  have hinert : Inert key := Param.inert_key ⟨key, arg, hne, hkey, hok⟩
  have hes : ∀ c ∈ e, c ≠ space ∧ c ≠ quote := fun c hc => ⟨(he c hc).1, (he c hc).2.2⟩
  unfold Param.text Param.found
  cases arg with
  | none =>
    rw [Arg.text, append_nil, ← append_assoc]
    apply parsePair_of_key (extract_key _ _) hs.dropWhile_equals (extract_value (w := []) _ hs)
    · intro c hc
      rcases mem_append.mp hc with hc | hc
      · exact hinert c hc
      · exact he c hc
    · intro c hc
      simp [hs c hc]
    · intro c hc
      cases hc
  | plain v =>
    rw [Arg.text, append_assoc]
    apply parsePair_of_key (extract_key hinert _)
    · rw [cons_append, dropWhile_cons_of_pos (by simp), dropWhile_equals_append he hs,
        ← append_assoc]
    · apply extract_value _ hs
      intro c hc
      rcases mem_append.mp hc with hc | hc
      · have hcv := hok c (dropWhile_sublist _ |>.subset hc)
        exact ⟨hcv.2.2, hcv.1⟩
      · exact hes c hc
    · intro c hc
      cases hc
      simp
  | quoted v =>
    rw [Arg.text, append_assoc]
    apply parsePair_of_key (extract_key hinert _)
    · rw [cons_append, dropWhile_cons_of_pos (by simp), cons_append,
        dropWhile_cons_of_neg (by decide)]
    · rw [append_assoc, singleton_append,
        extract_quoted (by decide) (fun h => (hok _ h).1 rfl), extract_value hes hs]
    · intro c hc
      cases hc
      simp

theorem parseLoop_eq {delim eq : UInt8} {padding str rest : Bytes} {quoted quoted' : Bool}
    {pair : Bytes × Bytes} (hne : str ≠ [])
    (h : parsePair delim eq padding quoted str = (pair, rest, quoted')) :
    parseLoop delim eq padding quoted str =
      pair :: parseLoop delim eq padding quoted' (rest.dropWhile (· = delim)) := by
  obtain ⟨c, str, rfl⟩ := exists_cons_of_ne_nil hne
  rw [parseLoop, h]

theorem Param.text_ne_nil (s : Bytes) : p.text ++ s ≠ [] := by
  intro h
  rw [Param.text, append_assoc] at h
  exact p.key_ne (append_eq_nil_iff.mp h).1

theorem Param.dropWhile_space (s : Bytes) : (p.text ++ s).dropWhile (· = space) = p.text ++ s := by
  obtain ⟨c, k, hk⟩ := exists_cons_of_ne_nil p.key_ne
  have hc := (p.key_plain c (hk ▸ mem_cons_self)).1
  rw [Param.text, hk, cons_append, cons_append]
  exact dropWhile_cons_of_neg (by simpa using hc)

theorem inert_nil : Inert [] := fun _ hc => nomatch hc

theorem cmdlineText_singleton (e : Bytes) : cmdlineText [p] e = p.text ++ e := by
  rw [cmdlineText, map_cons, map_nil, intercalate_singleton]

theorem cmdlineText_cons_cons (p q : Param) (ps : List Param) (e : Bytes) :
    cmdlineText (p :: q :: ps) e = p.text ++ space :: cmdlineText (q :: ps) e := by
  simp [cmdlineText, List.intercalate]

theorem cmdlineText_dropWhile (e : Bytes) :
    (cmdlineText (p :: ps) e).dropWhile (· = space) = cmdlineText (p :: ps) e := by
  cases ps with
  | nil =>
    rw [cmdlineText_singleton]
    exact p.dropWhile_space e
  | cons q ps =>
    rw [cmdlineText_cons_cons]
    exact p.dropWhile_space _

theorem parseCmdline_cmdlineText (hps : ps ≠ []) (he : Inert e) :
    parseCmdline (cmdlineText ps e) = foundPairs e ps := by
  unfold parseCmdline parseImpl
  induction ps with
  | nil => exact absurd rfl hps
  | cons p ps ih =>
    cases ps with
    | nil =>
      have h := parsePair_param p he (s := []) (fun _ hc => nomatch hc)
      rw [append_nil] at h
      rw [cmdlineText_singleton, parseLoop_eq (p.text_ne_nil e) h, dropWhile_nil, parseLoop,
        foundPairs]
    | cons q ps =>
      have h := parsePair_param p inert_nil
        (s := space :: (cmdlineText (q :: ps) e)) (fun _ hc => (Option.some.inj hc).symm)
      rw [nil_append] at h
      rw [cmdlineText_cons_cons, parseLoop_eq (p.text_ne_nil _) h,
        dropWhile_cons_of_pos (by simp), cmdlineText_dropWhile,
        ih (cons_ne_nil _ _), foundPairs]

theorem Param.found_eq_pair_iff (he : e = [] ∨ e = [newline]) :
    p.found e = p.pair ↔ e = [] ∧ ¬p.arg.StartsWithEquals := by
  obtain ⟨key, arg, hne, hkey, hok⟩ := p
  unfold Param.found Param.pair
  cases arg with
  | none => simp [Arg.value, Arg.StartsWithEquals]
  | quoted v => simp [Arg.value, Arg.StartsWithEquals]
  | plain v =>
    simp only [Arg.value, Arg.StartsWithEquals, Prod.mk.injEq, true_and]
    rcases he with rfl | rfl
    · rw [append_nil, dropWhile_eq_self_iff]
      cases v <;> simp
    · constructor
      · intro h
        have hmem : newline ∈ v := h ▸ by simp
        exact ((hok _ hmem).2.1 rfl).elim
      · rintro ⟨h, -⟩
        cases h

theorem foundPairs_eq_iff (hps : ps ≠ []) (he : e = [] ∨ e = [newline]) :
    foundPairs e ps = ps.map Param.pair ↔ e = [] ∧ ∀ p ∈ ps, ¬p.arg.StartsWithEquals := by
  induction ps with
  | nil => exact absurd rfl hps
  | cons p ps ih =>
    cases ps with
    | nil => simp [foundPairs, p.found_eq_pair_iff he]
    | cons q ps =>
      rw [foundPairs, map_cons, cons.injEq, ih (cons_ne_nil _ _),
        p.found_eq_pair_iff (Or.inl rfl), forall_mem_cons (l := q :: ps)]
      tauto

/-- The pairs of a command line come out exactly when it has no newline at its end and
no unquoted value starts with an equal sign. -/
theorem parseCmdline_eq_iff (ps : List Param) (hps : ps ≠ []) (e : Bytes)
    (he : e = [] ∨ e = [newline]) :
    parseCmdline (cmdlineText ps e) = ps.map Param.pair ↔
      e = [] ∧ ∀ p ∈ ps, ¬p.arg.StartsWithEquals := by
  have hinert : Inert e := by
    rcases he with rfl | rfl
    · exact inert_nil
    · intro c hc
      rw [mem_singleton.mp hc]
      decide
  rw [parseCmdline_cmdlineText ps hps hinert, foundPairs_eq_iff ps hps he]

def skipInitramfs : Param :=
  ⟨lit "skip_initramfs", .none, by decide, by decide +kernel, trivial⟩

def console : Param :=
  ⟨lit "console", .plain (lit "ttyS0,115200"), by decide, by decide +kernel, by decide +kernel⟩

theorem parseCmdline_console :
    parseCmdline (cmdlineText [console, skipInitramfs] []) =
      [(lit "console", lit "ttyS0,115200"), (lit "skip_initramfs", [])] :=
  (parseCmdline_eq_iff [console, skipInitramfs] (by decide) [] (Or.inl rfl)).mpr
    ⟨rfl, by decide⟩

/-- The newline of `/proc/cmdline` ends up in the last key. -/
theorem parseCmdline_newline :
    procCmdline [console, skipInitramfs] = lit "console=ttyS0,115200 skip_initramfs\n" ∧
    parseCmdline (procCmdline [console, skipInitramfs]) =
      [(lit "console", lit "ttyS0,115200"), (lit "skip_initramfs\n", [])] ∧
    parseCmdline (procCmdline [console, skipInitramfs]) ≠
      [console, skipInitramfs].map Param.pair := by
  decide +kernel

end Cmdline

/-- A line of `/proc/bootconfig`. -/
structure ConfigLine where
  key : Bytes
  value : Bytes
  key_ne : key ≠ []
  key_plain : ∀ c ∈ key, c ≠ space ∧ c ≠ equals ∧ c ≠ quote ∧ c ≠ newline
  value_plain : quote ∉ value

namespace ConfigLine

def pair (l : ConfigLine) : Bytes × Bytes := (l.key, l.value)

def text (l : ConfigLine) : Bytes := l.key ++ lit " = \"" ++ l.value ++ lit "\"\n"

theorem text_append (l : ConfigLine) (s : Bytes) : l.text ++ s =
    l.key ++ space :: equals :: space :: quote :: (l.value ++ quote :: newline :: s) := by
  have hopen : lit " = \"" = [space, equals, space, quote] := by decide
  have hclose : lit "\"\n" = [quote, newline] := by decide
  rw [text, hopen, hclose]
  simp

theorem parsePair_line (l : ConfigLine) (s : Bytes) :
    parsePair newline equals [space] false (l.text ++ s) = (l.pair, newline :: s, false) := by
  unfold parsePair
  rw [l.text_append, extract_append false, extract_stop, append_nil]
  · dsimp only
    rw [dropWhile_cons_of_pos (by decide), dropWhile_cons_of_pos (by decide),
      dropWhile_cons_of_pos (by decide), dropWhile_cons_of_neg (by decide),
      if_neg (by rw [head?_cons]; simp; decide),
      extract_quoted (by decide) l.value_plain, extract_stop (fun c hc => by
        cases hc
        exact mem_singleton_self _), append_nil]
    rfl
  · intro c hc
    cases hc
    decide
  · intro c hc
    obtain ⟨hspace, hequals, hquote, hnewline⟩ := l.key_plain c hc
    refine ⟨by simpa using hequals, hquote, fun _ => ?_⟩
    simp [hspace, hnewline]

end ConfigLine

theorem dropWhile_lines (ls : List ConfigLine) :
    (ls.flatMap ConfigLine.text).dropWhile (· = newline) = ls.flatMap ConfigLine.text := by
  cases ls with
  | nil => rfl
  | cons l ls =>
    obtain ⟨c, k, hk⟩ := exists_cons_of_ne_nil l.key_ne
    have hc := (l.key_plain c (hk ▸ mem_cons_self)).2.2.2
    rw [flatMap_cons, l.text_append, hk, cons_append]
    exact dropWhile_cons_of_neg (by simpa using hc)

/-- The boot configuration is read back, line by line. -/
theorem parseBootconfig_lines (ls : List ConfigLine) :
    parseBootconfig (ls.flatMap ConfigLine.text) = ls.map ConfigLine.pair := by
  unfold parseBootconfig parseImpl
  induction ls with
  | nil => rw [flatMap_nil, parseLoop, map_nil]
  | cons l ls ih =>
    have hne : l.text ++ ls.flatMap ConfigLine.text ≠ [] := by
      rw [l.text_append]
      exact append_ne_nil_of_left_ne_nil l.key_ne _
    rw [flatMap_cons, parseLoop_eq hne (l.parsePair_line _),
      dropWhile_cons_of_pos (by simp), dropWhile_lines, ih, map_cons]

/-- A value over two lines, with a space and an equal sign. -/
def hardwareLine : ConfigLine :=
  ⟨lit "hardware", lit "a b\nc=d", by decide, by decide +kernel, by decide⟩

example : parseBootconfig hardwareLine.text = [hardwareLine.pair] := by decide +kernel

end Magisk.Init
