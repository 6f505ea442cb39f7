import Magisk.Sepolicy.Xperm

namespace Magisk.Sepolicy

open List

inductive Token where
  | AL
  | DN
  | AA
  | DA
  | AX
  | AY
  | DX
  | PM
  | EF
  | TA
  | TY
  | AT
  | TT
  | TC
  | TM
  | GF
  | LB
  | RB
  | CM
  | ST
  | TL
  | HP
  | HX (value : UInt16)
  | ID (name : Str)
  deriving DecidableEq, Repr

inductive ParseError where
  | General
  | AvtabAv (action : Token)
  | AvtabXperms (action : Token)
  | AvtabType (action : Token)
  | TypeState (action : Token)
  | TypeAttr
  | TypeTrans
  | NewType
  | NewAttr
  | GenfsCon
  | ShowHelp
  | UnknownAction (action : Token)
  deriving DecidableEq, Repr

/-- Nothing reads the tokens after an error. -/
abbrev Parser (α : Type) := StateT (List Token) (Except ParseError) α

def next : Parser (Option Token) := fun tokens => .ok (tokens.head?, tokens.tail)

def peek : Parser (Option Token) := fun tokens => .ok (tokens.head?, tokens)

def parseId : Parser Str := do
  match ← next with
  | some (.ID name) => return name
  | _ => throw .General

def termNames (names : List Str) : List Token → Except ParseError (List Str × List Token)
  | .ID name :: tokens => termNames (names ++ [name]) tokens
  | .RB :: tokens => .ok (names, tokens)
  | _ => .error .General

def parseTerm : Parser (List Str) := do
  match ← next with
  | some (.ID name) => return [name]
  | some .LB => termNames []
  | _ => throw .General

/-- The loop of `parse_sterm` after the brace; `none` once a star has been read. -/
def stermNames (names : Option (List Str)) :
    List Token → Except ParseError (Option (List Str) × List Token)
  | .ID name :: tokens => stermNames (names.map (· ++ [name])) tokens
  | .ST :: tokens => stermNames none tokens
  | .RB :: tokens => .ok (names, tokens)
  | _ => .error .General

def parseSterm : Parser (List Str) := do
  match ← next with
  | some (.ID name) => return [name]
  | some .ST => return []
  | some .LB =>
    let names ← stermNames (some [])
    return names.getD []
  | _ => throw .General

def parseXperm : Parser Xperm := do
  let some (.HX low) ← next | throw .General
  match ← peek with
  | some .HP =>
    let _ ← next
    let some (.HX high) ← next | throw .General
    return ⟨low, high, false⟩
  | _ => return ⟨low, low, false⟩

theorem parseXperm_range (low high : UInt16) (tokens : List Token) :
    parseXperm (.HX low :: .HP :: .HX high :: tokens) = .ok (⟨low, high, false⟩, tokens) := rfl

theorem parseXperm_value (low : UInt16) {tokens : List Token} (h : tokens.head? ≠ some .HP) :
    parseXperm (.HX low :: tokens) = .ok (⟨low, low, false⟩, tokens) := by
  rcases tokens with _ | ⟨t, tokens⟩
  · rfl
  · cases t <;> first | rfl | exact absurd rfl h

theorem tokens_of_parseXperm {tokens tokens' : List Token} {x : Xperm}
    (h : parseXperm tokens = .ok (x, tokens')) :
    (∃ low, x = ⟨low, low, false⟩ ∧ tokens = .HX low :: tokens') ∨
      ∃ low high, x = ⟨low, high, false⟩ ∧ tokens = .HX low :: .HP :: .HX high :: tokens' := by
  rcases tokens with _ | ⟨t, tokens⟩
  · cases h
  cases t
  case HX low =>
    by_cases hp : tokens.head? = some .HP
    · obtain ⟨rest, rfl⟩ := head?_eq_some_iff.mp hp
      rcases rest with _ | ⟨t, rest⟩
      · cases h
      cases t
      case HX high =>
        rw [parseXperm_range] at h
        cases h
        exact .inr ⟨low, high, rfl, rfl⟩
      all_goals cases h
    · rw [parseXperm_value low hp] at h
      cases h
      exact .inl ⟨low, rfl, rfl⟩
  all_goals cases h

theorem parseXperm_length {tokens tokens' : List Token} {x : Xperm}
    (h : parseXperm tokens = .ok (x, tokens')) : tokens'.length < tokens.length := by
  rcases tokens_of_parseXperm h with ⟨low, -, rfl⟩ | ⟨low, high, -, rfl⟩
  · simp
  · simp only [length_cons]
    omega

def xpermList (reset : Bool) (xperms : List Xperm) (tokens : List Token) :
    Except ParseError (List Xperm × List Token) :=
  match h : parseXperm tokens with
  | .error e => .error e
  | .ok (xperm, tokens') =>
    let xperms := xperms ++ [{ xperm with reset := reset }]
    if tokens'.head? = some .RB then .ok (xperms, tokens'.tail)
    else xpermList reset xperms tokens'
termination_by tokens.length
decreasing_by exact parseXperm_length h

theorem xpermList_of_ok (reset : Bool) (xperms : List Xperm) {tokens tokens' : List Token}
    {xperm : Xperm} (h : parseXperm tokens = .ok (xperm, tokens')) :
    xpermList reset xperms tokens =
      if tokens'.head? = some .RB then .ok (xperms ++ [{ xperm with reset := reset }], tokens'.tail)
      else xpermList reset (xperms ++ [{ xperm with reset := reset }]) tokens' := by
  rw [xpermList]
  split
  · simp_all
  · rename_i h'
    rw [h] at h'
    cases h'
    rfl

def parseXperms : Parser (List Xperm) := do
  let reset ← match ← peek with
    | some .TL => do
      let _ ← next
      if (← peek) ≠ some .LB then throw .General
      pure true
    | _ => pure false
  match ← next with
  | some .LB => xpermList reset []
  | some .ST => return [⟨0, 0xFFFF, reset⟩]
  | some (.HX low) => if 0 < low then return [⟨low, low, reset⟩] else return [⟨0, 0xFFFF, reset⟩]
  | _ => throw .General

def matchString (pattern : Str) : Parser Unit := do
  match ← next with
  | some (.ID s) => if s = pattern then return () else throw .General
  | _ => throw .General

def checkAdditionalArgs : Parser Unit := do
  match ← peek with
  | none => return ()
  | some _ => throw .General

/-- The methods of the policy that statements call and that are not access vector or extended
permission rules. -/
inductive OtherMethod where
  | permissive (t : List Str)
  | enforce (t : List Str)
  | typeattribute (t a : List Str)
  | type_ (t : Str) (a : List Str)
  | attribute (t : Str)
  | typeTransition (s t c d o : Str)
  | typeChange (s t c d : Str)
  | typeMember (s t c d : Str)
  | genfscon (s t c : Str)
  deriving DecidableEq, Repr

/-- The methods of the policy that statements call. -/
inductive Method where
  | allow (s t c p : List Str)
  | deny (s t c p : List Str)
  | auditallow (s t c p : List Str)
  | dontaudit (s t c p : List Str)
  | allowxperm (s t c : List Str) (p : List Xperm)
  | auditallowxperm (s t c : List Str) (p : List Xperm)
  | dontauditxperm (s t c : List Str) (p : List Xperm)
  | other (m : OtherMethod)
  deriving DecidableEq, Repr

/-- The error of the statement in place of the one of its argument. -/
def orError {α : Type} (e : ParseError) (p : Parser α) : Parser α := fun tokens =>
  (p tokens).mapError fun _ => e

def avStatement (action : Token) (method : List Str → List Str → List Str → List Str → Method) :
    Parser Method := orError (.AvtabAv action) do
  let s ← parseSterm
  let t ← parseSterm
  let c ← parseSterm
  let p ← parseSterm
  checkAdditionalArgs
  return method s t c p

def xpermStatement (action : Token)
    (method : List Str → List Str → List Str → List Xperm → Method) :
    Parser Method := orError (.AvtabXperms action) do
  let s ← parseSterm
  let t ← parseSterm
  let c ← parseSterm
  matchString "ioctl".toList
  let p ← parseXperms
  checkAdditionalArgs
  return method s t c p

def stateStatement (action : Token) (method : List Str → OtherMethod) :
    Parser Method := orError (.TypeState action) do
  let t ← parseSterm
  checkAdditionalArgs
  return .other (method t)

def typeStatement (action : Token) (method : Str → Str → Str → Str → OtherMethod) :
    Parser Method := orError (.AvtabType action) do
  let s ← parseId
  let t ← parseId
  let c ← parseId
  let d ← parseId
  checkAdditionalArgs
  return .other (method s t c d)

/-- The arguments of a statement after its action. -/
def parseAction (action : Token) : Parser Method :=
  match action with
  | .AL => avStatement action .allow
  | .DN => avStatement action .deny
  | .AA => avStatement action .auditallow
  | .DA => avStatement action .dontaudit
  | .AX => xpermStatement action .allowxperm
  | .AY => xpermStatement action .auditallowxperm
  | .DX => xpermStatement action .dontauditxperm
  | .PM => stateStatement action .permissive
  | .EF => stateStatement action .enforce
  | .TA => orError .TypeAttr do
    let t ← parseTerm
    let a ← parseTerm
    checkAdditionalArgs
    return .other (.typeattribute t a)
  | .TY => orError .NewType do
    let t ← parseId
    let a ← match ← peek with
      | none => pure []
      | some _ => parseTerm
    checkAdditionalArgs
    return .other (.type_ t a)
  | .AT => orError .NewAttr do
    let t ← parseId
    checkAdditionalArgs
    return .other (.attribute t)
  | .TC => typeStatement action .typeChange
  | .TM => typeStatement action .typeMember
  | .TT => orError .TypeTrans do
    let s ← parseId
    let t ← parseId
    let c ← parseId
    let d ← parseId
    let o ← match ← peek with
      | none => pure []
      | some _ => parseId
    checkAdditionalArgs
    return .other (.typeTransition s t c d o)
  | .GF => orError .GenfsCon do
    let s ← parseId
    let t ← parseId
    let c ← parseId
    checkAdditionalArgs
    return .other (.genfscon s t c)
  | _ => throw (.UnknownAction action)

section Exec

-- what the methods outside the rules do to the policy
variable (other : OtherMethod → Policydb → Policydb)

def Method.call (db : Policydb) : Method → Policydb
  | .allow s t c p => Sepolicy.allow db s t c p
  | .deny s t c p => Sepolicy.deny db s t c p
  | .auditallow s t c p => Sepolicy.auditallow db s t c p
  | .dontaudit s t c p => Sepolicy.dontaudit db s t c p
  | .allowxperm s t c p => Sepolicy.allowxperm db s t c p
  | .auditallowxperm s t c p => Sepolicy.auditallowxperm db s t c p
  | .dontauditxperm s t c p => Sepolicy.dontauditxperm db s t c p
  | .other m => other m db

def execStatement (db : Policydb) (tokens : List Token) : Except ParseError Policydb :=
  match tokens with
  | [] => .error .ShowHelp
  | action :: tokens => (parseAction action tokens).map fun r => r.1.call other db

end Exec

/-- An element of a set of extended permissions. -/
inductive Element where
  | value (code : UInt16)
  | range (low high : UInt16)
  deriving DecidableEq, Repr

def Element.tokens : Element → List Token
  | value code => [.HX code]
  | range low high => [.HX low, .HP, .HX high]

def Element.xperm (reset : Bool) : Element → Xperm
  | value code => ⟨code, code, reset⟩
  | range low high => ⟨low, high, reset⟩

def Element.Mem (code : UInt16) (e : Element) : Prop :=
  (e.xperm true).low ≤ code ∧ code ≤ (e.xperm true).high

theorem head_tokens (e : Element) (tokens : List Token) :
    ∃ code, (e.tokens ++ tokens).head? = some (.HX code) := by
  cases e
  · exact ⟨_, rfl⟩
  · exact ⟨_, rfl⟩

theorem parseXperm_tokens (e : Element) (tokens : List Token) (h : tokens.head? ≠ some .HP) :
    parseXperm (e.tokens ++ tokens) = .ok (e.xperm false, tokens) := by
  cases e with
  | value code => exact parseXperm_value code h
  | range low high => exact parseXperm_range low high tokens

theorem xpermList_tokens (reset : Bool) (e : Element) (l : List Element) (tokens : List Token)
    (xperms : List Xperm) :
    xpermList reset xperms (((e :: l).flatMap Element.tokens) ++ .RB :: tokens) =
      .ok (xperms ++ (e :: l).map (Element.xperm reset), tokens) := by
  have hreset : ∀ e : Element, { e.xperm false with reset := reset } = e.xperm reset := by
    intro e
    cases e <;> rfl
  induction l generalizing e xperms with
  | nil =>
    have hp := parseXperm_tokens e (.RB :: tokens) (by simp)
    rw [flatMap_cons, flatMap_nil, append_nil, xpermList_of_ok _ _ hp, hreset]
    rfl
  | cons e' l ih =>
    obtain ⟨code, hc⟩ := head_tokens e' (l.flatMap Element.tokens ++ .RB :: tokens)
    rw [← append_assoc, ← flatMap_cons] at hc
    have hp := parseXperm_tokens e ((e' :: l).flatMap Element.tokens ++ .RB :: tokens)
      (by rw [hc]; simp)
    rw [flatMap_cons, append_assoc, xpermList_of_ok _ _ hp, if_neg (by rw [hc]; simp), ih,
      hreset, append_assoc]
    rfl

theorem xpermStatement_ids (action : Token)
    (method : List Str → List Str → List Str → List Xperm → Method) (s t c : Str)
    {tokens : List Token} {p : List Xperm} (h : parseXperms tokens = .ok (p, [])) :
    xpermStatement action method (.ID s :: .ID t :: .ID c :: .ID "ioctl".toList :: tokens) =
      .ok (method [s] [t] [c] p, []) := by
  have hb : xpermStatement action method (.ID s :: .ID t :: .ID c :: .ID "ioctl".toList :: tokens) =
      ((do
        let p ← parseXperms
        checkAdditionalArgs
        return method [s] [t] [c] p : Parser Method) tokens).mapError fun _ => .AvtabXperms action := by
    rfl
  rw [hb]
  simp only [bind, StateT.bind, h, Except.bind]
  rfl

/-- The tokens of `allowxperm s t c ioctl ~{ l }`. -/
def complementTokens (s t c : Str) (l : List Element) : List Token :=
  .AX :: .ID s :: .ID t :: .ID c :: .ID "ioctl".toList :: .TL :: .LB ::
    (l.flatMap Element.tokens ++ [.RB])

theorem execStatement_complementTokens (other : OtherMethod → Policydb → Policydb) (db : Policydb)
    (s t c : Str) {l : List Element} (hl : l ≠ []) :
    execStatement other db (complementTokens s t c l) =
      .ok (allowxperm db [s] [t] [c] (l.map (Element.xperm true))) := by
  obtain ⟨e, l, rfl⟩ := exists_cons_of_ne_nil hl
  have hx : parseXperms (.TL :: .LB :: ((e :: l).flatMap Element.tokens ++ [.RB])) =
      .ok ((e :: l).map (Element.xperm true), []) := xpermList_tokens true e l [] []
  have ha : parseAction .AX (.ID s :: .ID t :: .ID c :: .ID "ioctl".toList :: .TL :: .LB ::
      ((e :: l).flatMap Element.tokens ++ [.RB])) =
      .ok (.allowxperm [s] [t] [c] ((e :: l).map (Element.xperm true)), []) :=
    xpermStatement_ids .AX .allowxperm s t c hx
  rw [complementTokens, execStatement, ha]
  rfl

theorem foldl_addXpermNames (effect : XpermEffect) (db : Policydb) {s t c : Str}
    {src tgt : Option TypeDatum} {cls : Option ClassDatum}
    (h : resolveXperm db s t c = some (src, tgt, cls)) (l : List Xperm) :
    (l.map fun x => (s, t, c, x)).foldl (addXpermNames effect) db =
      { db with
        teAvtab := l.foldl (fun a x => addXpermRule db x effect src tgt cls a) db.teAvtab } := by
  induction l generalizing db with
  | nil => rfl
  | cons x l ih =>
    rw [map_cons, foldl_cons, addXpermNames, h]
    dsimp only
    rw [ih]
    · rfl
    · exact h

theorem teAvtab_expandXperm (effect : XpermEffect) (db : Policydb) {s t c : Str}
    {src tgt : Option TypeDatum} {cls : Option ClassDatum}
    (h : resolveXperm db s t c = some (src, tgt, cls)) (l : List Xperm) :
    (expandXperm effect db [s] [t] [c] l).teAvtab =
      l.foldl (fun a x => addXpermRule db x effect src tgt cls a) db.teAvtab := by
  have he : expandXperm effect db [s] [t] [c] l =
      (l.map fun x => (s, t, c, x)).foldl (addXpermNames effect) db := by
    simp [expandXperm, expandVec]
  rw [he, foldl_addXpermNames effect db h]

theorem search_foldl_addXpermKey (effect : XpermEffect) (src tgt : TypeDatum) (cls : ClassDatum)
    (l : List Xperm) (h : Avtab) :
    (l.foldl (fun h x => addXpermKey x effect src tgt h cls) h).search
        (xpermKey src tgt cls effect) =
      l.foldl (fun nodes x => addXpermNodes x nodes) (h.search (xpermKey src tgt cls effect)) := by
  induction l generalizing h with
  | nil => rfl
  | cons x l ih => rw [foldl_cons, foldl_cons, ih, search_addXpermKey]

theorem permitted_foldl_reset {l : List Xperm} (hl : l ≠ []) (hr : ∀ x ∈ l, x.reset)
    (nodes : List Datum) (code : UInt16) :
    Permitted (l.foldl (fun nodes x => addXpermNodes x nodes) nodes) code ↔
      ¬ (l.getLast hl).Rounded code := by
  have hlast := permitted_reset (hr _ (getLast_mem hl))
    (l.dropLast.foldl (fun nodes x => addXpermNodes x nodes) nodes) code
  rw [← hlast]
  conv_lhs => rw [← dropLast_concat_getLast hl, foldl_append]
  rfl

/-- A complement set is the complement of its last element, taken by whole drivers when that is a
range over several. -/
theorem permitted_allowxperm_complement {db : Policydb}
    (hv : xpermsIoctlVersion ≤ db.policyvers) {s t c : Str} {src tgt : TypeDatum} {cls : ClassDatum}
    (h : resolveXperm db s t c = some (some src, some tgt, some cls)) {l : List Element}
    (hl : l ≠ []) (code : UInt16) :
    Permitted ((allowxperm db [s] [t] [c] (l.map (Element.xperm true))).teAvtab.search
        (xpermKey src tgt cls .allowed)) code ↔
      ¬ ((l.getLast hl).xperm true).Rounded code := by
  have hreset : ∀ x ∈ l.map (Element.xperm true), x.reset := by
    intro x hx
    obtain ⟨e, -, rfl⟩ := List.mem_map.mp hx
    cases e <;> rfl
  have hm : l.map (Element.xperm true) ≠ [] := mt map_eq_nil_iff.mp hl
  have hlast := permitted_foldl_reset hm hreset
    (db.teAvtab.search (xpermKey src tgt cls .allowed)) code
  rw [getLast_map] at hlast
  rw [← hlast, ← search_foldl_addXpermKey, allowxperm, teAvtab_expandXperm .allowed db h]
  simp only [addXpermRule_concrete hv]

theorem execStatement_complement_iff (other : OtherMethod → Policydb → Policydb) {db : Policydb}
    {s t c : Str} {src tgt : TypeDatum} {cls : ClassDatum}
    (h : resolveXperm db s t c = some (some src, some tgt, some cls)) {l : List Element}
    (hl : l ≠ []) :
    (∃ db', execStatement other db (complementTokens s t c l) = .ok db' ∧
      ∀ code, Permitted (db'.teAvtab.search (xpermKey src tgt cls .allowed)) code ↔
        ∀ e ∈ l, ¬ e.Mem code) ↔
    if db.policyvers < xpermsIoctlVersion then
      ∀ code, Permitted (db.teAvtab.search (xpermKey src tgt cls .allowed)) code ↔
        ∀ e ∈ l, ¬ e.Mem code
    else ∀ code, ((l.getLast hl).xperm true).Rounded code ↔ ∃ e ∈ l, e.Mem code := by
  rw [execStatement_complementTokens other db s t c hl]
  simp only [Except.ok.injEq, exists_eq_left']
  split_ifs with hv
  · rw [allowxperm, teAvtab_expandXperm .allowed db h]
    have hid : ∀ x a, addXpermRule db x .allowed (some src) (some tgt) (some cls) a = a := by
      intro x a
      rw [addXpermRule, if_pos hv]
    simp only [hid, foldl_fixed]
  · simp only [permitted_allowxperm_complement (not_lt.mp hv) h hl]
    refine forall_congr' fun code => ?_
    have hn : (∀ e ∈ l, ¬ e.Mem code) ↔ ¬ ∃ e ∈ l, e.Mem code := by simp
    rw [hn, not_iff_not]

theorem execStatement_complement_value : ∃ db',
    execStatement (fun _ db => db) smallPolicy
        (complementTokens "init".toList "file".toList "dir".toList [.value 0x8910]) = .ok db' ∧
      ∀ code, Permitted (db'.teAvtab.search (xpermKey ⟨1, .type⟩ ⟨2, .type⟩ dirClass .allowed)) code ↔
        ∀ e ∈ [Element.value 0x8910], ¬ e.Mem code := by
  refine (execStatement_complement_iff _ (by decide) (cons_ne_nil _ _)).mpr ?_
  rw [if_neg (by decide)]
  intro code
  simp [Xperm.Rounded, Element.Mem, Element.xperm]

/-- The first of two values stays permitted. -/
theorem execStatement_complement_two : (Element.value 0x8910).Mem 0x8910 ∧ ∃ db',
    execStatement (fun _ db => db) smallPolicy (complementTokens "init".toList "file".toList
        "dir".toList [.value 0x8910, .value 0x892a]) = .ok db' ∧
      Permitted (db'.teAvtab.search (xpermKey ⟨1, .type⟩ ⟨2, .type⟩ dirClass .allowed)) 0x8910 := by
  refine ⟨⟨by decide, by decide⟩, _,
    execStatement_complementTokens _ _ _ _ _ (cons_ne_nil _ _), ?_⟩
  rw [permitted_allowxperm_complement (by decide) (by decide) (cons_ne_nil _ _)]
  unfold Xperm.Rounded
  decide

end Magisk.Sepolicy
