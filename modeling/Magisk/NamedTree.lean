import Magisk.Bytes

namespace Magisk

open List Option

section NameMap

variable {κ β : Type} [BEq κ] [LawfulBEq κ]

theorem lookup_cons_ne {n m : κ} (h : n ≠ m) (b : β) (l : List (κ × β)) :
    List.lookup n ((m, b) :: l) = List.lookup n l := by
  rw [lookup_cons, beq_false_of_ne h]

variable {n : κ} {l : List (κ × β)} {b : β}

theorem lookup_eq_none_iff_forall : l.lookup n = none ↔ ∀ e ∈ l, e.1 ≠ n := by
  rw [lookup_eq_none_iff]
  refine forall₂_congr fun e _ => ?_
  rw [bne_iff_ne]
  exact ne_comm

theorem mem_of_lookup (h : l.lookup n = some b) : (n, b) ∈ l := by
  obtain ⟨l₁, l₂, rfl, -⟩ := lookup_eq_some_iff.mp h
  exact mem_append_right _ mem_cons_self

theorem lookup_of_mem (hd : (l.map Prod.fst).Nodup) (h : (n, b) ∈ l) : l.lookup n = some b := by
  obtain ⟨l₁, l₂, rfl⟩ := append_of_mem h
  refine lookup_eq_some_iff.mpr ⟨l₁, l₂, rfl, fun e he => ?_⟩
  rw [map_append, map_cons, nodup_append] at hd
  rw [bne_iff_ne]
  exact fun hn => hd.2.2 e.1 (List.mem_map_of_mem he) n mem_cons_self hn.symm

theorem lookup_perm {l l' : List (κ × β)} (hd : (l.map Prod.fst).Nodup) (h : l.Perm l') (n : κ) :
    l.lookup n = l'.lookup n := by
  have hd' : (l'.map Prod.fst).Nodup := (h.map Prod.fst).nodup_iff.mp hd
  ext b
  constructor
  · intro hb
    exact lookup_of_mem hd' (h.mem_iff.mp (mem_of_lookup hb))
  · intro hb
    exact lookup_of_mem hd (h.mem_iff.mpr (mem_of_lookup hb))

/-- The pair of a name is replaced where it stands, or added behind all others. -/
def setName (n : κ) (b : β) : List (κ × β) → List (κ × β)
  | [] => [(n, b)]
  | (m, c) :: l => if n == m then (n, b) :: l else (m, c) :: setName n b l

theorem lookup_setName_self (n : κ) (b : β) (l : List (κ × β)) :
    (setName n b l).lookup n = some b := by
  induction l with
  | nil => exact lookup_cons_self
  | cons e l ih =>
    rw [setName]
    split_ifs with h
    · exact lookup_cons_self
    · rw [lookup_cons_ne (by simpa using h), ih]

theorem lookup_setName_ne {n m : κ} (h : m ≠ n) (b : β) (l : List (κ × β)) :
    (setName n b l).lookup m = l.lookup m := by
  induction l with
  | nil => exact lookup_cons_ne h b []
  | cons e l ih =>
    obtain ⟨k, c⟩ := e
    rw [setName]
    split_ifs with hk
    · rw [← eq_of_beq hk, lookup_cons_ne h, lookup_cons_ne h]
    · by_cases hm : m = k
      · rw [hm, lookup_cons_self, lookup_cons_self]
      · rw [lookup_cons_ne hm, lookup_cons_ne hm, ih]

theorem setName_setName (n : κ) (b b' : β) (l : List (κ × β)) :
    setName n b (setName n b' l) = setName n b l := by
  induction l with
  | nil => rw [setName, setName, setName, if_pos BEq.rfl]
  | cons e l ih =>
    obtain ⟨m, c⟩ := e
    by_cases h : (n == m)
    · rw [setName, if_pos h, setName, if_pos BEq.rfl, setName, if_pos h]
    · rw [setName, if_neg h, setName, if_neg h, ih, setName, if_neg h]

theorem setName_of_lookup (h : l.lookup n = some b) : setName n b l = l := by
  induction l with
  | nil => cases h
  | cons e l ih =>
    obtain ⟨m, c⟩ := e
    rw [setName]
    split_ifs with hn
    · obtain rfl := eq_of_beq hn
      rw [lookup_cons_self] at h
      rw [some.inj h]
    · rw [ih]
      rwa [lookup_cons_ne (by simpa using hn)] at h

theorem setName_of_lookup_none (b : β) (h : l.lookup n = none) : setName n b l = l ++ [(n, b)] := by
  induction l with
  | nil => rfl
  | cons e l ih =>
    obtain ⟨m, c⟩ := e
    have hn : n ≠ m := (lookup_eq_none_iff_forall.mp h (m, c) mem_cons_self).symm
    rw [setName, if_neg (by simpa using hn), ih, cons_append]
    rwa [lookup_cons_ne hn] at h

section Sorted

variable [LinearOrder κ]

/-- The pair of a name is put in its place, or replaced. -/
def insertName (n : κ) (b : β) : List (κ × β) → List (κ × β)
  | [] => [(n, b)]
  | (m, c) :: l =>
    if n < m then (n, b) :: (m, c) :: l
    else if m < n then (m, c) :: insertName n b l
    else (n, b) :: l

theorem lookup_insertName_self (n : κ) (b : β) (l : List (κ × β)) :
    (insertName n b l).lookup n = some b := by
  induction l with
  | nil => exact lookup_cons_self
  | cons e l ih =>
    rw [insertName]
    split_ifs with h1 h2
    · exact lookup_cons_self
    · rw [lookup_cons_ne h2.ne', ih]
    · exact lookup_cons_self

theorem lookup_insertName_ne {n m : κ} (h : m ≠ n) (b : β) (l : List (κ × β)) :
    (insertName n b l).lookup m = l.lookup m := by
  induction l with
  | nil => exact lookup_cons_ne h b []
  | cons e l ih =>
    obtain ⟨k, c⟩ := e
    rw [insertName]
    split_ifs with h1 h2
    · exact lookup_cons_ne h b _
    · by_cases hk : m = k
      · rw [hk, lookup_cons_self, lookup_cons_self]
      · rw [lookup_cons_ne hk, lookup_cons_ne hk, ih]
    · obtain rfl : n = k := le_antisymm (not_lt.mp h2) (not_lt.mp h1)
      rw [lookup_cons_ne h, lookup_cons_ne h]

/-- In the order of the names, each once. -/
def SortedNames (l : List (κ × β)) : Prop := l.Pairwise fun a b => a.1 < b.1

instance : DecidablePred (@SortedNames κ β _) := fun l =>
  inferInstanceAs (Decidable (l.Pairwise fun a b => a.1 < b.1))

omit [BEq κ] [LawfulBEq κ] in
theorem mem_insertName {n : κ} {b : β} {l : List (κ × β)} {e : κ × β}
    (h : e ∈ insertName n b l) : e = (n, b) ∨ e ∈ l := by
  induction l with
  | nil => exact Or.inl (mem_singleton.mp h)
  | cons a l ih =>
    rw [insertName] at h
    split_ifs at h with h1 h2
    · exact mem_cons.mp h
    · cases mem_cons.mp h with
      | inl h => exact Or.inr (mem_cons.mpr (Or.inl h))
      | inr h => exact (ih h).imp_right (mem_cons_of_mem _)
    · exact (mem_cons.mp h).imp_right (mem_cons_of_mem _)

omit [BEq κ] [LawfulBEq κ] in
theorem SortedNames.insertName {l : List (κ × β)} (h : SortedNames l) (n : κ) (b : β) :
    SortedNames (insertName n b l) := by
  induction l with
  | nil => exact pairwise_singleton _ _
  | cons e l ih =>
    obtain ⟨m, c⟩ := e
    have hl := pairwise_cons.mp h
    rw [Magisk.insertName]
    split_ifs with h1 h2
    · refine pairwise_cons.mpr ⟨fun a ha => ?_, h⟩
      cases mem_cons.mp ha with
      | inl ha =>
        rw [ha]
        exact h1
      | inr ha => exact h1.trans (hl.1 a ha)
    · refine pairwise_cons.mpr ⟨fun a ha => ?_, ih hl.2⟩
      cases mem_insertName ha with
      | inl ha =>
        rw [ha]
        exact h2
      | inr ha => exact hl.1 a ha
    · obtain rfl : n = m := le_antisymm (not_lt.mp h2) (not_lt.mp h1)
      exact pairwise_cons.mpr hl

omit [BEq κ] [LawfulBEq κ] in
theorem SortedNames.nodup {l : List (κ × β)} (h : SortedNames l) : (l.map Prod.fst).Nodup :=
  pairwise_map.mpr (h.imp fun hlt => hlt.ne)

theorem SortedNames.ext {l l' : List (κ × β)} (h : SortedNames l) (h' : SortedNames l')
    (he : ∀ n, l.lookup n = l'.lookup n) : l = l' := by
  have hp : l.Perm l' := by
    rw [perm_ext_iff_of_nodup (List.Nodup.of_map _ h.nodup) (List.Nodup.of_map _ h'.nodup)]
    rintro ⟨n, b⟩
    constructor
    · intro hm
      exact mem_of_lookup ((he n).symm.trans (lookup_of_mem h.nodup hm))
    · intro hm
      exact mem_of_lookup ((he n).trans (lookup_of_mem h'.nodup hm))
  exact hp.eq_of_pairwise (fun a b _ _ hab hba => absurd (hab.trans hba) (lt_irrefl _)) h h'

end Sorted

end NameMap

inductive NamedTree (κ α : Type) where
  | leaf (a : α)
  | dir (children : List (κ × NamedTree κ α))

/-- What stands at a path, without what is below. -/
inductive Entry (α : Type) where
  | leaf (a : α)
  | dir
  deriving DecidableEq, Repr

namespace NamedTree

variable {κ α : Type}

theorem induct {motive : NamedTree κ α → Prop} (leaf : ∀ a, motive (.leaf a))
    (dir : ∀ cs, (∀ e ∈ cs, motive e.2) → motive (.dir cs)) : ∀ t, motive t
  | .leaf a => leaf a
  | .dir cs => dir cs fun e _ => induct leaf dir e.2
termination_by t => sizeOf t
decreasing_by
  rename_i he
  have h1 := sizeOf_lt_of_mem he
  have h2 : sizeOf e.2 < sizeOf e := by
    cases e
    simp
  simp
  omega

def entry : NamedTree κ α → Entry α
  | .leaf a => .leaf a
  | .dir _ => .dir

/-- Each directory of the tree has a list of children with the property. -/
inductive Everywhere (P : List (κ × NamedTree κ α) → Prop) : NamedTree κ α → Prop
  | leaf (a : α) : Everywhere P (.leaf a)
  | dir {cs : List (κ × NamedTree κ α)} (here : P cs) (children : ∀ e ∈ cs, Everywhere P e.2) :
    Everywhere P (.dir cs)

variable {P : List (κ × NamedTree κ α) → Prop} {cs : List (κ × NamedTree κ α)}

theorem Everywhere.here (h : Everywhere P (.dir cs)) : P cs := by
  cases h with
  | dir here _ => exact here

theorem Everywhere.children (h : Everywhere P (.dir cs)) : ∀ e ∈ cs, Everywhere P e.2 := by
  cases h with
  | dir _ children => exact children

mutual

def checkTree (p : List (κ × NamedTree κ α) → Bool) : NamedTree κ α → Bool
  | .leaf _ => true
  | .dir cs => p cs && checkTrees p cs

def checkTrees (p : List (κ × NamedTree κ α) → Bool) : List (κ × NamedTree κ α) → Bool
  | [] => true
  | (_, c) :: cs => checkTree p c && checkTrees p cs

end

theorem checkTrees_iff {p : List (κ × NamedTree κ α) → Bool} :
    checkTrees p cs ↔ ∀ e ∈ cs, checkTree p e.2 := by
  induction cs with
  | nil => simp [checkTrees]
  | cons e cs ih =>
    rw [checkTrees, Bool.and_eq_true, ih, forall_mem_cons]

theorem everywhere_iff [DecidablePred P]
    {t : NamedTree κ α} : Everywhere P t ↔ checkTree (fun cs => decide (P cs)) t := by
  induction t using NamedTree.induct with
  | leaf a =>
    exact iff_of_true (.leaf a) rfl
  | dir cs ih =>
    rw [checkTree, Bool.and_eq_true, decide_eq_true_iff, checkTrees_iff]
    constructor
    · intro h
      exact ⟨h.here, fun e he => (ih e he).mp (h.children e he)⟩
    · rintro ⟨hp, hc⟩
      exact .dir hp fun e he => (ih e he).mpr (hc e he)

instance {P : List (κ × NamedTree κ α) → Prop} [DecidablePred P] :
    DecidablePred (Everywhere P) := fun _ => decidable_of_iff _ everywhere_iff.symm

abbrev Distinct : NamedTree κ α → Prop := Everywhere fun cs => (cs.map Prod.fst).Nodup

section Paths

variable [BEq κ]

def child (n : κ) : NamedTree κ α → Option (NamedTree κ α)
  | .leaf _ => none
  | .dir cs => cs.lookup n

variable (p : List κ) (n : κ) (q : List κ) (t : NamedTree κ α)

theorem child_dir (cs : List (κ × NamedTree κ α)) : (dir cs).child n = cs.lookup n := rfl

theorem Everywhere.lookup [LawfulBEq κ] {P : List (κ × NamedTree κ α) → Prop}
    {cs : List (κ × NamedTree κ α)}
    (h : Everywhere P (.dir cs)) {n : κ} {c : NamedTree κ α} (hc : cs.lookup n = some c) :
    Everywhere P c :=
  h.children (n, c) (mem_of_lookup hc)

def find : List κ → NamedTree κ α → Option (NamedTree κ α)
  | [], t => some t
  | n :: p, t => (t.child n).bind (find p)

/-- What is seen at a path. -/
def look (p : List κ) (t : NamedTree κ α) : Option (Entry α) := (t.find p).map entry

theorem find_append : t.find (p ++ q) = (t.find p).bind (find q) := by
  induction p generalizing t with
  | nil => rfl
  | cons n p ih =>
    rw [cons_append, find, find, bind_assoc]
    exact congrArg _ (funext ih)

theorem look_cons (p : List κ) (t : NamedTree κ α) :
    t.look (n :: p) = (t.child n).bind (look p) := by
  rw [look, find, Option.map_bind]
  rfl

theorem find_concat : t.find (p ++ [n]) = (t.find p).bind (child n) := by
  rw [find_append]
  exact congrArg _ (funext fun c => bind_fun_some _)

/-- The tree is put at a path, with the directories on the way. A leaf on the way stays. -/
def put : List κ → NamedTree κ α → NamedTree κ α → NamedTree κ α
  | [], _, s => s
  | _ :: _, .leaf a, _ => .leaf a
  | n :: p, .dir cs, s => .dir (setName n (put p ((cs.lookup n).getD (.dir [])) s) cs)

/-- No leaf is on the way to the path. -/
def isOpen : List κ → NamedTree κ α → Bool
  | [], _ => true
  | _ :: _, .leaf _ => false
  | n :: p, .dir cs => isOpen p ((cs.lookup n).getD (.dir []))

theorem put_append (s t : NamedTree κ α) :
    t.put (p ++ q) s = t.put p (((t.find p).getD (.dir [])).put q s) := by
  induction p generalizing t with
  | nil => rfl
  | cons n p ih =>
    cases t with
    | leaf a => rfl
    | dir cs =>
      rw [cons_append, put, put, ih, find, child_dir]
      cases hc : cs.lookup n with
      | some c => rfl
      | none =>
        cases p with
        | nil => rfl
        | cons m p => rfl

theorem isOpen_of_find {p : List κ} {s t : NamedTree κ α} (h : t.find p = some s) :
    t.isOpen p := by
  induction p generalizing t with
  | nil => rfl
  | cons n p ih =>
    cases t with
    | leaf a => cases h
    | dir cs =>
      obtain ⟨c, hc, h⟩ := bind_eq_some_iff.mp h
      rw [child_dir] at hc
      rw [isOpen, hc]
      exact ih h

theorem isOpen_append :
    t.isOpen (p ++ q) = (t.isOpen p && ((t.find p).getD (.dir [])).isOpen q) := by
  induction p generalizing t with
  | nil => rfl
  | cons n p ih =>
    cases t with
    | leaf a => rfl
    | dir cs =>
      rw [cons_append, isOpen, isOpen, ih, find, child_dir]
      cases cs.lookup n with
      | some c => rfl
      | none =>
        cases p with
        | nil => rfl
        | cons m p => rfl

variable [LawfulBEq κ]

theorem find_put_self {p : List κ} {t : NamedTree κ α} (h : t.isOpen p)
    (s : NamedTree κ α) : (t.put p s).find p = some s := by
  induction p generalizing t with
  | nil => rfl
  | cons n p ih =>
    cases t with
    | leaf a => cases h
    | dir cs =>
      rw [put, find, child_dir, lookup_setName_self, bind_some]
      exact ih h

theorem put_put (s s' t : NamedTree κ α) : (t.put p s').put p s = t.put p s := by
  induction p generalizing t with
  | nil => rfl
  | cons n p ih =>
    cases t with
    | leaf a => rfl
    | dir cs => rw [put, put, put, setName_setName, lookup_setName_self, getD_some, ih]

theorem put_of_find {p : List κ} {s t : NamedTree κ α} (h : t.find p = some s) :
    t.put p s = t := by
  induction p generalizing t with
  | nil => exact (some.inj h).symm
  | cons n p ih =>
    cases t with
    | leaf a => rfl
    | dir cs =>
      obtain ⟨c, hc, h⟩ := bind_eq_some_iff.mp h
      rw [child_dir] at hc
      rw [put, hc, getD_some, ih h, setName_of_lookup hc]

section Inside

variable {p : List κ} {t : NamedTree κ α} (h : t.isOpen p) (n : κ)
  (cs : List (κ × NamedTree κ α))

include h

theorem find_put_child : (t.put p (.dir cs)).find (p ++ [n]) = cs.lookup n := by
  rw [find_concat, find_put_self h]
  rfl

theorem put_put_child (s : NamedTree κ α) :
    (t.put p (.dir cs)).put (p ++ [n]) s = t.put p (.dir (setName n s cs)) := by
  rw [put_append, find_put_self h, put_put]
  rfl

theorem isOpen_put_child : (t.put p (.dir cs)).isOpen (p ++ [n]) := by
  rw [isOpen_append, find_put_self h, isOpen_of_find (find_put_self h _)]
  rfl

end Inside

theorem child_put_self {n : κ} {t c : NamedTree κ α} (h : t.child n = some c)
    (s : NamedTree κ α) : (t.put [n] s).child n = some s := by
  cases t with
  | leaf a => cases h
  | dir cs => exact lookup_setName_self n s cs

theorem child_put_ne {n m : κ} (h : m ≠ n) (t s : NamedTree κ α) :
    (t.put [n] s).child m = t.child m := by
  cases t with
  | leaf a => rfl
  | dir cs => exact lookup_setName_ne h s cs

omit [LawfulBEq κ] in
theorem entry_put (p : List κ) (t s : NamedTree κ α) : (t.put (n :: p) s).entry = t.entry := by
  cases t with
  | leaf a => rfl
  | dir cs => rfl

/-- Neither path leads through the other. -/
def Diverge (p q : List κ) : Prop := ¬ p <+: q ∧ ¬ q <+: p

omit [BEq κ] [LawfulBEq κ] in
theorem Diverge.concat {p q : List κ} (h : Diverge p q) (n : κ) : Diverge (p ++ [n]) q := by
  constructor
  · intro hp
    exact h.1 ((prefix_append p [n]).trans hp)
  · intro hq
    cases prefix_concat_iff.mp hq with
    | inl hq =>
      rw [hq] at h
      exact h.1 (prefix_append p [n])
    | inr hq => exact h.2 hq

omit [BEq κ] [LawfulBEq κ] in
theorem diverge_siblings {n m : κ} (h : n ≠ m) : Diverge (p ++ [n]) (p ++ [m]) := by
  constructor <;> intro hp <;> have he := hp.eq_of_length (by simp)
  · exact h (by simpa using he)
  · exact h (by simpa using he.symm)

theorem find_put_of_diverge {p q : List κ} (h : Diverge p q) (s t : NamedTree κ α) :
    (t.put p s).find q = t.find q := by
  induction p generalizing q t with
  | nil => exact absurd nil_prefix h.1
  | cons n p ih =>
    cases q with
    | nil => exact absurd nil_prefix h.2
    | cons m q =>
      cases t with
      | leaf a => rfl
      | dir cs =>
        rw [put, find, find, child_dir, child_dir]
        by_cases hm : m = n
        · subst hm
          have hd : Diverge p q := by
            constructor <;> intro hp
            · exact h.1 (cons_prefix_cons.mpr ⟨rfl, hp⟩)
            · exact h.2 (cons_prefix_cons.mpr ⟨rfl, hp⟩)
          rw [lookup_setName_self, bind_some, ih hd]
          cases cs.lookup m with
          | some c => rfl
          | none =>
            -- nothing is found in the new directory, as nothing was
            cases q with
            | nil => exact absurd nil_prefix hd.2
            | cons k q => rfl
        · rw [lookup_setName_ne hm]

end Paths

section Union

variable [BEq κ] [LawfulBEq κ] [LinearOrder κ]

/-- Each directory is in the order of its names. -/
abbrev Sorted : NamedTree κ α → Prop := Everywhere SortedNames

omit [BEq κ] [LawfulBEq κ] in
theorem Sorted.distinct {t : NamedTree κ α} (h : t.Sorted) : t.Distinct := by
  induction t using NamedTree.induct with
  | leaf a => exact .leaf a
  | dir cs ih => exact .dir h.here.nodup fun e he => ih e he (h.children e he)

omit [BEq κ] [LawfulBEq κ] in
theorem Sorted.insertName {cs : List (κ × NamedTree κ α)} (h : (dir cs).Sorted) (n : κ)
    {c : NamedTree κ α} (hc : c.Sorted) : (dir (insertName n c cs)).Sorted := by
  refine .dir (h.here.insertName n c) fun e he => ?_
  cases mem_insertName he with
  | inl he =>
    rw [he]
    exact hc
  | inr he => exact h.children e he

mutual

/-- The first tree with what only the second has. Where both have a directory the two are
united; otherwise the first stays. -/
def union : NamedTree κ α → NamedTree κ α → NamedTree κ α
  | .leaf a, _ => .leaf a
  | .dir cs, .leaf _ => .dir cs
  | .dir cs, .dir ds =>
    .dir (ds.foldr (fun e l => if (cs.lookup e.1).isSome then l else insertName e.1 e.2 l)
      (unionAll cs ds))

/-- The children of the first, each with the child of the same name. -/
def unionAll : List (κ × NamedTree κ α) → List (κ × NamedTree κ α) → List (κ × NamedTree κ α)
  | [], _ => []
  | (n, c) :: cs, ds =>
    (n, match ds.lookup n with
      | some d => union c d
      | none => c) :: unionAll cs ds

end

omit [LawfulBEq κ] [LinearOrder κ] in
theorem map_fst_unionAll [LinearOrder κ] (cs ds : List (κ × NamedTree κ α)) :
    (unionAll cs ds).map Prod.fst = cs.map Prod.fst := by
  induction cs with
  | nil => rw [unionAll]
  | cons e cs ih =>
    rw [unionAll, map_cons, map_cons, ih]

theorem lookup_unionAll (n : κ) (cs ds : List (κ × NamedTree κ α)) :
    (unionAll cs ds).lookup n =
      (cs.lookup n).map fun c => match ds.lookup n with
        | some d => union c d
        | none => c := by
  induction cs with
  | nil => rw [unionAll, lookup_nil, map_none]
  | cons e cs ih =>
    obtain ⟨m, c⟩ := e
    rw [unionAll]
    by_cases h : n = m
    · rw [h, lookup_cons_self, lookup_cons_self, map_some]
    · rw [lookup_cons_ne h, lookup_cons_ne h, ih]

theorem lookup_added (p : κ → Bool) (n : κ) (l ds : List (κ × NamedTree κ α)) :
    (ds.foldr (fun e l => if p e.1 then l else insertName e.1 e.2 l) l).lookup n =
      if p n then l.lookup n else (ds.lookup n).or (l.lookup n) := by
  induction ds with
  | nil =>
    rw [foldr_nil, lookup_nil, none_or, ite_self]
  | cons e ds ih =>
    obtain ⟨m, d⟩ := e
    rw [foldr_cons]
    by_cases h : n = m
    · subst h
      by_cases hp : p n
      · rw [if_pos hp, if_pos hp, ih, if_pos hp]
      · rw [if_neg hp, if_neg hp, lookup_insertName_self, lookup_cons_self, some_or]
    · rw [lookup_cons_ne h, ← ih]
      split_ifs with hp
      · rfl
      · rw [lookup_insertName_ne h]

theorem lookup_union (n : κ) (cs ds : List (κ × NamedTree κ α)) :
    (union (dir cs) (dir ds)).child n = match cs.lookup n, ds.lookup n with
      | some c, some d => some (union c d)
      | some c, none => some c
      | none, d => d := by
  rw [union, child_dir, lookup_added fun m => (cs.lookup m).isSome, lookup_unionAll]
  cases cs.lookup n with
  | none => rw [isSome_none, if_neg Bool.false_ne_true, map_none, or_none]
  | some c =>
    rw [isSome_some, if_pos rfl, map_some]
    cases ds.lookup n with
    | none => rfl
    | some d => rfl

omit [BEq κ] [LawfulBEq κ] in
theorem sortedNames_added {l : List (κ × NamedTree κ α)} (h : SortedNames l) (p : κ → Bool)
    (ds : List (κ × NamedTree κ α)) :
    SortedNames (ds.foldr (fun e l => if p e.1 then l else insertName e.1 e.2 l) l) := by
  induction ds with
  | nil => exact h
  | cons e ds ih =>
    rw [foldr_cons]
    split_ifs
    · exact ih
    · exact ih.insertName e.1 e.2

theorem Sorted.union {t u : NamedTree κ α} (ht : t.Sorted) (hu : u.Sorted) :
    (t.union u).Sorted := by
  induction t using NamedTree.induct generalizing u with
  | leaf a =>
    exact ht
  | dir cs ih =>
    cases u with
    | leaf a =>
      exact ht
    | dir ds =>
      have hl : SortedNames (unionAll cs ds) := by
        have hs : (cs.map Prod.fst).Pairwise (· < ·) := pairwise_map.mpr ht.here
        rw [← map_fst_unionAll cs ds] at hs
        exact pairwise_map.mp hs
      have hn := sortedNames_added hl (fun n => (cs.lookup n).isSome) ds
      have hc (n : κ) := lookup_union n cs ds
      refine Everywhere.dir hn fun e he => ?_
      have hd := (hc e.1).symm.trans (lookup_of_mem hn.nodup he)
      cases hcs : cs.lookup e.1 with
      | none =>
        rw [hcs] at hd
        exact hu.lookup hd
      | some c =>
        have hcm := mem_of_lookup hcs
        cases hds : ds.lookup e.1 with
        | none =>
          rw [hcs, hds] at hd
          rw [← some.inj hd]
          exact ht.lookup hcs
        | some d =>
          rw [hcs, hds] at hd
          rw [← some.inj hd]
          exact ih (e.1, c) hcm (ht.lookup hcs) (hu.lookup hds)

omit [LawfulBEq κ] in
theorem union_leaf (t : NamedTree κ α) (a : α) : t.union (leaf a) = t := by
  cases t with
  | leaf b => rw [union]
  | dir cs => rw [union]

omit [LawfulBEq κ] in
theorem union_eq_leaf {t u : NamedTree κ α} {a : α} : t.union u = leaf a ↔ t = leaf a := by
  cases t with
  | leaf b => rw [union]
  | dir cs =>
    cases u with
    | leaf b => rw [union]
    | dir ds => rw [union]; exact iff_of_false nofun nofun

/-- A leaf of a union comes from the first tree that has the name. -/
theorem child_foldl_union_leaf (n : κ) (a : α) (l : List (NamedTree κ α))
    (cs : List (κ × NamedTree κ α)) :
    (l.foldl union (dir cs)).child n = some (leaf a) ↔
      (cs.lookup n).or (l.findSome? (·.child n)) = some (leaf a) := by
  induction l generalizing cs with
  | nil => rw [foldl_nil, findSome?_nil, or_none, child_dir]
  | cons u l ih =>
    rw [foldl_cons, findSome?_cons]
    cases u with
    | leaf b => rw [union_leaf]; exact ih cs
    | dir ds =>
      have h := lookup_union n cs ds
      rw [union, child_dir] at h
      rw [union, ih, h, child_dir]
      cases cs.lookup n with
      | none => cases ds.lookup n <;> rfl
      | some c =>
        cases ds.lookup n with
        | none => rfl
        | some d => rw [some_or, some_or, some_inj, some_inj, union_eq_leaf]

theorem empty_union {ds : List (κ × NamedTree κ α)} (h : SortedNames ds) :
    (dir [] : NamedTree κ α).union (dir ds) = dir ds := by
  have hs := sortedNames_added (List.Pairwise.nil) (fun _ : κ => false) ds
  refine congrArg dir (hs.ext h fun n => ?_)
  rw [lookup_added fun _ => false]
  exact or_none

end Union

/-- The same tree, with its directories listed in another order. -/
inductive Reordered : NamedTree κ α → NamedTree κ α → Prop
  | refl (t : NamedTree κ α) : Reordered t t
  | perm {cs ds : List (κ × NamedTree κ α)} (h : cs.Perm ds) : Reordered (.dir cs) (.dir ds)
  | child (l r : List (κ × NamedTree κ α)) (n : κ) {c d : NamedTree κ α} (h : Reordered c d) :
    Reordered (.dir (l ++ (n, c) :: r)) (.dir (l ++ (n, d) :: r))
  | trans {t u v : NamedTree κ α} (h : Reordered t u) (h' : Reordered u v) : Reordered t v

theorem Reordered.distinct {t u : NamedTree κ α} (h : Reordered t u) (ht : t.Distinct) :
    u.Distinct := by
  induction h with
  | refl t => exact ht
  | perm h =>
    refine Everywhere.dir ((h.map Prod.fst).nodup_iff.mp ht.here) fun e he => ?_
    exact ht.children e (h.mem_iff.mpr he)
  | child l r n h ih =>
    refine Everywhere.dir (by simpa using ht.here) fun e he => ?_
    cases mem_append.mp he with
    | inl he => exact ht.children e (mem_append_left _ he)
    | inr he =>
      cases mem_cons.mp he with
      | inl he =>
        rw [he]
        exact ih (ht.children _ (mem_append_right _ mem_cons_self))
      | inr he => exact ht.children e (mem_append_right _ (mem_cons_of_mem _ he))
  | trans _ _ ih ih' => exact ih' (ih ht)

end NamedTree

end Magisk
