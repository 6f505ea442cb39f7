import Magisk.NamedTree

namespace Magisk.Directory

open List Option

section Move

variable {α : Type}

/-- A directory as `readdir` lists it. -/
abbrev Entries (α : Type) := List (Bytes × NamedTree Bytes α)

def isDir : NamedTree Bytes α → Bool
  | .leaf _ => false
  | .dir _ => true

def isEmptyDir : NamedTree Bytes α → Bool
  | .dir [] => true
  | _ => false

/-- What is left of the source, what has become of the destination, and whether the call
returned `Ok`. -/
structure Moved (σ : Type) where
  src : σ
  dest : σ
  ok : Bool

/-- `rename_to` for what is no directory, or not there yet. It does not replace a directory. -/
def renameTo (ds : Entries α) (n : Bytes) (t : NamedTree Bytes α) : Option (Entries α) :=
  match ds.lookup n with
  | some (.dir _) => none
  | _ => some (setName n t ds)

mutual

/-- Both are opened as directories before the one is moved into the other. -/
def moveDir : NamedTree Bytes α → NamedTree Bytes α → Moved (NamedTree Bytes α)
  | .dir cs, .dir ds =>
    let r := moveInto cs ds
    ⟨.dir r.src, .dir r.dest, r.ok⟩
  | .dir cs, .leaf a => ⟨.dir cs, .leaf a, false⟩
  | .leaf a, d => ⟨.leaf a, d, false⟩

def moveInto : Entries α → Entries α → Moved (Entries α)
  | [], ds => ⟨[], ds, true⟩
  | (n, t) :: cs, ds =>
    match fromUtf8 n with
    -- `Directory::read` goes on to the next entry
    | none =>
      let r := moveInto cs ds
      ⟨(n, t) :: r.src, r.dest, r.ok⟩
    | some _ =>
      match if isDir t then ds.lookup n else none with
      | some d =>
        let r := moveDir t d
        let ds := setName n r.dest ds
        -- `unlink` removes only an empty directory, and the loop ends behind it
        if r.ok = true ∧ isEmptyDir r.src = true then ⟨cs, ds, true⟩
        else ⟨(n, r.src) :: cs, ds, false⟩
      | none =>
        match renameTo ds n t with
        | some ds => moveInto cs ds
        | none => ⟨(n, t) :: cs, ds, false⟩

end

/-- `Utf8CStr::move_to`, on what stands at the two paths. -/
def moveTo (src : NamedTree Bytes α) :
    Option (NamedTree Bytes α) → Moved (Option (NamedTree Bytes α))
  | some (.dir ds) =>
    let r := moveDir src (.dir ds)
    ⟨some r.src, some r.dest, r.ok⟩
  | some (.leaf _) => ⟨none, some src, true⟩
  | none => ⟨none, some src, true⟩

/-- `mv_path`, which takes only paths that are UTF-8. -/
def mvPath (srcPath destPath : Bytes) (src : NamedTree Bytes α)
    (dest : Option (NamedTree Bytes α)) : Moved (Option (NamedTree Bytes α)) :=
  match fromUtf8 srcPath, fromUtf8 destPath with
  | some _, some _ => moveTo src dest
  | _, _ => ⟨some src, dest, false⟩

/-- A path that is in both trees is a directory in both or in neither. -/
def Agree (s d : NamedTree Bytes α) : Prop :=
  ∀ p e e', s.look p = some e → d.look p = some e' → (e = .dir ↔ e' = .dir)

/-- The merge of two trees that agree. What is no directory is taken from the first. -/
def Merges (s d t : NamedTree Bytes α) : Prop := ∀ p, t.look p = (s.look p).or (d.look p)

/-- `read` returns only entries whose name is UTF-8. -/
def readable (e : Bytes × NamedTree Bytes α) : Bool := (fromUtf8 e.1).isSome

/-- The entry is a directory that is to be merged with one of the destination. -/
def meets (ds : Entries α) (e : Bytes × NamedTree Bytes α) : Bool :=
  readable e && isDir e.2 && (ds.lookup e.1).isSome

/-- All names are UTF-8 and no directory is to be merged, apart from the last entry. There the
same holds again. -/
inductive Drains : Entries α → Entries α → Prop
  | all {cs ds : Entries α} (hread : ∀ e ∈ cs, readable e)
      (hnew : ∀ e ∈ cs, meets ds e = false) : Drains cs ds
  | last {cs ds c d : Entries α} {n : Bytes} (hread : ∀ e ∈ cs, readable e)
      (hnew : ∀ e ∈ cs, meets ds e = false) (hn : readable (n, .dir c))
      (hd : ds.lookup n = some (.dir d)) (h : Drains c d) : Drains (cs ++ [(n, .dir c)]) ds

/-- The first directory that is to be merged does not drain, so that it cannot be unlinked. -/
def Stuck (cs ds : Entries α) : Prop :=
  ∃ l n c d r, cs = l ++ (n, .dir c) :: r ∧ (∀ e ∈ l, meets ds e = false) ∧
    readable (n, .dir c) ∧ ds.lookup n = some (.dir d) ∧ ¬Drains c d

/-- Renaming replaces nothing but one file by another. -/
def Free (ds : Entries α) (e : Bytes × NamedTree Bytes α) : Prop :=
  ∀ d, ds.lookup e.1 = some d → isDir e.2 = false ∧ isDir d = false

def renamed (cs ds : Entries α) : Entries α := cs.foldl (fun ds e => setName e.1 e.2 ds) ds

variable {t c d : NamedTree Bytes α} {cs ds : Entries α} {n : Bytes}

theorem isDir_iff_entry : isDir t ↔ t.entry = .dir := by
  cases t with
  | leaf a => exact ⟨fun h => absurd h Bool.false_ne_true, fun h => nomatch h⟩
  | dir cs => exact ⟨fun _ => rfl, fun _ => rfl⟩

theorem Agree.lookup (h : Agree (.dir cs) (.dir ds)) (hc : cs.lookup n = some c)
    (hd : ds.lookup n = some d) :
    Agree c d := by
  intro p e e' he he'
  apply h (n :: p)
  · rw [NamedTree.look_cons, NamedTree.child_dir, hc]
    exact he
  · rw [NamedTree.look_cons, NamedTree.child_dir, hd]
    exact he'

theorem agree_of_lookup (h : ∀ n c d, cs.lookup n = some c → ds.lookup n = some d → Agree c d) :
    Agree (.dir cs) (.dir ds) := by
  intro p e e' he he'
  cases p with
  | nil =>
    rw [← some.inj he, ← some.inj he']
    exact iff_of_true rfl rfl
  | cons n p =>
    rw [NamedTree.look_cons] at he he'
    obtain ⟨c, hc, he⟩ := bind_eq_some_iff.mp he
    obtain ⟨d, hd, he'⟩ := bind_eq_some_iff.mp he'
    exact h n c d hc hd p e e' he he'

theorem Agree.isDir_iff (h : Agree c d) : isDir c ↔ isDir d := by
  rw [isDir_iff_entry, isDir_iff_entry]
  exact h [] c.entry d.entry rfl rfl

theorem free_of_agree (hcs : (NamedTree.dir cs).Distinct)
    (h : Agree (.dir cs) (.dir ds)) {e : Bytes × NamedTree Bytes α} (he : e ∈ cs)
    (hread : readable e) (hm : meets ds e = false) : Free ds e := by
  intro d hd
  have hc : cs.lookup e.1 = some e.2 := lookup_of_mem hcs.here he
  have hiff := (h.lookup hc hd).isDir_iff
  have he2 : isDir e.2 = false := by
    simpa [meets, hread, hd] using hm
  rw [he2] at hiff
  refine ⟨he2, Bool.eq_false_of_not_eq_true fun hd' => ?_⟩
  exact absurd (hiff.mpr hd') Bool.false_ne_true

theorem renameTo_of_free (h : Free ds (n, t)) : renameTo ds n t = some (setName n t ds) := by
  rw [renameTo]
  cases hd : ds.lookup n with
  | none => rfl
  | some d =>
    cases d with
    | leaf a => rfl
    | dir d => exact absurd (h _ hd).2 Bool.true_eq_false_eq_False

theorem moveInto_of_free (hn : readable (n, t)) (h : Free ds (n, t)) :
    moveInto ((n, t) :: cs) ds = moveInto cs (setName n t ds) := by
  obtain ⟨s, hs⟩ := isSome_iff_exists.mp hn
  have hnone : (if isDir t = true then ds.lookup n else none) = none := by
    split_ifs with ht
    · cases hd : ds.lookup n with
      | none => rfl
      | some d => exact absurd (ht.symm.trans (h d hd).1) Bool.true_eq_false_eq_False
    · rfl
  rw [moveInto, hs]
  rw [hnone]
  rw [renameTo_of_free h]

theorem moveInto_of_unreadable (cs ds : Entries α) (hn : readable (n, t) = false) :
    moveInto ((n, t) :: cs) ds =
      ⟨(n, t) :: (moveInto cs ds).src, (moveInto cs ds).dest, (moveInto cs ds).ok⟩ := by
  have hnone : fromUtf8 n = none := not_isSome_iff_eq_none.mp (Bool.eq_false_iff.mp hn)
  rw [moveInto, hnone]

theorem moveInto_of_meets {c d cs ds : Entries α} (hn : readable (n, .dir c))
    (hd : ds.lookup n = some (.dir d)) :
    moveInto ((n, .dir c) :: cs) ds =
      if (moveInto c d).ok ∧ (moveInto c d).src = [] then
        ⟨cs, setName n (.dir (moveInto c d).dest) ds, true⟩
      else
        ⟨(n, .dir (moveInto c d).src) :: cs, setName n (.dir (moveInto c d).dest) ds, false⟩ := by
  obtain ⟨s, hs⟩ := isSome_iff_exists.mp hn
  have hempty : ∀ l : Entries α, isEmptyDir (.dir l) ↔ l = [] := by
    intro l
    cases l with
    | nil => exact iff_of_true rfl rfl
    | cons e l => exact iff_of_false Bool.false_ne_true (cons_ne_nil e l)
  have hdir : isDir (.dir c : NamedTree Bytes α) := rfl
  rw [moveInto, hs]
  rw [if_pos hdir, hd]
  dsimp only
  rw [moveDir]
  simp only [hempty]

theorem moveInto_append {l : Entries α} (r : Entries α)
    (hl : (l.map Prod.fst).Nodup) (hfree : ∀ e ∈ l, readable e → Free ds e) :
    moveInto (l ++ r) ds =
      let m := moveInto r (renamed (l.filter readable) ds)
      ⟨l.filter (fun e => !readable e) ++ m.src, m.dest, m.ok⟩ := by
  induction l generalizing ds with
  | nil => rfl
  | cons e l ih =>
    obtain ⟨n, t⟩ := e
    rw [map_cons, nodup_cons] at hl
    rw [cons_append]
    cases hn : readable (n, t) with
    | true =>
      have hfree' : ∀ e ∈ l, readable e → Free (setName n t ds) e := by
        intro e he hread d hd
        have hmem : e.1 ∈ l.map Prod.fst := List.mem_map_of_mem he
        have hne : e.1 ≠ n := fun hen => hl.1 (hen ▸ hmem)
        rw [lookup_setName_ne hne] at hd
        exact hfree e (mem_cons_of_mem _ he) hread d hd
      rw [moveInto_of_free hn (hfree _ mem_cons_self hn), ih hl.2 hfree',
        filter_cons_of_pos hn, filter_cons_of_neg (by simp [hn])]
      rfl
    | false =>
      have hfree' : ∀ e ∈ l, readable e → Free ds e :=
        fun e he => hfree e (mem_cons_of_mem _ he)
      rw [moveInto_of_unreadable _ _ hn, ih hl.2 hfree', filter_cons_of_neg (by simp [hn]),
        filter_cons_of_pos (by simp [hn])]
      rfl

theorem lookup_renamed (hcs : (cs.map Prod.fst).Nodup) (ds : Entries α)
    (n : Bytes) : (renamed cs ds).lookup n = (cs.lookup n).or (ds.lookup n) := by
  induction cs generalizing ds with
  | nil => rfl
  | cons e cs ih =>
    obtain ⟨m, t⟩ := e
    rw [map_cons, nodup_cons] at hcs
    rw [renamed, foldl_cons, ← renamed, ih hcs.2]
    by_cases h : n = m
    · subst h
      have hnone : cs.lookup n = none := by
        rw [lookup_eq_none_iff_forall]
        intro e he hen
        have hmem : e.1 ∈ cs.map Prod.fst := List.mem_map_of_mem he
        exact hcs.1 (hen ▸ hmem)
      rw [hnone, lookup_setName_self, lookup_cons_self]
      rfl
    · rw [lookup_setName_ne h, lookup_cons_ne h]

theorem moveInto_of_no_meets (hcs : (NamedTree.dir cs).Distinct)
    (h : Agree (.dir cs) (.dir ds)) (hnew : ∀ e ∈ cs, meets ds e = false) :
    moveInto cs ds = ⟨cs.filter (fun e => !readable e), renamed (cs.filter readable) ds, true⟩ := by
  have hfree : ∀ e ∈ cs, readable e → Free ds e :=
    fun e he hread => free_of_agree hcs h he hread (hnew e he)
  have happ := moveInto_append [] hcs.here hfree
  rw [append_nil, moveInto] at happ
  dsimp only at happ
  rwa [append_nil] at happ

theorem moveInto_of_first {l r c d ds : Entries α}
    (hcs : (NamedTree.dir (l ++ (n, .dir c) :: r)).Distinct)
    (h : Agree (.dir (l ++ (n, .dir c) :: r)) (.dir ds)) (hnew : ∀ e ∈ l, meets ds e = false)
    (hn : readable (n, .dir c)) (hd : ds.lookup n = some (.dir d)) :
    (moveInto (l ++ (n, .dir c) :: r) ds).ok =
        decide ((moveInto c d).ok ∧ (moveInto c d).src = []) ∧
      ((moveInto (l ++ (n, .dir c) :: r) ds).ok →
        (moveInto (l ++ (n, .dir c) :: r) ds).src = l.filter (fun e => !readable e) ++ r ∧
        (moveInto (l ++ (n, .dir c) :: r) ds).dest =
          setName n (.dir (moveInto c d).dest) (renamed (l.filter readable) ds)) := by
  have hnodup := hcs.here
  rw [map_append, nodup_append] at hnodup
  have hfree : ∀ e ∈ l, readable e → Free ds e := fun e he hread =>
    free_of_agree hcs h (mem_append_left _ he) hread (hnew e he)
  have hsub : ((l.filter readable).map Prod.fst).Nodup :=
    hnodup.1.sublist ((filter_sublist).map _)
  -- The entries that were renamed have other names.
  have hd' : (renamed (l.filter readable) ds).lookup n = some (.dir d) := by
    have hnone : (l.filter readable).lookup n = none := by
      rw [lookup_eq_none_iff_forall]
      intro e he hen
      have hmem : e.1 ∈ l.map Prod.fst := List.mem_map_of_mem (mem_of_mem_filter he)
      exact hnodup.2.2 e.1 hmem n mem_cons_self hen
    rw [lookup_renamed hsub, hnone, hd]
    rfl
  rw [moveInto_append _ hnodup.1 hfree, moveInto_of_meets hn hd']
  split_ifs with hm
  · exact ⟨(decide_eq_true hm).symm, fun _ => ⟨rfl, rfl⟩⟩
  · exact ⟨(decide_eq_false hm).symm, False.elim⟩

theorem meets_cases (hcs : (NamedTree.dir cs).Distinct) (h : Agree (.dir cs) (.dir ds)) :
    (∀ e ∈ cs, meets ds e = false) ∨
      ∃ l n c d r, cs = l ++ (n, .dir c) :: r ∧ (∀ e ∈ l, meets ds e = false) ∧
        readable (n, .dir c) ∧ ds.lookup n = some (.dir d) := by
  cases hf : cs.find? (meets ds) with
  | none => exact Or.inl fun e he => Bool.eq_false_of_not_eq_true (find?_eq_none.mp hf e he)
  | some e =>
    obtain ⟨hm, l, r, hlr, hl⟩ := find?_eq_some_iff_append.mp hf
    obtain ⟨n, t⟩ := e
    rw [meets, Bool.and_eq_true, Bool.and_eq_true] at hm
    obtain ⟨⟨hn, ht⟩, hds⟩ := hm
    obtain ⟨d, hd⟩ := isSome_iff_exists.mp hds
    have hc : cs.lookup n = some t := by
      apply lookup_of_mem hcs.here
      rw [hlr]
      exact mem_append_right _ mem_cons_self
    have hdir := ((h.lookup hc hd).isDir_iff).mp ht
    cases t with
    | leaf a => exact absurd ht Bool.false_ne_true
    | dir c =>
      cases d with
      | leaf a => exact absurd hdir Bool.false_ne_true
      | dir d =>
        refine Or.inr ⟨l, n, c, d, r, hlr, fun e he => ?_, hn, hd⟩
        simpa using hl e he

theorem filter_not_readable_eq_nil :
    cs.filter (fun e => !readable e) = [] ↔ ∀ e ∈ cs, readable e := by
  simp

theorem moveInto_drains_iff (hcs : (NamedTree.dir cs).Distinct) (h : Agree (.dir cs) (.dir ds)) :
    (moveInto cs ds).ok ∧ (moveInto cs ds).src = [] ↔ Drains cs ds := by
  generalize ht : NamedTree.dir cs = t at hcs
  induction t using NamedTree.induct generalizing cs ds with
  | leaf a => cases ht
  | dir cs' ih =>
    obtain rfl := NamedTree.dir.inj ht
    have hchild {n : Bytes} {c d : Entries α} (hmem : (n, NamedTree.dir c) ∈ cs)
        (hd : ds.lookup n = some (.dir d)) :
        (moveInto c d).ok ∧ (moveInto c d).src = [] ↔ Drains c d :=
      ih _ hmem (h.lookup (lookup_of_mem hcs.here hmem) hd) rfl (hcs.children _ hmem)
    constructor
    · rintro ⟨hok, hsrc⟩
      cases meets_cases hcs h with
      | inl hnew =>
        rw [moveInto_of_no_meets hcs h hnew] at hsrc
        exact .all (filter_not_readable_eq_nil.mp hsrc) hnew
      | inr hfirst =>
        obtain ⟨l, n, c, d, r, rfl, hnew, hn, hd⟩ := hfirst
        obtain ⟨hdec, hleft⟩ := moveInto_of_first hcs h hnew hn hd
        have hl := (hleft hok).1
        rw [hsrc] at hl
        obtain ⟨hread, rfl⟩ := append_eq_nil_iff.mp hl.symm
        have hin := of_decide_eq_true (hdec.symm.trans hok)
        have hmem : (n, NamedTree.dir c) ∈ l ++ [(n, NamedTree.dir c)] := by simp
        exact .last (filter_not_readable_eq_nil.mp hread) hnew hn hd ((hchild hmem hd).mp hin)
    · intro hdr
      cases hdr with
      | all hread hnew =>
        rw [moveInto_of_no_meets hcs h hnew]
        exact ⟨rfl, filter_not_readable_eq_nil.mpr hread⟩
      | @last l _ c d n hread hnew hn hd hin =>
        obtain ⟨hdec, hleft⟩ := moveInto_of_first hcs h hnew hn hd
        have hmem : (n, NamedTree.dir c) ∈ l ++ [(n, NamedTree.dir c)] := by simp
        have hok := hdec.trans (decide_eq_true ((hchild hmem hd).mpr hin))
        refine ⟨hok, ?_⟩
        rw [(hleft hok).1, filter_not_readable_eq_nil.mpr hread]
        rfl

theorem look_leaf_or (hc : isDir c = false) (hd : isDir d = false)
    (p : List Bytes) : c.look p = (c.look p).or (d.look p) := by
  cases c with
  | dir cs => exact absurd hc Bool.true_eq_false_eq_False
  | leaf a =>
    cases d with
    | dir ds => exact absurd hd Bool.true_eq_false_eq_False
    | leaf b =>
      cases p with
      | nil => rfl
      | cons n p => rfl

theorem merges_of_lookup {cs ds es : Entries α}
    (h : ∀ n p, (es.lookup n).bind (NamedTree.look p) =
      ((cs.lookup n).bind (NamedTree.look p)).or ((ds.lookup n).bind (NamedTree.look p))) :
    Merges (.dir cs) (.dir ds) (.dir es) := by
  intro p
  cases p with
  | nil => rfl
  | cons n p =>
    rw [NamedTree.look_cons, NamedTree.look_cons, NamedTree.look_cons]
    exact h n p

theorem look_renamed (hfree : ∀ c, cs.lookup n = some c → Free ds (n, c)) (p : List Bytes) :
    ((cs.lookup n).or (ds.lookup n)).bind (NamedTree.look p) =
      ((cs.lookup n).bind (NamedTree.look p)).or ((ds.lookup n).bind (NamedTree.look p)) := by
  cases hc : cs.lookup n with
  | none => rfl
  | some c =>
    cases hd : ds.lookup n with
    | none => exact or_none.symm
    | some d =>
      have hcd := hfree c hc d hd
      exact look_leaf_or hcd.1 hcd.2 p

theorem merges_of_drains (hdr : Drains cs ds)
    (hcs : (NamedTree.dir cs).Distinct) (h : Agree (.dir cs) (.dir ds)) :
    Merges (.dir cs) (.dir ds) (.dir (moveInto cs ds).dest) := by
  induction hdr with
  | @all cs ds hread hnew =>
    rw [moveInto_of_no_meets hcs h hnew, filter_eq_self.mpr hread]
    apply merges_of_lookup
    intro n p
    rw [lookup_renamed hcs.here]
    apply look_renamed
    intro c hc
    have hmem := mem_of_lookup hc
    exact free_of_agree hcs h hmem (hread _ hmem) (hnew _ hmem)
  | @last l ds c d n hread hnew hn hd hin ih =>
    have hmem : (n, NamedTree.dir c) ∈ l ++ [(n, NamedTree.dir c)] := by simp
    have hc := lookup_of_mem hcs.here hmem
    have hagree := h.lookup hc hd
    have hdistinct := hcs.children _ hmem
    have hl : (l.map Prod.fst).Nodup := by
      have hnodup := hcs.here
      rw [map_append, nodup_append] at hnodup
      exact hnodup.1
    obtain ⟨hdec, hleft⟩ := moveInto_of_first hcs h hnew hn hd
    have hok := hdec.trans (decide_eq_true ((moveInto_drains_iff hdistinct hagree).mpr hin))
    rw [(hleft hok).2, filter_eq_self.mpr hread]
    apply merges_of_lookup
    intro m p
    by_cases hm : m = n
    · subst hm
      rw [lookup_setName_self, hc, hd]
      exact ih hdistinct hagree p
    · rw [lookup_setName_ne hm, lookup_renamed hl, lookup_append, lookup_cons_ne hm,
        lookup_nil, or_none]
      apply look_renamed
      intro c hc
      have hmem := mem_of_lookup hc
      exact free_of_agree hcs h (mem_append_left _ hmem) (hread _ hmem) (hnew _ hmem)

/-- If the move returns `Ok`, the source is empty and the destination the merge of both. -/
def MoveHolds (cs ds : Entries α) : Prop :=
  (moveInto cs ds).ok → (moveInto cs ds).src = [] ∧
    Merges (.dir cs) (.dir ds) (.dir (moveInto cs ds).dest)

theorem moveHolds_iff (hcs : (NamedTree.dir cs).Distinct)
    (h : Agree (.dir cs) (.dir ds)) : MoveHolds cs ds ↔ Drains cs ds ∨ Stuck cs ds := by
  constructor
  · intro hholds
    cases meets_cases hcs h with
    | inl hnew =>
      have hok : (moveInto cs ds).ok := by rw [moveInto_of_no_meets hcs h hnew]
      exact Or.inl ((moveInto_drains_iff hcs h).mp ⟨hok, (hholds hok).1⟩)
    | inr hfirst =>
      obtain ⟨l, n, c, d, r, rfl, hnew, hn, hd⟩ := hfirst
      by_cases hin : Drains c d
      · have hmem : (n, NamedTree.dir c) ∈ l ++ (n, NamedTree.dir c) :: r := by simp
        have hagree := h.lookup (lookup_of_mem hcs.here hmem) hd
        have hdec := (moveInto_of_first hcs h hnew hn hd).1
        have hinner := (moveInto_drains_iff (hcs.children _ hmem) hagree).mpr hin
        have hok := hdec.trans (decide_eq_true hinner)
        exact Or.inl ((moveInto_drains_iff hcs h).mp ⟨hok, (hholds hok).1⟩)
      · exact Or.inr ⟨l, n, c, d, r, rfl, hnew, hn, hd, hin⟩
  · intro hor hok
    cases hor with
    | inl hdr => exact ⟨((moveInto_drains_iff hcs h).mpr hdr).2, merges_of_drains hdr hcs h⟩
    | inr hstuck =>
      obtain ⟨l, n, c, d, r, rfl, hnew, hn, hd, hin⟩ := hstuck
      have hmem : (n, NamedTree.dir c) ∈ l ++ (n, NamedTree.dir c) :: r := by simp
      have hagree := h.lookup (lookup_of_mem hcs.here hmem) hd
      have hinner := of_decide_eq_true ((moveInto_of_first hcs h hnew hn hd).1.symm.trans hok)
      exact absurd ((moveInto_drains_iff (hcs.children _ hmem) hagree).mp hinner) hin

/-- The same for `mv_path` with a destination that is a directory. -/
def MvPathHolds (srcPath destPath : Bytes) (cs ds : Entries α) : Prop :=
  let r := mvPath srcPath destPath (.dir cs) (some (.dir ds))
  r.ok → r.src = some (.dir []) ∧
    ∃ t, r.dest = some t ∧ Merges (.dir cs) (.dir ds) t

theorem mvPathHolds_iff {srcPath destPath : Bytes} (hsrc : (fromUtf8 srcPath).isSome)
    (hdest : (fromUtf8 destPath).isSome) (cs ds : Entries α) :
    MvPathHolds srcPath destPath cs ds ↔ MoveHolds cs ds := by
  obtain ⟨a, ha⟩ := isSome_iff_exists.mp hsrc
  obtain ⟨b, hb⟩ := isSome_iff_exists.mp hdest
  rw [MvPathHolds, MoveHolds, mvPath, ha, hb]
  rw [moveTo, moveDir]
  simp

/-- A move that returns `Ok` has moved everything exactly if the only directory to be merged is
the last entry, and so on inside it, or if the first such directory makes it fail. -/
theorem moveInto_holds_iff (cs ds : Entries α) (hcs : (NamedTree.dir cs).Distinct)
    (h : Agree (.dir cs) (.dir ds)) :
    (MoveHolds cs ds ↔ Drains cs ds ∨ Stuck cs ds) ∧
      ∀ srcPath destPath, (fromUtf8 srcPath).isSome → (fromUtf8 destPath).isSome →
        (MvPathHolds srcPath destPath cs ds ↔ Drains cs ds ∨ Stuck cs ds) := by
  refine ⟨moveHolds_iff hcs h, fun srcPath destPath hsrc hdest => ?_⟩
  rw [mvPathHolds_iff hsrc hdest, moveHolds_iff hcs h]

end Move

/-- The root directory before the overlay is moved there. -/
def rootEntries : Entries Bytes := [(lit "sbin", .dir [(lit "adbd", .leaf [1])])]

/-- A directory that the root has too, in front of a file. -/
def overlayFirst : Entries Bytes :=
  [(lit "sbin", .dir [(lit "magisk", .leaf [2])]), (lit "init.rc", .leaf [3])]

/-- The same entries, as another file system may list them. -/
def overlayLast : Entries Bytes :=
  [(lit "init.rc", .leaf [3]), (lit "sbin", .dir [(lit "magisk", .leaf [2])])]

theorem agree_overlay {cs : Entries Bytes} (h : cs.lookup (lit "sbin") =
    some (.dir [(lit "magisk", .leaf [2])])) : Agree (.dir cs) (.dir rootEntries) := by
  apply agree_of_lookup
  intro n c d hc hd
  have hn := mem_of_lookup hd
  rw [rootEntries, mem_singleton, Prod.mk.injEq] at hn
  obtain ⟨rfl, rfl⟩ := hn
  rw [h] at hc
  rw [← some.inj hc]
  apply agree_of_lookup
  intro m c d hc hd
  have hm := mem_of_lookup hc
  rw [mem_singleton, Prod.mk.injEq] at hm
  obtain ⟨rfl, -⟩ := hm
  cases hd

theorem moveInto_holds_overlayLast : MoveHolds overlayLast rootEntries := by
  have hagree : Agree (.dir overlayLast) (.dir rootEntries) := agree_overlay rfl
  have hdrains : Drains ([(lit "init.rc", .leaf [3])] ++
      [(lit "sbin", .dir [(lit "magisk", .leaf [2])])]) rootEntries :=
    .last (by decide) (by decide) (by decide) rfl (.all (by decide) (by decide))
  exact (moveInto_holds_iff overlayLast rootEntries (by decide) hagree).1.mpr (Or.inl hdrains)

/-- `init.rc` is left behind by a move that returns `Ok`. -/
theorem moveInto_overlayFirst : (NamedTree.dir overlayFirst).Distinct ∧
    Agree (.dir overlayFirst) (.dir rootEntries) ∧ ¬MoveHolds overlayFirst rootEntries := by
  refine ⟨by decide, agree_overlay rfl, fun h => ?_⟩
  have hok : (moveInto overlayFirst rootEntries).ok := by decide
  have hsrc : (moveInto overlayFirst rootEntries).src.length = 1 := by decide
  rw [(h hok).1] at hsrc
  cases hsrc

end Magisk.Directory
