import Magisk.Module.Commit

namespace Magisk.Module

open List Option Attempt

section Operations

variable {host : Host} {s s' : Mounts}

theorem runs_attempt {op : MountOp} {area : Area} {f : FileTree → Option FileTree} :
    Runs (attempt host op area f) s s' ↔ host.succeeds op ∧ area.update f s = some s' := by
  rw [attempt, runs_perform]
  split_ifs with h
  · rw [and_iff_right h]
  · exact iff_of_false nofun fun hs => h hs.1

theorem runs_check {op : MountOp} :
    Runs (check host op) s s' ↔ host.succeeds op ∧ s' = s := by
  rw [check, runs_attempt]
  exact and_congr_right fun _ => some_inj.trans eq_comm

theorem runs_bindMount {src : Option FileTree} {area : Area} {dest : Path} :
    Runs (bindMount host src area dest) s s' →
      area.update (bindMountTo dest src) s = some s' := by
  intro h
  obtain ⟨t, hb, hr⟩ := runs_andThen.mp h
  have hb := (runs_attempt.mp (runs_logOk.mp hb)).2
  rwa [(runs_check.mp (runs_logOk.mp hr)).2]

end Operations

/-- The state with these entries in a directory of the worker directory. -/
def Mounts.withDir (s : Mounts) (p : Path) (entries : List (Bytes × FileTree)) : Mounts :=
  { s with worker := s.worker.put p (.dir entries) }

/-- A clean run adds just these entries to the directory, if their names are free. -/
def Fills (m : Attempt Mounts) (p : Path) (new : List (Bytes × FileTree)) : Prop :=
  ∀ (s s' : Mounts) (acc : List (Bytes × FileTree)), s.worker.isOpen p →
    (∀ e ∈ new, acc.lookup e.1 = none) → Runs m (s.withDir p acc) s' →
    s' = s.withDir p (acc ++ new)

section Fills

variable {host : Host} {m k : Attempt Mounts} {p : Path} {new new' : List (Bytes × FileTree)}

theorem fills_skip : Fills skip p [] := by
  intro s s' acc _ _ h
  rw [runs_skip.mp h, append_nil]

theorem fills_check (op : MountOp) : Fills (check host op) p [] := by
  intro s s' acc _ _ h
  rw [(runs_check.mp h).2, append_nil]

theorem Fills.logOk (h : Fills m p new) : Fills (logOk m) p new := by
  intro s s' acc ho hn hr
  exact h s s' acc ho hn (runs_logOk.mp hr)

theorem fills_fail : Fills fail p new := by
  intro s s' acc _ _ hr
  exact absurd hr not_runs_fail

theorem Fills.andThen (hm : Fills m p new) (hk : Fills k p new')
    (hd : ∀ e ∈ new', new.lookup e.1 = none) : Fills (andThen m k) p (new ++ new') := by
  intro s s' acc ho hn hr
  obtain ⟨t, hrm, hrk⟩ := runs_andThen.mp hr
  have ht := hm s t acc ho (fun e he => hn e (mem_append_left _ he)) hrm
  rw [ht] at hrk
  rw [← append_assoc]
  refine hk s s' (acc ++ new) ho (fun e he => ?_) hrk
  rw [lookup_append, hn e (mem_append_right _ he), hd e he]
  rfl

theorem Fills.andThen_nil (hm : Fills m p new) (hk : Fills k p []) :
    Fills (Attempt.andThen m k) p new := by
  have h := hm.andThen hk nofun
  rwa [append_nil] at h

section Entries

variable {w : FileTree} {acc : List (Bytes × FileTree)} {b : Bytes}

theorem put_entry (ho : w.isOpen p) (hb : acc.lookup b = none) (t : FileTree) :
    (w.put p (.dir acc)).put (p ++ [b]) t = w.put p (.dir (acc ++ [(b, t)])) := by
  rw [NamedTree.put_put_child ho, setName_of_lookup_none t hb]

theorem addEntry_eq (ho : w.isOpen p) (hb : acc.lookup b = none) (t : FileTree) :
    addEntry (p ++ [b]) t (w.put p (.dir acc)) = some (w.put p (.dir (acc ++ [(b, t)]))) := by
  rw [addEntry, dropLast_concat, NamedTree.find_put_self ho]
  exact congrArg some (put_entry ho hb t)

theorem create_eq (ho : w.isOpen p) (hb : acc.lookup b = none) :
    create (p ++ [b]) (w.put p (.dir acc)) =
      some (w.put p (.dir (acc ++ [(b, .leaf (.other []))]))) := by
  rw [create, NamedTree.find_put_child ho, hb]
  exact addEntry_eq ho hb _

theorem find_create (ho : w.isOpen p) {w' : FileTree}
    (h : create (p ++ [b]) (w.put p (.dir acc)) = some w') :
    ∃ i, w'.find (p ++ [b]) = some (.leaf i) := by
  rw [create, NamedTree.find_put_child ho] at h
  cases hb : acc.lookup b with
  | none =>
    rw [hb] at h
    have hw := some.inj (h.symm.trans (addEntry_eq ho hb _))
    rw [hw, NamedTree.find_put_child ho, lookup_append, hb, lookup_cons_self]
    exact ⟨_, rfl⟩
  | some t =>
    rw [hb] at h
    cases t with
    | dir es => cases h
    | leaf i =>
      rw [← some.inj h, NamedTree.find_put_child ho, hb]
      exact ⟨i, rfl⟩

theorem bindMountTo_file {q : Path} {src : Option FileTree} {w' : FileTree} {i : Inode}
    (hf : w.find q = some (.leaf i)) (h : bindMountTo q src w = some w') :
    ∃ j, src = some (.leaf j) ∧ w' = w.put q (.leaf j) := by
  unfold bindMountTo at h
  rw [hf] at h
  cases src with
  | none => cases h
  | some t =>
    cases t with
    | dir es => cases h
    | leaf j => exact ⟨j, rfl, (some.inj h).symm⟩

end Entries

theorem fills_symlinkTo (b target : Bytes) :
    Fills (symlinkTo host (p ++ [b]) target) p [(b, .leaf (.symlink target))] := by
  intro s s' acc ho hn hr
  have hb : acc.lookup b = none := hn _ mem_cons_self
  have hu := (runs_attempt.mp hr).2
  obtain ⟨t, ht, rfl⟩ := map_eq_some_iff.mp hu
  rw [createSymlink] at ht
  split_ifs at ht
  rw [Mounts.withDir, NamedTree.find_put_child ho, hb] at ht
  have ht := ht.symm.trans (addEntry_eq ho hb _)
  rw [some.inj ht]
  rfl

/-- The file that stands at the source of a mount. -/
def fileAt : Option FileTree → Option Inode
  | some (.leaf i) => some i
  | _ => none

theorem fills_mountDummy (b : Bytes) (src : Option FileTree) :
    Fills (mountDummy host src (p ++ [b]) false) p
      (((fileAt src).map NamedTree.leaf).toList.map (b, ·)) := by
  intro s s' acc ho hn hr
  obtain ⟨t, hc, hm⟩ := runs_andThen.mp hr
  have hc := (runs_attempt.mp hc).2
  obtain ⟨w₁, hw₁, rfl⟩ := map_eq_some_iff.mp hc
  obtain ⟨w₂, hw₂, rfl⟩ := map_eq_some_iff.mp (runs_bindMount hm)
  obtain ⟨i, hi⟩ := find_create ho hw₁
  obtain ⟨j, hj, hw⟩ := bindMountTo_file hi hw₂
  subst hj
  have hb : acc.lookup b = none := hn _ mem_cons_self
  have hw₁ := some.inj (hw₁.symm.trans (create_eq ho hb))
  have hset : setName b (.leaf j) (acc ++ [(b, .leaf (.other []))]) = acc ++ [(b, .leaf j)] := by
    rw [← setName_of_lookup_none _ hb, setName_setName, setName_of_lookup_none _ hb]
  rw [hw, hw₁, NamedTree.put_put_child ho, hset]
  rfl

theorem Fills.makeDir {b : Bytes} (h : Fills m (p ++ [b]) new) :
    Fills (Attempt.andThen (makeDir host (p ++ [b])) m) p [(b, .dir new)] := by
  intro s s' acc ho hn hr
  have hb : acc.lookup b = none := hn _ mem_cons_self
  obtain ⟨t, hd, hm⟩ := runs_andThen.mp hr
  obtain ⟨t', hd, hc⟩ := runs_andThen.mp hd
  obtain ⟨w, hw, rfl⟩ := map_eq_some_iff.mp (runs_attempt.mp hd).2
  have hopen := NamedTree.isOpen_put_child ho b acc
  have hw : (s.withDir p acc).worker.put (p ++ [b]) (.dir []) = w := by
    rw [mkdirs, Mounts.withDir, if_pos hopen, NamedTree.find_put_child ho, hb] at hw
    exact some.inj hw
  have ht : t = (s.withDir p acc).withDir (p ++ [b]) [] := by
    rw [(runs_check.mp hc).2, ← hw]
    rfl
  rw [ht] at hm
  have hs := h _ s' [] hopen (fun _ _ => rfl) hm
  rw [hs, nil_append, Mounts.withDir, Mounts.withDir, Mounts.withDir]
  rw [put_entry ho hb]

end Fills

mutual

/-- A real tree without what `Directory::read` passes over. -/
def readable : FileTree → FileTree
  | .leaf i => .leaf i
  | .dir entries => .dir (readableEntries [] entries)

def readableEntries (skip : List Str) : List (Bytes × FileTree) → List (Bytes × FileTree)
  | [] => []
  | (b, t) :: entries =>
    match fromUtf8 b with
    | none => readableEntries skip entries
    | some name =>
      if name ∈ skip then readableEntries skip entries
      else (b, readable t) :: readableEntries skip entries

end

theorem lookup_readableEntries (skip : List Str) (entries : List (Bytes × FileTree)) (b : Bytes) :
    (readableEntries skip entries).lookup b = match fromUtf8 b with
      | some name => if name ∈ skip then none else (entries.lookup b).map readable
      | none => none := by
  induction entries with
  | nil =>
    rw [readableEntries, lookup_nil, map_none]
    cases fromUtf8 b with
    | none => rfl
    | some name => exact (ite_self _).symm
  | cons e entries ih =>
    obtain ⟨b', t⟩ := e
    rw [readableEntries]
    by_cases h : b = b'
    · subst h
      cases hb : fromUtf8 b with
      | none => rw [ih, hb]
      | some name =>
        dsimp only
        split_ifs with hs
        · rw [ih, hb]
          exact if_pos hs
        · rw [lookup_cons_self, lookup_cons_self, map_some]
    · rw [lookup_cons_ne h, ← ih]
      cases fromUtf8 b' with
      | none => rfl
      | some name =>
        dsimp only
        split_ifs
        · rfl
        · rw [lookup_cons_ne h]

theorem mem_readableEntries {skip : List Str} {entries : List (Bytes × FileTree)}
    {e : Bytes × FileTree} (h : e ∈ readableEntries skip entries) :
    (∃ name, fromUtf8 e.1 = some name ∧ name ∉ skip) ∧ e.1 ∈ entries.map Prod.fst := by
  induction entries with
  | nil =>
    cases h
  | cons a entries ih =>
    obtain ⟨b, t⟩ := a
    rw [readableEntries] at h
    cases hb : fromUtf8 b with
    | none =>
      rw [hb] at h
      exact ⟨(ih h).1, mem_cons_of_mem _ (ih h).2⟩
    | some name =>
      rw [hb] at h
      dsimp only at h
      split_ifs at h with hs
      · exact ⟨(ih h).1, mem_cons_of_mem _ (ih h).2⟩
      · cases mem_cons.mp h with
        | inl h =>
          rw [h]
          exact ⟨⟨name, hb, hs⟩, mem_cons_self⟩
        | inr h => exact ⟨(ih h).1, mem_cons_of_mem _ (ih h).2⟩

section Mirror

variable {host : Host}

theorem fills_mirror_symlink (p : Path) (b target : Bytes) :
    Fills (mirror host (p ++ [b]) (.leaf (.symlink target))) p [(b, .leaf (.symlink target))] := by
  intro s s' acc ho hn hr
  obtain ⟨t, hread, hlink⟩ := runs_andThen.mp hr
  obtain ⟨hok, rfl⟩ := runs_check.mp (runs_logOk.mp hread)
  rw [if_pos hok, commitLeaf] at hlink
  obtain ⟨t, hlink, hclone⟩ := runs_andThen.mp hlink
  rw [(runs_check.mp hclone).2]
  have htarget : asBytes (readLink target) = target := by
    cases hd : fromUtf8 target with
    | some name =>
      rw [readLink, hd]
      exact asBytes_of_fromUtf8 hd
    | none =>
      have hu := (runs_attempt.mp hlink).2
      obtain ⟨w, hw, -⟩ := map_eq_some_iff.mp hu
      rw [readLink, hd] at hw
      cases hw
  rw [htarget] at hlink
  exact fills_symlinkTo b target s t acc ho hn hlink

theorem fills_mirrorEntries (p : Path) (skip : List Str) {entries : List (Bytes × FileTree)}
    (hd : (entries.map Prod.fst).Nodup)
    (hm : ∀ e ∈ entries, ∀ b, Fills (mirror host (p ++ [b]) e.2) p [(b, readable e.2)]) :
    Fills (mirrorEntries host p skip entries) p (readableEntries skip entries) := by
  induction entries with
  | nil =>
    exact (fills_check _).logOk
  | cons e entries ih =>
    obtain ⟨b, t⟩ := e
    rw [map_cons, nodup_cons] at hd
    have ih := ih hd.2 fun e he => hm e (mem_cons_of_mem _ he)
    rw [mirrorEntries, readableEntries]
    cases fromUtf8 b with
    | none => exact ih
    | some name =>
      dsimp only
      split_ifs with hread hskip
      · exact ih
      · refine (hm _ mem_cons_self b).andThen ih fun e he => ?_
        refine lookup_cons_ne (fun heq => hd.1 ?_) _ _
        rw [← heq]
        exact (mem_readableEntries he).2
      · exact fills_fail.logOk
      · exact fills_fail.logOk

theorem fills_mirror {t : FileTree} (ht : t.Distinct) (p : Path) (b : Bytes) :
    Fills (mirror host (p ++ [b]) t) p [(b, readable t)] := by
  induction t using NamedTree.induct generalizing p b with
  | leaf i =>
    cases i with
    | symlink target => exact fills_mirror_symlink p b target
    | charDevice rdev =>
      rw [mirror]
      · exact fills_mountDummy b (some (.leaf (.charDevice rdev)))
      · nofun
    | other content =>
      rw [mirror]
      · exact fills_mountDummy b (some (.leaf (.other content)))
      · nofun
  | dir entries ih =>
    refine Fills.makeDir ?_
    split_ifs
    · exact fills_mirrorEntries (p ++ [b]) [] ht.here fun e he b' => ih e he (ht.children e he) _ b'
    · exact fills_fail.logOk

end Mirror

section Build

variable (host : Host)

def buildLeaf (p : Path) : FsLeaf → Option Inode
  | .file src => fileAt (host.source src)
  | .symlink target => some (.symlink (asBytes target))
  | .magiskLink => some (.symlink (magiskTarget p))
  | .whiteout => none

mutual

def build (p : Path) (here : Option FileTree) : FsNode → Option FileTree
  | .leaf a => (buildLeaf host p a).map .leaf
  | .dir children =>
    some (.dir (readableEntries (children.map Prod.fst) ((opened host p here).getD []) ++
      buildChildren p here children))

def buildChildren (p : Path) (here : Option FileTree) :
    List (Str × FsNode) → List (Bytes × FileTree)
  | [] => []
  | (name, node) :: children =>
    (build (p ++ [asBytes name]) (realChild host p here name) node).toList.map (asBytes name, ·) ++
      buildChildren p here children

end

/-- The node tree lies over the real tree without `.replace`, with no directory over an entry that
is none and no file over a directory. -/
structure Fits (node : FsNode) (here : Option FileTree) : Prop where
  noReplace : ∀ q, node.find (q ++ [replaceName]) = none
  overDir : ∀ q children, node.find q = some (.dir children) →
    ∀ i, here.bind (NamedTree.find (q.map asBytes)) ≠ some (.leaf i)
  overFile : ∀ q src, node.find q = some (.leaf (.file src)) →
    ∀ entries, here.bind (NamedTree.find (q.map asBytes)) ≠ some (.dir entries)

end Build

section Build

variable {host : Host}

variable {p : Path} {here : Option FileTree} {children : List (Str × FsNode)}

theorem opened_eq (h : ∀ i, here ≠ some (.leaf i)) :
    opened host p here = here.map fun t => match t with
      | .dir entries => entries
      | .leaf _ => [] := by
  cases here with
  | none => rfl
  | some t =>
    cases t with
    | leaf i => exact absurd rfl (h i)
    | dir entries => rfl

theorem realChild_eq (h : ∀ i, here ≠ some (.leaf i))
    (name : Str) : realChild host p here name = here.bind (NamedTree.child (asBytes name)) := by
  cases here with
  | none => rfl
  | some t =>
    cases t with
    | leaf i => exact absurd rfl (h i)
    | dir entries => rfl

theorem Fits.ne_leaf (h : Fits (.dir children) here) (i : Inode) : here ≠ some (.leaf i) := by
  have hi := h.overDir [] children rfl i
  intro heq
  rw [heq] at hi
  exact hi rfl

theorem Fits.name_ne (h : Fits (.dir children) here) : ∀ e ∈ children, e.1 ≠ replaceName := by
  have hn := h.noReplace []
  rw [nil_append, NamedTree.find, bind_eq_none_iff] at hn
  exact lookup_eq_none_iff_forall.mp (eq_none_iff_forall_ne_some.mpr fun t ht => by
    have := hn t ht
    cases this)

theorem fits_leaf {a : FsLeaf}
    (h : ∀ src entries, a = .file src → here ≠ some (.dir entries)) : Fits (.leaf a) here := by
  constructor
  · intro q
    cases q with
    | nil => rfl
    | cons n q => rfl
  · intro q children hq
    cases q with
    | nil => cases hq
    | cons n q => cases hq
  · intro q src hq entries
    cases q with
    | nil =>
      cases hq
      cases here with
      | none => nofun
      | some t => exact h src entries rfl
    | cons n q => cases hq

theorem fits_dir (hh : ∀ i, here ≠ some (.leaf i))
    (h : ∀ name node, children.lookup name = some node →
      name ≠ replaceName ∧ Fits node (here.bind (NamedTree.child (asBytes name)))) :
    Fits (.dir children) here := by
  have hfind {name : Str} {q : List Str} {t : FsNode}
      (hq : (NamedTree.dir children).find (name :: q) = some t) :
      ∃ node, children.lookup name = some node ∧ node.find q = some t :=
    bind_eq_some_iff.mp hq
  constructor
  · intro q
    by_contra hne
    obtain ⟨t, ht⟩ := ne_none_iff_exists'.mp hne
    cases q with
    | nil =>
      obtain ⟨node, hnode, -⟩ := hfind ht
      exact (h _ node hnode).1 rfl
    | cons name q =>
      obtain ⟨node, hnode, ht⟩ := hfind ht
      exact nomatch ((h name node hnode).2.noReplace q).symm.trans ht
  · intro q cs hq i
    cases q with
    | nil =>
      cases here with
      | none => nofun
      | some t => exact hh i
    | cons name q =>
      obtain ⟨node, hnode, hq⟩ := hfind hq
      have hi := (h name node hnode).2.overDir q cs hq i
      rwa [bind_assoc] at hi
  · intro q src hq entries
    cases q with
    | nil => cases hq
    | cons name q =>
      obtain ⟨node, hnode, hq⟩ := hfind hq
      have hi := (h name node hnode).2.overFile q src hq entries
      rwa [bind_assoc] at hi

theorem Fits.child (h : Fits (.dir children) here) {name : Str} {node : FsNode}
    (hc : children.lookup name = some node) :
    Fits node (here.bind (NamedTree.child (asBytes name))) := by
  have hfind (q : List Str) : (NamedTree.dir children).find (name :: q) = node.find q := by
    rw [NamedTree.find, NamedTree.child_dir, hc, bind_some]
  constructor
  · intro q
    rw [← hfind, ← cons_append]
    exact h.noReplace (name :: q)
  · intro q cs hq i
    rw [← hfind] at hq
    rw [bind_assoc]
    exact h.overDir (name :: q) cs hq i
  · intro q src hq entries
    rw [← hfind] at hq
    rw [bind_assoc]
    exact h.overFile (name :: q) src hq entries

theorem fills_commitLeaf (p : Path) (b : Bytes) (here : Option FileTree) (a : FsLeaf) :
    Fills (commitLeaf host (p ++ [b]) here a) p
      (((buildLeaf host (p ++ [b]) a).map NamedTree.leaf).toList.map (b, ·)) := by
  cases a with
  | file src => exact fills_mountDummy b (host.source src)
  | symlink target =>
    rw [commitLeaf]
    refine (fills_symlinkTo b (asBytes target)).andThen_nil ?_
    split_ifs
    · exact fills_check _
    · exact fills_skip
  | magiskLink => exact fills_symlinkTo b _
  | whiteout => exact fills_skip

/-- The node is built over whatever it fits on. -/
def Builds (host : Host) (node : FsNode) : Prop :=
  ∀ (p : Path) (b : Bytes) (here : Option FileTree), Fits node here → (∀ t ∈ here, t.Distinct) →
    Fills (commitTmpfs host (p ++ [b]) here node) p
      ((build host (p ++ [b]) here node).toList.map (b, ·))

theorem fst_of_mem_buildChildren {e : Bytes × FileTree}
    (h : e ∈ buildChildren host p here children) : ∃ c ∈ children, e.1 = asBytes c.1 := by
  induction children with
  | nil =>
    cases h
  | cons c children ih =>
    cases mem_append.mp h with
    | inl h =>
      obtain ⟨t, -, rfl⟩ := List.mem_map.mp h
      exact ⟨_, mem_cons_self, rfl⟩
    | inr h =>
      obtain ⟨c, hc, he⟩ := ih h
      exact ⟨c, mem_cons_of_mem _ hc, he⟩

/-- The conditions under which the children of a directory are built. -/
structure ChildrenFit (host : Host) (p : Path) (here : Option FileTree)
    (children : List (Str × FsNode)) : Prop where
  nodup : (children.map Prod.fst).Nodup
  name_ne : ∀ e ∈ children, e.1 ≠ replaceName
  fits : ∀ e ∈ children, Fits e.2 (realChild host p here e.1)
  distinct : ∀ e ∈ children, ∀ t ∈ realChild host p here e.1, t.Distinct

theorem ChildrenFit.tail {e : Str × FsNode} (h : ChildrenFit host p here (e :: children)) :
    ChildrenFit host p here children where
  nodup := (nodup_cons.mp h.nodup).2
  name_ne := fun e he => h.name_ne e (mem_cons_of_mem _ he)
  fits := fun e he => h.fits e (mem_cons_of_mem _ he)
  distinct := fun e he => h.distinct e (mem_cons_of_mem _ he)

theorem fills_commitChildren
    (hf : ChildrenFit host p here children) (hb : ∀ e ∈ children, Builds host e.2) :
    Fills (commitChildren host p here children) p (buildChildren host p here children) := by
  induction children with
  | nil =>
    exact fills_skip
  | cons e children ih =>
    obtain ⟨name, node⟩ := e
    have hrest := ih hf.tail fun e he => hb e (mem_cons_of_mem _ he)
    have hmem : (name, node) ∈ (name, node) :: children := mem_cons_self
    rw [commitChildren, buildChildren, if_neg (hf.name_ne _ hmem)]
    have hfirst := hb _ hmem p (asBytes name) _ (hf.fits _ hmem) (hf.distinct _ hmem)
    refine hfirst.andThen hrest fun e he => ?_
    obtain ⟨c, hc, hec⟩ := fst_of_mem_buildChildren he
    refine lookup_eq_none_iff_forall.mpr fun a ha heq => ?_
    obtain ⟨t, -, rfl⟩ := List.mem_map.mp ha
    have hname : name = c.1 := asBytes_injective (heq.trans hec)
    exact (nodup_cons.mp hf.nodup).1 (List.mem_map.mpr ⟨c, hc, hname.symm⟩)

theorem Fits.replaceDir? (h : Fits (.dir children) here) : replaceDir? children = none := by
  rw [Module.replaceDir?, lookup_eq_none_iff_forall.mpr h.name_ne]

theorem Fits.childrenFit (h : Fits (.dir children) here) (hn : (NamedTree.dir children).Distinct)
    (hd : ∀ t ∈ here, t.Distinct) (p : Path) : ChildrenFit host p here children where
  nodup := hn.here
  name_ne := h.name_ne
  fits := by
    intro e he
    rw [realChild_eq h.ne_leaf]
    exact h.child (lookup_of_mem hn.here he)
  distinct := by
    intro e _ t ht
    rw [realChild_eq h.ne_leaf] at ht
    obtain ⟨u, hu, hc⟩ := bind_eq_some_iff.mp ht
    cases u with
    | leaf i => exact absurd hu (h.ne_leaf i)
    | dir entries => exact (hd _ hu).lookup hc

def buildDir (host : Host) (p : Path) (here : Option FileTree) (children : List (Str × FsNode)) :
    List (Bytes × FileTree) :=
  readableEntries (children.map Prod.fst) ((opened host p here).getD []) ++
    buildChildren host p here children

theorem fills_mirrorDir (skip : List Str)
    (hh : ∀ i, here ≠ some (.leaf i)) (hd : ∀ t ∈ here, t.Distinct) :
    Fills (mirrorDir host p here skip) p
      (readableEntries skip ((opened host p here).getD [])) := by
  rw [mirrorDir, opened_eq hh]
  cases here with
  | none =>
    rw [map_none, getD_none, readableEntries]
    exact fills_skip
  | some t =>
    cases t with
    | leaf i => exact absurd rfl (hh i)
    | dir entries =>
      have hdist := hd _ rfl
      rw [map_some, getD_some]
      dsimp only
      split_ifs
      · exact fills_mirrorEntries p skip hdist.here fun e he b =>
          fills_mirror (hdist.children e he) p b
      · exact fills_fail.logOk

theorem fills_dir (hf : Fits (.dir children) here) (hn : (NamedTree.dir children).Distinct)
    (hd : ∀ t ∈ here, t.Distinct) (hb : ∀ e ∈ children, Builds host e.2) :
    Fills (Attempt.andThen
        (mirrorDir host p here ((children.map Prod.fst).filter (· ≠ replaceName)))
        (commitChildren host p here children)) p (buildDir host p here children) := by
  have hskip : (children.map Prod.fst).filter (· ≠ replaceName) = children.map Prod.fst := by
    refine filter_eq_self.mpr fun name hname => decide_eq_true ?_
    obtain ⟨e, he, rfl⟩ := List.mem_map.mp hname
    exact hf.name_ne e he
  rw [hskip]
  refine (fills_mirrorDir _ hf.ne_leaf hd).andThen
    (fills_commitChildren (hf.childrenFit hn hd p) hb) fun e he => ?_
  -- what is mirrored has none of the names of the children
  obtain ⟨c, hc, hec⟩ := fst_of_mem_buildChildren he
  refine lookup_eq_none_iff_forall.mpr fun a ha heq => ?_
  obtain ⟨⟨name, hname, hskip⟩, -⟩ := mem_readableEntries ha
  rw [heq, hec, fromUtf8_asBytes] at hname
  rw [← some.inj hname] at hskip
  exact hskip (List.mem_map_of_mem hc)

theorem builds {node : FsNode} (hn : node.Distinct) : Builds host node := by
  induction node using NamedTree.induct with
  | leaf a =>
    intro p b here _ _
    exact fills_commitLeaf p b here a
  | dir children ih =>
    intro p b here hf hd
    rw [commitTmpfs, build, hf.replaceDir?]
    exact (fills_dir hf hn hd fun e he => ih e he (hn.children e he)).makeDir

theorem commitTmpfs_runs
    {s s' : Mounts} (hf : Fits (.dir children) here) (hn : (NamedTree.dir children).Distinct)
    (hd : ∀ t ∈ here, t.Distinct) (hw : s.worker.find p = none)
    (hr : Runs (commitTmpfs host p here (.dir children)) s s') :
    s.worker.isOpen p ∧ s' = s.withDir p (buildDir host p here children) := by
  rw [commitTmpfs, hf.replaceDir?] at hr
  obtain ⟨t, hm, hfill⟩ := runs_andThen.mp hr
  obtain ⟨t', hm, hc⟩ := runs_andThen.mp hm
  obtain ⟨w, hmk, rfl⟩ := map_eq_some_iff.mp (runs_attempt.mp hm).2
  rw [mkdirs, hw] at hmk
  split_ifs at hmk with ho
  have ht : t = s.withDir p [] := by
    rw [(runs_check.mp hc).2, ← some.inj hmk]
    rfl
  rw [ht] at hfill
  refine ⟨ho, ?_⟩
  have h := fills_dir hf hn hd (fun e he => builds (hn.children e he)) s s' [] ho
    (fun _ _ => rfl) hfill
  rwa [nil_append] at h

end Build

end Magisk.Module
