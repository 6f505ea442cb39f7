import Magisk.Module.Tmpfs

namespace Magisk.Module

open List Option Attempt

/-- What is to be seen at a path below `p`, where `node` lies over `here`. Files and links replace
or add an entry, whiteouts remove it, directories are merged, and the rest stays. -/
def overlay (host : Host) : Path → Option FsNode → Option FileTree → Path → Option (Entry Inode)
  | _, none, here, [] => here.map NamedTree.entry
  | _, some (.dir _), _, [] => some .dir
  | p, some (.leaf a), _, [] => (buildLeaf host p a).map .leaf
  | p, none, here, b :: q => overlay host (p ++ [b]) none (here.bind (NamedTree.child b)) q
  | p, some (.dir children), here, b :: q =>
    overlay host (p ++ [b]) ((fromUtf8 b).bind fun name => children.lookup name)
      (here.bind (NamedTree.child b)) q
  | _, some (.leaf _), _, _ :: _ => none

def isText (q : Path) : Bool := q.all fun b => (fromUtf8 b).isSome

section Build

variable {host : Host}

theorem overlay_none (p : Path) (here : Option FileTree) (q : Path) :
    overlay host p none here q = here.bind (NamedTree.look q) := by
  induction q generalizing p here with
  | nil =>
    cases here with
    | none => rfl
    | some t => rfl
  | cons b q ih =>
    rw [overlay, ih, bind_assoc]
    exact congrArg _ (funext fun t => (NamedTree.look_cons b q t).symm)

theorem isText_cons (b : Bytes) (q : Path) : isText (b :: q) = ((fromUtf8 b).isSome && isText q) :=
  rfl

theorem look_readable (t : FileTree) (q : Path) :
    (readable t).look q = if isText q then t.look q else none := by
  induction q generalizing t with
  | nil =>
    cases t with
    | leaf i =>
      rfl
    | dir entries =>
      rfl
  | cons b q ih =>
    rw [NamedTree.look_cons, NamedTree.look_cons, isText_cons]
    cases t with
    | leaf i =>
      exact (ite_self _).symm
    | dir entries =>
      rw [readable, NamedTree.child_dir, NamedTree.child_dir, lookup_readableEntries]
      cases fromUtf8 b with
      | none => rfl
      | some name =>
        cases entries.lookup b with
        | none => exact (ite_self _).symm
        | some u => exact ih u

theorem lookup_buildChildren {p : Path} {here : Option FileTree} {children : List (Str × FsNode)}
    (hd : (children.map Prod.fst).Nodup) (name : Str) :
    (buildChildren host p here children).lookup (asBytes name) =
      (children.lookup name).bind (build host (p ++ [asBytes name]) (realChild host p here name)) := by
  induction children with
  | nil =>
    rw [buildChildren]
    rfl
  | cons e children ih =>
    obtain ⟨m, node⟩ := e
    rw [map_cons, nodup_cons] at hd
    rw [buildChildren, lookup_append]
    by_cases hm : name = m
    · subst hm
      rw [lookup_cons_self, bind_some]
      cases hb : build host (p ++ [asBytes name]) (realChild host p here name) node with
      | some t =>
        rw [toList_some, map_singleton, lookup_cons_self]
        rfl
      | none =>
        -- a whiteout; the name does not come again
        refine lookup_eq_none_iff_forall.mpr fun a ha heq => ?_
        obtain ⟨c, hc, hac⟩ := fst_of_mem_buildChildren ha
        have hname : name = c.1 := asBytes_injective (heq.symm.trans hac)
        exact hd.1 (List.mem_map.mpr ⟨c, hc, hname.symm⟩)
    · rw [lookup_cons_ne hm, ← ih hd.2]
      have hnone : ((build host (p ++ [asBytes m]) (realChild host p here m) node).toList.map
          (asBytes m, ·)).lookup (asBytes name) = none := by
        refine lookup_eq_none_iff_forall.mpr fun a ha heq => ?_
        obtain ⟨t, -, rfl⟩ := List.mem_map.mp ha
        exact hm (asBytes_injective heq.symm)
      rw [hnone, none_or]

theorem look_build {node : FsNode} {here : Option FileTree} (hf : Fits node here)
    (hn : node.Distinct) (p q : Path) :
    (build host p here node).bind (NamedTree.look q) =
      if isText q then overlay host p (some node) here q else none := by
  induction q generalizing node here p with
  | nil =>
    cases node with
    | leaf a =>
      rw [build, overlay]
      cases buildLeaf host p a with
      | none => rfl
      | some i => rfl
    | dir children =>
      rw [build, overlay]
      rfl
  | cons b q ih =>
    cases node with
    | leaf a =>
      rw [build, overlay, ite_self]
      cases buildLeaf host p a with
      | none => rfl
      | some i => rfl
    | dir children =>
      rw [build, overlay, bind_some, NamedTree.look_cons, NamedTree.child_dir, lookup_append,
        lookup_readableEntries, isText_cons]
      cases hb : fromUtf8 b with
      | none =>
        have hnone : (buildChildren host p here children).lookup b = none := by
          refine lookup_eq_none_iff_forall.mpr fun a ha heq => ?_
          obtain ⟨c, -, hac⟩ := fst_of_mem_buildChildren ha
          exact ne_asBytes_of_fromUtf8_none hb c.1 (hac.symm.trans heq)
        rw [hnone]
        rfl
      | some name =>
        obtain rfl := asBytes_of_fromUtf8 hb
        rw [lookup_buildChildren hn.here, bind_some, isSome_some, Bool.true_and]
        dsimp only
        cases hc : children.lookup name with
        | some node =>
          have hmem : name ∈ children.map Prod.fst := List.mem_map_of_mem (mem_of_lookup hc)
          rw [if_pos hmem, none_or, bind_some, realChild_eq hf.ne_leaf]
          exact ih (hf.child hc) (hn.lookup hc) _
        | none =>
          have hmem : name ∉ children.map Prod.fst := by
            intro h
            obtain ⟨e, he, heq⟩ := List.mem_map.mp h
            exact lookup_eq_none_iff_forall.mp hc e he heq
          rw [if_neg hmem, bind_none, or_none, overlay_none, opened_eq hf.ne_leaf]
          cases here with
          | none => exact (ite_self _).symm
          | some t =>
            cases t with
            | leaf i => exact absurd rfl (hf.ne_leaf i)
            | dir entries =>
              rw [map_some, getD_some, bind_some, NamedTree.child_dir]
              dsimp only
              cases entries.lookup (asBytes name) with
              | none => exact (ite_self _).symm
              | some u => exact look_readable u q

end Build

/-- The path leads through a directory that is built anew, and from there through a name that is
not valid UTF-8. -/
def hidden (host : Host) : Path → Bool → Option FsNode → Option FileTree → Path → Bool
  | p, isRootDir, some (.dir children), here, b :: q =>
    let r := retain host p here isRootDir children
    if r.2 then !isText (b :: q)
    else hidden host (p ++ [b]) false ((fromUtf8 b).bind fun name => r.1.lookup name)
      (here.bind (NamedTree.child b)) q
  | _, _, _, _, _ => false

/-- What is left of a node when `commit` has dropped what it cannot add. -/
def retained (host : Host) (p : Path) (here : Option FileTree) (isRootDir : Bool) :
    FsNode → FsNode
  | .dir children => .dir (retain host p here isRootDir children).1
  | .leaf a => .leaf a

theorem hidden_none (host : Host) (p : Path) (isRootDir : Bool) (here : Option FileTree)
    (q : Path) : hidden host p isRootDir none here q = false := by
  cases q with
  | nil => rfl
  | cons b q => rfl

theorem retained_child (host : Host) (p : Path) (here : Option FileTree) (node : FsNode) :
    retained host p here false node = node := by
  cases node with
  | leaf a => rfl
  | dir children => rw [retained, retain_child]

/-- The tree shows the overlay on all paths that are not hidden. -/
def Shows (host : Host) (p : Path) (isRootDir : Bool) (node : FsNode) (here new : FileTree) : Prop :=
  ∀ q, new.look q = if hidden host p isRootDir (some node) (some here) q then none
    else overlay host p (some (retained host p (some here) isRootDir node)) (some here) q

/-- A clean run of `commit` at `p` changes what is visible there to what it is to show, and the
worker directory only on paths through `p`. -/
def CommitSpec (host : Host) (node : FsNode) : Prop :=
  ∀ (p : Path) (isRootDir : Bool) (here : FileTree) (s s' : Mounts),
    isMountable node → Fits node (some here) → here.Distinct →
    s.real.find p = some here → s.worker.find p = none →
    Runs (commit host p isRootDir node) s s' →
    (∃ new, s'.real = s.real.put p new ∧ Shows host p isRootDir node here new) ∧
    ∀ q, NamedTree.Diverge p q → s'.worker.find q = s.worker.find q

section Commit

variable {host : Host}

theorem commitSpec_file (src : Path) : CommitSpec host (.leaf (.file src)) := by
  intro p isRootDir here s s' _ hf _ hreal _ hr
  obtain ⟨t, ht, rfl⟩ := map_eq_some_iff.mp (runs_bindMount hr)
  refine ⟨?_, fun _ _ => rfl⟩
  cases here with
  | dir entries => exact (hf.overFile [] src rfl entries rfl).elim
  | leaf i =>
    obtain ⟨j, hj, rfl⟩ := bindMountTo_file hreal ht
    refine ⟨.leaf j, rfl, fun q => ?_⟩
    have hbuild : buildLeaf host p (.file src) = some j := by
      rw [buildLeaf, hj]
      rfl
    cases q with
    | nil =>
      rw [retained, overlay, hbuild]
      rfl
    | cons b q =>
      exact (ite_self _).symm

/-- How the children of a directory have changed after the loop over them. -/
structure Merged (host : Host) (p : Path) (kept : List Str) (children : List (Str × FsNode))
    (t t' : FileTree) : Prop where
  entry : t'.entry = t.entry
  changed : ∀ e ∈ children, e.1 ∈ kept → ∃ old new, t.child (asBytes e.1) = some old ∧
    t'.child (asBytes e.1) = some new ∧ Shows host (p ++ [asBytes e.1]) false e.2 old new
  other : ∀ b, (∀ e ∈ children, e.1 ∈ kept → asBytes e.1 ≠ b) → t'.child b = t.child b

/-- A child that is kept can be committed. -/
def Ready (t : FileTree) (e : Str × FsNode) : Prop :=
  ∃ old, t.child (asBytes e.1) = some old ∧ isMountable e.2 ∧ Fits e.2 (some old) ∧ old.Distinct

variable {p : Path} {children : List (Str × FsNode)} {s s' : Mounts} {here : FileTree}

theorem commitAll_runs {kept : List Str}
    (hd : (children.map Prod.fst).Nodup) (hspec : ∀ e ∈ children, CommitSpec host e.2)
    {t : FileTree} (hreal : s.real.find p = some t)
    (hready : ∀ e ∈ children, e.1 ∈ kept → Ready t e)
    (hworker : ∀ e ∈ children, s.worker.find (p ++ [asBytes e.1]) = none)
    (hr : Runs (commitAll host p kept children) s s') :
    (∃ t', s'.real = s.real.put p t' ∧ Merged host p kept children t t') ∧
      ∀ q, NamedTree.Diverge p q → s'.worker.find q = s.worker.find q := by
  induction children generalizing s t with
  | nil =>
    rw [commitAll] at hr
    rw [runs_skip.mp hr]
    refine ⟨⟨t, (NamedTree.put_of_find hreal).symm, rfl, nofun, fun _ _ => rfl⟩, fun _ _ => rfl⟩
  | cons e children ih =>
    obtain ⟨name, node⟩ := e
    rw [map_cons, nodup_cons] at hd
    have hspec' : ∀ e ∈ children, CommitSpec host e.2 :=
      fun e he => hspec e (mem_cons_of_mem _ he)
    have hne : ∀ e ∈ children, e.1 ≠ name :=
      fun e he heq => hd.1 (List.mem_map.mpr ⟨e, he, heq⟩)
    rw [commitAll] at hr
    obtain ⟨s₁, hfirst, hrest⟩ := runs_andThen.mp hr
    by_cases hk : name ∈ kept
    · rw [if_pos hk] at hfirst
      obtain ⟨old, hold, hm, hf, hdist⟩ := hready _ mem_cons_self hk
      have hchild : s.real.find (p ++ [asBytes name]) = some old := by
        rw [NamedTree.find_concat, hreal]
        exact hold
      obtain ⟨⟨new, hnew, hshows⟩, hframe⟩ := hspec _ mem_cons_self _ false old s s₁ hm hf hdist
        hchild (hworker _ mem_cons_self) hfirst
      -- the directory with the new child
      have hreal₁ : s₁.real = s.real.put p (t.put [asBytes name] new) := by
        rw [hnew, NamedTree.put_append, hreal, getD_some]
      have hopen := NamedTree.isOpen_of_find hreal
      have hsame {b : Bytes} (hb : b ≠ asBytes name) :
          (t.put [asBytes name] new).child b = t.child b := NamedTree.child_put_ne hb t new
      have hready₁ : ∀ e ∈ children, e.1 ∈ kept → Ready (t.put [asBytes name] new) e := by
        intro e he hek
        rw [Ready, hsame (asBytes_injective.ne (hne e he))]
        exact hready e (mem_cons_of_mem _ he) hek
      have hworker₁ : ∀ e ∈ children, s₁.worker.find (p ++ [asBytes e.1]) = none := by
        intro e he
        rw [hframe _ (NamedTree.diverge_siblings p (asBytes_injective.ne (hne e he)).symm)]
        exact hworker e (mem_cons_of_mem _ he)
      have hfind₁ : s₁.real.find p = some (t.put [asBytes name] new) := by
        rw [hreal₁, NamedTree.find_put_self hopen]
      obtain ⟨⟨t', ht', hmerged⟩, hframe'⟩ := ih hd.2 hspec' hfind₁ hready₁ hworker₁ hrest
      refine ⟨⟨t', ?_, ?_, forall_mem_cons.mpr ⟨fun _ => ?_, ?_⟩, ?_⟩, ?_⟩
      · rw [ht', hreal₁, NamedTree.put_put]
      · rw [hmerged.entry, NamedTree.entry_put]
      · refine ⟨old, new, hold, ?_, hshows⟩
        rw [hmerged.other _ fun e he _ => asBytes_injective.ne (hne e he)]
        exact NamedTree.child_put_self hold new
      · intro e he hek
        obtain ⟨old', new', hold', h⟩ := hmerged.changed e he hek
        rw [hsame (asBytes_injective.ne (hne e he))] at hold'
        exact ⟨old', new', hold', h⟩
      · intro b hb
        rw [hmerged.other b fun e he => hb e (mem_cons_of_mem _ he)]
        exact hsame (hb _ mem_cons_self hk).symm
      · intro q hq
        rw [hframe' q hq, hframe q (hq.concat _)]
    · rw [if_neg hk] at hfirst
      rw [runs_skip.mp hfirst] at hrest
      obtain ⟨⟨t', ht', hmerged⟩, hframe⟩ := ih hd.2 hspec' hreal
        (fun e he => hready e (mem_cons_of_mem _ he))
        (fun e he => hworker e (mem_cons_of_mem _ he)) hrest
      refine ⟨⟨t', ht', hmerged.entry, ?_, ?_⟩, hframe⟩
      · exact forall_mem_cons.mpr ⟨fun h => absurd h hk, hmerged.changed⟩
      · exact fun b hb => hmerged.other b fun e he => hb e (mem_cons_of_mem _ he)

theorem getAttrs_runs (hr : Runs (getAttrs host p children) s s') : s' = s := by
  induction children generalizing s with
  | nil =>
    exact runs_skip.mp hr
  | cons e children ih =>
    obtain ⟨t, hfirst, hrest⟩ := runs_andThen.mp hr
    have ht : t = s := by
      split_ifs at hfirst
      · exact (runs_check.mp (runs_logOk.mp hfirst)).2
      · exact runs_skip.mp hfirst
    rw [ih hrest, ht]

theorem commit_rebuilt (hf : Fits (.dir children) (some here))
    (hn : (NamedTree.dir children).Distinct)
    (hd : here.Distinct) (hreal : s.real.find p = some here) (hworker : s.worker.find p = none)
    (hr : Runs (andThen (commitTmpfs host p (some here) (.dir children))
      (reading fun s => bindMount host (s.worker.find p) .real p)) s s') :
    s'.real = s.real.put p (.dir (buildDir host p (some here) children)) ∧
      s'.worker = s.worker.put p (.dir (buildDir host p (some here) children)) := by
  have hd' : ∀ t ∈ some here, t.Distinct := fun t ht => some.inj ht ▸ hd
  obtain ⟨t, hbuild, hmount⟩ := runs_andThen.mp hr
  obtain ⟨ho, rfl⟩ := commitTmpfs_runs hf hn hd' hworker hbuild
  obtain ⟨real, hbind, rfl⟩ := map_eq_some_iff.mp (runs_bindMount (runs_reading.mp hmount))
  cases here with
  | leaf i => exact (hf.ne_leaf i rfl).elim
  | dir entries =>
    rw [Mounts.withDir, NamedTree.find_put_self ho] at hbind
    unfold bindMountTo at hbind
    rw [hreal] at hbind
    exact ⟨(some.inj hbind).symm, rfl⟩

theorem shows_rebuilt
    (hf : Fits (.dir children) (some here)) (hn : (NamedTree.dir children).Distinct)
    (hr : (retain host p (some here) false children).2) :
    Shows host p false (.dir children) here (.dir (buildDir host p (some here) children)) := by
  intro q
  have hlook : (NamedTree.dir (buildDir host p (some here) children)).look q =
      if isText q then overlay host p (some (.dir children)) (some here) q else none := by
    rw [← look_build hf hn, build]
    rfl
  rw [retained, retain_child, hlook]
  cases q with
  | nil => rfl
  | cons b q =>
    rw [hidden, if_pos hr]
    cases isText (b :: q) with
    | false => rfl
    | true => rfl

theorem shows_merged {isRootDir : Bool}
    {here new : FileTree} (hf : Fits (.dir children) (some here))
    (hr : (retain host p (some here) isRootDir children).2 = false)
    (hm : Merged host p ((retain host p (some here) isRootDir children).1.map Prod.fst) children
      here new) :
    Shows host p isRootDir (.dir children) here new := by
  intro q
  cases q with
  | nil =>
    have hentry : here.entry = .dir := by
      cases here with
      | leaf i => exact (hf.ne_leaf i rfl).elim
      | dir entries => rfl
    rw [retained, overlay, hidden, NamedTree.look, NamedTree.find, map_some, hm.entry, hentry]
    · rfl
    · intro _ _ _ _ hnil
      cases hnil
  | cons b q =>
    rw [retained, overlay, hidden, hr, if_neg Bool.false_ne_true, NamedTree.look_cons,
      bind_some]
    cases hc : (fromUtf8 b).bind fun name =>
        (retain host p (some here) isRootDir children).1.lookup name with
    | none =>
      have hother : new.child b = here.child b := by
        refine hm.other b fun e _ hek heq => ?_
        rw [← heq, fromUtf8_asBytes, bind_some] at hc
        obtain ⟨a, ha, hae⟩ := List.mem_map.mp hek
        exact lookup_eq_none_iff_forall.mp hc a ha hae
      rw [hother, overlay_none, hidden_none]
      rfl
    | some node =>
      obtain ⟨name, hname, hlookup⟩ := bind_eq_some_iff.mp hc
      obtain rfl := asBytes_of_fromUtf8 hname
      have hmem := mem_of_lookup hlookup
      obtain ⟨old, new', hold, hnew, hshows⟩ := hm.changed (name, node)
        ((retain_sublist isRootDir children).subset hmem) (List.mem_map_of_mem hmem)
      rw [hnew, hold, bind_some, hshows q, retained_child]

theorem ready_of_kept {isRootDir : Bool} (hf : Fits (.dir children) (some here))
    (hn : (NamedTree.dir children).Distinct) (hd : here.Distinct)
    (hr : (retain host p (some here) isRootDir children).2 = false) :
    ∀ e ∈ children, e.1 ∈ (retain host p (some here) isRootDir children).1.map Prod.fst →
      Ready here e := by
  intro e he hek
  obtain ⟨hm, old, hold⟩ :=
    mountable_of_parent (not_parentShouldBeTmpfs hr e (mem_retain_of_name hn.here he hek))
  rw [realChild_eq hf.ne_leaf, bind_some] at hold
  have hfit := hf.child (lookup_of_mem hn.here he)
  rw [bind_some, hold] at hfit
  refine ⟨old, hold, hm, hfit, ?_⟩
  cases here with
  | leaf i => cases hold
  | dir entries => exact hd.lookup hold

theorem commitSpec {node : FsNode} (hn : node.Distinct) : CommitSpec host node := by
  induction node using NamedTree.induct with
  | leaf a =>
    cases a with
    | file src => exact commitSpec_file src
    | symlink target => exact nofun
    | magiskLink => exact nofun
    | whiteout => exact nofun
  | dir children ih =>
    intro p isRootDir here s s' _ hf hd hreal hworker hr
    obtain ⟨t, hattrs, hr⟩ := runs_andThen.mp (runs_reading.mp hr)
    rw [getAttrs_runs hattrs, hreal] at hr
    cases htmpfs : (retain host p (some here) isRootDir children).2 with
    | true =>
      have hroot : isRootDir = false := by
        cases isRootDir with
        | false => rfl
        | true =>
          rw [retain_root] at htmpfs
          cases htmpfs
      subst hroot
      rw [htmpfs, if_pos rfl, retain_child] at hr
      obtain ⟨hreal', hworker'⟩ := commit_rebuilt hf hn hd hreal hworker hr
      refine ⟨⟨_, hreal', shows_rebuilt hf hn htmpfs⟩, fun q hq => ?_⟩
      rw [hworker', NamedTree.find_put_of_diverge hq]
    | false =>
      rw [htmpfs, if_neg Bool.false_ne_true] at hr
      have hfree : ∀ e ∈ children, s.worker.find (p ++ [asBytes e.1]) = none := by
        intro e _
        rw [NamedTree.find_concat, hworker]
        rfl
      obtain ⟨⟨new, hnew, hm⟩, hframe⟩ := commitAll_runs hn.here
        (fun e he => ih e he (hn.children e he)) hreal (ready_of_kept hf hn hd htmpfs) hfree hr
      exact ⟨⟨new, hnew, shows_merged hf htmpfs hm⟩, hframe⟩

end Commit

/-- A clean run of `commit` on a partition, with nothing yet in its worker directory. -/
structure Committed (host : Host) (p : Path) (children : List (Str × FsNode))
    (entries : List (Bytes × FileTree)) (s s' : Mounts) : Prop where
  nodes : (NamedTree.dir children).Distinct
  files : (NamedTree.dir entries).Distinct
  fits : Fits (.dir children) (some (.dir entries))
  real : s.real.find p = some (.dir entries)
  worker : s.worker.find p = none
  run : Runs (commit host p true (.dir children)) s s'

section Committed

variable {host : Host} {p : Path} {children : List (Str × FsNode)}
  {entries : List (Bytes × FileTree)} {s s' : Mounts}

/-- What the partition is to look like. The children of its root that need a tmpfs are dropped
(`mem_retain_root`). -/
def overlayRoot (host : Host) (p : Path) (children : List (Str × FsNode))
    (entries : List (Bytes × FileTree)) (q : Path) : Option (Entry Inode) :=
  overlay host p (some (retained host p (some (.dir entries)) true (.dir children)))
    (some (.dir entries)) q

def hiddenRoot (host : Host) (p : Path) (children : List (Str × FsNode))
    (entries : List (Bytes × FileTree)) (q : Path) : Bool :=
  hidden host p true (some (.dir children)) (some (.dir entries)) q

theorem Committed.look (h : Committed host p children entries s s') (q : Path) :
    s'.real.look (p ++ q) = if hiddenRoot host p children entries q then none
      else overlayRoot host p children entries q := by
  obtain ⟨⟨new, hnew, hshows⟩, -⟩ :=
    commitSpec h.nodes p true (.dir entries) s s' rfl h.fits h.files h.real h.worker h.run
  rw [NamedTree.look, hnew, NamedTree.find_append,
    NamedTree.find_put_self (NamedTree.isOpen_of_find h.real)]
  exact hshows q

/-- After `commit` the partition is the overlay of the tree on it, unless the overlay has an entry
whose path leads through a directory that is built anew and from there through a name that is
not valid UTF-8. -/
theorem commit_overlay_iff (host : Host) (p : Path) (children : List (Str × FsNode))
    (entries : List (Bytes × FileTree)) (s s' : Mounts)
    (h : Committed host p children entries s s') :
    (∀ q, s'.real.look (p ++ q) = overlayRoot host p children entries q) ↔
      ∀ q, hiddenRoot host p children entries q →
        overlayRoot host p children entries q = none := by
  constructor
  · intro hall q hq
    rw [← hall q, h.look, if_pos hq]
  · intro hnone q
    rw [h.look]
    split_ifs with hq
    · exact (hnone q hq).symm
    · rfl

theorem isText_of_hidden {isRootDir : Bool} {node : Option FsNode} {here : Option FileTree}
    {q : Path} (h : hidden host p isRootDir node here q) : isText q = false := by
  induction q generalizing p isRootDir node here with
  | nil =>
    rw [hidden] at h
    · cases h
    · nofun
  | cons b q ih =>
    cases node with
    | none => cases h
    | some node =>
      cases node with
      | leaf a => cases h
      | dir children =>
        rw [hidden] at h
        split_ifs at h
        · exact Bool.not_eq_true' _ ▸ h
        · rw [isText_cons, ih h, Bool.and_false]

abbrev Utf8Names : FileTree → Prop :=
  NamedTree.Everywhere fun entries => ∀ e ∈ entries, (fromUtf8 e.1).isSome

theorem isText_of_overlay {node : Option FsNode} {here : Option FileTree} {q : Path}
    (hu : ∀ t ∈ here, Utf8Names t) (h : overlay host p node here q ≠ none) : isText q := by
  induction q generalizing p node here with
  | nil => rfl
  | cons b q ih =>
    have hu' : ∀ t ∈ here.bind (NamedTree.child b), (fromUtf8 b).isSome ∧ Utf8Names t := by
      intro t ht
      obtain ⟨u, hu₁, hc⟩ := bind_eq_some_iff.mp ht
      cases u with
      | leaf i => cases hc
      | dir entries => exact ⟨(hu _ hu₁).here _ (mem_of_lookup hc), (hu _ hu₁).lookup hc⟩
    have hnone (h : overlay host (p ++ [b]) none (here.bind (NamedTree.child b)) q ≠ none) :
        (fromUtf8 b).isSome := by
      rw [overlay_none] at h
      cases hc : here.bind (NamedTree.child b) with
      | none =>
        rw [hc] at h
        exact absurd rfl h
      | some t => exact (hu' t hc).1
    rw [isText_cons, Bool.and_eq_true]
    cases node with
    | none => exact ⟨hnone h, ih (fun t ht => (hu' t ht).2) h⟩
    | some node =>
      cases node with
      | leaf a => exact absurd rfl h
      | dir children =>
        refine ⟨?_, ih (fun t ht => (hu' t ht).2) h⟩
        rw [overlay] at h
        cases hb : fromUtf8 b with
        | some name => rfl
        | none =>
          rw [hb] at h
          exact hb ▸ hnone h

theorem commit_overlay_of_utf8 (h : Committed host p children entries s s')
    (hu : Utf8Names (.dir entries)) (q : Path) :
    s'.real.look (p ++ q) = overlayRoot host p children entries q := by
  rw [h.look]
  split_ifs with hq
  · by_contra hne
    have htext := isText_of_overlay (fun t ht => some.inj ht ▸ hu) (Ne.symm hne)
    rw [isText_of_hidden hq] at htext
    cases htext
  · rfl

end Committed

def etcHost : Host := ⟨fun _ => true, fun _ => some (.leaf (.other [1])), fun _ => none⟩

def etcNodes : List (Str × FsNode) :=
  [("etc".toList, .dir [("hosts".toList, .leaf (.file [lit "hosts"]))])]

def etcFiles (name : Bytes) : List (Bytes × FileTree) :=
  [(lit "etc", .dir [(name, .leaf (.other [2]))])]

def etcMounts (name : Bytes) : Mounts :=
  ⟨.dir [(lit "system", .dir (etcFiles name))], .dir [], []⟩

def etcAfter (name : Bytes) : Mounts :=
  (commit etcHost [lit "system"] true (.dir etcNodes) (etcMounts name)).1

theorem fits_etc (name : Bytes) : Fits (.dir etcNodes) (some (.dir (etcFiles name))) := by
  refine fits_dir nofun fun n node hn => ?_
  have hmem := mem_singleton.mp (mem_of_lookup hn)
  cases hmem
  refine ⟨by decide, fits_dir nofun fun n node hn => ?_⟩
  have hmem := mem_singleton.mp (mem_of_lookup hn)
  cases hmem
  refine ⟨by decide, fits_leaf fun src entries _ heq => ?_⟩
  have hfile : List.lookup (lit "hosts") [(name, NamedTree.leaf (Inode.other [2]))] =
      some (.dir entries) := heq
  cases mem_singleton.mp (mem_of_lookup hfile)

theorem committed_etc {name : Bytes}
    (h : (commit etcHost [lit "system"] true (.dir etcNodes) (etcMounts name)).2 = .clean) :
    Committed etcHost [lit "system"] etcNodes (etcFiles name) (etcMounts name) (etcAfter name) where
  nodes := by decide
  files := .dir (nodup_singleton _) (forall_mem_singleton.mpr
    (.dir (nodup_singleton _) (forall_mem_singleton.mpr (.leaf _))))
  fits := fits_etc name
  real := rfl
  worker := rfl
  run := runs_of_clean h

theorem commit_overlay_fonts :
    (∀ q, (etcAfter (lit "fonts")).real.look ([lit "system"] ++ q) =
      overlayRoot etcHost [lit "system"] etcNodes (etcFiles (lit "fonts")) q) ↔
    ∀ q, hiddenRoot etcHost [lit "system"] etcNodes (etcFiles (lit "fonts")) q →
      overlayRoot etcHost [lit "system"] etcNodes (etcFiles (lit "fonts")) q = none :=
  commit_overlay_iff _ _ _ _ _ _ (committed_etc (by decide))

/-- The file is no longer there. -/
theorem commit_hides_name :
    Committed etcHost [lit "system"] etcNodes (etcFiles [0xff]) (etcMounts [0xff])
      (etcAfter [0xff]) ∧
    ¬ ∀ q, (etcAfter [0xff]).real.look ([lit "system"] ++ q) =
      overlayRoot etcHost [lit "system"] etcNodes (etcFiles [0xff]) q := by
  refine ⟨committed_etc (by decide), fun h => ?_⟩
  have hlost := h [lit "etc", [0xff]]
  revert hlost
  decide

end Magisk.Module
