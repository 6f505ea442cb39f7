import Magisk.NamedTree

namespace Magisk.Module

open List Option

/-- The names from the root down. -/
abbrev Path := List Bytes

/-- What a directory entry is, if not a directory. -/
inductive Inode where
  | symlink (target : Bytes)
  | charDevice (rdev : ℕ)
  | other (content : Bytes)
  deriving DecidableEq, Repr

/-- Files on disk. Their names are bytes, listed in the order that `readdir` returns. -/
abbrev FileTree := NamedTree Bytes Inode

/-- The variants of `FsNode` other than `Directory`. -/
inductive FsLeaf where
  | file (src : Path)
  | symlink (target : Str)
  | magiskLink
  | whiteout
  deriving DecidableEq, Repr

/-- The children are a `BTreeMap`, listed in the order of their names. -/
abbrev FsNode := NamedTree Str FsLeaf

def newDir : FsNode := .dir []

structure ModulePaths where
  real : Path
  module : Path
  moduleMnt : Path

def ModulePaths.new (magiskTmp : Path) : ModulePaths :=
  ⟨[], [lit "data", lit "adb", lit "modules"], magiskTmp ++ [lit ".magisk", lit "modules"]⟩

def ModulePaths.setModule (paths : ModulePaths) (module : Str) : ModulePaths :=
  ⟨paths.real, paths.module ++ [asBytes module], paths.moduleMnt ++ [asBytes module]⟩

def ModulePaths.append (paths : ModulePaths) (name : Str) : ModulePaths :=
  ⟨paths.real ++ [asBytes name], paths.module ++ [asBytes name], paths.moduleMnt ++ [asBytes name]⟩

/-- The operations of `collect` that may fail. -/
inductive CollectOp where
  | openDir (path : Path)
  | read (path : Path) (next : Option Bytes)
  | readLink (path : Path)
  | getAttr (path : Path)
  | cloneAttr (path : Path)
  deriving DecidableEq, Repr

/-- `read_link`, which leaves an empty text when the target is not valid UTF-8. -/
def readLink (target : Bytes) : Str := (fromUtf8 target).getD []

section Collect

variable (succeeds : CollectOp → Bool) (real : FileTree)

/-- The node for an entry that is no directory, or none when an operation fails. -/
def newLeaf (paths : ModulePaths) : Inode → Option FsLeaf
  | .symlink target =>
    if succeeds (.readLink paths.module) then some (.symlink (readLink target)) else none
  | .charDevice rdev =>
    if succeeds (.getAttr paths.module) then
      if rdev = 0 then some .whiteout else newFile
    else none
  | .other _ => newFile
where
  newFile : Option FsLeaf :=
    -- the attributes of the real file are copied to the file of the module
    if (real.find paths.real).isSome ∧ succeeds (.cloneAttr paths.module) = false then none
    else some (.file paths.moduleMnt)

mutual

/-- The node with the files of a directory, and whether all of them could be read. -/
def collect (paths : ModulePaths) : FsNode → FileTree → FsNode × Bool
  | .leaf a, _ => (.leaf a, true)
  | .dir children, .leaf _ => (.dir children, false)
  | .dir children, .dir entries =>
    if succeeds (.openDir paths.module) then
      let r := collectEntries paths children entries
      (.dir r.1, r.2)
    else (.dir children, false)

def collectEntries (paths : ModulePaths) :
    List (Str × FsNode) → List (Bytes × FileTree) → List (Str × FsNode) × Bool
  | children, [] => (children, succeeds (.read paths.module none))
  | children, (b, t) :: entries =>
    match fromUtf8 b with
    -- `Directory::read` goes on to the next entry
    | none => collectEntries paths children entries
    | some name =>
      if succeeds (.read paths.module (some b)) then
        match t with
        | .dir _ =>
          let r := collect (paths.append name) ((children.lookup name).getD newDir) t
          let children := insertName name r.1 children
          if r.2 then collectEntries paths children entries else (children, false)
        | .leaf i =>
          match newLeaf succeeds real (paths.append name) i with
          | some a =>
            let children := insertName name ((children.lookup name).getD (.leaf a)) children
            collectEntries paths children entries
          | none => (children, false)
      else (children, false)

end

end Collect

/-- What a module has. `system` is what opening the path of that name gives, links followed. -/
structure ModuleFiles where
  name : Str
  skipMount : Bool
  system : Option FileTree
  distinct : ∀ t ∈ system, t.Distinct

def systemDir : Str := "system".toList

section Collect

variable (succeeds : CollectOp → Bool) (real : FileTree) (paths : ModulePaths)

/-- The tree with the files of one more module. An error is logged. -/
def collectSystem (system : FsNode) (info : ModuleFiles) : FsNode :=
  if info.skipMount then system
  else match info.system with
    | some t =>
      (collect succeeds real ((paths.setModule info.name).append systemDir) system t).1
    | none => system

/-- The first step of `apply_modules`. -/
def collectSystems (moduleList : List ModuleFiles) : FsNode :=
  moduleList.foldl (collectSystem succeeds real paths) newDir

end Collect

section Sorted

variable {succeeds : CollectOp → Bool} {real : FileTree}

theorem sorted_newDir : newDir.Sorted := .dir .nil nofun

theorem sorted_child {children : List (Str × FsNode)} (h : (NamedTree.dir children).Sorted)
    (name : Str) {node : FsNode} (hn : node.Sorted) : ((children.lookup name).getD node).Sorted := by
  cases hc : children.lookup name with
  | none => exact hn
  | some c => exact h.lookup hc

theorem sorted_collectEntries {entries : List (Bytes × FileTree)}
    (hs : ∀ e ∈ entries, ∀ paths node, node.Sorted → (collect succeeds real paths node e.2).1.Sorted)
    (paths : ModulePaths) {children : List (Str × FsNode)} (h : (NamedTree.dir children).Sorted) :
    (NamedTree.dir (collectEntries succeeds real paths children entries).1).Sorted := by
  induction entries generalizing children with
  | nil =>
    exact h
  | cons e entries ih =>
    obtain ⟨b, t⟩ := e
    have ih := @ih fun e he => hs e (mem_cons_of_mem _ he)
    rw [collectEntries]
    cases fromUtf8 b with
    | none => exact ih h
    | some name =>
      dsimp only
      by_cases hread : succeeds (.read paths.module (some b))
      · rw [if_pos hread]
        cases t with
        | dir es =>
          have hnew := h.insertName name
            (hs _ mem_cons_self (paths.append name) _ (sorted_child h name sorted_newDir))
          split_ifs
          · exact ih hnew
          · exact hnew
        | leaf i =>
          dsimp only
          cases newLeaf succeeds real (paths.append name) i with
          | none => exact h
          | some a => exact ih (h.insertName name (sorted_child h name (.leaf a)))
      · rw [if_neg hread]
        exact h

theorem sorted_collect (paths : ModulePaths) {node : FsNode} (h : node.Sorted) (t : FileTree) :
    (collect succeeds real paths node t).1.Sorted := by
  induction t using NamedTree.induct generalizing paths node with
  | leaf i =>
    cases node with
    | leaf a =>
      exact h
    | dir children =>
      exact h
  | dir entries ih =>
    cases node with
    | leaf a =>
      exact h
    | dir children =>
      rw [collect]
      split_ifs
      · exact sorted_collectEntries (fun e he paths node hn => ih e he paths hn) paths h
      · exact h

theorem entry_collect (paths : ModulePaths) (node : FsNode) (t : FileTree) :
    (collect succeeds real paths node t).1.entry = node.entry := by
  cases node with
  | leaf a => rw [collect]
  | dir children =>
    cases t with
    | leaf i => rw [collect]
    | dir entries =>
      rw [collect]
      split_ifs
      · rfl
      · rfl

theorem collectSystems_spec (paths : ModulePaths) (moduleList : List ModuleFiles) :
    (collectSystems succeeds real paths moduleList).Sorted ∧
      (collectSystems succeeds real paths moduleList).entry = .dir := by
  refine List.foldlRecOn (motive := fun (t : FsNode) => t.Sorted ∧ t.entry = .dir) moduleList _
    ⟨sorted_newDir, rfl⟩ fun system h info _ => ?_
  rw [collectSystem]
  split_ifs
  · exact h
  · cases info.system with
    | none => exact h
    | some t => exact ⟨sorted_collect _ h.1 t, (entry_collect _ system t).trans h.2⟩

end Sorted

def leafOf (paths : ModulePaths) : Inode → FsLeaf
  | .symlink target => .symlink (readLink target)
  | .charDevice rdev => if rdev = 0 then .whiteout else .file paths.moduleMnt
  | .other _ => .file paths.moduleMnt

mutual

/-- The files as nodes. Those whose names are not valid UTF-8 are never returned. -/
def treeOf (paths : ModulePaths) : FileTree → FsNode
  | .leaf i => .leaf (leafOf paths i)
  | .dir entries => .dir (treesOf paths entries)

def treesOf (paths : ModulePaths) : List (Bytes × FileTree) → List (Str × FsNode)
  | [] => []
  | (b, t) :: entries =>
    match fromUtf8 b with
    | none => treesOf paths entries
    | some name => insertName name (treeOf (paths.append name) t) (treesOf paths entries)

end

def moduleTree (paths : ModulePaths) (info : ModuleFiles) : Option FsNode :=
  if info.skipMount then none
  else info.system.map (treeOf ((paths.setModule info.name).append systemDir))

theorem sorted_treesOf (paths : ModulePaths) (entries : List (Bytes × FileTree)) :
    SortedNames (treesOf paths entries) := by
  induction entries with
  | nil =>
    exact List.Pairwise.nil
  | cons e entries ih =>
    obtain ⟨b, t⟩ := e
    rw [treesOf]
    cases fromUtf8 b with
    | none => exact ih
    | some name => exact ih.insertName name _

theorem ne_asBytes_of_fromUtf8_none {b : Bytes} (h : fromUtf8 b = none) (name : Str) :
    asBytes name ≠ b := by
  intro hb
  rw [← hb, fromUtf8_asBytes] at h
  cases h

theorem lookup_treesOf (paths : ModulePaths) (entries : List (Bytes × FileTree)) (name : Str) :
    (treesOf paths entries).lookup name =
      (entries.lookup (asBytes name)).map (treeOf (paths.append name)) := by
  induction entries with
  | nil => rw [treesOf, lookup_nil, lookup_nil, map_none]
  | cons e entries ih =>
    obtain ⟨b, t⟩ := e
    rw [treesOf]
    cases hb : fromUtf8 b with
    | none => rw [lookup_cons_ne (ne_asBytes_of_fromUtf8_none hb name), ← ih]
    | some m =>
      obtain rfl := asBytes_of_fromUtf8 hb
      by_cases hm : name = m
      · rw [hm, lookup_insertName_self, lookup_cons_self, map_some]
      · rw [lookup_insertName_ne hm, lookup_cons_ne (asBytes_injective.ne hm), ← ih]

theorem sorted_treeOf (paths : ModulePaths) (t : FileTree) : (treeOf paths t).Sorted := by
  induction t using NamedTree.induct generalizing paths with
  | leaf i =>
    exact .leaf _
  | dir entries ih =>
    have hs := sorted_treesOf paths entries
    refine .dir hs fun e he => ?_
    have hl := lookup_of_mem hs.nodup he
    rw [lookup_treesOf] at hl
    obtain ⟨t, ht, hte⟩ := map_eq_some_iff.mp hl
    rw [← hte]
    exact ih _ (mem_of_lookup ht) _

theorem treeOf_reordered {t u : FileTree} (h : t.Reordered u) (ht : t.Distinct)
    (paths : ModulePaths) : treeOf paths t = treeOf paths u := by
  have hdir {cs ds : List (Bytes × FileTree)} {paths : ModulePaths}
      (hl : ∀ name, (cs.lookup (asBytes name)).map (treeOf (paths.append name)) =
        (ds.lookup (asBytes name)).map (treeOf (paths.append name))) :
      treeOf paths (.dir cs) = treeOf paths (.dir ds) := by
    rw [treeOf, treeOf]
    refine congrArg _ ((sorted_treesOf paths cs).ext (sorted_treesOf paths ds) fun name => ?_)
    rw [lookup_treesOf, lookup_treesOf, hl]
  induction h generalizing paths with
  | refl t => rfl
  | perm h =>
    refine hdir fun name => ?_
    rw [lookup_perm ht.here h]
  | child l r n h ih =>
    have hc := ih (ht.children _ (mem_append_right _ mem_cons_self))
    refine hdir fun name => ?_
    rw [lookup_append, lookup_append]
    cases l.lookup (asBytes name) with
    | some c => rfl
    | none =>
      by_cases hn : asBytes name = n
      · rw [← hn, lookup_cons_self, lookup_cons_self, none_or, none_or,
          map_some, map_some, hc]
      · rw [lookup_cons_ne hn, lookup_cons_ne hn]
  | trans h h' ih ih' => rw [ih ht, ih' (h.distinct ht)]

section Union

variable (real : FileTree)

theorem newLeaf_eq (paths : ModulePaths) (i : Inode) :
    newLeaf (fun _ => true) real paths i = some (leafOf paths i) := by
  cases i with
  | symlink target => rfl
  | charDevice rdev =>
    by_cases h : rdev = 0 <;> simp [newLeaf, newLeaf.newFile, leafOf, h]
  | other content => simp [newLeaf, newLeaf.newFile, leafOf]

/-- What stands under a name when the files of one more module have come. -/
def merge (old : Option FsNode) (node : FsNode) : FsNode :=
  match old with
  | some c => c.union node
  | none => node

theorem sorted_merge {children : List (Str × FsNode)} (h : (NamedTree.dir children).Sorted)
    (name : Str) {node : FsNode} (hn : node.Sorted) : (merge (children.lookup name) node).Sorted := by
  cases hc : children.lookup name with
  | none => exact hn
  | some c => exact NamedTree.Sorted.union (h.lookup hc) hn

/-- With all operations succeeding, `t` is united with whatever node is there. -/
def Unites (t : FileTree) : Prop :=
  ∀ (paths : ModulePaths) (node : FsNode), node.Sorted →
    (collect (fun _ => true) real paths node t).1 = node.union (treeOf paths t) ∧
    ∀ entries, t = .dir entries → (collect (fun _ => true) real paths node t).2

variable {real}

theorem collectEntries_cons {children : List (Str × FsNode)} (hs : (NamedTree.dir children).Sorted)
    {t : FileTree} (ht : Unites real t) (paths : ModulePaths) (name : Str)
    (entries : List (Bytes × FileTree)) :
    collectEntries (fun _ => true) real paths children ((asBytes name, t) :: entries) =
      collectEntries (fun _ => true) real paths (insertName name
        (merge (children.lookup name) (treeOf (paths.append name) t)) children) entries := by
  rw [collectEntries, fromUtf8_asBytes]
  dsimp only
  rw [if_pos rfl]
  cases t with
  | leaf i =>
    dsimp only
    rw [newLeaf_eq, treeOf]
    cases children.lookup name with
    | none => rfl
    | some c => rw [merge, NamedTree.union_leaf]; rfl
  | dir es =>
    obtain ⟨hu, hok⟩ := ht (paths.append name) _ (sorted_child hs name sorted_newDir)
    dsimp only
    rw [if_pos (hok es rfl), hu]
    cases children.lookup name with
    | none => rw [getD_none, newDir, merge, treeOf, NamedTree.empty_union (sorted_treesOf _ es)]
    | some c => rw [getD_some, merge]

theorem collectEntries_spec (paths : ModulePaths) {entries : List (Bytes × FileTree)}
    (hd : (entries.map Prod.fst).Nodup) (hu : ∀ e ∈ entries, Unites real e.2)
    {children : List (Str × FsNode)} (hs : (NamedTree.dir children).Sorted) :
    ∃ children', collectEntries (fun _ => true) real paths children entries = (children', true) ∧
      SortedNames children' ∧
      ∀ name, children'.lookup name = match entries.lookup (asBytes name) with
        | some t => some (merge (children.lookup name) (treeOf (paths.append name) t))
        | none => children.lookup name := by
  induction entries generalizing children with
  | nil =>
    rw [collectEntries]
    exact ⟨children, rfl, hs.here, fun name => rfl⟩
  | cons e entries ih =>
    obtain ⟨b, t⟩ := e
    rw [map_cons, nodup_cons] at hd
    have ih := @ih hd.2 fun e he => hu e (mem_cons_of_mem _ he)
    cases hb : fromUtf8 b with
    | none =>
      obtain ⟨children', hc, hsorted, hl⟩ := ih hs
      refine ⟨children', ?_, hsorted, fun name => ?_⟩
      · rw [collectEntries, hb]
        exact hc
      · rw [lookup_cons_ne (ne_asBytes_of_fromUtf8_none hb name)]
        exact hl name
    | some m =>
      obtain rfl := asBytes_of_fromUtf8 hb
      have hnew := hs.insertName m (sorted_merge hs m (sorted_treeOf (paths.append m) t))
      obtain ⟨children', hc, hsorted, hl⟩ := ih hnew
      refine ⟨children', ?_, hsorted, fun name => ?_⟩
      · rw [collectEntries_cons hs (hu _ mem_cons_self)]
        exact hc
      · rw [hl]
        by_cases hm : name = m
        · -- the name does not come again
          have hlast : entries.lookup (asBytes m) = none :=
            lookup_eq_none_iff_forall.mpr fun e he heq =>
              hd.1 (List.mem_map.mpr ⟨e, he, heq⟩)
          rw [hm, hlast, lookup_cons_self]
          exact lookup_insertName_self _ _ _
        · rw [lookup_cons_ne (asBytes_injective.ne hm), lookup_insertName_ne hm]

theorem collect_eq_union {t : FileTree} (ht : t.Distinct) : Unites real t := by
  induction t using NamedTree.induct with
  | leaf i =>
    intro paths node hnode
    refine ⟨?_, nofun⟩
    rw [treeOf, NamedTree.union_leaf]
    cases node with
    | leaf a => rw [collect]
    | dir children => rw [collect]
  | dir entries ih =>
    intro paths node hnode
    cases node with
    | leaf a => exact ⟨by rw [collect, NamedTree.union], fun _ _ => by rw [collect]⟩
    | dir children =>
      obtain ⟨children', hc, hs, hl⟩ :=
        collectEntries_spec paths ht.here (fun e he => ih e he (ht.children e he)) hnode
      have hrun : collect (fun _ => true) real paths (.dir children) (.dir entries) =
          (.dir children', true) := by
        rw [collect, if_pos rfl, hc]
      rw [hrun]
      refine ⟨?_, fun _ _ => rfl⟩
      have hunion := hnode.union (sorted_treeOf paths (.dir entries))
      have hlook (name : Str) := NamedTree.lookup_union name children (treesOf paths entries)
      refine congrArg _ (hs.ext hunion.here fun name => ?_)
      refine (hl name).trans (Eq.trans ?_ (hlook name).symm)
      rw [lookup_treesOf]
      cases entries.lookup (asBytes name) with
      | none =>
        cases children.lookup name with
        | none => rfl
        | some c => rfl
      | some t =>
        cases children.lookup name with
        | none => rfl
        | some c => rfl

end Union

/-- The same module, with its directories listed in another order. -/
structure Relisted (info info' : ModuleFiles) : Prop where
  name : info.name = info'.name
  skipMount : info.skipMount = info'.skipMount
  system : Option.Rel NamedTree.Reordered info.system info'.system

theorem moduleTree_relisted (paths : ModulePaths) {info info' : ModuleFiles}
    (h : Relisted info info') : moduleTree paths info = moduleTree paths info' := by
  obtain ⟨name, skipMount, system, distinct⟩ := info
  obtain ⟨name', skipMount', system', distinct'⟩ := info'
  obtain ⟨rfl, rfl, hsystem⟩ := h
  unfold moduleTree
  cases hsystem with
  | none => rfl
  | some h => simp only [map_some, treeOf_reordered h (distinct _ rfl)]

theorem sorted_moduleTree {paths : ModulePaths} {info : ModuleFiles} {node : FsNode}
    (h : moduleTree paths info = some node) : node.Sorted := by
  rw [moduleTree] at h
  split_ifs at h
  obtain ⟨t, -, rfl⟩ := map_eq_some_iff.mp h
  exact sorted_treeOf _ t

theorem collectSystem_eq_union (real : FileTree) (paths : ModulePaths) {system : FsNode}
    (hs : system.Sorted) (info : ModuleFiles) :
    collectSystem (fun _ => true) real paths system info =
      match moduleTree paths info with
      | some node => system.union node
      | none => system := by
  unfold collectSystem moduleTree
  split_ifs
  · rfl
  · have hd := info.distinct
    cases ht : info.system with
    | none => rfl
    | some t => exact (collect_eq_union (hd t ht) _ system hs).1

theorem foldl_collectSystem (real : FileTree) (paths : ModulePaths) (moduleList : List ModuleFiles)
    {system : FsNode} (hs : system.Sorted) :
    moduleList.foldl (collectSystem (fun _ => true) real paths) system =
      (moduleList.filterMap (moduleTree paths)).foldl NamedTree.union system := by
  induction moduleList generalizing system with
  | nil => rfl
  | cons info moduleList ih =>
    rw [foldl_cons, filterMap_cons, collectSystem_eq_union real paths hs]
    cases hm : moduleTree paths info with
    | none => exact ih hs
    | some node => exact ih (NamedTree.Sorted.union hs (sorted_moduleTree hm))

/-- The tree of all modules is the union of their trees in order, and does not depend on the order
in which directories are listed. -/
theorem collectSystems_eq_union (real : FileTree) (paths : ModulePaths)
    (moduleList : List ModuleFiles) :
    collectSystems (fun _ => true) real paths moduleList =
      (moduleList.filterMap (moduleTree paths)).foldl NamedTree.union newDir ∧
    ∀ moduleList', List.Forall₂ Relisted moduleList moduleList' →
      collectSystems (fun _ => true) real paths moduleList' =
        collectSystems (fun _ => true) real paths moduleList := by
  have hunion (l : List ModuleFiles) :
      collectSystems (fun _ => true) real paths l =
        (l.filterMap (moduleTree paths)).foldl NamedTree.union newDir :=
    foldl_collectSystem real paths l sorted_newDir
  refine ⟨hunion moduleList, fun moduleList' h => ?_⟩
  have htrees : moduleList.filterMap (moduleTree paths) =
      moduleList'.filterMap (moduleTree paths) := by
    induction h with
    | nil => rfl
    | cons hi _ ih => rw [filterMap_cons, filterMap_cons, moduleTree_relisted paths hi, ih]
  rw [hunion, hunion, htrees]

/-- A module with a directory and a whiteout, in the one order and in the other. -/
def bootModule (swap : Bool) : ModuleFiles where
  name := "boot".toList
  skipMount := false
  system :=
    let etc : Bytes × FileTree := (lit "etc", .dir [(lit "hosts", .leaf (.other []))])
    let media : Bytes × FileTree := (lit "media", .leaf (.charDevice 0))
    some (.dir (if swap then [media, etc] else [etc, media]))
  distinct := by
    rintro t ⟨⟩
    cases swap with
    | false => decide
    | true => decide

/-- A module with another file in the same directory. -/
def fontsModule : ModuleFiles where
  name := "fonts".toList
  skipMount := false
  system := some (.dir [(lit "etc", .dir [(lit "fonts", .leaf (.other []))])])
  distinct := by
    rintro t ⟨⟩
    decide

theorem collectSystems_bootModule : ∃ node : FsNode,
    collectSystems (fun _ => true) (.dir []) (.new []) [bootModule false, fontsModule] = node ∧
    collectSystems (fun _ => true) (.dir []) (.new []) [bootModule true, fontsModule] = node ∧
    ∀ name ∈ ["hosts".toList, "fonts".toList], (node.find ["etc".toList, name]).isSome := by
  obtain ⟨hunion, horder⟩ :=
    collectSystems_eq_union (.dir []) (.new []) [bootModule false, fontsModule]
  have hr : Relisted (bootModule false) (bootModule true) :=
    ⟨rfl, rfl, .some (.perm (List.Perm.swap _ _ _))⟩
  have hr' : Relisted fontsModule fontsModule := ⟨rfl, rfl, .some (.perm (List.Perm.refl _))⟩
  exact ⟨_, hunion, (horder _ (.cons hr (.cons hr' .nil))).trans hunion, by decide +kernel⟩

end Magisk.Module
