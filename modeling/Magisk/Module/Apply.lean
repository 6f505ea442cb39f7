import Magisk.Path
import Magisk.Module.Unhandled

namespace Magisk.Module

open List Attempt

/-- What the code reads of the device and of the daemon. -/
structure Device where
  magiskTmp : Path
  pathEnv : Str
  isEmulator : Bool
  /-- the name of the library, if zygisk is enabled -/
  zygisk : Option Str
  is64Bit : Bool
  /-- what `exists` returns -/
  exist : Path → Bool
  /-- the number of files of a directory that others may enter and that can be walked -/
  fileCount : Path → Option ℕ
  collects : CollectOp → Bool
  host : Host

section Inject

/-- Goes down the directories of the names, which are made where they are missing, and changes the
last one. A node that is no directory ends the walk. -/
def enter (f : List (Str × FsNode) → List (Str × FsNode)) :
    List Str → List (Str × FsNode) → List (Str × FsNode) × Bool
  | [], children => (f children, true)
  | name :: names, children =>
    match (children.lookup name).getD newDir with
    | .dir cs =>
      let r := enter f names cs
      (insertName name (.dir r.1) children, r.2)
    | .leaf _ => (children, false)

variable (dev : Device)

def magiskFile (name : String) : FsNode := .leaf (.file (dev.magiskTmp ++ [lit name]))

def inject (children : List (Str × FsNode)) : List (Str × FsNode) :=
  let children := insertName "magisk".toList (magiskFile dev "magisk") children
  let children := insertName "magiskpolicy".toList (magiskFile dev "magiskpolicy") children
  let children := insertName "su".toList (.leaf .magiskLink) children
  let children := insertName "resetprop".toList (.leaf .magiskLink) children
  insertName "supolicy".toList (.leaf .magiskLink) children

def injectPartitions : List Str :=
  ["/system/".toList, "/vendor/".toList, "/product/".toList, "/system_ext/".toList]

def stripSystemPrefix (item : Str) : Str :=
  if "/system/".toList.isPrefixOf item then '/' :: item.drop "/system/".length else item

def isSuitable (item : Str) : Bool :=
  injectPartitions.any (fun partition => partition.isPrefixOf item) &&
    !"/system/apex/".toList.isPrefixOf item &&
    !(dev.isEmulator && "/system/xbin".toList.isPrefixOf item)

/-- The directories of `PATH` where the files may go, with the number of files in each. -/
def candidates : List Str → List (Str × ℕ)
  | [] => []
  | item :: items =>
    if isSuitable dev item then
      let path := (components item).map asBytes
      -- an existing `su` is overridden first
      if dev.exist (path ++ [lit "su"]) then [(stripSystemPrefix item, 0)]
      else match dev.fileCount path with
        | some count => (stripSystemPrefix item, count) :: candidates items
        | none => candidates items
    else candidates items

/-- The names of a path that are `Component::Normal`. -/
def normalComponents (item : Str) : List Str := (components item).filter (· ≠ "..".toList)

/-- The loop over the candidates, and `bin` behind them. -/
def injectFirst : List Str → List (Str × FsNode) → List (Str × FsNode)
  | [], children => (enter (inject dev) ["bin".toList] children).1
  | item :: items, children =>
    let r := enter (inject dev) (normalComponents item) children
    if r.2 then r.1 else injectFirst items r.1

def injectMagiskBins (children : List (Str × FsNode)) : List (Str × FsNode) :=
  let found := (candidates dev (dev.pathEnv.splitOn ':')).insertionSort fun a b => a.2 ≤ b.2
  injectFirst dev (found.map Prod.fst) children

def injectLib (dir name : Str) (bin : String) (present : Bool) (children : List (Str × FsNode)) :
    List (Str × FsNode) :=
  (enter (fun lib => if present then insertName name (magiskFile dev bin) lib else lib)
    [dir] children).1

def injectZygiskBins (name : Str) (children : List (Str × FsNode)) : List (Str × FsNode) :=
  let bin32 := if dev.is64Bit then "magisk32" else "magisk"
  let has32Bit := !dev.is64Bit || dev.exist [lit "system", lit "bin", lit "linker"]
  let children :=
    if has32Bit then
      injectLib dev "lib".toList name bin32 (dev.exist (dev.magiskTmp ++ [lit bin32])) children
    else children
  if dev.is64Bit && dev.exist [lit "system", lit "bin", lit "linker64"] then
    injectLib dev "lib64".toList name "magisk" true children
  else children

/-- The second step of `apply_modules`. -/
def injectFiles (children : List (Str × FsNode)) : List (Str × FsNode) :=
  let children :=
    if dev.magiskTmp ≠ [lit "sbin"] ∨ "/sbin".toList ∉ dev.pathEnv.splitOn ':' then
      injectMagiskBins dev children
    else children
  match dev.zygisk with
  | some name => injectZygiskBins dev name children
  | none => children

end Inject

def vendor : Str := "vendor".toList
def product : Str := "product".toList
def systemExt : Str := "system_ext".toList

def secondaryPartitions : List Str := [vendor, product, systemExt]

def removeName (name : Str) (children : List (Str × FsNode)) : List (Str × FsNode) :=
  children.filter fun e => e.1 ≠ name

section Apply

variable (dev : Device)

/-- A partition is a root of its own if it is a directory in the root of the device. -/
def isPartition (real : FileTree) (name : Str) : Bool :=
  match getAttr dev.host [asBytes name] (real.find [asBytes name]) with
  | some (.dir _) => true
  | _ => false

/-- The third step: the roots that are cut out, with what is left. -/
def extractRoots (real : FileTree) :
    List Str → List (Str × FsNode) → List (Str × FsNode) × List (Str × FsNode)
  | [], children => ([], children)
  | name :: names, children =>
    if isPartition dev real name then
      match children.lookup name with
      | some root =>
        let r := extractRoots real names (removeName name children)
        (insertName name root r.1, r.2)
      | none => extractRoots real names children
    else extractRoots real names children

def childrenOf : FsNode → List (Str × FsNode)
  | .dir children => children
  | .leaf _ => []

def roots (real : FileTree) (moduleList : List ModuleFiles) : List (Str × FsNode) :=
  let system := collectSystems dev.collects real (.new dev.magiskTmp) moduleList
  let r := extractRoots dev real secondaryPartitions (injectFiles dev (childrenOf system))
  insertName systemDir (.dir r.2) r.1

/-- The last step: each tree is committed, and an error is logged. -/
def commitRoots : List (Str × FsNode) → Attempt Mounts
  | [] => .skip
  | (name, root) :: rest =>
    .andThen (.logOk (commit dev.host [asBytes name] true root)) (commitRoots rest)

def applyModules (moduleList : List ModuleFiles) : Attempt Mounts :=
  .reading fun s => commitRoots dev (roots dev s.real moduleList)

end Apply

/-- The node under a name, if it is no directory. -/
def leafAt (name : Str) (children : List (Str × FsNode)) : Option FsLeaf :=
  match children.lookup name with
  | some (.leaf a) => some a
  | _ => none

theorem leafAt_insertName_ne {name m : Str} (h : m ≠ name) (node : FsNode)
    (children : List (Str × FsNode)) :
    leafAt m (insertName name node children) = leafAt m children := by
  rw [leafAt, lookup_insertName_ne h, leafAt]

theorem leafAt_enter (f : List (Str × FsNode) → List (Str × FsNode)) (m name : Str)
    (names : List Str) (children : List (Str × FsNode)) :
    leafAt m (enter f (name :: names) children).1 = leafAt m children := by
  rw [enter]
  cases hc : (children.lookup name).getD newDir with
  | leaf a => rfl
  | dir cs =>
    by_cases hm : m = name
    · rw [hm, leafAt, lookup_insertName_self, leafAt]
      cases hl : children.lookup name with
      | none => rfl
      | some c =>
        rw [hl, Option.getD_some] at hc
        rw [hc]
    · exact leafAt_insertName_ne hm _ children

theorem sorted_enter {f : List (Str × FsNode) → List (Str × FsNode)}
    (hf : ∀ children, (NamedTree.dir children).Sorted → (NamedTree.dir (f children)).Sorted)
    (names : List Str) {children : List (Str × FsNode)} (h : (NamedTree.dir children).Sorted) :
    (NamedTree.dir (enter f names children).1).Sorted := by
  induction names generalizing children with
  | nil => exact hf children h
  | cons name names ih =>
    have hnode := sorted_child h name sorted_newDir
    rw [enter]
    cases hc : (children.lookup name).getD newDir with
    | leaf a => exact h
    | dir cs =>
      rw [hc] at hnode
      exact h.insertName name (ih hnode)

/-- A step of the injection keeps the maps sorted and the leaves under the names of partitions. -/
structure Injects (f : List (Str × FsNode) → List (Str × FsNode)) : Prop where
  sorted : ∀ children, (NamedTree.dir children).Sorted → (NamedTree.dir (f children)).Sorted
  leafAt : ∀ name ∈ secondaryPartitions, ∀ children, leafAt name (f children) = leafAt name children

section Injects

variable (dev : Device)

theorem injects_inject : Injects (inject dev) where
  sorted := by
    intro children h
    exact ((((h.insertName _ (.leaf _)).insertName _ (.leaf _)).insertName _ (.leaf _)).insertName _
      (.leaf _)).insertName _ (.leaf _)
  leafAt := by
    intro name hname children
    have hne : ∀ n ∈ secondaryPartitions, n ≠ "magisk".toList ∧ n ≠ "magiskpolicy".toList ∧
        n ≠ "su".toList ∧ n ≠ "resetprop".toList ∧ n ≠ "supolicy".toList := by decide
    obtain ⟨h1, h2, h3, h4, h5⟩ := hne name hname
    rw [inject, leafAt_insertName_ne h5, leafAt_insertName_ne h4, leafAt_insertName_ne h3,
      leafAt_insertName_ne h2, leafAt_insertName_ne h1]

variable {f : List (Str × FsNode) → List (Str × FsNode)}

theorem Injects.enter (hf : Injects f) (names : List Str) :
    Injects fun children => (enter f names children).1 where
  sorted := fun _ h => sorted_enter hf.sorted names h
  leafAt := by
    intro name hname children
    cases names with
    | nil => exact hf.leafAt name hname children
    | cons n names => exact leafAt_enter f name n names children

theorem injects_id : Injects fun children => children := ⟨fun _ h => h, fun _ _ _ => rfl⟩

theorem Injects.comp {g : List (Str × FsNode) → List (Str × FsNode)} (hg : Injects g)
    (hf : Injects f) : Injects fun children => g (f children) where
  sorted := fun children h => hg.sorted _ (hf.sorted children h)
  leafAt := fun name hname children => by rw [hg.leafAt name hname, hf.leafAt name hname]

theorem Injects.ite (p : Prop) [Decidable p] (hf : Injects f) :
    Injects fun children => if p then f children else children := by
  by_cases h : p
  · simpa only [h, if_true] using hf
  · simpa only [h, if_false] using injects_id

theorem injects_injectFirst (items : List Str) : Injects (injectFirst dev items) := by
  induction items with
  | nil => exact (injects_inject dev).enter _
  | cons item items ih =>
    have h := (injects_inject dev).enter (normalComponents item)
    constructor
    · intro children hs
      rw [injectFirst]
      split_ifs
      · exact h.sorted children hs
      · exact ih.sorted _ (h.sorted children hs)
    · intro name hname children
      rw [injectFirst]
      split_ifs
      · exact h.leafAt name hname children
      · rw [ih.leafAt name hname, h.leafAt name hname]

theorem injects_injectLib (dir name : Str) (bin : String) (present : Bool) :
    Injects (injectLib dev dir name bin present) := by
  constructor
  · intro children hs
    refine sorted_enter (fun lib hlib => ?_) [dir] hs
    split_ifs
    · exact hlib.insertName name (.leaf _)
    · exact hlib
  · intro m _ children
    exact leafAt_enter _ m dir [] children

theorem injects_injectZygiskBins (name : Str) : Injects (injectZygiskBins dev name) :=
  ((injects_injectLib dev _ name _ true).ite _).comp ((injects_injectLib dev _ name _ _).ite _)

theorem injects_injectFiles : Injects (injectFiles dev) := by
  have hbins := (injects_injectFirst dev (((candidates dev (dev.pathEnv.splitOn ':')).insertionSort
    fun a b => a.2 ≤ b.2).map Prod.fst)).ite
      (dev.magiskTmp ≠ [lit "sbin"] ∨ "/sbin".toList ∉ dev.pathEnv.splitOn ':')
  unfold injectFiles
  cases dev.zygisk with
  | none => exact hbins
  | some name => exact (injects_injectZygiskBins dev name).comp hbins

end Injects

section Roots

variable (dev : Device) (real : FileTree)

theorem lookup_removeName_ne {name m : Str} (h : m ≠ name) (children : List (Str × FsNode)) :
    (removeName name children).lookup m = children.lookup m := by
  induction children with
  | nil => rfl
  | cons e children ih =>
    obtain ⟨n, c⟩ := e
    rw [removeName, filter_cons]
    split_ifs with hn
    · by_cases hm : m = n
      · rw [hm, lookup_cons_self, lookup_cons_self]
      · rw [lookup_cons_ne hm, lookup_cons_ne hm]
        exact ih
    · have hm : m ≠ n := fun hm => hn (decide_eq_true (hm ▸ h))
      rw [lookup_cons_ne hm]
      exact ih

theorem sorted_removeName {children : List (Str × FsNode)} (h : (NamedTree.dir children).Sorted)
    (name : Str) : (NamedTree.dir (removeName name children)).Sorted :=
  .dir (h.here.filter _) fun e he => h.children e (mem_of_mem_filter he)

theorem lookup_extractRoots {names : List Str} (hd : names.Nodup) (children : List (Str × FsNode))
    (m : Str) :
    (extractRoots dev real names children).1.lookup m =
      if m ∈ names ∧ isPartition dev real m then children.lookup m else none := by
  induction names generalizing children with
  | nil => rw [extractRoots, if_neg fun h => not_mem_nil h.1, lookup_nil]
  | cons name names ih =>
    rw [nodup_cons] at hd
    have ih := ih hd.2
    rw [extractRoots]
    by_cases hm : m = name
    · subst hm
      have hlast : (extractRoots dev real names children).1.lookup m = none := by
        rw [ih, if_neg fun h => hd.1 h.1]
      by_cases hp : isPartition dev real m
      · rw [if_pos hp, if_pos ⟨mem_cons_self, hp⟩]
        cases children.lookup m with
        | none => exact hlast
        | some root => exact lookup_insertName_self m root _
      · rw [if_neg hp, if_neg fun h => hp h.2]
        exact hlast
    · have hmem : m ∈ name :: names ↔ m ∈ names := mem_cons.trans (or_iff_right hm)
      simp only [hmem]
      by_cases hp : isPartition dev real name
      · rw [if_pos hp]
        cases children.lookup name with
        | none => exact ih children
        | some root =>
          dsimp only
          rw [lookup_insertName_ne hm, ih, lookup_removeName_ne hm]
      · rw [if_neg hp]
        exact ih children

theorem sorted_extractRoots (names : List Str) {children : List (Str × FsNode)}
    (h : (NamedTree.dir children).Sorted) :
    (NamedTree.dir (extractRoots dev real names children).1).Sorted ∧
      (NamedTree.dir (extractRoots dev real names children).2).Sorted := by
  induction names generalizing children with
  | nil => exact ⟨.dir .nil nofun, h⟩
  | cons name names ih =>
    rw [extractRoots]
    split_ifs
    · cases hc : children.lookup name with
      | none => exact ih h
      | some root =>
        have hr := ih (sorted_removeName h name)
        exact ⟨hr.1.insertName name (h.lookup hc), hr.2⟩
    · exact ih h

variable (moduleList : List ModuleFiles)

theorem childrenOf_collectSystems :
    collectSystems dev.collects real (.new dev.magiskTmp) moduleList =
      .dir (childrenOf (collectSystems dev.collects real (.new dev.magiskTmp) moduleList)) := by
  have h := (@collectSystems_spec dev.collects real (.new dev.magiskTmp) moduleList).2
  cases hc : collectSystems dev.collects real (.new dev.magiskTmp) moduleList with
  | dir children => rfl
  | leaf a =>
    rw [hc] at h
    cases h

theorem sorted_roots : (NamedTree.dir (roots dev real moduleList)).Sorted := by
  have h := (@collectSystems_spec dev.collects real (.new dev.magiskTmp) moduleList).1
  rw [childrenOf_collectSystems] at h
  have hr := sorted_extractRoots dev real secondaryPartitions ((injects_injectFiles dev).sorted _ h)
  exact hr.1.insertName systemDir hr.2

def allFiles (moduleList : List ModuleFiles) : List (Str × FsNode) :=
  injectFiles dev
    (childrenOf (collectSystems dev.collects real (.new dev.magiskTmp) moduleList))

theorem lookup_roots {name : Str} (h : name ≠ systemDir) :
    (roots dev real moduleList).lookup name =
      if name ∈ secondaryPartitions ∧ isPartition dev real name then
        (allFiles dev real moduleList).lookup name
      else none := by
  rw [roots, lookup_insertName_ne h, lookup_extractRoots dev real (by decide)]
  rfl

theorem leafAt_allFiles {name : Str} (h : name ∈ secondaryPartitions) (a : FsLeaf) :
    (allFiles dev real moduleList).lookup name = some (.leaf a) ↔
      (collectSystems dev.collects real (.new dev.magiskTmp) moduleList).child name =
        some (.leaf a) := by
  have hleaf (children : List (Str × FsNode)) :
      children.lookup name = some (.leaf a) ↔ leafAt name children = some a := by
    rw [leafAt]
    cases children.lookup name with
    | none => exact iff_of_false nofun nofun
    | some c =>
      cases c with
      | leaf b => simp
      | dir cs => simp
  rw [childrenOf_collectSystems, NamedTree.child_dir, hleaf, hleaf, allFiles,
    (injects_injectFiles dev).leafAt name h]

end Roots

section Unhandled

variable (dev : Device)

theorem unhandled_commitRoots {rs : List (Str × FsNode)} (h : ∀ e ∈ rs, e.2.Distinct) (s : Mounts) :
    (commitRoots dev rs s).1.unhandled =
      s.unhandled ++ (rs.filter fun e => !isMountable e.2).map fun e => [asBytes e.1] := by
  induction rs generalizing s with
  | nil => exact (append_nil _).symm
  | cons e rs ih =>
    obtain ⟨name, root⟩ := e
    rw [commitRoots, andThen_logOk_fst, ih fun e he => h e (mem_cons_of_mem _ he),
      unhandled_commit (h _ mem_cons_self), append_assoc, filter_cons]
    cases isMountable root with
    | true => rfl
    | false => rfl

/-- A link or whiteout lies where a partition is. -/
def Misplaced (real : FileTree) (moduleList : List ModuleFiles) (name : Str) : Prop :=
  isPartition dev real name ∧
    ∃ a, (collectSystems dev.collects real (.new dev.magiskTmp) moduleList).child name =
      some (.leaf a) ∧ ∀ src, a ≠ .file src

/-- Where no operation fails, the first module that has the name decides. -/
theorem misplaced_iff (hall : dev.collects = fun _ => true) (real : FileTree)
    (moduleList : List ModuleFiles) (name : Str) :
    Misplaced dev real moduleList name ↔ isPartition dev real name ∧
      ∃ a, (moduleList.filterMap (moduleTree (.new dev.magiskTmp))).findSome? (·.child name) =
        some (.leaf a) ∧ ∀ src, a ≠ .file src := by
  rw [Misplaced, hall, collectSystems, foldl_collectSystem _ _ _ sorted_newDir]
  simp only [newDir, NamedTree.child_foldl_union_leaf, lookup_nil, Option.none_or]

theorem isMountable_leaf {a : FsLeaf} :
    isMountable (.leaf a) = false ↔ ∀ src, a ≠ .file src := by
  cases a with
  | file src => exact iff_of_false nofun fun h => h src rfl
  | symlink target => exact iff_of_true rfl nofun
  | magiskLink => exact iff_of_true rfl nofun
  | whiteout => exact iff_of_true rfl nofun

theorem mountable_roots_iff (real : FileTree) (moduleList : List ModuleFiles) :
    (∀ e ∈ roots dev real moduleList, isMountable e.2) ↔
      ∀ name ∈ secondaryPartitions, ¬ Misplaced dev real moduleList name := by
  have hne : ∀ n ∈ secondaryPartitions, n ≠ systemDir := by decide
  constructor
  · rintro hall name hname ⟨hp, a, ha, hsrc⟩
    have hl := lookup_roots dev real moduleList (hne name hname)
    rw [if_pos ⟨hname, hp⟩, (leafAt_allFiles dev real moduleList hname a).mpr ha] at hl
    have hm := hall _ (mem_of_lookup hl)
    rw [isMountable_leaf.mpr hsrc] at hm
    cases hm
  · rintro hall ⟨name, root⟩ he
    have hl := lookup_of_mem (sorted_roots dev real moduleList).here.nodup he
    by_cases hs : name = systemDir
    · -- what is left of the tree is a directory
      rw [hs, roots, lookup_insertName_self] at hl
      rw [← Option.some.inj hl]
      rfl
    · rw [lookup_roots dev real moduleList hs] at hl
      split_ifs at hl with hp
      cases root with
      | dir cs => rfl
      | leaf a =>
        by_contra hm
        rw [Bool.not_eq_true] at hm
        exact hall name hp.1 ⟨hp.2, a, (leafAt_allFiles dev real moduleList hp.1 a).mp hl,
          isMountable_leaf.mp hm⟩

/-- `apply_modules` does not come to the error of `commit` unless a module has a link or a whiteout
at the name of a partition that is a directory in the root. -/
theorem applyModules_unhandled_iff (moduleList : List ModuleFiles) (s : Mounts) :
    (applyModules dev moduleList s).1.unhandled = s.unhandled ↔
      ∀ name ∈ secondaryPartitions, ¬ Misplaced dev s.real moduleList name := by
  have hd : ∀ e ∈ roots dev s.real moduleList, e.2.Distinct :=
    fun e he => NamedTree.Sorted.distinct ((sorted_roots dev s.real moduleList).children e he)
  rw [applyModules, reading, unhandled_commitRoots dev hd, append_right_eq_self, map_eq_nil_iff,
    filter_eq_nil_iff, ← mountable_roots_iff]
  refine forall₂_congr fun e _ => ?_
  rw [Bool.not_eq_true', Bool.not_eq_false]

end Unhandled

def linkModule : ModuleFiles where
  name := "link".toList
  skipMount := false
  system := some (.dir [(lit "vendor", .leaf (.symlink (lit "/vendor")))])
  distinct := by
    rintro t ⟨⟩
    decide

/-- A device on which everything succeeds. -/
def linkDevice : Device where
  magiskTmp := [lit "debug_ramdisk"]
  pathEnv := []
  isEmulator := false
  zygisk := none
  is64Bit := true
  exist := fun _ => false
  fileCount := fun _ => none
  collects := fun _ => true
  host := ⟨fun _ => true, fun _ => none, fun _ => none⟩

def vendorMounts : Mounts := ⟨.dir [(lit "system", .dir []), (lit "vendor", .dir [])], .dir [], []⟩

theorem applyModules_link :
    (applyModules linkDevice [linkModule] vendorMounts).1.unhandled = [[lit "vendor"]] := by
  decide

end Magisk.Module
