import Magisk.Attempt
import Magisk.Module.Collect

namespace Magisk.Module

/-- The two places where something is mounted. -/
inductive Area where
  | real
  | worker
  deriving DecidableEq, Repr

/-- The operations that may fail. Paths are the same in both areas. -/
inductive MountOp where
  | getAttr (path : Path)
  | openDir (path : Path)
  | read (path : Path) (next : Option Bytes)
  | readLink (path : Path)
  | mkdirs (path : Path)
  | mkdir (path : Path)
  | create (path : Path)
  | createSymlink (path : Path)
  | cloneAttr (path : Path)
  | bindMount (dest : Area) (path : Path)
  | remount (dest : Area) (path : Path)
  deriving DecidableEq, Repr

/-- What the code finds on the device besides the partitions themselves. -/
structure Host where
  succeeds : MountOp → Bool
  /-- what stands at a path outside the two areas -/
  source : Path → Option FileTree
  /-- what opening a link of the partition gives -/
  follow : Path → Option FileTree

/-- What is visible from the root and in the worker directory, and the paths for which `commit`
has reported that the parent should be tmpfs. -/
structure Mounts where
  real : FileTree
  worker : FileTree
  unhandled : List Path

def mkdirs (p : Path) (t : FileTree) : Option FileTree :=
  if t.isOpen p then
    match t.find p with
    | some _ => some t
    | none => some (t.put p (.dir []))
  else none

/-- A new entry needs a directory to be in. -/
def addEntry (p : Path) (new t : FileTree) : Option FileTree :=
  match t.find p.dropLast with
  | some (.dir _) => some (t.put p new)
  | _ => none

/-- An entry that exists is no error. -/
def mkdir (p : Path) (t : FileTree) : Option FileTree :=
  match t.find p with
  | some _ => some t
  | none => addEntry p (.dir []) t

def create (p : Path) (t : FileTree) : Option FileTree :=
  match t.find p with
  | some (.dir _) => none
  | some (.leaf _) => some t
  | none => addEntry p (.leaf (.other [])) t

def createSymlink (p : Path) (target : Bytes) (t : FileTree) : Option FileTree :=
  if target = [] then none
  else match t.find p with
    | some _ => none
    | none => addEntry p (.leaf (.symlink target)) t

/-- `MS_BIND`, of a directory on a directory or of a file on a file -/
def bindMountTo (p : Path) (src : Option FileTree) (t : FileTree) : Option FileTree :=
  match src, t.find p with
  | some (.leaf i), some (.leaf _) => some (t.put p (.leaf i))
  | some (.dir es), some (.dir _) => some (t.put p (.dir es))
  | _, _ => none

def Area.update (f : FileTree → Option FileTree) : Area → Mounts → Option Mounts
  | .real, s => (f s.real).map fun t => { s with real := t }
  | .worker, s => (f s.worker).map fun t => { s with worker := t }

section Operations

variable (host : Host)

/-- An operation on one of the areas. -/
def attempt (op : MountOp) (area : Area) (f : FileTree → Option FileTree) : Attempt Mounts :=
  .perform fun s => if host.succeeds op then area.update f s else none

def check (op : MountOp) : Attempt Mounts := attempt host op .real some

def bindMount (src : Option FileTree) (area : Area) (dest : Path) : Attempt Mounts :=
  .andThen (.logOk (attempt host (.bindMount area dest) area (bindMountTo dest src)))
    (.logOk (check host (.remount area dest)))

def mountDummy (src : Option FileTree) (dest : Path) (isDir : Bool) : Attempt Mounts :=
  .andThen
    (if isDir then attempt host (.mkdir dest) .worker (mkdir dest)
      else attempt host (.create dest) .worker (create dest))
    (bindMount host src .worker dest)

def symlinkTo (p : Path) (target : Bytes) : Attempt Mounts :=
  attempt host (.createSymlink p) .worker (createSymlink p target)

end Operations

def replaceName : Str := ".replace".toList

def magiskTarget (p : Path) : Bytes :=
  if p.getLast? = some (lit "supolicy") then lit "./magiskpolicy" else lit "./magisk"

section Tmpfs

variable (host : Host)

/-- `commit_tmpfs` of a node that is no directory. `here` is what stands at the real path. -/
def commitLeaf (p : Path) (here : Option FileTree) : FsLeaf → Attempt Mounts
  | .file src => mountDummy host (host.source src) p false
  | .symlink target =>
    .andThen (symlinkTo host p (asBytes target))
      (if here.isSome then check host (.cloneAttr p) else .skip)
  | .magiskLink => symlinkTo host p (magiskTarget p)
  | .whiteout => .skip

/-- The directory itself, with the attributes of the real one or of the directory it is in. -/
def makeDir (p : Path) : Attempt Mounts :=
  .andThen (attempt host (.mkdirs p) .worker (mkdirs p)) (check host (.cloneAttr p))

mutual

/-- The mirror of a real entry. A directory is gone through, as `commit_tmpfs` of a new node
does it. -/
def mirror (p : Path) : FileTree → Attempt Mounts
  | .dir entries =>
    .andThen (makeDir host p)
      (if host.succeeds (.openDir p) then mirrorEntries p [] entries else .logOk .fail)
  | .leaf (.symlink target) =>
    .andThen (.logOk (check host (.readLink p)))
      (commitLeaf host p (some (.leaf (.symlink target))) (.symlink
        (if host.succeeds (.readLink p) then readLink target else [])))
  | .leaf i => mountDummy host (some (.leaf i)) p false

/-- The loop over a real directory, without the names in `skip`. An error of `read` ends it. -/
def mirrorEntries (p : Path) (skip : List Str) : List (Bytes × FileTree) → Attempt Mounts
  | [] => .logOk (check host (.read p none))
  | (b, t) :: entries =>
    match fromUtf8 b with
    -- `Directory::read` goes on to the next entry
    | none => mirrorEntries p skip entries
    | some name =>
      if host.succeeds (.read p (some b)) then
        if name ∈ skip then mirrorEntries p skip entries
        else .andThen (mirror (p ++ [b]) t) (mirrorEntries p skip entries)
      else .logOk .fail

end

def opened (p : Path) : Option FileTree → Option (List (Bytes × FileTree))
  | some (.dir entries) => some entries
  | some (.leaf (.symlink _)) =>
    match host.follow p with
    | some (.dir entries) => some entries
    | _ => none
  | _ => none

/-- What stands at the real path of a child. -/
def realChild (p : Path) (here : Option FileTree) (name : Str) : Option FileTree :=
  (opened host p here).bind fun entries => entries.lookup (asBytes name)

def mirrorDir (p : Path) (here : Option FileTree) (skip : List Str) : Attempt Mounts :=
  match opened host p here with
  | some entries =>
    if host.succeeds (.openDir p) then mirrorEntries host p skip entries else .logOk .fail
  | none => .skip

/-- The children of a directory that replaces the real one. The directories of the module are
mounted as they are. -/
def replaceChildren (p : Path) (here : Option FileTree) (replaceDir : Path) :
    List (Str × FsNode) → Attempt Mounts
  | [] => .skip
  | (name, node) :: children =>
    .andThen
      (if name = replaceName then .skip
        else match node with
          | .dir _ =>
            mountDummy host (host.source (replaceDir ++ [asBytes name])) (p ++ [asBytes name]) true
          | .leaf a => commitLeaf host (p ++ [asBytes name]) (realChild host p here name) a)
      (replaceChildren p here replaceDir children)

/-- The directory that a file `.replace` puts in the place of the real one. -/
def replaceDir? (children : List (Str × FsNode)) : Option Path :=
  match children.lookup replaceName with
  | some (.leaf (.file src)) => if src = [] then none else some src.dropLast
  | _ => none

mutual

def commitTmpfs (p : Path) (here : Option FileTree) : FsNode → Attempt Mounts
  | .leaf a => commitLeaf host p here a
  | .dir children =>
    .andThen (makeDir host p)
      (match replaceDir? children with
      | some replaceDir => replaceChildren host p here replaceDir children
      | none =>
        .andThen (mirrorDir host p here ((children.map Prod.fst).filter (· ≠ replaceName)))
          (commitChildren p here children))

/-- The last loop, over all children but `.replace`. -/
def commitChildren (p : Path) (here : Option FileTree) : List (Str × FsNode) → Attempt Mounts
  | [] => .skip
  | (name, node) :: children =>
    .andThen
      (if name = replaceName then .skip
        else commitTmpfs (p ++ [asBytes name]) (realChild host p here name) node)
      (commitChildren p here children)

end

end Tmpfs

section Commit

variable (host : Host)

def getAttr (p : Path) (here : Option FileTree) : Option FileTree :=
  if host.succeeds (.getAttr p) then here else none

def parentShouldBeTmpfs (p : Path) (here : Option FileTree) : FsNode → Bool
  | .dir _ | .leaf (.file _) =>
    match getAttr host p here with
    | some (.leaf (.symlink _)) => true
    | some _ => false
    | none => true
  | _ => true

/-- The children that are left, and whether a tmpfs is required. In the root of a partition it is
not possible, and the child is dropped instead. -/
def retain (p : Path) (here : Option FileTree) (isRootDir : Bool) :
    List (Str × FsNode) → List (Str × FsNode) × Bool
  | [] => ([], false)
  | (name, node) :: children =>
    let r := retain p here isRootDir children
    if name = replaceName ∨
        parentShouldBeTmpfs host (p ++ [asBytes name]) (realChild host p here name) node then
      if isRootDir then r else ((name, node) :: r.1, true)
    else ((name, node) :: r.1, r.2)

/-- The nodes that are mounted, so that it matters what they are mounted on. -/
def isMountable : FsNode → Bool
  | .dir _ | .leaf (.file _) => true
  | _ => false

/-- The calls of `get_attr` that `retain` makes. -/
def getAttrs (p : Path) : List (Str × FsNode) → Attempt Mounts
  | [] => .skip
  | (name, node) :: children =>
    .andThen
      (if name ≠ replaceName ∧ isMountable node then
        .logOk (check host (.getAttr (p ++ [asBytes name])))
      else .skip)
      (getAttrs p children)

/-- The error that the parent should be tmpfs. It does not end the call. -/
def reportUnhandled (p : Path) : Attempt Mounts :=
  .perform fun s => some { s with unhandled := s.unhandled ++ [p] }

def mountLeaf (p : Path) : FsLeaf → Attempt Mounts
  | .file src => bindMount host (host.source src) .real p
  | .symlink _ | .magiskLink | .whiteout => reportUnhandled p

mutual

def commit (p : Path) (isRootDir : Bool) : FsNode → Attempt Mounts
  | .leaf a => mountLeaf host p a
  | .dir children => .reading fun s =>
    let here := s.real.find p
    let r := retain host p here isRootDir children
    .andThen (getAttrs host p children)
      (if r.2 then
        .andThen (commitTmpfs host p here (.dir r.1))
          (.reading fun s => bindMount host (s.worker.find p) .real p)
      else commitAll p (r.1.map Prod.fst) children)

/-- The loop over the children that are left. -/
def commitAll (p : Path) (kept : List Str) : List (Str × FsNode) → Attempt Mounts
  | [] => .skip
  | (name, node) :: children =>
    .andThen (if name ∈ kept then commit (p ++ [asBytes name]) false node else .skip)
      (commitAll p kept children)

end

end Commit

section Retain

variable {host : Host} {p : Path} {here : Option FileTree}

theorem retain_sublist (isRootDir : Bool) (children : List (Str × FsNode)) :
    (retain host p here isRootDir children).1.Sublist children := by
  induction children with
  | nil => exact List.Sublist.refl _
  | cons e children ih =>
    rw [retain]
    split_ifs
    · exact ih.cons _
    · exact ih.cons_cons _
    · exact ih.cons_cons _

theorem mem_retain_of_name {isRootDir : Bool} {children : List (Str × FsNode)}
    (hd : (children.map Prod.fst).Nodup) {e : Str × FsNode} (he : e ∈ children)
    (hk : e.1 ∈ (retain host p here isRootDir children).1.map Prod.fst) :
    e ∈ (retain host p here isRootDir children).1 := by
  obtain ⟨a, ha, hae⟩ := List.mem_map.mp hk
  have h1 := lookup_of_mem hd ((retain_sublist isRootDir children).subset ha)
  have h2 := lookup_of_mem hd he
  rw [hae] at h1
  rwa [← Prod.ext hae (Option.some.inj (h1.symm.trans h2))]

theorem retain_child (children : List (Str × FsNode)) :
    (retain host p here false children).1 = children := by
  induction children with
  | nil => rfl
  | cons e children ih =>
    rw [retain]
    rw [ih, if_neg Bool.false_ne_true, apply_ite Prod.fst, ite_self]

theorem not_parentShouldBeTmpfs {isRootDir : Bool} {children : List (Str × FsNode)}
    (h : (retain host p here isRootDir children).2 = false) :
    ∀ e ∈ (retain host p here isRootDir children).1,
      parentShouldBeTmpfs host (p ++ [asBytes e.1]) (realChild host p here e.1) e.2 = false := by
  induction children with
  | nil => exact nofun
  | cons e children ih =>
    obtain ⟨name, node⟩ := e
    rw [retain] at h ⊢
    split_ifs at h ⊢ with hneeds hroot
    · exact ih h
    · rw [not_or, Bool.not_eq_true] at hneeds
      exact List.forall_mem_cons.mpr ⟨hneeds.2, ih h⟩

theorem retain_root (children : List (Str × FsNode)) :
    (retain host p here true children).2 = false := by
  induction children with
  | nil => rfl
  | cons e children ih =>
    rw [retain]
    rw [if_pos rfl, apply_ite Prod.snd, ih, ite_self]

theorem parentShouldBeTmpfs_eq_false {node : FsNode} :
    parentShouldBeTmpfs host p here node = false ↔ isMountable node ∧
      ∃ t, getAttr host p here = some t ∧ ∀ target, t ≠ .leaf (.symlink target) := by
  have hattr : (match getAttr host p here with
      | some (.leaf (.symlink _)) => true
      | some _ => false
      | none => true) = false ↔
      ∃ t, getAttr host p here = some t ∧ ∀ target, t ≠ .leaf (.symlink target) := by
    cases getAttr host p here with
    | none => simp
    | some t =>
      cases t with
      | dir entries => simp
      | leaf a => cases a <;> simp
  cases node with
  | dir children => exact hattr.trans (and_iff_right rfl).symm
  | leaf a =>
    cases a with
    | file src => exact hattr.trans (and_iff_right rfl).symm
    | symlink target => exact iff_of_false nofun nofun
    | magiskLink => exact iff_of_false nofun nofun
    | whiteout => exact iff_of_false nofun nofun

theorem mountable_of_parent {node : FsNode} (h : parentShouldBeTmpfs host p here node = false) :
    isMountable node ∧ ∃ t, here = some t := by
  obtain ⟨hm, t, ht, -⟩ := parentShouldBeTmpfs_eq_false.mp h
  rw [getAttr] at ht
  split_ifs at ht
  exact ⟨hm, t, ht⟩

/-- In the root of a partition a directory or a file stays where `get_attr` finds something other
than a link to mount it on. All else is dropped. -/
theorem mem_retain_root {children : List (Str × FsNode)} {e : Str × FsNode} :
    e ∈ (retain host p here true children).1 ↔
      e ∈ children ∧ e.1 ≠ replaceName ∧ isMountable e.2 ∧
        ∃ t, getAttr host (p ++ [asBytes e.1]) (realChild host p here e.1) = some t ∧
          ∀ target, t ≠ .leaf (.symlink target) := by
  rw [← parentShouldBeTmpfs_eq_false, ← Bool.not_eq_true, ← not_or]
  induction children with
  | nil => simp [retain]
  | cons c children ih =>
    rw [retain]
    rw [if_pos rfl]
    split_ifs with hc
    · rw [ih, List.mem_cons, or_and_right]
      refine (or_iff_right ?_).symm
      rintro ⟨rfl, h⟩
      exact h hc
    · rw [List.mem_cons, ih, List.mem_cons, or_and_right]
      refine or_congr_left (and_iff_left_of_imp ?_).symm
      rintro rfl
      exact hc

end Retain

end Magisk.Module
