import Magisk.Module.Commit

namespace Magisk.Module

open List Attempt

section Leaves

variable (host : Host)

theorem leaves_attempt (op : MountOp) (area : Area) (f : FileTree → Option FileTree) :
    Leaves Mounts.unhandled (attempt host op area f) := by
  refine leaves_perform fun s s' h => ?_
  split_ifs at h
  cases area with
  | real =>
    obtain ⟨t, -, rfl⟩ := Option.map_eq_some_iff.mp h
    rfl
  | worker =>
    obtain ⟨t, -, rfl⟩ := Option.map_eq_some_iff.mp h
    rfl

theorem leaves_check (op : MountOp) : Leaves Mounts.unhandled (check host op) :=
  leaves_attempt host op .real some

theorem leaves_bindMount (src : Option FileTree) (area : Area) (dest : Path) :
    Leaves Mounts.unhandled (bindMount host src area dest) :=
  (leaves_attempt host _ area _).logOk.andThen (leaves_check host _).logOk

theorem leaves_mountDummy (src : Option FileTree) (dest : Path) (isDir : Bool) :
    Leaves Mounts.unhandled (mountDummy host src dest isDir) := by
  refine Leaves.andThen ?_ (leaves_bindMount host src .worker dest)
  split_ifs
  · exact leaves_attempt host _ _ _
  · exact leaves_attempt host _ _ _

variable (p : Path) (here : Option FileTree)

theorem leaves_commitLeaf (a : FsLeaf) : Leaves Mounts.unhandled (commitLeaf host p here a) := by
  cases a with
  | file src => exact leaves_mountDummy host _ p false
  | symlink target =>
    refine (leaves_attempt host _ _ _).andThen ?_
    split_ifs
    · exact leaves_check host _
    · exact leaves_skip _
  | magiskLink => exact leaves_attempt host _ _ _
  | whiteout => exact leaves_skip _

theorem leaves_makeDir : Leaves Mounts.unhandled (makeDir host p) :=
  (leaves_attempt host _ _ _).andThen (leaves_check host _)

theorem leaves_mirrorEntries (skip : List Str) {entries : List (Bytes × FileTree)}
    (h : ∀ e ∈ entries, ∀ p, Leaves Mounts.unhandled (mirror host p e.2)) :
    Leaves Mounts.unhandled (mirrorEntries host p skip entries) := by
  induction entries with
  | nil =>
    rw [mirrorEntries]
    exact (leaves_check host _).logOk
  | cons e entries ih =>
    obtain ⟨b, t⟩ := e
    have ih := ih fun e he => h e (mem_cons_of_mem _ he)
    rw [mirrorEntries]
    cases fromUtf8 b with
    | none => exact ih
    | some name =>
      dsimp only
      split_ifs
      · exact ih
      · exact (h _ mem_cons_self _).andThen ih
      · exact (leaves_fail _).logOk

theorem leaves_mirror (t : FileTree) : Leaves Mounts.unhandled (mirror host p t) := by
  induction t using NamedTree.induct generalizing p with
  | leaf i =>
    cases i with
    | symlink target =>
      rw [mirror]
      exact (leaves_check host _).logOk.andThen (leaves_commitLeaf host _ _ _)
    | charDevice rdev =>
      rw [mirror]
      · exact leaves_mountDummy host _ p false
      · nofun
    | other content =>
      rw [mirror]
      · exact leaves_mountDummy host _ p false
      · nofun
  | dir entries ih =>
    rw [mirror]
    refine (leaves_makeDir host p).andThen ?_
    split_ifs
    · exact leaves_mirrorEntries host p [] fun e he p => ih e he p
    · exact (leaves_fail _).logOk

theorem leaves_mirrorDir (skip : List Str) :
    Leaves Mounts.unhandled (mirrorDir host p here skip) := by
  rw [mirrorDir]
  cases opened host p here with
  | none => exact leaves_skip _
  | some entries =>
    dsimp only
    split_ifs
    · exact leaves_mirrorEntries host p skip fun e _ p => leaves_mirror host p e.2
    · exact (leaves_fail _).logOk

theorem leaves_replaceChildren (replaceDir : Path) (children : List (Str × FsNode)) :
    Leaves Mounts.unhandled (replaceChildren host p here replaceDir children) := by
  induction children with
  | nil => exact leaves_skip _
  | cons e children ih =>
    obtain ⟨name, node⟩ := e
    refine Leaves.andThen ?_ ih
    split_ifs
    · exact leaves_skip _
    · cases node with
      | dir cs => exact leaves_mountDummy host _ _ true
      | leaf a => exact leaves_commitLeaf host _ _ a

theorem leaves_commitTmpfs (node : FsNode) :
    Leaves Mounts.unhandled (commitTmpfs host p here node) := by
  induction node using NamedTree.induct generalizing p here with
  | leaf a =>
    rw [commitTmpfs]
    exact leaves_commitLeaf host p here a
  | dir children ih =>
    have hchildren (l : List (Str × FsNode)) (hl : l ⊆ children) :
        Leaves Mounts.unhandled (commitChildren host p here l) := by
      induction l with
      | nil =>
        rw [commitChildren]
        exact leaves_skip _
      | cons e l ihl =>
        obtain ⟨name, node⟩ := e
        rw [commitChildren]
        refine Leaves.andThen ?_ (ihl fun e he => hl (mem_cons_of_mem _ he))
        split_ifs
        · exact leaves_skip _
        · exact ih (name, node) (hl mem_cons_self) _ _
    rw [commitTmpfs]
    refine (leaves_makeDir host p).andThen ?_
    cases replaceDir? children with
    | some replaceDir => exact leaves_replaceChildren host p here replaceDir children
    | none => exact (leaves_mirrorDir host p here _).andThen (hchildren children fun _ h => h)

theorem leaves_getAttrs (children : List (Str × FsNode)) :
    Leaves Mounts.unhandled (getAttrs host p children) := by
  induction children with
  | nil => exact leaves_skip _
  | cons e children ih =>
    obtain ⟨name, node⟩ := e
    rw [getAttrs]
    refine Leaves.andThen ?_ ih
    split_ifs
    · exact (leaves_check host _).logOk
    · exact leaves_skip _

end Leaves

section Commit

variable {host : Host}

theorem leaves_commitAll (p : Path) (kept : List Str) {children : List (Str × FsNode)}
    (h : ∀ e ∈ children, e.1 ∈ kept → ∀ p, Leaves Mounts.unhandled (commit host p false e.2)) :
    Leaves Mounts.unhandled (commitAll host p kept children) := by
  induction children with
  | nil =>
    rw [commitAll]
    exact leaves_skip _
  | cons e children ih =>
    obtain ⟨name, node⟩ := e
    rw [commitAll]
    refine Leaves.andThen ?_ (ih fun e he => h e (mem_cons_of_mem _ he))
    split_ifs with hk
    · exact h _ mem_cons_self hk _
    · exact leaves_skip _

theorem leaves_commit {node : FsNode} (hn : node.Distinct) (hm : isMountable node)
    (p : Path) (isRootDir : Bool) :
    Leaves Mounts.unhandled (commit host p isRootDir node) := by
  induction node using NamedTree.induct generalizing p isRootDir with
  | leaf a =>
    cases a with
    | file src =>
      rw [commit]
      exact leaves_bindMount host _ .real p
    | symlink target => cases hm
    | magiskLink => cases hm
    | whiteout => cases hm
  | dir children ih =>
    rw [commit]
    refine leaves_reading fun s => (leaves_getAttrs host p children).andThen ?_
    split_ifs with htmpfs
    · exact (leaves_commitTmpfs host p _ _).andThen
        (leaves_reading fun s => leaves_bindMount host _ .real p)
    · refine leaves_commitAll p _ fun e he hek p => ?_
      rw [Bool.not_eq_true] at htmpfs
      have hkept := mem_retain_of_name hn.here he hek
      exact ih e he (hn.children e he)
        (mountable_of_parent (not_parentShouldBeTmpfs htmpfs e hkept)).1 p false

theorem unhandled_commit {node : FsNode} (hn : node.Distinct) (p : Path) (isRootDir : Bool)
    (s : Mounts) :
    (commit host p isRootDir node s).1.unhandled =
      s.unhandled ++ if isMountable node then [] else [p] := by
  by_cases hm : isMountable node
  · rw [leaves_commit hn hm p isRootDir s, if_pos hm, append_nil]
  · rw [if_neg hm]
    cases node with
    | dir children => exact absurd rfl hm
    | leaf a =>
      cases a with
      | file src => exact absurd rfl hm
      | symlink target =>
        rw [commit]
        rfl
      | magiskLink =>
        rw [commit]
        rfl
      | whiteout =>
        rw [commit]
        rfl

end Commit

end Magisk.Module
