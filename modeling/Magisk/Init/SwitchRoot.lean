import Magisk.Loops
import Magisk.Mount.Table

namespace Magisk.Init

open List Option

open Mount (MountInfo MountTable)

inductive Op where
  | openRootfs
  | mkdirs (path : Str)
  | moveMount (source target : Str)
  | chdir (path : Str)
  | chroot (path : Str)
  | removeRootfs
  deriving DecidableEq, Repr

/-- The targets in the ordered set, and the operations so far. -/
structure State where
  mounts : List Str
  ops : List Op
  deriving DecidableEq

def joinPath (buf path : Str) : Str :=
  let buf := if path.head? = some '/' then [] else buf
  (if buf ≠ [] ∧ buf.getLast? ≠ some '/' then buf ++ ['/'] else buf) ++ path

/-- The last element of the set that is smaller than the target. -/
def lastMount (mounts : List Str) (target : Str) : Option Str :=
  (mounts.filter (· < target)).max?

section Loop

variable (path : Str) (ok : List Op → Op → Bool)

/-- An operation that ends the function when it fails. -/
def State.perform (s : State) (op : Op) : Option State :=
  if ok s.ops op then some { s with ops := s.ops ++ [op] } else none

/-- The loop comes to `move_mount_to` for this target. -/
def attempts (mounts : List Str) (target : Str) : Bool :=
  if target = ['/'] ∨ target = path then false
  else match lastMount mounts target with
    | some last => ¬ last ++ ['/'] <+: target
    | none => true

def visit (s : State) (target : Str) : Option State :=
  if attempts path s.mounts target then do
    let newPath := joinPath path (target.dropWhile (· = '/'))
    -- the result of `mkdirs` is not looked at
    let s := { s with ops := s.ops ++ [Op.mkdirs newPath] }
    let s ← s.perform ok (.moveMount target newPath)
    return { s with mounts := target :: s.mounts }
  else some s

def visitAll (targets : List Str) : Option State := do
  let s ← State.perform ok ⟨[], []⟩ .openRootfs
  runAll (visit path ok) s targets

def switchRoot (infos : List (MountInfo Str)) : Option State := do
  let s ← visitAll path ok (infos.map (·.target))
  let s ← s.perform ok (.chdir path)
  let s ← s.perform ok (.moveMount path ['/'])
  let s ← s.perform ok (.chroot ['.'])
  s.perform ok .removeRootfs

end Loop

/-- At every target that the loop comes to, a move is attempted exactly when no mount moved so
far lies above it. -/
def MovesExactly (path : Str) (targets : List Str) : Prop :=
  ∀ ok pre t post s, targets = pre ++ t :: post → visitAll path ok pre = some s →
    (attempts path s.mounts t ↔
      t ≠ ['/'] ∧ t ≠ path ∧ ∀ m ∈ s.mounts, ¬ ProperAncestor m t)

/-- What is moved when only mounts below a moved one are left out. -/
def movedStep (path : Str) (moved : List Str) (t : Str) : List Str :=
  if t ≠ ['/'] ∧ t ≠ path ∧ ∀ m ∈ moved, ¬ ProperAncestor m t then t :: moved else moved

def moved (path : Str) (targets : List Str) : List Str := targets.foldl (movedStep path) []

theorem moved_concat (path : Str) (pre : List Str) (t : Str) :
    moved path (pre ++ [t]) = movedStep path (moved path pre) t := by
  rw [moved, foldl_append]
  rfl

variable {path t : Str} {pre mounts : List Str} {ok : List Op → Op → Bool}

theorem mem_of_mem_moved {path m : Str} (h : m ∈ moved path pre) : m ∈ pre ∧ m ≠ ['/'] := by
  induction pre using List.reverseRecOn with
  | nil => cases h
  | append_singleton pre t ih =>
    rw [moved_concat, movedStep] at h
    split_ifs at h with hc
    · rcases mem_cons.mp h with rfl | h
      · exact ⟨by simp, hc.1⟩
      · exact ⟨mem_append_left _ (ih h).1, (ih h).2⟩
    · exact ⟨mem_append_left _ (ih h).1, (ih h).2⟩

theorem lastMount_eq_some_iff {t last : Str} :
    lastMount mounts t = some last ↔
      (last ∈ mounts ∧ last < t) ∧ ∀ x ∈ mounts, x < t → x ≤ last := by
  rw [lastMount, max?_eq_some_iff]
  simp

theorem lastMount_eq_none_iff : lastMount mounts t = none ↔ ∀ x ∈ mounts, ¬ x < t := by
  rw [lastMount, max?_eq_none_iff, filter_eq_nil_iff]
  simp

theorem attempts_iff (ht : IsPath t) (hm : ∀ m ∈ mounts, IsPath m ∧ m ≠ ['/']) :
    attempts path mounts t ↔
      t ≠ ['/'] ∧ t ≠ path ∧ ∀ last, lastMount mounts t = some last → ¬ ProperAncestor last t := by
  unfold attempts
  split_ifs with h0
  · constructor
    · intro h
      cases h
    · rintro ⟨h1, h2, -⟩
      exact absurd h0 (not_or.mpr ⟨h1, h2⟩)
  · rw [not_or] at h0
    cases hl : lastMount mounts t with
    | none => simp [h0]
    | some last =>
      obtain ⟨hp, hne⟩ := hm last (lastMount_eq_some_iff.mp hl).1.1
      simp [h0, properAncestor_iff hp ht hne]

/-- The greatest smaller text lies above the target whenever something moved does. -/
def LastAbove (mounts : List Str) (t : Str) : Prop :=
  (∃ a ∈ mounts, ProperAncestor a t) →
    ∃ a ∈ mounts, ProperAncestor a t ∧ ∀ x ∈ mounts, a < x → x < t → ProperAncestor x t

theorem attempts_exact_iff (ht : IsPath t) (hm : ∀ m ∈ mounts, IsPath m ∧ m ≠ ['/']) :
    (attempts path mounts t ↔ t ≠ ['/'] ∧ t ≠ path ∧ ∀ m ∈ mounts, ¬ ProperAncestor m t) ↔
      (t ≠ ['/'] → t ≠ path → LastAbove mounts t) := by
  rw [attempts_iff ht hm]
  constructor
  · rintro h h1 h2 ⟨a, ha, hat⟩
    have hnot : ¬ ∀ last, lastMount mounts t = some last → ¬ ProperAncestor last t :=
      fun hall => (h.mp ⟨h1, h2, hall⟩).2.2 a ha hat
    push Not at hnot
    obtain ⟨last, hl, hlt⟩ := hnot
    obtain ⟨⟨hmem, -⟩, hmax⟩ := lastMount_eq_some_iff.mp hl
    exact ⟨last, hmem, hlt, fun x hx hlx hxt => absurd hlx (not_lt.mpr (hmax x hx hxt))⟩
  · intro h
    refine and_congr_right fun h1 => and_congr_right fun h2 => ?_
    constructor
    · intro hall m hmem hmt
      obtain ⟨a, ha, hat, hbetween⟩ := h h1 h2 ⟨m, hmem, hmt⟩
      have hlt : a < t := hat.lt (hm a ha).1 ht
      cases hl : lastMount mounts t with
      | none => exact lastMount_eq_none_iff.mp hl a ha hlt
      | some last =>
        obtain ⟨⟨hlm, hlt'⟩, hmax⟩ := lastMount_eq_some_iff.mp hl
        rcases (hmax a ha hlt).eq_or_lt with rfl | hal
        · exact hall a hl hat
        · exact hall last hl (hbetween last hlm hal hlt')
    · intro hall last hl
      exact hall last (lastMount_eq_some_iff.mp hl).1.1

theorem perform_eq_some {s s' : State} {op : Op}
    (h : s.perform ok op = some s') : s'.mounts = s.mounts := by
  unfold State.perform at h
  split_ifs at h
  cases h
  rfl

theorem visit_eq_some {s s' : State} (h : visit path ok s t = some s') :
    s'.mounts = if attempts path s.mounts t then t :: s.mounts else s.mounts := by
  unfold visit at h
  split_ifs at h ⊢
  · obtain ⟨s₁, h₁, h⟩ := bind_eq_some_iff.mp h
    have hm := perform_eq_some h₁
    rw [← some.inj h]
    exact congrArg (t :: ·) hm
  · rw [← some.inj h]

theorem visitAll_concat :
    visitAll path ok (pre ++ [t]) = (visitAll path ok pre).bind fun s => visit path ok s t := by
  unfold visitAll
  cases State.perform ok ⟨[], []⟩ .openRootfs with
  | none => rfl
  | some s =>
    have h1 (s' : State) : runAll (visit path ok) s' [t] = visit path ok s' t := by
      simp [runAll]
    exact (runAll_append s pre [t]).trans (by simp only [h1]; rfl)

theorem visitAll_isSome (path : Str) (pre : List Str) :
    ∃ s, visitAll path (fun _ _ => true) pre = some s := by
  induction pre using List.reverseRecOn with
  | nil => exact ⟨_, rfl⟩
  | append_singleton pre t ih =>
    obtain ⟨s, hs⟩ := ih
    rw [visitAll_concat, hs, bind_some, visit]
    split_ifs
    · exact ⟨_, rfl⟩
    · exact ⟨_, rfl⟩

theorem mounts_eq_moved
    (h : ∀ pre' t post s, pre = pre' ++ t :: post → visitAll path ok pre' = some s →
      s.mounts = moved path pre' →
      (attempts path s.mounts t ↔ t ≠ ['/'] ∧ t ≠ path ∧ ∀ m ∈ s.mounts, ¬ ProperAncestor m t))
    {s : State} (hs : visitAll path ok pre = some s) : s.mounts = moved path pre := by
  induction pre using List.reverseRecOn generalizing s with
  | nil =>
    obtain ⟨s₀, h₀, hs⟩ := bind_eq_some_iff.mp hs
    rw [← some.inj hs, perform_eq_some h₀]
    rfl
  | append_singleton pre t ih =>
    rw [visitAll_concat] at hs
    obtain ⟨s', hs', hv⟩ := bind_eq_some_iff.mp hs
    have hm : s'.mounts = moved path pre := by
      apply ih _ hs'
      intro pre' t' post s₁ he
      exact h pre' t' (post ++ [t]) s₁ (by rw [he, append_assoc, cons_append])
    have hexact := h pre t [] s' rfl hs' hm
    rw [visit_eq_some hv, moved_concat, movedStep, ← hm]
    exact if_congr hexact rfl rfl

/-- A move is attempted exactly when no mount moved before lies above the target, if and only if
among those moved before, none that lies elsewhere sorts between the last one above the target
and the target. -/
theorem movesExactly_iff (path : Str) (table : MountTable) :
    MovesExactly path table.targets ↔
      ∀ pre t post, table.targets = pre ++ t :: post → t ≠ ['/'] → t ≠ path →
        LastAbove (moved path pre) t := by
  have hpath {pre : List Str} {t : Str} {post : List Str}
      (he : table.targets = pre ++ t :: post) : IsPath t ∧
        ∀ m ∈ moved path pre, IsPath m ∧ m ≠ ['/'] := by
    have hmem {m : Str} (hm : m ∈ pre ++ t :: post) : IsPath m := by
      rw [← he] at hm
      exact MountTable.isPath_of_mem hm
    refine ⟨hmem (by simp), fun m hm => ?_⟩
    obtain ⟨hpre, h0⟩ := mem_of_mem_moved hm
    exact ⟨hmem (mem_append_left _ hpre), h0⟩
  constructor
  · intro h pre t post he
    obtain ⟨s, hs⟩ := visitAll_isSome path pre
    have hm : s.mounts = moved path pre := by
      apply mounts_eq_moved _ hs
      intro pre' t' post' s' he' hs' _
      rw [he', append_assoc, cons_append] at he
      exact h _ pre' t' _ s' he hs'
    obtain ⟨ht, hmp⟩ := hpath he
    have hexact := h _ pre t post s he hs
    rw [hm] at hexact
    exact (attempts_exact_iff ht hmp).mp hexact
  · intro h ok pre t post s he hs
    have hexact {pre' : List Str} {t' : Str} {post' : List Str} {s' : State}
        (he' : table.targets = pre' ++ t' :: post') (hm : s'.mounts = moved path pre') :
        attempts path s'.mounts t' ↔
          t' ≠ ['/'] ∧ t' ≠ path ∧ ∀ m ∈ s'.mounts, ¬ ProperAncestor m t' := by
      obtain ⟨ht, hmp⟩ := hpath he'
      rw [hm]
      exact (attempts_exact_iff ht hmp).mpr (h pre' t' post' he')
    apply hexact he
    apply mounts_eq_moved _ hs
    intro pre' t' post' s' he' _ hm
    rw [he', append_assoc, cons_append] at he
    exact hexact he hm

/-- Three mounts, the last below the first one, with a target between them in the order of
texts. -/
def betweenTable : MountTable where
  mounts := ["/a", "/a-b", "/a/c"].map fun t =>
    { id := 30, parent := 1, device := 1, root := ['/'], target := t.toList
      vfsOption := "rw".toList, shared := 0, master := 0, propagationFrom := 0
      unbindable := false, fsType := "tmpfs".toList, source := "tmpfs".toList
      fsOption := "rw".toList }
  isPath := by decide

/-- `/a/c` is moved again after `/a` has carried it away. -/
theorem switchRoot_between :
    (switchRoot "/data".toList (fun _ _ => true) betweenTable.mounts).map
        (fun s => s.ops.filter fun op => op matches .moveMount _ _) =
      some [.moveMount "/a".toList "/data/a".toList, .moveMount "/a-b".toList "/data/a-b".toList,
        .moveMount "/a/c".toList "/data/a/c".toList, .moveMount "/data".toList "/".toList] ∧
      ProperAncestor "/a".toList "/a/c".toList := by
  decide

end Magisk.Init
