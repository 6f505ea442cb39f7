import Magisk.Mount.Table

namespace Magisk.Mount

open List

section Later

variable {α : Type*} (P : α → List α → Prop) [∀ a l, Decidable (P a l)]

/-- The elements that are not chosen, by themselves and what follows them. -/
def keepBy : List α → List α
  | [] => []
  | a :: l => if P a l then keepBy l else a :: keepBy l

/-- The elements that are chosen. -/
def dropBy : List α → List α
  | [] => []
  | a :: l => if P a l then a :: dropBy l else dropBy l

variable {P}

variable {a : α} {l : List α}

theorem mem_dropBy : a ∈ dropBy P l ↔ ∃ pre post, l = pre ++ a :: post ∧ P a post := by
  induction l with
  | nil => simp [dropBy]
  | cons b l ih =>
    have hcons : (∃ pre post, b :: l = pre ++ a :: post ∧ P a post) ↔
        (a = b ∧ P b l) ∨ ∃ pre post, l = pre ++ a :: post ∧ P a post := by
      constructor
      · rintro ⟨pre, post, he, hP⟩
        cases pre with
        | nil =>
          cases he
          exact Or.inl ⟨rfl, hP⟩
        | cons c pre =>
          cases he
          exact Or.inr ⟨pre, post, rfl, hP⟩
      · rintro (⟨rfl, hP⟩ | ⟨pre, post, rfl, hP⟩)
        · exact ⟨[], l, rfl, hP⟩
        · exact ⟨b :: pre, post, rfl, hP⟩
    rw [hcons, ← ih, dropBy]
    split_ifs with hP <;> simp [hP]

theorem keepBy_subset (l : List α) : keepBy P l ⊆ l := by
  induction l with
  | nil => exact List.Subset.refl _
  | cons a l ih =>
    rw [keepBy]
    split_ifs
    · exact subset_cons_of_subset a ih
    · exact cons_subset_cons a ih

theorem exists_of_keepBy {l x y : List α} (h : keepBy P l = x ++ a :: y) :
    ∃ pre post, l = pre ++ a :: post ∧ ¬ P a post ∧ y = keepBy P post := by
  induction l generalizing x with
  | nil => simp [keepBy] at h
  | cons b l ih =>
    rw [keepBy] at h
    split_ifs at h with hP
    · obtain ⟨pre, post, rfl, hn, hy⟩ := ih h
      exact ⟨b :: pre, post, rfl, hn, hy⟩
    · cases x with
      | nil =>
        cases h
        exact ⟨[], l, rfl, hP, rfl⟩
      | cons c x =>
        obtain ⟨rfl, hl⟩ := cons.inj h
        obtain ⟨pre, post, rfl, hn, hy⟩ := ih hl
        exact ⟨b :: pre, post, rfl, hn, hy⟩

theorem keepBy_append_cons (pre : List α) {post : List α} (h : ¬ P a post) :
    ∃ x, keepBy P (pre ++ a :: post) = x ++ a :: keepBy P post := by
  induction pre with
  | nil => exact ⟨[], by rw [nil_append, keepBy, if_neg h, nil_append]⟩
  | cons b pre ih =>
    obtain ⟨x, hx⟩ := ih
    rw [cons_append, keepBy, hx]
    split_ifs
    · exact ⟨x, rfl⟩
    · exact ⟨b :: x, rfl⟩

theorem mem_keepBy (hl : a ∈ l) (h : ∀ post, ¬ P a post) : a ∈ keepBy P l := by
  obtain ⟨pre, post, rfl⟩ := append_of_mem hl
  obtain ⟨x, hx⟩ := keepBy_append_cons pre (h post)
  rw [hx]
  simp

end Later

abbrev Mounts := List (MountInfo Str)

/-- A mount of Magisk's tmpfs or of a module file. -/
def IsMagisk (m : MountInfo Str) : Prop :=
  m.source = "magisk".toList ∨ "/adb/modules".toList <+: m.root

instance (m : MountInfo Str) : Decidable (IsMagisk m) := inferInstanceAs (Decidable (_ ∨ _))

def magiskTargets (mounts : Mounts) : List Str := (mounts.filter (IsMagisk ·)).map (·.target)

def startsWith (path base : Str) : Bool := (components base).isPrefixOf (components path)

/-- The targets that stay when each is compared with the last one that stayed. -/
def retain (prev : Option Str) : List Str → List Str
  | [] => []
  | target :: targets =>
    if prev.any (startsWith target) then retain prev targets
    else target :: retain (some target) targets

def revertTargets (mounts : Mounts) : List Str :=
  retain none ((magiskTargets mounts).insertionSort (· ≤ ·))

/-- A mount goes away when a path of `paths` above it is unmounted, or it is the topmost one
on such a path. -/
def Gone (paths : List Str) (m : MountInfo Str) (later : Mounts) : Prop :=
  (∃ p ∈ paths, ProperAncestor p m.target) ∨
    m.target ∈ paths ∧ ∀ x ∈ later, x.target ≠ m.target

instance (paths : List Str) (m : MountInfo Str) (later : Mounts) : Decidable (Gone paths m later) :=
  inferInstanceAs (Decidable (_ ∨ _))

/-- A namespace, with the mounts that have been detached from it. -/
structure Namespace where
  mounts : Mounts
  detached : Mounts
  deriving DecidableEq

/-- A lazy detach of the topmost mount at a target, with everything mounted below that path. There
is nothing to do where nothing is mounted. -/
def Namespace.unmount (ns : Namespace) (target : Str) : Namespace :=
  if ∃ m ∈ ns.mounts, m.target = target then
    ⟨keepBy (Gone [target]) ns.mounts, ns.detached ++ dropBy (Gone [target]) ns.mounts⟩
  else ns

def revertUnmount (mounts : Mounts) : Namespace :=
  (revertTargets mounts).foldl Namespace.unmount ⟨mounts, []⟩

variable {mounts later : Mounts} {t : Str} {prev : Option Str} {targets paths : List Str}
  {m : MountInfo Str}

theorem mem_magiskTargets : t ∈ magiskTargets mounts ↔ ∃ m ∈ mounts, IsMagisk m ∧ m.target = t := by
  simp [magiskTargets, and_assoc]

theorem retain_subset (prev : Option Str) (targets : List Str) : retain prev targets ⊆ targets := by
  induction targets generalizing prev with
  | nil => exact List.Subset.refl _
  | cons t targets ih =>
    rw [retain]
    split_ifs
    · exact subset_cons_of_subset t (ih prev)
    · exact cons_subset_cons t (ih (some t))

theorem exists_retained (h : t ∈ targets) :
    ∃ k, (k ∈ retain prev targets ∨ prev = some k) ∧ components k <+: components t := by
  induction targets generalizing prev with
  | nil => cases h
  | cons u targets ih =>
    rw [retain]
    split_ifs with hu
    · rcases mem_cons.mp h with rfl | h
      · cases prev with
        | none => cases hu
        | some p => exact ⟨p, Or.inr rfl, isPrefixOf_iff_prefix.mp hu⟩
      · exact ih h
    · rcases mem_cons.mp h with rfl | h
      · exact ⟨t, Or.inl mem_cons_self, prefix_refl _⟩
      · obtain ⟨k, hk | hk, hkt⟩ := @ih (some u) h
        · exact ⟨k, Or.inl (mem_cons_of_mem u hk), hkt⟩
        · cases hk
          exact ⟨u, Or.inl mem_cons_self, hkt⟩

theorem pairwise_retain (hs : targets.Pairwise (· ≤ ·)) (hprev : ∀ p ∈ prev, ∀ t ∈ targets, p ≤ t) :
    (retain prev targets).Pairwise (· < ·) ∧ ∀ p ∈ prev, ∀ t ∈ retain prev targets, p < t := by
  induction targets generalizing prev with
  | nil => exact ⟨List.Pairwise.nil, fun p _ t ht => by cases ht⟩
  | cons u targets ih =>
    rw [pairwise_cons] at hs
    rw [retain]
    split_ifs with hu
    · exact ih hs.2 fun p hp t ht => hprev p hp t (mem_cons_of_mem u ht)
    · obtain ⟨hk, hlt⟩ := @ih (some u) hs.2 fun p hp t ht => by
        cases hp
        exact hs.1 t ht
      have hltu := hlt u rfl
      refine ⟨pairwise_cons.mpr ⟨hltu, hk⟩, fun p hp t ht => ?_⟩
      have hpu : p < u := by
        apply lt_of_le_of_ne (hprev p hp u mem_cons_self)
        rintro rfl
        cases hp
        apply hu
        exact isPrefixOf_iff_prefix.mpr (prefix_refl _)
      rcases mem_cons.mp ht with rfl | ht
      · exact hpu
      · exact hpu.trans (hltu t ht)

section Targets

variable {mounts : Mounts}

theorem nodup_revertTargets : (revertTargets mounts).Nodup := by
  have hs := pairwise_insertionSort (· ≤ ·) (magiskTargets mounts)
  have hp := (@pairwise_retain none _ hs fun p hp => by cases hp).1
  exact hp.imp fun h => h.ne

theorem revertTargets_subset : revertTargets mounts ⊆ magiskTargets mounts := by
  intro t ht
  exact (perm_insertionSort _ _).subset (retain_subset _ _ ht)

theorem exists_revertTarget {t : Str} (h : t ∈ magiskTargets mounts) :
    ∃ k ∈ revertTargets mounts, components k <+: components t := by
  obtain ⟨k, hk | hk, hkt⟩ :=
    @exists_retained _ none _ ((perm_insertionSort (· ≤ ·) _).symm.subset h)
  · exact ⟨k, hk, hkt⟩
  · cases hk

end Targets

theorem not_gone (h : m.target ∉ paths)
    (hb : ∀ p ∈ paths, ¬ ProperAncestor p m.target) (later : Mounts) : ¬ Gone paths m later := by
  rintro (⟨p, hp, hm⟩ | ⟨hm, -⟩)
  · exact hb p hp hm
  · exact h hm

theorem Gone.mono (t : Str) (h : Gone paths m later) : Gone (paths ++ [t]) m later := by
  rcases h with ⟨p, hp, hm⟩ | ⟨hm, hl⟩
  · exact Or.inl ⟨p, mem_append_left _ hp, hm⟩
  · exact Or.inr ⟨mem_append_left _ hm, hl⟩

theorem gone_concat : Gone (paths ++ [t]) m later ↔ Gone paths m later ∨ Gone [t] m later := by
  simp only [Gone, mem_append, mem_singleton, or_and_right, exists_or, exists_eq_left]
  exact or_or_or_comm

theorem gone_concat_of_below {p t : Str} (hp : p ∈ paths) (hpt : ProperAncestor p t) :
    Gone (paths ++ [t]) m later ↔ Gone paths m later := by
  rw [gone_concat, or_iff_left_of_imp]
  rintro (⟨q, hq, hm⟩ | ⟨hm, -⟩)
  · rw [mem_singleton.mp hq] at hm
    exact Or.inl ⟨p, hp, hpt.trans hm⟩
  · rw [← mem_singleton.mp hm] at hpt
    exact Or.inl ⟨p, hp, hpt⟩

theorem keepBy_congr {P Q : MountInfo Str → Mounts → Prop} [∀ a l, Decidable (P a l)]
    [∀ a l, Decidable (Q a l)] (h : ∀ a l, P a l ↔ Q a l) (l : Mounts) : keepBy P l = keepBy Q l := by
  induction l with
  | nil => rfl
  | cons a l ih =>
    rw [keepBy, keepBy, ih]
    exact if_congr (h a l) rfl rfl

section Fresh

variable {paths : List Str} {t : Str} (ht : t ∉ paths) (hb : ∀ p ∈ paths, ¬ ProperAncestor p t)

include ht hb

theorem exists_target_keepBy {mounts : Mounts} :
    (∃ m ∈ keepBy (Gone paths) mounts, m.target = t) ↔ ∃ m ∈ mounts, m.target = t := by
  constructor
  · rintro ⟨m, hm, rfl⟩
    exact ⟨m, keepBy_subset _ hm, rfl⟩
  · rintro ⟨m, hm, rfl⟩
    exact ⟨m, mem_keepBy hm (not_gone ht hb), rfl⟩

theorem gone_keepBy {m : MountInfo Str} {later : Mounts} :
    Gone [t] m (keepBy (Gone paths) later) ↔ Gone [t] m later := by
  have hl : (∃ x ∈ keepBy (Gone paths) later, x.target = t) ↔ ∃ x ∈ later, x.target = t :=
    exists_target_keepBy ht hb
  refine or_congr_right (and_congr_right fun hm => ?_)
  rw [mem_singleton.mp hm]
  have h' := not_congr hl
  push Not at h'
  exact h'

theorem keepBy_keepBy (mounts : Mounts) :
    keepBy (Gone [t]) (keepBy (Gone paths) mounts) = keepBy (Gone (paths ++ [t])) mounts := by
  induction mounts with
  | nil => rfl
  | cons m mounts ih =>
    rw [keepBy, keepBy]
    by_cases hg : Gone paths m mounts
    · rw [if_pos hg, if_pos (hg.mono t), ih]
    · rw [if_neg hg, keepBy, ih]
      have hc : Gone [t] m (keepBy (Gone paths) mounts) ↔ Gone (paths ++ [t]) m mounts := by
        rw [gone_keepBy ht hb, gone_concat, or_iff_right hg]
      exact if_congr hc rfl rfl

theorem mem_dropBy_concat {m : MountInfo Str} (mounts : Mounts) :
    m ∈ dropBy (Gone (paths ++ [t])) mounts ↔
      m ∈ dropBy (Gone paths) mounts ∨ m ∈ dropBy (Gone [t]) (keepBy (Gone paths) mounts) := by
  induction mounts with
  | nil => simp [dropBy, keepBy]
  | cons a mounts ih =>
    rw [dropBy, dropBy, keepBy]
    by_cases hg : Gone paths a mounts
    · rw [if_pos hg, if_pos hg, if_pos (hg.mono t), mem_cons, mem_cons, ih, or_assoc]
    · have hc : Gone [t] a (keepBy (Gone paths) mounts) ↔ Gone (paths ++ [t]) a mounts := by
        rw [gone_keepBy ht hb, gone_concat, or_iff_right hg]
      rw [if_neg hg, if_neg hg, dropBy]
      by_cases hg' : Gone (paths ++ [t]) a mounts
      · rw [if_pos hg', if_pos (hc.mpr hg'), mem_cons, mem_cons, ih]
        tauto
      · rw [if_neg hg', if_neg (mt hc.mp hg'), ih]

end Fresh

/-- The namespace after some paths have been unmounted, each of them once. -/
structure Unmounted (mounts : Mounts) (paths : List Str) (ns : Namespace) : Prop where
  mounts_eq : ns.mounts = keepBy (Gone paths) mounts
  mem_detached : ∀ m, m ∈ ns.detached ↔ m ∈ dropBy (Gone paths) mounts

theorem unmounted_nil (mounts : Mounts) : Unmounted mounts [] ⟨mounts, []⟩ := by
  have hn (m : MountInfo Str) (l : Mounts) : ¬ Gone [] m l := by simp [Gone]
  constructor
  · induction mounts with
    | nil => rfl
    | cons m l ih => rw [keepBy, if_neg (hn m l), ← ih]
  · intro m
    simp [mem_dropBy, hn]

theorem Unmounted.unmount {ns : Namespace}
    (h : Unmounted mounts paths ns) (hmem : ∃ m ∈ mounts, m.target = t) (ht : t ∉ paths) :
    Unmounted mounts (paths ++ [t]) (ns.unmount t) := by
  by_cases hb : ∃ p ∈ paths, ProperAncestor p t
  · obtain ⟨p, hp, hpt⟩ := hb
    have hcongr (m : MountInfo Str) (l : Mounts) : Gone (paths ++ [t]) m l ↔ Gone paths m l :=
      gone_concat_of_below hp hpt
    -- what was mounted here is gone already
    have hno : ¬ ∃ m ∈ ns.mounts, m.target = t := by
      rintro ⟨m, hm, rfl⟩
      rw [h.mounts_eq] at hm
      obtain ⟨x, y, hxy⟩ := append_of_mem hm
      obtain ⟨-, post, -, hgone, -⟩ := exists_of_keepBy hxy
      exact hgone (Or.inl ⟨p, hp, hpt⟩)
    rw [Namespace.unmount, if_neg hno]
    refine ⟨?_, fun m => ?_⟩
    · rw [h.mounts_eq]
      exact keepBy_congr (fun m l => (hcongr m l).symm) mounts
    · rw [h.mem_detached, mem_dropBy, mem_dropBy]
      simp only [hcongr]
  · push Not at hb
    have hyes : ∃ m ∈ ns.mounts, m.target = t := by
      rw [h.mounts_eq, exists_target_keepBy ht hb]
      exact hmem
    rw [Namespace.unmount, if_pos hyes]
    refine ⟨?_, fun m => ?_⟩
    · rw [h.mounts_eq, keepBy_keepBy ht hb]
    · rw [mem_append, h.mem_detached, mem_dropBy_concat ht hb, h.mounts_eq]

theorem unmounted_foldl (hmem : ∀ t ∈ targets, ∃ m ∈ mounts, m.target = t) (hn : targets.Nodup) :
    Unmounted mounts targets (targets.foldl Namespace.unmount ⟨mounts, []⟩) := by
  induction targets using List.reverseRecOn with
  | nil => exact unmounted_nil mounts
  | append_singleton targets t ih =>
    rw [forall_mem_append] at hmem
    rw [nodup_append] at hn
    rw [foldl_append]
    refine (ih hmem.1 hn.1).unmount (hmem.2 t mem_cons_self) fun ht => ?_
    exact hn.2.2 t ht t mem_cons_self rfl

theorem unmounted_revertUnmount (mounts : Mounts) :
    Unmounted mounts (revertTargets mounts) (revertUnmount mounts) := by
  refine unmounted_foldl (fun t ht => ?_) nodup_revertTargets
  obtain ⟨m, hm, -, he⟩ := mem_magiskTargets.mp (revertTargets_subset ht)
  exact ⟨m, hm, he⟩

/-- The target of a mount of Magisk, with no such mount above it. -/
def Outermost (mounts : Mounts) (t : Str) : Prop :=
  t ∈ magiskTargets mounts ∧ ∀ s ∈ magiskTargets mounts, ¬ ProperAncestor s t

/-- No later mount covers the target. -/
def Visible (m : MountInfo Str) (later : Mounts) : Prop :=
  ∀ c ∈ later, c.target ≠ m.target ∧ ¬ ProperAncestor c.target m.target

/-- No mount of Magisk is visible any more, and what is detached is such a mount or was nested
below one. -/
structure Reverted (mounts : Mounts) (ns : Namespace) : Prop where
  hidden : ∀ pre m post, ns.mounts = pre ++ m :: post → IsMagisk m → ¬ Visible m post
  spared : ∀ m ∈ ns.detached, IsMagisk m ∨ ∃ k ∈ mounts, IsMagisk k ∧ ProperAncestor k.target m.target

/-- On each outermost target, the topmost mount is one of Magisk, and the next one is not, or is
covered from above. -/
structure SingleMounts (mounts : Mounts) : Prop where
  top : ∀ pre m post, mounts = pre ++ m :: post → Outermost mounts m.target →
    (∀ x ∈ post, x.target ≠ m.target) → IsMagisk m
  next : ∀ pre m mid top post, mounts = pre ++ m :: (mid ++ top :: post) →
    Outermost mounts m.target → top.target = m.target →
    (∀ x ∈ mid ++ post, x.target ≠ m.target) → IsMagisk m →
    ∃ c ∈ mid ++ top :: post, ProperAncestor c.target m.target

theorem exists_last {α : Type*} {p : α → Prop} {l : List α} (h : ∃ x ∈ l, p x) :
    ∃ mid x post, l = mid ++ x :: post ∧ p x ∧ ∀ y ∈ post, ¬ p y := by
  classical
  induction l with
  | nil =>
    obtain ⟨x, hx, -⟩ := h
    cases hx
  | cons a l ih =>
    by_cases hl : ∃ x ∈ l, p x
    · obtain ⟨mid, x, post, rfl, hx, hpost⟩ := ih hl
      exact ⟨a :: mid, x, post, rfl, hx, hpost⟩
    · push Not at hl
      obtain ⟨x, hx, hpx⟩ := h
      rcases mem_cons.mp hx with rfl | hx
      · exact ⟨[], x, l, rfl, hpx, hl⟩
      · exact absurd hpx (hl x hx)

section Main

variable (table : MountTable)

variable {m c : MountInfo Str} {later pre post : Mounts}

theorem gone_revertTargets (hm : IsPath m.target) :
    Gone (revertTargets table.mounts) m later ↔
      (∃ s ∈ magiskTargets table.mounts, ProperAncestor s m.target) ∨
        Outermost table.mounts m.target ∧ ∀ x ∈ later, x.target ≠ m.target := by
  constructor
  · intro h
    by_cases hb : ∃ s ∈ magiskTargets table.mounts, ProperAncestor s m.target
    · exact Or.inl hb
    · rcases h with ⟨p, hp, hpm⟩ | ⟨hmem, hl⟩
      · exact absurd ⟨p, revertTargets_subset hp, hpm⟩ hb
      · push Not at hb
        exact Or.inr ⟨⟨revertTargets_subset hmem, hb⟩, hl⟩
  · rintro (⟨s, hs, hsm⟩ | ⟨⟨hmem, hout⟩, hl⟩)
    · obtain ⟨k, hk, hks⟩ := exists_revertTarget hs
      exact Or.inl ⟨k, hk, ProperAncestor.of_prefix hks hsm⟩
    · obtain ⟨k, hk, hkm⟩ := exists_revertTarget hmem
      have hkt := revertTargets_subset hk
      obtain ⟨n, hn, -, hkn⟩ := mem_magiskTargets.mp hkt
      have he : components k = components m.target := by
        by_contra hne
        exact hout k hkt ⟨hkm, hne⟩
      have hpath : IsPath k := hkn ▸ table.isPath n hn
      rw [hpath.ext hm he] at hk
      exact Or.inr ⟨hk, hl⟩

variable {table}

theorem outermost_of_not_gone (he : table.mounts = pre ++ m :: post) (hm : IsMagisk m)
    (hg : ¬ Gone (revertTargets table.mounts) m post) :
    Outermost table.mounts m.target ∧ ∃ x ∈ post, x.target = m.target := by
  have hmem : m ∈ table.mounts := by simp [he]
  rw [gone_revertTargets table (table.isPath m hmem)] at hg
  push Not at hg
  have hout : Outermost table.mounts m.target :=
    ⟨mem_magiskTargets.mpr ⟨m, hmem, hm, rfl⟩, hg.1⟩
  exact ⟨hout, hg.2 hout⟩

theorem not_gone_above {t : Str} (hout : Outermost table.mounts t)
    (hc : c ∈ table.mounts) (ha : ProperAncestor c.target t) (later : Mounts) :
    ¬ Gone (revertTargets table.mounts) c later := by
  rw [gone_revertTargets table (table.isPath c hc)]
  rintro (⟨s, hs, hsc⟩ | ⟨⟨hmem, -⟩, -⟩)
  · exact hout.2 s hs (hsc.trans ha)
  · exact hout.2 _ hmem ha

theorem not_gone_below_top (hc : c ∈ table.mounts)
    (hout : Outermost table.mounts c.target) (hl : ∃ x ∈ later, x.target = c.target) :
    ¬ Gone (revertTargets table.mounts) c later := by
  rw [gone_revertTargets table (table.isPath c hc)]
  rintro (⟨s, hs, hsc⟩ | ⟨-, hno⟩)
  · exact hout.2 s hs hsc
  · obtain ⟨x, hx, he⟩ := hl
    exact hno x hx he

/-- Two mounts on an outermost target: the upper one is gone, the lower one is visible unless it
is covered from above. -/
theorem covered_of_hidden {mid : Mounts} {top : MountInfo Str}
    (he : table.mounts = pre ++ m :: (mid ++ top :: post))
    (hout : Outermost table.mounts m.target) (htop : top.target = m.target)
    (hno : ∀ x ∈ mid ++ post, x.target ≠ m.target)
    (hh : ¬ Visible m (keepBy (Gone (revertTargets table.mounts)) (mid ++ top :: post))) :
    ∃ c ∈ mid ++ top :: post, ProperAncestor c.target m.target := by
  have hm : m ∈ table.mounts := by simp [he]
  unfold Visible at hh
  push Not at hh
  obtain ⟨c, hc, hcover⟩ := hh
  by_cases hct : c.target = m.target
  · -- only the topmost mount is at this target, and it is gone
    obtain ⟨x, y, hxy⟩ := append_of_mem hc
    obtain ⟨pre', post', hsplit, hkept, -⟩ := exists_of_keepBy hxy
    have hfilter : (mid ++ top :: post).filter (·.target = m.target) = [top] := by
      rw [forall_mem_append] at hno
      have h1 : mid.filter (·.target = m.target) = [] := by simpa using hno.1
      have h2 : post.filter (·.target = m.target) = [] := by simpa using hno.2
      rw [filter_append, h1, filter_cons_of_pos (by simpa using htop), h2, nil_append]
    have hlast : ∀ z ∈ post', z.target ≠ m.target := by
      rw [hsplit, filter_append, filter_cons_of_pos (by simpa using hct)] at hfilter
      have hlen := congrArg List.length hfilter
      simp only [length_append, length_cons, length_nil] at hlen
      have h0 : post'.filter (·.target = m.target) = [] := eq_nil_of_length_eq_zero (by omega)
      simpa using h0
    exfalso
    apply hkept
    rw [gone_revertTargets table (hct ▸ table.isPath m hm), hct]
    exact Or.inr ⟨hout, hlast⟩
  · exact ⟨c, keepBy_subset _ hc, hcover hct⟩

end Main

def moduleMount (id : BitVec 32) : MountInfo Str where
  id := id
  parent := 1
  device := 1
  root := "/adb/modules/m/system/etc/hosts".toList
  target := "/system/etc/hosts".toList
  vfsOption := "ro".toList
  shared := 0
  master := 0
  propagationFrom := 0
  unbindable := false
  fsType := "ext4".toList
  source := "/dev/block/dm-4".toList
  fsOption := "rw".toList

def stackedTable : MountTable where
  mounts := [moduleMount 30, moduleMount 31]
  isPath := by decide

end Magisk.Mount
