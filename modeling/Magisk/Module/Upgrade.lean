import Magisk.Module.Each

namespace Magisk.Module

open List

/-- An entry of the module root or of the upgrade directory, with the paths in a directory. -/
inductive Node where
  | dir (files : List Str)
  | file
  deriving DecidableEq, Repr

abbrev Entries := AList fun _ : Str => Node

structure Disk where
  root : Entries
  upgrade : Entries
  deriving DecidableEq

/-- Where the function is, with its local variables. -/
inductive Pc where
  | scan
  | clear (name : Str) (disable : Bool)
  | move (name : Str) (disable : Bool)
  | mark (name : Str)
  | clean
  | done
  deriving DecidableEq, Repr

structure Config where
  disk : Disk
  pc : Pc
  deriving DecidableEq

/-- The operations, in whatever order the directories are listed. -/
inductive Event where
  | read (name : Str)
  | readEnd
  | removeFile (path : Str)
  | removeDir
  | rename
  | createDisable
  | removeEntry (name : Str)
  | removeUpgrade
  deriving DecidableEq, Repr

/-- One operation that succeeds. One that fails ends the function, as a loss of power does. -/
def step (c : Config) (e : Event) : Option Config :=
  let d := c.disk
  match c.pc, e with
  | .scan, .read name =>
    -- what is no directory is passed over
    match d.upgrade.lookup name, d.root.lookup name with
    | some (.dir _), none => some ⟨d, .move name false⟩
    | some (.dir _), some (.dir files) => some ⟨d, .clear name (File.disable ∈ files)⟩
    | _, _ => none
  | .scan, .readEnd =>
    if ∀ name ∈ d.upgrade.keys, d.upgrade.lookup name = some .file then some ⟨d, .clean⟩ else none
  | .clear name disable, .removeFile path =>
    match d.root.lookup name with
    | some (.dir files) =>
      if path ∈ files then
        some ⟨{ d with root := d.root.insert name (.dir (files.filter (· ≠ path))) },
          .clear name disable⟩
      else none
    | _ => none
  | .clear name disable, .removeDir =>
    if d.root.lookup name = some (.dir []) then
      some ⟨{ d with root := d.root.erase name }, .move name disable⟩
    else none
  | .move name disable, .rename =>
    match d.upgrade.lookup name with
    | some node =>
      some ⟨⟨d.root.insert name node, d.upgrade.erase name⟩, if disable then .mark name else .scan⟩
    | none => none
  | .mark name, .createDisable =>
    match d.root.lookup name with
    | some (.dir files) =>
      some ⟨{ d with root := d.root.insert name (.dir (files.insert File.disable)) }, .scan⟩
    | _ => none
  | .clean, .removeEntry name => some ⟨{ d with upgrade := d.upgrade.erase name }, .clean⟩
  | .clean, .removeUpgrade => if d.upgrade.keys = [] then some ⟨d, .done⟩ else none
  | _, _ => none

/-- A run of the function up to the point where it stops. -/
def run (d : Disk) (events : List Event) : Option Config := runAll step ⟨d, .scan⟩ events

/-- Boots at which the function stops early, with what they leave on disk, and one at which it
completes. -/
inductive Boots : Disk → List Disk → Disk → Prop
  | complete {d d' : Disk} {events : List Event} (h : run d events = some ⟨d', .done⟩) :
      Boots d [] d'
  | stop {d d₁ d' : Disk} {pc : Pc} {stops : List Disk} {events : List Event}
      (h : run d events = some ⟨d₁, pc⟩) (rest : Boots d₁ stops d') : Boots d (d₁ :: stops) d'

/-- The module is in the module root with a disable file. -/
def Disk.Disabled (d : Disk) (name : Str) : Prop :=
  ∃ files, d.root.lookup name = some (.dir files) ∧ File.disable ∈ files

/-- The upgraded version of a module that `files` were waiting for. -/
def Disk.Upgraded (d : Disk) (name : Str) (files : List Str) : Prop :=
  ∃ files', d.root.lookup name = some (.dir files') ∧ files ⊆ files'

/-- All that one operation can do. -/
inductive Does : Config → Config → Prop
  | fresh {root upgrade : Entries} {name : Str} {files : List Str}
      (hu : upgrade.lookup name = some (.dir files)) (hr : root.lookup name = none) :
      Does ⟨⟨root, upgrade⟩, .scan⟩ ⟨⟨root, upgrade⟩, .move name false⟩
  | replace {root upgrade : Entries} {name : Str} {files old : List Str}
      (hu : upgrade.lookup name = some (.dir files)) (hr : root.lookup name = some (.dir old)) :
      Does ⟨⟨root, upgrade⟩, .scan⟩ ⟨⟨root, upgrade⟩, .clear name (File.disable ∈ old)⟩
  | readEnd {root upgrade : Entries}
      (hu : ∀ name ∈ upgrade.keys, upgrade.lookup name = some .file) :
      Does ⟨⟨root, upgrade⟩, .scan⟩ ⟨⟨root, upgrade⟩, .clean⟩
  | removeFile {root upgrade : Entries} {name path : Str} {disable : Bool} {old : List Str}
      (hr : root.lookup name = some (.dir old)) :
      Does ⟨⟨root, upgrade⟩, .clear name disable⟩
        ⟨⟨root.insert name (.dir (old.filter (· ≠ path))), upgrade⟩, .clear name disable⟩
  | removeDir {root upgrade : Entries} {name : Str} {disable : Bool} :
      Does ⟨⟨root, upgrade⟩, .clear name disable⟩
        ⟨⟨root.erase name, upgrade⟩, .move name disable⟩
  | rename {root upgrade : Entries} {name : Str} {disable : Bool} {node : Node}
      (hu : upgrade.lookup name = some node) :
      Does ⟨⟨root, upgrade⟩, .move name disable⟩
        ⟨⟨root.insert name node, upgrade.erase name⟩, if disable then .mark name else .scan⟩
  | createDisable {root upgrade : Entries} {name : Str} {files : List Str}
      (hr : root.lookup name = some (.dir files)) :
      Does ⟨⟨root, upgrade⟩, .mark name⟩
        ⟨⟨root.insert name (.dir (files.insert File.disable)), upgrade⟩, .scan⟩
  | removeEntry {root upgrade : Entries} {name : Str} :
      Does ⟨⟨root, upgrade⟩, .clean⟩ ⟨⟨root, upgrade.erase name⟩, .clean⟩
  | removeUpgrade {root upgrade : Entries} :
      Does ⟨⟨root, upgrade⟩, .clean⟩ ⟨⟨root, upgrade⟩, .done⟩

theorem does_of_step {c c' : Config} {e : Event} (h : step c e = some c') : Does c c' := by
  obtain ⟨⟨root, upgrade⟩, pc⟩ := c
  cases pc with
  | scan =>
    cases e with
    | read name =>
      simp only [step] at h
      split at h
      · cases h
        exact .fresh ‹_› ‹_›
      · cases h
        exact .replace ‹_› ‹_›
      · cases h
    | readEnd =>
      simp only [step] at h
      split_ifs at h with hu
      cases h
      exact .readEnd hu
    | _ => cases h
  | clear name disable =>
    cases e with
    | removeFile path =>
      simp only [step] at h
      split at h
      · split_ifs at h
        cases h
        exact .removeFile ‹_›
      · cases h
    | removeDir =>
      simp only [step] at h
      split_ifs at h
      cases h
      exact .removeDir
    | _ => cases h
  | move name disable =>
    cases e with
    | rename =>
      simp only [step] at h
      split at h
      · cases h
        exact .rename ‹_›
      · cases h
    | _ => cases h
  | mark name =>
    cases e with
    | createDisable =>
      simp only [step] at h
      split at h
      · cases h
        exact .createDisable ‹_›
      · cases h
    | _ => cases h
  | clean =>
    cases e with
    | removeEntry name =>
      cases h
      exact .removeEntry
    | removeUpgrade =>
      simp only [step] at h
      split_ifs at h
      cases h
      exact .removeUpgrade
    | _ => cases h
  | done => cases e <;> cases h

/-- Where the function is, as far as one module is concerned. -/
inductive At where
  | away
  | clear (disable : Bool)
  | move (disable : Bool)
  | mark
  | clean
  | done
  deriving DecidableEq

def Pc.at (n : Str) : Pc → At
  | .scan => .away
  | .clear name disable => if name = n then .clear disable else .away
  | .move name disable => if name = n then .move disable else .away
  | .mark name => if name = n then .mark else .away
  | .clean => .clean
  | .done => .done

/-- What concerns one module. -/
structure View where
  root : Option Node
  upgrade : Option Node
  pc : At

def Config.view (n : Str) (c : Config) : View :=
  ⟨c.disk.root.lookup n, c.disk.upgrade.lookup n, c.pc.at n⟩

/-- What an operation does to one module. -/
inductive Touches : View → View → Prop
  | other {root upgrade : Option Node} : Touches ⟨root, upgrade, .away⟩ ⟨root, upgrade, .away⟩
  | fresh {files : List Str} :
      Touches ⟨none, some (.dir files), .away⟩ ⟨none, some (.dir files), .move false⟩
  | replace {files old : List Str} :
      Touches ⟨some (.dir old), some (.dir files), .away⟩
        ⟨some (.dir old), some (.dir files), .clear (File.disable ∈ old)⟩
  | readEnd {root upgrade : Option Node} (hu : ∀ files, upgrade ≠ some (.dir files)) :
      Touches ⟨root, upgrade, .away⟩ ⟨root, upgrade, .clean⟩
  | removeFile {upgrade : Option Node} {path : Str} {disable : Bool} {old : List Str} :
      Touches ⟨some (.dir old), upgrade, .clear disable⟩
        ⟨some (.dir (old.filter (· ≠ path))), upgrade, .clear disable⟩
  | removeDir {root upgrade : Option Node} {disable : Bool} :
      Touches ⟨root, upgrade, .clear disable⟩ ⟨none, upgrade, .move disable⟩
  | rename {root : Option Node} {node : Node} {disable : Bool} :
      Touches ⟨root, some node, .move disable⟩
        ⟨some node, none, if disable then .mark else .away⟩
  | createDisable {upgrade : Option Node} {files : List Str} :
      Touches ⟨some (.dir files), upgrade, .mark⟩
        ⟨some (.dir (files.insert File.disable)), upgrade, .away⟩
  | removeEntry {root upgrade : Option Node} : Touches ⟨root, upgrade, .clean⟩ ⟨root, none, .clean⟩
  | clean {root upgrade : Option Node} : Touches ⟨root, upgrade, .clean⟩ ⟨root, upgrade, .clean⟩
  | removeUpgrade {root upgrade : Option Node} :
      Touches ⟨root, upgrade, .clean⟩ ⟨root, upgrade, .done⟩

theorem touches_of_does (n : Str) {c c' : Config} (h : Does c c') :
    Touches (c.view n) (c'.view n) := by
  cases h with
  | @fresh root upgrade name files hu hr =>
    by_cases hn : name = n
    · subst hn
      simpa [Config.view, Pc.at, hu, hr] using Touches.fresh
    · simpa [Config.view, Pc.at, hn] using Touches.other
  | @replace root upgrade name files old hu hr =>
    by_cases hn : name = n
    · subst hn
      simpa [Config.view, Pc.at, hu, hr] using Touches.replace
    · simpa [Config.view, Pc.at, hn] using Touches.other
  | @readEnd root upgrade hu =>
    apply Touches.readEnd
    intro files hf
    have hmem : n ∈ upgrade.keys := AList.lookup_isSome.mp (by rw [hf]; rfl)
    rw [hu n hmem] at hf
    cases hf
  | @removeFile root upgrade name path disable old hr =>
    by_cases hn : name = n
    · subst hn
      simp only [Config.view, Pc.at, hr, AList.lookup_insert, if_true]
      exact Touches.removeFile
    · simpa [Config.view, Pc.at, hn, AList.lookup_insert_ne (Ne.symm hn)] using Touches.other
  | @removeDir root upgrade name disable =>
    by_cases hn : name = n
    · subst hn
      simpa [Config.view, Pc.at] using Touches.removeDir
    · simpa [Config.view, Pc.at, hn, AList.lookup_erase_ne (Ne.symm hn)] using Touches.other
  | @rename root upgrade name disable node hu =>
    by_cases hn : name = n
    · subst hn
      cases disable
      · simpa [Config.view, Pc.at, hu] using @Touches.rename (root.lookup name) node false
      · simpa [Config.view, Pc.at, hu] using @Touches.rename (root.lookup name) node true
    · cases disable
      all_goals
        simpa [Config.view, Pc.at, hn, AList.lookup_erase_ne (Ne.symm hn),
          AList.lookup_insert_ne (Ne.symm hn)] using Touches.other
  | @createDisable root upgrade name files hr =>
    by_cases hn : name = n
    · subst hn
      simpa [Config.view, Pc.at, hr] using Touches.createDisable
    · simpa [Config.view, Pc.at, hn, AList.lookup_insert_ne (Ne.symm hn)] using Touches.other
  | @removeEntry root upgrade name =>
    by_cases hn : name = n
    · subst hn
      simpa [Config.view, Pc.at] using Touches.removeEntry
    · simpa [Config.view, Pc.at, AList.lookup_erase_ne (Ne.symm hn)] using Touches.clean
  | @removeUpgrade root upgrade => exact Touches.removeUpgrade

def Carries (root : Option Node) : Prop := ∃ files, root = some (.dir files) ∧ File.disable ∈ files

theorem not_carries_none : ¬ Carries none := by
  rintro ⟨files, h, -⟩
  cases h

theorem carries_dir {files : List Str} : Carries (some (.dir files)) ↔ File.disable ∈ files := by
  constructor
  · rintro ⟨files', h, hd⟩
    cases h
    exact hd
  · intro h
    exact ⟨files, rfl, h⟩

section Invariants

variable {files : List Str} {v v' : View}

/-- The new version is waiting, or is in the module root. -/
inductive Tracked (files : List Str) : View → Prop
  | waiting {root : Option Node} {pc : At} (h : pc ≠ .mark ∧ pc ≠ .clean ∧ pc ≠ .done) :
      Tracked files ⟨root, some (.dir files), pc⟩
  | moved {files' : List Str} {pc : At} (h : files ⊆ files')
      (hpc : pc = .away ∨ pc = .mark ∨ pc = .clean ∨ pc = .done) :
      Tracked files ⟨some (.dir files'), none, pc⟩

/-- The module is disabled, or will be when the function has come past it. -/
inductive Kept (files : List Str) : View → Prop
  | waiting {root : Option Node} (h : Carries root) : Kept files ⟨root, some (.dir files), .away⟩
  | clearing {root : Option Node} : Kept files ⟨root, some (.dir files), .clear true⟩
  | moving {root : Option Node} : Kept files ⟨root, some (.dir files), .move true⟩
  | marking {root : Option Node} : Kept files ⟨root, none, .mark⟩
  | moved {root : Option Node} {pc : At} (h : Carries root)
      (hpc : pc = .away ∨ pc = .clean ∨ pc = .done) : Kept files ⟨root, none, pc⟩

/-- Nothing tells any more that the module was disabled. -/
inductive Lost (files : List Str) : View → Prop
  | waiting {root : Option Node} {pc : At} (h : ¬ Carries root)
      (hpc : pc = .away ∨ pc = .clear false ∨ pc = .move false) :
      Lost files ⟨root, some (.dir files), pc⟩
  | moved {root : Option Node} {pc : At} (h : ¬ Carries root)
      (hpc : pc = .away ∨ pc = .clean ∨ pc = .done) : Lost files ⟨root, none, pc⟩

theorem Tracked.step (h : Tracked files v) (hs : Touches v v') : Tracked files v' := by
  cases hs with
  | other => exact h
  | fresh =>
    cases h with
    | waiting h => exact .waiting (by simp)
  | replace =>
    cases h with
    | waiting h => exact .waiting (by simp)
  | readEnd hu =>
    cases h with
    | waiting h => exact absurd rfl (hu files)
    | moved h hpc => exact .moved h (by simp)
  | removeFile =>
    cases h with
    | waiting h => exact .waiting h
    | moved h hpc => simp at hpc
  | removeDir =>
    cases h with
    | waiting h => exact .waiting (by simp)
    | moved h hpc => simp at hpc
  | @rename root node disable =>
    cases h with
    | waiting h =>
      refine .moved (List.Subset.refl _) ?_
      cases disable <;> simp
  | createDisable =>
    cases h with
    | waiting h => simp at h
    | moved h hpc => exact .moved (fun x hx => mem_insert_of_mem (h hx)) (by simp)
  | removeEntry =>
    cases h with
    | waiting h => simp at h
    | moved h hpc => exact .moved h (by simp)
  | clean => exact h
  | removeUpgrade =>
    cases h with
    | waiting h => simp at h
    | moved h hpc => exact .moved h (by simp)

theorem Kept.step (h : Kept files v) (hs : Touches v v') : Kept files v' := by
  cases hs with
  | other => exact h
  | fresh =>
    cases h with
    | waiting h => exact absurd h not_carries_none
  | replace =>
    cases h with
    | waiting h =>
      rw [carries_dir] at h
      simpa [h] using Kept.clearing
  | readEnd hu =>
    cases h with
    | waiting h => exact absurd rfl (hu files)
    | moved h hpc => exact .moved h (by simp)
  | removeFile =>
    cases h with
    | clearing => exact .clearing
    | moved h hpc => simp at hpc
  | removeDir =>
    cases h with
    | clearing => exact .moving
    | moved h hpc => simp at hpc
  | rename =>
    cases h with
    | moving => exact .marking
  | createDisable =>
    cases h with
    | marking => exact .moved (carries_dir.mpr mem_insert_self) (by simp)
    | moved h hpc => simp at hpc
  | removeEntry =>
    cases h with
    | moved h hpc => exact .moved h (by simp)
  | clean => exact h
  | removeUpgrade =>
    cases h with
    | moved h hpc => exact .moved h (by simp)

theorem Lost.step (hf : File.disable ∉ files) (h : Lost files v) (hs : Touches v v') :
    Lost files v' := by
  cases hs with
  | other => exact h
  | fresh =>
    cases h with
    | waiting h hpc => exact .waiting h (by simp)
  | replace =>
    cases h with
    | waiting h hpc =>
      rw [carries_dir] at h
      refine .waiting (carries_dir.not.mpr h) ?_
      simp [h]
  | readEnd hu =>
    cases h with
    | waiting h hpc => exact absurd rfl (hu files)
    | moved h hpc => exact .moved h (by simp)
  | @removeFile upgrade path disable old =>
    have hold (h : ¬ Carries (some (.dir old))) : ¬ Carries (some (.dir (old.filter (· ≠ path)))) := by
      rw [carries_dir] at h ⊢
      exact fun hm => h (mem_of_mem_filter hm)
    cases h with
    | waiting h hpc => exact .waiting (hold h) hpc
    | moved h hpc => exact .moved (hold h) hpc
  | removeDir =>
    cases h with
    | waiting h hpc => exact .waiting not_carries_none (by simpa using hpc)
    | moved h hpc => simp at hpc
  | @rename root node disable =>
    cases h with
    | waiting h hpc =>
      obtain rfl : disable = false := by simpa using hpc
      exact .moved (carries_dir.not.mpr hf) (by simp)
  | createDisable =>
    cases h with
    | waiting h hpc => simp at hpc
    | moved h hpc => simp at hpc
  | removeEntry =>
    cases h with
    | waiting h hpc => simp at hpc
    | moved h hpc => exact .moved h (by simp)
  | clean => exact h
  | removeUpgrade =>
    cases h with
    | waiting h hpc => simp at hpc
    | moved h hpc => exact .moved h (by simp)

end Invariants

section Boots

variable {n : Str} {files : List Str} {d d' : Disk}

theorem run_invariant {P : View → Prop} (hP : ∀ v v', P v → Touches v v' → P v') {events : List Event}
    {c : Config} (h : run d events = some c) (h0 : P (Config.view n ⟨d, .scan⟩)) : P (c.view n) := by
  have ht : Throughout step (fun c => P (c.view n)) ⟨d, .scan⟩ events :=
    throughout_of_invariant (fun s a s' hs hstep => hP _ _ hs (touches_of_does n (does_of_step hstep)))
      h0 events
  exact ht.runAll h

theorem Tracked.restart {c : Config} (h : Tracked files (c.view n)) :
    Tracked files (Config.view n ⟨c.disk, .scan⟩) := by
  unfold Config.view at *
  generalize c.disk.root.lookup n = root at *
  generalize c.disk.upgrade.lookup n = upgrade at *
  cases h with
  | waiting h => exact .waiting (by simp [Pc.at])
  | moved h hpc => exact .moved h (Or.inl rfl)

theorem Lost.restart {c : Config} (h : Lost files (c.view n)) :
    Lost files (Config.view n ⟨c.disk, .scan⟩) := by
  unfold Config.view at *
  generalize c.disk.root.lookup n = root at *
  generalize c.disk.upgrade.lookup n = upgrade at *
  cases h with
  | waiting h => exact .waiting h (Or.inl rfl)
  | moved h hpc => exact .moved h (Or.inl rfl)

theorem Tracked.kept (h : Tracked files (Config.view n ⟨d, .scan⟩)) (hd : d.Disabled n) :
    Kept files (Config.view n ⟨d, .scan⟩) := by
  change Carries (d.root.lookup n) at hd
  unfold Config.view at *
  generalize d.root.lookup n = root at *
  generalize d.upgrade.lookup n = upgrade at *
  cases h with
  | waiting h => exact .waiting hd
  | moved h hpc => exact .moved hd (Or.inl rfl)

theorem Tracked.lost (h : Tracked files (Config.view n ⟨d, .scan⟩)) (hd : ¬ d.Disabled n) :
    Lost files (Config.view n ⟨d, .scan⟩) := by
  change ¬ Carries (d.root.lookup n) at hd
  unfold Config.view at *
  generalize d.root.lookup n = root at *
  generalize d.upgrade.lookup n = upgrade at *
  cases h with
  | waiting h => exact .waiting hd (Or.inl rfl)
  | moved h hpc => exact .moved hd (Or.inl rfl)

theorem Tracked.upgraded (h : Tracked files (Config.view n ⟨d, .done⟩)) : d.Upgraded n files := by
  unfold Config.view at h
  unfold Disk.Upgraded
  generalize d.root.lookup n = root at *
  generalize d.upgrade.lookup n = upgrade at *
  cases h with
  | waiting h => exact absurd rfl h.2.2
  | @moved files' _ h hpc => exact ⟨files', rfl, h⟩

theorem Kept.disabled (h : Kept files (Config.view n ⟨d, .done⟩)) : d.Disabled n := by
  change Carries (d.root.lookup n)
  unfold Config.view Pc.at at h
  generalize d.root.lookup n = root at *
  generalize d.upgrade.lookup n = upgrade at *
  cases h with
  | moved h hpc => exact h

theorem Lost.not_disabled (h : Lost files (Config.view n ⟨d, .done⟩)) : ¬ d.Disabled n := by
  change ¬ Carries (d.root.lookup n)
  unfold Config.view Pc.at at h
  generalize d.root.lookup n = root at *
  generalize d.upgrade.lookup n = upgrade at *
  cases h with
  | waiting h hpc => exact h
  | moved h hpc => exact h

variable {stops : List Disk}

theorem Boots.upgraded (hb : Boots d stops d') (h : Tracked files (Config.view n ⟨d, .scan⟩)) :
    d'.Upgraded n files := by
  induction hb with
  | complete hr => exact (run_invariant (fun _ _ => Tracked.step) hr h).upgraded
  | stop hr _ ih => exact ih (run_invariant (fun _ _ => Tracked.step) hr h).restart

theorem Boots.kept (hb : Boots d stops d') (h : Tracked files (Config.view n ⟨d, .scan⟩))
    (hd : d.Disabled n) (hs : ∀ s ∈ stops, s.Disabled n) : d'.Disabled n := by
  induction hb with
  | complete hr => exact (run_invariant (fun _ _ => Kept.step) hr (h.kept hd)).disabled
  | stop hr _ ih =>
    rw [forall_mem_cons] at hs
    exact ih (run_invariant (fun _ _ => Tracked.step) hr h).restart hs.1 hs.2

theorem Boots.lost (hf : File.disable ∉ files) (hb : Boots d stops d')
    (h : Lost files (Config.view n ⟨d, .scan⟩)) : ¬ d'.Disabled n := by
  induction hb with
  | complete hr => exact (run_invariant (fun _ _ => Lost.step hf) hr h).not_disabled
  | stop hr _ ih => exact ih (run_invariant (fun _ _ => Lost.step hf) hr h).restart

theorem Boots.lost_of_stop (hf : File.disable ∉ files) (hb : Boots d stops d')
    (h : Tracked files (Config.view n ⟨d, .scan⟩)) (hs : ∃ s ∈ stops, ¬ s.Disabled n) :
    ¬ d'.Disabled n := by
  induction hb with
  | complete hr =>
    obtain ⟨s, hs, -⟩ := hs
    cases hs
  | @stop d d₁ d' pc stops events hr rest ih =>
    have ht := (run_invariant (fun _ _ => Tracked.step) hr h).restart
    by_cases hd : d₁.Disabled n
    · apply ih ht
      obtain ⟨s, hmem, hns⟩ := hs
      rcases mem_cons.mp hmem with rfl | hmem
      · exact absurd hd hns
      · exact ⟨s, hmem, hns⟩
    · exact rest.lost hf (ht.lost hd)

end Boots

/-- A disabled module whose new version has no disable file. -/
def sampleDisk : Disk :=
  ⟨(∅ : Entries).insert ['m'] (.dir [File.disable]), (∅ : Entries).insert ['m'] (.dir [['p']])⟩

def upgradedDisk : Disk :=
  ⟨(∅ : Entries).insert ['m'] (.dir [File.disable, ['p']]), ∅⟩

/-- The new version before the disable file is created. -/
def renamedDisk : Disk := ⟨(∅ : Entries).insert ['m'] (.dir [['p']]), ∅⟩

def moveEvents : List Event :=
  [.read ['m'], .removeFile File.disable, .removeDir, .rename]

end Magisk.Module
