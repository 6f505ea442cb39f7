import Magisk.Cpio.Merge
import Magisk.OrderedMap

namespace Magisk.Cpio

open List
open OrderedMap

def NoBackup (c : Cpio) : Prop :=
  ".backup".toList ∉ c.entries ∧ ∀ m, backupDir ++ m ∉ c.entries

def Normalized (c : Cpio) : Prop := ∀ n ∈ c.entries, normPath n = n

theorem normPath_backup : normPath ".backup".toList = ".backup".toList := by decide

theorem backup_ne (m : Str) : ".backup".toList ≠ backupDir ++ m := by
  intro h
  have hl := congrArg List.length h
  rw [length_append, show ".backup".toList.length = 7 by decide,
    show backupDir.length = 8 by decide] at hl
  omega

theorem isPrefixOf_backupDir {n : Str} : backupDir.isPrefixOf n ↔ ∃ m, n = backupDir ++ m := by
  refine isPrefixOf_iff_prefix.trans ?_
  exact ⟨fun ⟨m, h⟩ => ⟨m, h.symm⟩, fun ⟨m, h⟩ => ⟨m, h.symm⟩⟩

theorem isSuffixOf_backupDir {m : Str} :
    xzSuffix.isSuffixOf (backupDir ++ m) ↔ ∃ k, m = k ++ xzSuffix := by
  rw [isSuffixOf_iff_suffix]
  constructor
  · rintro ⟨t, ht⟩
    rcases append_eq_append_iff.mp ht with ⟨k, hk, hm⟩ | ⟨k, -, hm⟩
    · cases k with
      | nil => exact ⟨[], hm.symm⟩
      | cons c k =>
        -- the suffix would take the slash with it
        have hs : '/' ∈ c :: k := by
          have hl := congrArg List.getLast? hk
          rw [getLast?_append_of_ne_nil _ (by simp)] at hl
          exact mem_of_getLast? (hl.symm.trans (by decide))
        have : '/' ∈ xzSuffix := by
          rw [hm]
          exact mem_append_left _ hs
        exact absurd this (by decide)
    · exact ⟨k, hm⟩
  · rintro ⟨k, rfl⟩
    exact ⟨backupDir ++ k, by simp⟩

theorem compare_cons_self (c : Char) (a b : Str) : compare (c :: a) (c :: b) = compare a b := by
  have hc : compare c c = .eq := Std.ReflCmp.compare_self
  have h : compare (c :: a) (c :: b) = (compare c c).then (compare a b) :=
    List.compareLex_cons_cons
  rw [h, hc, Ordering.eq_then]

theorem compare_append_xzSuffix (k : Str) : compare k (k ++ xzSuffix) = .lt := by
  induction k with
  | nil => decide
  | cons c k ih =>
    exact (compare_cons_self c k (k ++ xzSuffix)).trans ih

theorem not_compare_lt {a b : Str} (h : compare a b = .lt) : ¬ compare b a = .lt :=
  Std.OrientedCmp.not_lt_of_lt h

theorem rm_backup {c : Cpio} (h : NoBackup c) : rm c ".backup".toList true = c := by
  apply Cpio.ext
  apply Std.ExtTreeMap.ext_getElem?
  intro k
  rw [rm, normPath_backup]
  simp only [if_true, show ".backup".toList ++ ['/'] = backupDir from rfl]
  rw [Std.ExtTreeMap.getElem?_filter', getElem?_erase_eq]
  split_ifs with hk
  · subst hk
    rw [getElem?_eq_none_iff.mpr h.1]
    rfl
  · cases hv : c.entries[k]? with
    | none => rfl
    | some v =>
      have hp : ¬ backupDir.isPrefixOf k := by
        intro hp
        obtain ⟨m, rfl⟩ := isPrefixOf_backupDir.mp hp
        exact h.2 m (mem_iff_exists.mpr ⟨v, hv⟩)
      simp [Option.filter, hp]

section Backup

variable (xz : Xz) (skip : Bool) (o s : Cpio)

/-- The entries of the origin whose data the archive does not hold. -/
def changed : Entries :=
  o.entries.filter fun n e => decide (s.entries[n]?.map (·.data) ≠ some e.data)

/-- The names of the archive that the origin does not have. -/
def newNames : List Str := (s.entries.toList.filter (newIn o.entries.toList)).map Prod.fst

theorem changed_toList :
    (changed o s).toList = o.entries.toList.filter (changedIn s.entries.toList) := by
  rw [changed, Std.ExtTreeMap.toList_filter]
  refine filter_congr fun ne _ => ?_
  rw [Bool.eq_iff_iff]
  simp only [changedIn, decide_eq_true_eq, List.all_eq_true, Prod.forall,
    Std.ExtTreeMap.mem_toList_iff_getElem?_eq_some]
  constructor
  · rintro h a e he rfl hd
    rw [he, ← hd] at h
    exact h rfl
  · intro h he
    cases hs : s.entries[ne.1]? with
    | none => rw [hs] at he; cases he
    | some e =>
      rw [hs] at he
      exact h _ _ hs rfl (Option.some.inj he)

variable {n k m : Str} {e v : CpioEntry} {origin : Bytes}

theorem mem_newNames : n ∈ newNames o s ↔ n ∈ s.entries ∧ n ∉ o.entries := by
  simp only [newNames, List.mem_map, mem_filter, newIn, List.all_eq_true, decide_eq_true_eq,
    Prod.forall, Prod.exists, Std.ExtTreeMap.mem_toList_iff_getElem?_eq_some, exists_and_right,
    exists_eq_right]
  rw [← mem_iff_exists]
  refine and_congr_right fun _ => ⟨fun hn ho => ?_, fun ho a e he => ?_⟩
  · obtain ⟨e, he⟩ := mem_iff_exists.mp ho
    exact hn n e he rfl
  · rintro rfl
    exact ho (mem_iff_exists.mpr ⟨e, he⟩)

def mergeStart : MergeState := ⟨none, o.entries.toList, none, s.entries.toList⟩

theorem scans_mergeStart : scans (mergeStart o s).items = ((changed o s).toList, newNames o s) := by
  rw [changed_toList]
  rfl

theorem mergeLoop_mergeStart (acc : Entries × Str) :
    mergeLoop xz skip (mergeStart o s) acc =
      (acc.1.insertMany ((changed o s).toList.map (backupEntry xz skip)),
        acc.2 ++ nulSeparated (newNames o s)) := by
  rw [mergeLoop_eq xz skip (mergeStart o s) acc Std.ExtTreeMap.ordered_keys_toList
    Std.ExtTreeMap.ordered_keys_toList, scans_mergeStart]

/-- The directory and the changed entries, under their backup names. -/
def backupsOf : Entries :=
  ((∅ : Entries).insert ".backup".toList ⟨sIFDIR, 0, 0, 0, 0, []⟩).insertMany
    ((changed o s).toList.map (backupEntry xz skip))

def rmListOf : Str := nulSeparated (newNames o s)

/-- All that `backup` adds to the archive. -/
def addedBy : Entries :=
  if rmListOf o s ≠ [] then
    (backupsOf xz skip o s).insert (backupDir ++ rmlistFile)
      ⟨sIFREG, 0, 0, 0, 0, asBytes (rmListOf o s)⟩
  else backupsOf xz skip o s

variable {o s}

theorem changed_eq_some :
    (changed o s)[k]? = some e ↔
      o.entries[k]? = some e ∧ s.entries[k]?.map CpioEntry.data ≠ some e.data := by
  rw [changed, Std.ExtTreeMap.getElem?_filter', Option.filter_eq_some_iff, decide_eq_true_iff]

theorem backup_of_load (ho : loadFromData origin = .ok o) :
    backup xz s origin skip =
      .ok ⟨(rm s ".backup".toList true).entries.insertMany
        (addedBy xz skip (rm o ".backup".toList true)
          (rm s ".backup".toList true)).toList⟩ := by
  rw [backup, ho]
  show Except.ok _ = _
  generalize rm o ".backup".toList true = o
  generalize rm s ".backup".toList true = s
  have hm := mergeLoop_mergeStart xz skip o s
    ((∅ : Entries).insert ".backup".toList ⟨sIFDIR, 0, 0, 0, 0, []⟩, [])
  rw [nil_append] at hm
  unfold mergeStart at hm
  rw [hm]
  rfl

theorem backup_eq (ho : loadFromData origin = .ok o) (hno : NoBackup o) (hns : NoBackup s) :
    backup xz s origin skip =
      .ok ⟨s.entries.insertMany (addedBy xz skip o s).toList⟩ := by
  rw [backup_of_load xz skip ho, rm_backup hno, rm_backup hns]

theorem backupEntry_eq_some {ne : Str × CpioEntry}
    (h : backupEntry xz skip ne = (backupDir ++ m, v)) :
    (m = ne.1 ∧ packed xz skip ne.2 = none ∧ v = ne.2) ∨
      (m = ne.1 ++ xzSuffix ∧ packed xz skip ne.2 = some v) := by
  unfold backupEntry at h
  split at h
  · rename_i e he
    obtain ⟨hm, rfl⟩ := Prod.mk.inj h
    exact .inr ⟨(append_cancel_left hm).symm, he⟩
  · rename_i he
    obtain ⟨hm, rfl⟩ := Prod.mk.inj h
    exact .inl ⟨(append_cancel_left hm).symm, he, rfl⟩

theorem backupsOf_eq : backupsOf xz skip o s =
    ((∅ : Entries).insert ".backup".toList ⟨sIFDIR, 0, 0, 0, 0, []⟩).insertMany
      ((changed o s).toList.filterMap (some ∘ backupEntry xz skip)) := by
  rw [backupsOf, filterMap_eq_map]

/-- An entry that was not compressed is stored under its own name, even when the
compressed one of another entry has it too. -/
theorem backupsOf_raw (h : (changed o s)[m]? = some e) (hp : packed xz skip e = none) :
    (backupsOf xz skip o s)[backupDir ++ m]? = some e := by
  rw [backupsOf_eq]
  refine collect_some _ _ _ h (by simp [backupEntry, hp]) ?_
  rintro b w - hlt w' hw
  rcases backupEntry_eq_some xz skip (Option.some.inj hw) with ⟨rfl, -, -⟩ | ⟨rfl, -⟩
  · exact ne_of_compare_lt hlt rfl
  · exact not_compare_lt hlt (compare_append_xzSuffix b)

theorem backupsOf_packed (h : (changed o s)[k]? = some e) (hp : packed xz skip e = some v)
    (hr : ∀ w, (changed o s)[k ++ xzSuffix]? = some w → packed xz skip w ≠ none) :
    (backupsOf xz skip o s)[backupDir ++ (k ++ xzSuffix)]? = some v := by
  rw [backupsOf_eq]
  refine collect_some _ _ _ h (by simp [backupEntry, hp]) ?_
  rintro b w hb hlt w' hw
  rcases backupEntry_eq_some xz skip (Option.some.inj hw) with ⟨rfl, hn, -⟩ | ⟨he, -⟩
  · exact hr w hb hn
  · exact ne_of_compare_lt hlt (append_cancel_right he)

theorem backupsOf_none (hr : ∀ w, (changed o s)[m]? = some w → packed xz skip w ≠ none)
    (hp : ∀ k w, m = k ++ xzSuffix → (changed o s)[k]? = some w →
      packed xz skip w = none) :
    (backupsOf xz skip o s)[backupDir ++ m]? = none := by
  rw [backupsOf_eq, collect_none, getElem?_insert_eq, if_neg (backup_ne m)]
  · simp
  · rintro a v ha v' hv
    rcases backupEntry_eq_some xz skip (Option.some.inj hv) with ⟨rfl, hn, -⟩ | ⟨he, hs⟩
    · exact hr v ha hn
    · rw [hp a v he ha] at hs
      cases hs

theorem backupsOf_outside (hn : n ≠ ".backup".toList) (hb : ∀ m, n ≠ backupDir ++ m) :
    (backupsOf xz skip o s)[n]? = none := by
  rw [backupsOf_eq, collect_none, getElem?_insert_eq, if_neg hn.symm]
  · simp
  · rintro a v - v' hv
    have h := congrArg Prod.fst (Option.some.inj hv)
    unfold backupEntry at h
    split at h
    · exact hb _ h.symm
    · exact hb _ h.symm

end Backup

end Magisk.Cpio
