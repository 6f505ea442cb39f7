import Magisk.Cpio.Stored

namespace Magisk.Cpio
open OrderedMap

/-- The loop ends after these actions. -/
inductive Issues : MergeState → List Action → Prop
  | done {st} : mergeStep st = none → Issues st []
  | round {st st' a acts} : mergeStep st = some (a, st') → Issues st' acts → Issues st (a :: acts)

def backedUp : List Action → Items
  | [] => []
  | .backup name entry :: acts => (name, entry) :: backedUp acts
  | .record _ :: acts => backedUp acts
  | .noop :: acts => backedUp acts

/-- The names of the actions that append to the remove list. -/
def recorded : List Action → List Str
  | [] => []
  | .backup _ _ :: acts => recorded acts
  | .record name :: acts => name :: recorded acts
  | .noop :: acts => recorded acts

section Issues

variable {st : MergeState} {acts : List Action}

theorem exists_issues (st : MergeState) : ∃ acts, Issues st acts := by
  induction hn : st.count using Nat.strong_induction_on generalizing st with
  | _ n ih =>
    cases h : mergeStep st with
    | none => exact ⟨[], .done h⟩
    | some r =>
      obtain ⟨a, st'⟩ := r
      have hlt := mergeStep_count h
      rw [hn] at hlt
      obtain ⟨acts, hacts⟩ := ih st'.count hlt st' rfl
      exact ⟨a :: acts, .round h hacts⟩

theorem Issues.scans_eq (h : Issues st acts) (hl : Ascending st.items.1)
    (hr : Ascending st.items.2) : scans st.items = (backedUp acts, recorded acts) := by
  induction h with
  | done h =>
    rw [mergeStep_none h]
    rfl
  | @round st st' a acts h _ ih =>
    obtain ⟨hs, hl', hr'⟩ := (mergeStep_round h).scans_eq hl hr
    rw [hs, ih hl' hr']
    cases a with
    | backup name entry => rfl
    | record name => rfl
    | noop => rfl

theorem issues_mergeStart {o s : Cpio} (h : Issues (mergeStart o s) acts) :
    backedUp acts = (changed o s).toList ∧ recorded acts = newNames o s := by
  have hs := h.scans_eq Std.ExtTreeMap.ordered_keys_toList Std.ExtTreeMap.ordered_keys_toList
  rw [scans_mergeStart, Prod.mk.injEq] at hs
  exact ⟨hs.1.symm, hs.2.symm⟩

end Issues

theorem newNames_ascending (o s : Cpio) :
    (newNames o s).Pairwise fun a b => compare a b = .lt := by
  have hs : s.entries.toList.Pairwise fun a b => compare a.1 b.1 = .lt :=
    Std.ExtTreeMap.ordered_keys_toList
  rw [newNames, List.pairwise_map]
  exact hs.sublist List.filter_sublist

theorem nodup_keys (t : Entries) : (t.toList.map Prod.fst).Nodup := by
  have hs : t.toList.Pairwise fun a b => compare a.1 b.1 = .lt :=
    Std.ExtTreeMap.ordered_keys_toList
  rw [List.Nodup, List.pairwise_map]
  exact hs.imp fun h => ne_of_compare_lt h

/-- The loop ends. It backs up each entry of the origin that the archive lacks or has with other
data, and records each name that the origin lacks, once and in order. The entries of the archive
stay as they are. -/
theorem mergeLoop_actions (xz : Xz) (skipCompress : Bool) (o s : Cpio) :
    ∃ acts, Issues (mergeStart o s) acts ∧
      (∀ n e, (n, e) ∈ backedUp acts ↔
        o.entries[n]? = some e ∧ s.entries[n]?.map CpioEntry.data ≠ some e.data) ∧
      ((backedUp acts).map Prod.fst).Nodup ∧
      (∀ n, n ∈ recorded acts ↔ n ∈ s.entries ∧ n ∉ o.entries) ∧
      (recorded acts).Pairwise (fun a b => compare a b = .lt) ∧
      (∀ backups rmList, mergeLoop xz skipCompress (mergeStart o s) (backups, rmList) =
        (backups.insertMany ((backedUp acts).map (backupEntry xz skipCompress)),
          rmList ++ nulSeparated (recorded acts))) ∧
      ∀ n, n ≠ ".backup".toList → (∀ m, n ≠ backupDir ++ m) →
        (s.entries.insertMany (mergeLoop xz skipCompress (mergeStart o s)
          ((∅ : Entries).insert ".backup".toList ⟨sIFDIR, 0, 0, 0, 0, []⟩, [])).1.toList)[n]? =
            s.entries[n]? := by
  obtain ⟨acts, h⟩ := exists_issues (mergeStart o s)
  obtain ⟨hb, hr⟩ := issues_mergeStart h
  have hloop : ∀ backups rmList, mergeLoop xz skipCompress (mergeStart o s) (backups, rmList) =
      (backups.insertMany ((backedUp acts).map (backupEntry xz skipCompress)),
        rmList ++ nulSeparated (recorded acts)) := by
    intro backups rmList
    rw [hb, hr, mergeLoop_mergeStart]
  refine ⟨acts, h, fun n e => ?_, ?_, fun n => ?_, ?_, hloop, fun n hn hm => ?_⟩
  · rw [hb, Std.ExtTreeMap.mem_toList_iff_getElem?_eq_some, changed_eq_some]
  · rw [hb]
    exact nodup_keys _
  · rw [hr, mem_newNames]
  · rw [hr]
    exact newNames_ascending o s
  · have hout := backupsOf_outside xz skipCompress (o := o) (s := s) hn hm
    rw [hloop, hb, getElem?_insertMany_toList]
    exact (congrArg (·.or s.entries[n]?) hout).trans Option.none_or

end Magisk.Cpio
