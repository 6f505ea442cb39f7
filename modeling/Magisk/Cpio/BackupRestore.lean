import Magisk.Cpio.Restore
import Magisk.Cpio.RoundTrip

namespace Magisk.Cpio

open Option
open OrderedMap

section BackupRestore

variable (xz : Xz) (skip : Bool) (o s : Cpio)

/-- The archive after `backup`. -/
def stored : Cpio := ⟨s.entries.insertMany (addedBy xz skip o s).toList⟩

def SameData (a b : Cpio) : Prop :=
  ∀ n : Str, a.entries[n]?.map CpioEntry.data = b.entries[n]?.map CpioEntry.data

/-- What the file names below `.backup/` and the remove list can represent. -/
structure Restorable : Prop where
  /-- The remove list separates names by NUL and skips empty ones. -/
  named : ∀ n ∈ s.entries, n ∉ o.entries → '\x00' ∉ n ∧ n ≠ []
  /-- An uncompressed copy must not look like a compressed one or like a file of Magisk. -/
  plain : ∀ k e, (changed o s)[k]? = some e → packed xz skip e = none →
    k ≠ rmlistFile ∧ k ≠ magiskFile ∧ ∀ j, k = j ++ xzSuffix → e.decompress xz = none
  /-- The compressed copy of `k` and an uncompressed `k.xz` have one name. -/
  apart : ∀ k e, (changed o s)[k]? = some e → packed xz skip e ≠ none →
    ∀ w, (changed o s)[k ++ xzSuffix]? = some w → packed xz skip w ≠ none

variable {o s}

variable {n k : Str} {e : CpioEntry}

theorem addedBy_of_ne (hn : n ≠ backupDir ++ rmlistFile) :
    (addedBy xz skip o s)[n]? = (backupsOf xz skip o s)[n]? := by
  unfold addedBy
  split_ifs
  · rw [getElem?_insert_eq, if_neg hn.symm]
  · rfl

theorem stored_backupDir (hns : NoBackup s) (m : Str) :
    (stored xz skip o s).entries[backupDir ++ m]? =
      (addedBy xz skip o s)[backupDir ++ m]? := by
  rw [stored, getElem?_insertMany_toList, getElem?_eq_none_iff.mpr (hns.2 m), or_none]

theorem stored_of_ne (hns : NoBackup s) {m : Str} (hm : m ≠ rmlistFile) :
    (stored xz skip o s).entries[backupDir ++ m]? =
      (backupsOf xz skip o s)[backupDir ++ m]? := by
  rw [stored_backupDir xz skip hns,
    addedBy_of_ne xz skip fun h => hm (List.append_cancel_left h)]

theorem rmListIn_stored (hns : NoBackup s)
    (hp : rmListOf o s = [] →
      ∀ e, (changed o s)[rmlistFile]? = some e → packed xz skip e ≠ none) :
    rmListIn (stored xz skip o s) = rmListOf o s := by
  have hx : ¬ xzSuffix <:+ rmlistFile := by decide
  rw [rmListIn, stored_backupDir xz skip hns, addedBy]
  split_ifs with h
  · simp [fromUtf8_asBytes]
  · rw [not_not] at h
    rw [backupsOf_none xz skip (hp h) fun k w hk _ => absurd ⟨k, hk.symm⟩ hx, h]
    rfl

theorem outside_stored (hns : NoBackup s) (k : Str) :
    (outside (stored xz skip o s)).entries[k]? = s.entries[k]? := by
  rw [outside, getElem?_rm, normPath_backup, Std.ExtTreeMap.getElem?_filter']
  split_ifs with hk
  · rw [← hk, getElem?_eq_none_iff.mpr hns.1]
  · by_cases hb : ∃ m, k = backupDir ++ m
    · obtain ⟨m, rfl⟩ := hb
      rw [getElem?_eq_none_iff.mpr (hns.2 m)]
      simp [isPrefixOf_backupDir.mpr ⟨m, rfl⟩]
    · have hp : ¬ backupDir.isPrefixOf k := fun h => hb (isPrefixOf_backupDir.mp h)
      rw [not_exists] at hb
      rw [stored, getElem?_insertMany_toList, addedBy_of_ne xz skip (hb _),
        backupsOf_outside xz skip (Ne.symm hk) hb, none_or]
      cases s.entries[k]? with
      | none => rfl
      | some v => simp [Option.filter, hp]

theorem getElem?_restore (hns : NoBackup s) (k : Str) :
    (restore xz (stored xz skip o s)).entries[k]? =
      if rmListIn (stored xz skip o s) = [] ∧
        (restoredOf xz (stored xz skip o s)).isEmpty then none
      else (restoredOf xz (stored xz skip o s))[k]?.or
        (if k ∈ (rmNames (rmListIn (stored xz skip o s))).map normPath then none
          else s.entries[k]?) := by
  rw [restore_eq]
  split_ifs with h hk
  · simp [new]
  · rw [getElem?_insertMany_toList, getElem?_rmAll, if_pos hk]
  · rw [getElem?_insertMany_toList, getElem?_rmAll, if_neg hk, outside_stored xz skip hns]

theorem data_eq_of_unchanged (hc : (changed o s)[k]? = none) (hk : k ∈ s.entries → k ∈ o.entries) :
    s.entries[k]?.map CpioEntry.data = o.entries[k]?.map CpioEntry.data := by
  cases ho : o.entries[k]? with
  | none =>
    have hs : k ∉ s.entries := fun hs => getElem?_eq_none_iff.mp ho (hk hs)
    rw [getElem?_eq_none_iff.mpr hs]
  | some e =>
    by_contra hne
    rw [changed_eq_some.mpr ⟨ho, hne⟩] at hc
    cases hc

theorem not_sameData_of_lost (hns : NoBackup s) (hk : (changed o s)[k]? = some e)
    (hr : (restoredOf xz (stored xz skip o s))[k]? = none) :
    ¬ SameData (restore xz (stored xz skip o s)) o := by
  intro h
  obtain ⟨ho, hne⟩ := changed_eq_some.mp hk
  have hk := h k
  rw [getElem?_restore xz skip hns, hr, none_or, ho] at hk
  split_ifs at hk
  · cases hk
  · cases hk
  · exact hne hk

theorem packed_decompress (hxz : ∀ d z, xz.compress d = some z → xz.decompress z = some d)
    {e v : CpioEntry} (h : packed xz skip e = some v) : v.decompress xz = some e := by
  unfold packed CpioEntry.compress at h
  split_ifs at h with hs hr
  obtain ⟨z, hz, rfl⟩ := map_eq_some_iff.mp h
  have hreg : CpioEntry.regular { e with data := z } := hr
  simp [CpioEntry.decompress, hreg, hxz _ _ hz]

/-- What stands at `m` below `.backup/`: an uncompressed entry, or a compressed one that no
uncompressed one replaces. -/
theorem stored_inv (hns : NoBackup s) {m : Str} {v : CpioEntry} (hm : m ≠ rmlistFile)
    (h : (stored xz skip o s).entries[backupDir ++ m]? = some v) :
    ((changed o s)[m]? = some v ∧ packed xz skip v = none) ∨
      ∃ k e, m = k ++ xzSuffix ∧ (changed o s)[k]? = some e ∧
        packed xz skip e = some v := by
  rw [stored_of_ne xz skip hns hm] at h
  by_cases hraw : ∃ w, (changed o s)[m]? = some w ∧ packed xz skip w = none
  · obtain ⟨w, hw, hp⟩ := hraw
    rw [backupsOf_raw xz skip hw hp] at h
    cases h
    exact .inl ⟨hw, hp⟩
  · have hraw : ∀ w, (changed o s)[m]? = some w → packed xz skip w ≠ none :=
      fun w hw hp => hraw ⟨w, hw, hp⟩
    by_cases hpk : ∃ k e, m = k ++ xzSuffix ∧ (changed o s)[k]? = some e ∧
        packed xz skip e ≠ none
    · obtain ⟨k, e, rfl, he, hp⟩ := hpk
      obtain ⟨w, hw⟩ := ne_none_iff_exists'.mp hp
      rw [backupsOf_packed xz skip he hw hraw] at h
      cases h
      exact .inr ⟨k, e, rfl, he, hw⟩
    · rw [backupsOf_none xz skip hraw] at h
      · cases h
      · intro k e hk he
        by_contra hp
        exact hpk ⟨k, e, hk, he, hp⟩

/-- Nothing is decompressed to `k` when `k` has no compressed copy and an uncompressed `k.xz`
holds no XZ data. -/
theorem stored_not_decompressed (hns : NoBackup s)
    (hk : ∀ e, (changed o s)[k]? = some e → packed xz skip e ≠ none →
      ∃ w, (changed o s)[k ++ xzSuffix]? = some w ∧ packed xz skip w = none)
    (hx : ∀ w, (changed o s)[k ++ xzSuffix]? = some w → packed xz skip w = none →
      w.decompress xz = none)
    (v : CpioEntry)
    (hv : (stored xz skip o s).entries[backupDir ++ (k ++ xzSuffix)]? = some v) :
    v.decompress xz = none := by
  rcases stored_inv xz skip hns (append_xzSuffix_ne k).1 hv with ⟨hv, hp⟩ | ⟨j, e, hj, he, hp⟩
  · exact hx v hv hp
  · obtain rfl := List.append_cancel_right hj
    obtain ⟨w, hw, hwp⟩ := hk e he (by simp [hp])
    rw [stored_of_ne xz skip hns (append_xzSuffix_ne k).1,
      backupsOf_raw xz skip hw hwp] at hv
    cases hv
    exact hx v hw hwp

/-- When `k` is not restored: no copy decompresses to it, and an uncompressed copy is one that
`restore` reads as something else. -/
theorem restoredOf_stored_none (hxz : ∀ d z, xz.compress d = some z → xz.decompress z = some d)
    (hns : NoBackup s)
    (hk : ∀ e, (changed o s)[k]? = some e → packed xz skip e = none →
      k = rmlistFile ∨ k = magiskFile ∨ ∃ j, k = j ++ xzSuffix ∧ e.decompress xz ≠ none)
    (hx : ∀ v, (stored xz skip o s).entries[backupDir ++ (k ++ xzSuffix)]? = some v →
      v.decompress xz = none) :
    (restoredOf xz (stored xz skip o s))[k]? = none := by
  refine restoredOf_none xz (fun v hv => ?_) hx
  by_cases hr : k = rmlistFile
  · exact .inl hr
  rcases stored_inv xz skip hns hr hv with ⟨hv, hp⟩ | ⟨j, e, hj, he, hp⟩
  · exact hk v hv hp
  · exact .inr (.inr ⟨j, hj, by simp [packed_decompress xz skip hxz hp]⟩)

theorem rmListOf_ne_nil (hs : n ∈ s.entries) (ho : n ∉ o.entries) : rmListOf o s ≠ [] := by
  intro h
  have := List.flatMap_eq_nil_iff.mp h n ((mem_newNames o s).mpr ⟨hs, ho⟩)
  simp at this

theorem mem_removed (hn : Normalized s) (h0 : ∀ n ∈ newNames o s, '\x00' ∉ n) :
    k ∈ (rmNames (rmListOf o s)).map normPath ↔ k ∈ newNames o s ∧ k ≠ [] := by
  simp only [List.mem_map, rmListOf, mem_rmNames h0]
  constructor
  · rintro ⟨p, ⟨hp, hp0⟩, rfl⟩
    rw [hn p ((mem_newNames o s).mp hp).1]
    exact ⟨hp, hp0⟩
  · rintro ⟨hk, hk0⟩
    exact ⟨k, ⟨hk, hk0⟩, hn k ((mem_newNames o s).mp hk).1⟩

theorem named_of_sameData (hns : NoBackup s) (hn : Normalized s)
    (h : SameData (restore xz (stored xz skip o s)) o) (hs : n ∈ s.entries)
    (ho : n ∉ o.entries) : '\x00' ∉ n ∧ n ≠ [] := by
  -- a new name is gone from the restored archive, so it was removed
  have hrm : ∀ n ∈ newNames o s, n ∈ (rmNames (rmListOf o s)).map normPath := by
    intro n hnew
    obtain ⟨hs, ho⟩ := (mem_newNames o s).mp hnew
    have hl := rmListOf_ne_nil hs ho
    obtain ⟨e, he⟩ := mem_iff_exists.mp hs
    have hk := h n
    rw [getElem?_restore xz skip hns,
      rmListIn_stored xz skip hns fun h0 => absurd h0 hl, if_neg fun h0 => hl h0.1,
      getElem?_eq_none_iff.mpr ho, map_none, map_eq_none_iff,
      or_eq_none_iff] at hk
    by_contra hrm
    rw [if_neg hrm, he] at hk
    cases hk.2
  have hnew := (mem_newNames o s).mpr ⟨hs, ho⟩
  have h0 : ∀ n ∈ newNames o s, '\x00' ∉ n := fun n hn => nul_notMem_of_removed (hrm n hn)
  exact ⟨h0 n hnew, ((mem_removed hn h0).mp (hrm n hnew)).2⟩

theorem exists_length_le (c : Cpio) : ∃ N, ∀ n ∈ c.entries, n.length ≤ N := by
  refine ⟨(c.entries.toList.map fun p => p.1.length).sum, fun n hn => ?_⟩
  obtain ⟨e, he⟩ := mem_iff_exists.mp hn
  exact List.le_sum_of_mem (List.mem_map.mpr
    ⟨(n, e), Std.ExtTreeMap.mem_toList_iff_getElem?_eq_some.mpr he, rfl⟩)

theorem mem_of_changed (h : (changed o s)[k]? = some e) :
    k ∈ o.entries :=
  mem_iff_exists.mpr ⟨e, (changed_eq_some.mp h).1⟩

/-- No uncompressed `.xz` file holds XZ data. Otherwise the one with the longest name is lost. -/
theorem not_xz_of_sameData (hxz : ∀ d z, xz.compress d = some z → xz.decompress z = some d)
    (hns : NoBackup s) (h : SameData (restore xz (stored xz skip o s)) o) {k j : Str}
    (hk : (changed o s)[k]? = some e) (hp : packed xz skip e = none)
    (hj : k = j ++ xzSuffix) : e.decompress xz = none := by
  obtain ⟨N, hN⟩ := exists_length_le o
  obtain ⟨d, hd⟩ : ∃ d, N < k.length + d := ⟨N + 1, by omega⟩
  induction d generalizing k j e with
  | zero =>
    have := hN k (mem_of_changed hk)
    omega
  | succ d ih =>
    have hx : ∀ w, (changed o s)[k ++ xzSuffix]? = some w → packed xz skip w = none →
        w.decompress xz = none := by
      intro w hw hwp
      refine ih hw hwp rfl ?_
      rw [List.length_append, show xzSuffix.length = 3 by decide]
      omega
    by_contra hne
    refine not_sameData_of_lost xz skip hns hk
      (restoredOf_stored_none xz skip hxz hns ?_ ?_) h
    · intro w hw _
      rw [hk] at hw
      cases hw
      exact .inr (.inr ⟨j, hj, hne⟩)
    · refine stored_not_decompressed xz skip hns (fun w hw hwp => ?_) hx
      rw [hk] at hw
      cases hw
      exact absurd hp hwp

theorem restorable_of_sameData (hxz : ∀ d z, xz.compress d = some z → xz.decompress z = some d)
    (hns : NoBackup s) (hn : Normalized s)
    (h : SameData (restore xz (stored xz skip o s)) o) :
    Restorable xz skip o s where
  named n hs ho := named_of_sameData xz skip hns hn h hs ho
  plain k e hk hp := by
    have hx : ∀ w, (changed o s)[k ++ xzSuffix]? = some w → packed xz skip w = none →
        w.decompress xz = none :=
      fun w hw hwp => not_xz_of_sameData xz skip hxz hns h hw hwp rfl
    have hread : ¬ (k = rmlistFile ∨ k = magiskFile) := by
      intro hk'
      refine not_sameData_of_lost xz skip hns hk
        (restoredOf_stored_none xz skip hxz hns ?_ ?_) h
      · exact fun w _ _ => hk'.imp_right .inl
      · refine stored_not_decompressed xz skip hns (fun w hw hwp => ?_) hx
        rw [hk] at hw
        cases hw
        exact absurd hp hwp
    rw [not_or] at hread
    exact ⟨hread.1, hread.2, fun j hj => not_xz_of_sameData xz skip hxz hns h hk hp hj⟩
  apart k e hk hp w hw hwp := by
    refine not_sameData_of_lost xz skip hns hk
      (restoredOf_stored_none xz skip hxz hns ?_ ?_) h
    · intro e' he' hp'
      rw [hk] at he'
      cases he'
      exact absurd hp' hp
    · exact stored_not_decompressed xz skip hns (fun _ _ _ => ⟨w, hw, hwp⟩)
        fun w hw hwp => not_xz_of_sameData xz skip hxz hns h hw hwp rfl

theorem restoredOf_stored (hxz : ∀ d z, xz.compress d = some z → xz.decompress z = some d)
    (hns : NoBackup s) (hr : Restorable xz skip o s) (k : Str) :
    (restoredOf xz (stored xz skip o s))[k]? = (changed o s)[k]? := by
  have hx : ∀ w, (changed o s)[k ++ xzSuffix]? = some w → packed xz skip w = none →
      w.decompress xz = none := fun w hw hwp => (hr.plain _ w hw hwp).2.2 k rfl
  cases hk : (changed o s)[k]? with
  | none =>
    refine restoredOf_stored_none xz skip hxz hns ?_
      (stored_not_decompressed xz skip hns ?_ hx)
    · simp [hk]
    · simp [hk]
  | some e =>
    cases hp : packed xz skip e with
    | none =>
      obtain ⟨h1, h2, h3⟩ := hr.plain k e hk hp
      have hs := (stored_of_ne xz skip hns h1).trans (backupsOf_raw xz skip hk hp)
      refine restoredOf_raw xz hs h1 h2 h3 (stored_not_decompressed xz skip hns ?_ hx)
      intro e' he' hp'
      rw [hk] at he'
      cases he'
      exact absurd hp hp'
    | some v =>
      have hs := (stored_of_ne xz skip hns (append_xzSuffix_ne k).1).trans
        (backupsOf_packed xz skip hk hp (hr.apart k e hk (by simp [hp])))
      exact restoredOf_packed xz hs (packed_decompress xz skip hxz hp)

theorem sameData_of_restorable (hxz : ∀ d z, xz.compress d = some z → xz.decompress z = some d)
    (hns : NoBackup s) (hn : Normalized s) (hd : ¬ SameData s o)
    (hr : Restorable xz skip o s) :
    SameData (restore xz (stored xz skip o s)) o := by
  have h0 : ∀ n ∈ newNames o s, '\x00' ∉ n ∧ n ≠ [] := fun n hnew =>
    hr.named n ((mem_newNames o s).mp hnew).1 ((mem_newNames o s).mp hnew).2
  have hl : rmListIn (stored xz skip o s) = rmListOf o s :=
    rmListIn_stored xz skip hns fun _ e he hp => (hr.plain _ e he hp).1 rfl
  have hres := restoredOf_stored xz skip hxz hns hr
  have hrm : ∀ k, k ∈ (rmNames (rmListOf o s)).map normPath ↔ k ∈ newNames o s := fun k =>
    (mem_removed hn fun n hnew => (h0 n hnew).1).trans
      ⟨And.left, fun hnew => ⟨hnew, (h0 k hnew).2⟩⟩
  -- `restore` clears the archive when it finds nothing, but here there is a difference to undo
  have hne : ¬ (rmListOf o s = [] ∧ (restoredOf xz (stored xz skip o s)).isEmpty) := by
    rintro ⟨hl0, hem⟩
    refine hd fun n => ?_
    have hc : (changed o s)[n]? = none := by
      rw [← hres, Std.ExtTreeMap.isEmpty_iff.mp hem]
      simp
    exact data_eq_of_unchanged hc fun hs => by_contra fun ho => rmListOf_ne_nil hs ho hl0
  intro k
  rw [getElem?_restore xz skip hns, hl, if_neg hne, hres]
  cases hc : (changed o s)[k]? with
  | some e => rw [(changed_eq_some.mp hc).1, some_or]
  | none =>
    rw [none_or]
    split_ifs with hk
    · rw [getElem?_eq_none_iff.mpr ((mem_newNames o s).mp ((hrm k).mp hk)).2]
    · exact data_eq_of_unchanged hc fun hs =>
        by_contra fun ho => hk ((hrm k).mpr ((mem_newNames o s).mpr ⟨hs, ho⟩))

/-- `restore` undoes the changes exactly when the backup can represent them. -/
theorem restore_backup_iff (hxz : ∀ d z, xz.compress d = some z → xz.decompress z = some d)
    {origin : Bytes} (ho : loadFromData origin = .ok o) (hno : NoBackup o) (hns : NoBackup s)
    (hn : Normalized s) (hd : ¬ SameData s o) :
    (∃ c, backup xz s origin skip = .ok c ∧ SameData (restore xz c) o) ↔
      Restorable xz skip o s := by
  have hb : backup xz s origin skip = .ok (stored xz skip o s) :=
    backup_eq xz skip ho hno hns
  constructor
  · rintro ⟨c, hc, h⟩
    rw [hb] at hc
    cases hc
    exact restorable_of_sameData xz skip hxz hns hn h
  · exact fun hr => ⟨_, hb, sameData_of_restorable xz skip hxz hns hn hd hr⟩

end BackupRestore

/-- A codec that marks what it packs. -/
def framed : Xz where
  compress d := some (0xfd :: d)
  decompress
    | 0xfd :: d => some d
    | _ => none

theorem framed_decompress (d z : Bytes) (h : framed.compress d = some z) :
    framed.decompress z = some d := by
  cases h
  rfl

def file (data : Bytes) : CpioEntry := ⟨sIFREG ||| 0o644, 0, 0, 0, 0, data⟩

def single (name : Str) (data : Bytes) : Cpio := ⟨(∅ : Entries).insert name (file data)⟩

theorem getElem?_single (name n : Str) (data : Bytes) :
    (single name data).entries[n]? = if name = n then some (file data) else none := by
  rw [single, getElem?_insert_eq, Std.ExtTreeMap.getElem?_empty]

theorem mem_single {name n : Str} {data : Bytes} : n ∈ (single name data).entries ↔ n = name := by
  rw [mem_iff_exists, getElem?_single]
  split_ifs with h <;> simp [h, eq_comm]

theorem load_single {name : Str} {data : Bytes} (hf : Fits name (file data)) (hk : Keeps name) :
    loadFromData (dump (single name data)) = .ok (single name data) := by
  have hl : (single name data).entries.size = 1 := by
    rw [single, Std.ExtTreeMap.size_insert]
    simp
  have hs : Storable (single name data) := by
    rintro ⟨n, e⟩ hne
    have h := Std.ExtTreeMap.mem_toList_iff_getElem?_eq_some.mp hne
    rw [getElem?_single] at h
    split_ifs at h with hn
    cases h
    subst hn
    exact ⟨hf, hk⟩
  apply reload_of_storable hs
  rw [hl]
  norm_num

theorem noBackup_single {name : Str} {data : Bytes} (h : name ≠ ".backup".toList)
    (hb : ¬ backupDir.isPrefixOf name) : NoBackup (single name data) := by
  refine ⟨fun hn => h (mem_single.mp hn).symm, fun m hn => hb ?_⟩
  exact isPrefixOf_backupDir.mpr ⟨m, (mem_single.mp hn).symm⟩

/-- A replaced file and a new one are undone. -/
theorem restore_backup_init : ∃ c,
    backup framed ⟨(single "init".toList [2]).entries.insert "overlay".toList (file [3])⟩
      (dump (single "init".toList [1])) false = .ok c ∧
    SameData (restore framed c) (single "init".toList [1]) := by
  have hl : loadFromData (dump (single "init".toList [1])) = .ok (single "init".toList [1]) :=
    load_single ⟨by decide, by decide, by decide, by decide⟩
      ⟨by decide, by decide, by decide, by decide⟩
  have hmem : ∀ n, n ∈ (single "init".toList [2]).entries.insert "overlay".toList (file [3]) ↔
      n = "overlay".toList ∨ n = "init".toList := by
    intro n
    rw [Std.ExtTreeMap.mem_insert, mem_single, Std.LawfulEqCmp.compare_eq_iff_eq, eq_comm]
  have hch : ∀ {k e}, (changed (single "init".toList [1])
      ⟨(single "init".toList [2]).entries.insert "overlay".toList (file [3])⟩)[k]? = some e →
      k = "init".toList ∧ e = file [1] := by
    intro k e h
    have h := (changed_eq_some.mp h).1
    rw [getElem?_single] at h
    split_ifs at h with hk
    exact ⟨hk.symm, (some.inj h).symm⟩
  refine (restore_backup_iff framed false framed_decompress hl
    (noBackup_single (by decide) (by decide)) ⟨?_, ?_⟩ ?_ ?_).mpr ⟨?_, ?_, ?_⟩
  · rw [hmem]
    decide
  · intro m
    rw [hmem]
    rintro (h | h) <;> exact absurd (isPrefixOf_backupDir.mpr ⟨m, h.symm⟩) (by decide)
  · intro n hn
    rcases (hmem n).mp hn with rfl | rfl <;> decide
  · intro h
    have h := h "overlay".toList
    simp [getElem?_single] at h
  · intro n hn ho
    rcases (hmem n).mp hn with rfl | rfl
    · decide
    · exact absurd (mem_single.mpr rfl) ho
  · intro k e hk hp
    obtain ⟨-, rfl⟩ := hch hk
    cases hp
  · intro k e hk _ w hw
    obtain ⟨rfl, -⟩ := hch hk
    exact absurd (hch hw).1 (by decide)

/-- With `skip_compress` a file `x.xz` is stored as it is, and `restore` takes it for the
compressed copy of `x`. -/
theorem restore_backup_xz :
    loadFromData (dump (single "x.xz".toList [0xfd, 1])) = .ok (single "x.xz".toList [0xfd, 1]) ∧
    NoBackup (single "x.xz".toList [0xfd, 1]) ∧ Normalized (single "x.xz".toList [0xfd, 1]) ∧
    NoBackup new ∧ Normalized new ∧ ¬ SameData new (single "x.xz".toList [0xfd, 1]) ∧
    ¬ ∃ c, backup framed new (dump (single "x.xz".toList [0xfd, 1])) true = .ok c ∧
      SameData (restore framed c) (single "x.xz".toList [0xfd, 1]) := by
  have hl : loadFromData (dump (single "x.xz".toList [0xfd, 1])) =
      .ok (single "x.xz".toList [0xfd, 1]) :=
    load_single ⟨by decide, by decide, by decide, by decide⟩
      ⟨by decide, by decide, by decide, by decide⟩
  have ho : NoBackup (single "x.xz".toList [0xfd, 1]) := noBackup_single (by decide) (by decide)
  have hno : Normalized (single "x.xz".toList [0xfd, 1]) := by
    intro n hn
    rw [mem_single.mp hn]
    decide
  have hs : NoBackup new := by simp [NoBackup, new]
  have hns : Normalized new := by simp [Normalized, new]
  refine ⟨hl, ho, hno, hs, hns, ?_, ?_⟩
  · intro h
    have h := h "x.xz".toList
    simp [getElem?_single, new] at h
  · rintro ⟨c, hc, h⟩
    rw [backup_eq framed true hl ho hs] at hc
    cases hc
    have hr := restorable_of_sameData framed true framed_decompress hs hns h
    have hch : (changed (single "x.xz".toList [0xfd, 1]) new)["x.xz".toList]? =
        some (file [0xfd, 1]) :=
      changed_eq_some.mpr ⟨by rw [getElem?_single, if_pos rfl], by simp [new]⟩
    exact absurd ((hr.plain _ _ hch rfl).2.2 "x".toList rfl) (by decide)

end Magisk.Cpio
