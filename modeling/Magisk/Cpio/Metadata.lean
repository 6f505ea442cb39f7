import Magisk.Cpio.BackupRestore

namespace Magisk

open Option

def CpioEntry.metadata (e : CpioEntry) : UInt32 × UInt32 × UInt32 × UInt64 × UInt64 :=
  (e.mode, e.uid, e.gid, e.rdevmajor, e.rdevminor)

namespace Cpio
open OrderedMap

def SameMetadata (a b : Cpio) : Prop :=
  ∀ n : Str, a.entries[n]?.map CpioEntry.metadata = b.entries[n]?.map CpioEntry.metadata

section Metadata

variable (xz : Xz) (skip : Bool) (o s : Cpio)

/-- The entry `e` of the origin is what comes back under the name `k`. -/
inductive Brought (k : Str) (e : CpioEntry) : Prop
  | packed : (changed o s)[k]? = some e → packed xz skip e ≠ none →
      (∀ w, (changed o s)[k ++ xzSuffix]? = some w → Cpio.packed xz skip w ≠ none) →
      Brought k e
  | plain : (changed o s)[k]? = some e → Cpio.packed xz skip e = none →
      k ≠ rmlistFile → k ≠ magiskFile → (∀ j, k = j ++ xzSuffix → e.decompress xz = none) →
      (∀ w, (changed o s)[k ++ xzSuffix]? = some w → Cpio.packed xz skip w = none →
        w.decompress xz = none) → Brought k e
  /-- An uncompressed `k.xz` is taken for the compressed copy of `k`. -/
  | mistaken : (changed o s)[k ++ xzSuffix]? = some e → Cpio.packed xz skip e = none →
      e.decompress xz ≠ none → Brought k e

/-- The remove list that `restore` reads, which may be an uncompressed file of the origin. -/
def rmListRead : Str :=
  if rmListOf o s ≠ [] then rmListOf o s
  else match (changed o s)[rmlistFile]? with
    | some e =>
      if packed xz skip e = none then (fromUtf8 e.data).getD [] else []
    | none => []

def removedNames : List Str := (rmNames (rmListRead xz skip o s)).map normPath

/-- What metadata come back, in terms of the two archives. -/
structure KeepsMetadata : Prop where
  /-- Without anything to undo `restore` clears the archive. -/
  cleared : rmListRead xz skip o s = [] → (∀ k e, ¬Brought xz skip o s k e) →
    ∀ n, n ∉ o.entries
  mistaken : ∀ k w, (changed o s)[k ++ xzSuffix]? = some w → packed xz skip w = none →
    w.decompress xz ≠ none → o.entries[k]?.map CpioEntry.metadata = some w.metadata
  /-- All other entries are those of the archive. -/
  others : (rmListRead xz skip o s ≠ [] ∨ ∃ k e, Brought xz skip o s k e) →
    ∀ k, (∀ e, ¬Brought xz skip o s k e) →
      (if k ∈ removedNames xz skip o s then none
        else s.entries[k]?.map CpioEntry.metadata) = o.entries[k]?.map CpioEntry.metadata

variable {o s}

theorem metadata_decompress {e v : CpioEntry} (h : e.decompress xz = some v) :
    v.metadata = e.metadata := by
  unfold CpioEntry.decompress at h
  split_ifs at h
  obtain ⟨data, -, rfl⟩ := map_eq_some_iff.mp h
  rfl

theorem Brought.restoredOf (hxz : ∀ d z, xz.compress d = some z → xz.decompress z = some d)
    (hns : NoBackup s) {k : Str} {e : CpioEntry} (h : Brought xz skip o s k e) :
    ∃ v, (restoredOf xz (stored xz skip o s))[k]? = some v ∧ v.metadata = e.metadata := by
  cases h with
  | packed hk hp hx =>
    obtain ⟨v, hv⟩ := ne_none_iff_exists'.mp hp
    have hs := (stored_of_ne xz skip hns (append_xzSuffix_ne k).1).trans
      (backupsOf_packed xz skip hk hv hx)
    exact ⟨e, restoredOf_packed xz hs (packed_decompress xz skip hxz hv), rfl⟩
  | plain hk hp hr hm hj hx =>
    have hs := (stored_of_ne xz skip hns hr).trans (backupsOf_raw xz skip hk hp)
    refine ⟨e, restoredOf_raw xz hs hr hm hj ?_, rfl⟩
    refine stored_not_decompressed xz skip hns (fun e' he' hp' => ?_) hx
    rw [hk] at he'
    cases he'
    exact absurd hp hp'
  | mistaken hk hp hd =>
    obtain ⟨v, hv⟩ := ne_none_iff_exists'.mp hd
    have hs := (stored_of_ne xz skip hns (append_xzSuffix_ne k).1).trans
      (backupsOf_raw xz skip hk hp)
    exact ⟨v, restoredOf_packed xz hs hv, metadata_decompress xz hv⟩

theorem restoredOf_of_not_brought
    (hxz : ∀ d z, xz.compress d = some z → xz.decompress z = some d) (hns : NoBackup s) {k : Str}
    (h : ∀ e, ¬Brought xz skip o s k e) :
    (restoredOf xz (stored xz skip o s))[k]? = none := by
  have hx : ∀ w, (changed o s)[k ++ xzSuffix]? = some w → packed xz skip w = none →
      w.decompress xz = none := by
    intro w hw hp
    by_contra hd
    exact h w (.mistaken hw hp hd)
  refine restoredOf_stored_none xz skip hxz hns (fun e he hp => ?_)
    (stored_not_decompressed xz skip hns (fun e he hp => ?_) hx)
  · by_contra hno
    push Not at hno
    obtain ⟨hr, hm, hj⟩ := hno
    exact h e (.plain he hp hr hm hj hx)
  · by_contra hno
    push Not at hno
    exact h e (.packed he hp hno)

theorem rmListIn_eq_rmListRead (hns : NoBackup s) :
    rmListIn (stored xz skip o s) = rmListRead xz skip o s := by
  have hx : ¬ xzSuffix <:+ rmlistFile := by decide
  unfold rmListRead
  by_cases hl : rmListOf o s = []
  · rw [if_neg (not_not.mpr hl), rmListIn, stored_backupDir xz skip hns, addedBy,
      if_neg (not_not.mpr hl)]
    cases hc : (changed o s)[rmlistFile]? with
    | none =>
      rw [backupsOf_none xz skip (fun w hw => by rw [hc] at hw; cases hw)
        fun k w hk _ => absurd ⟨k, hk.symm⟩ hx]
      rfl
    | some e =>
      cases hp : packed xz skip e with
      | none =>
        rw [backupsOf_raw xz skip hc hp]
        dsimp only
        rw [if_pos hp]
        rfl
      | some v =>
        rw [backupsOf_none xz skip (fun w hw => ?_)
          fun k w hk _ => absurd ⟨k, hk.symm⟩ hx]
        · dsimp only
          rw [if_neg (by rw [hp]; simp)]
          rfl
        · rw [hc] at hw
          cases hw
          rw [hp]
          simp
  · rw [if_pos hl, rmListIn_stored xz skip hns fun h => absurd h hl]

theorem restoredOf_isEmpty_iff (hxz : ∀ d z, xz.compress d = some z → xz.decompress z = some d)
    (hns : NoBackup s) : (restoredOf xz (stored xz skip o s)).isEmpty ↔
      ∀ k e, ¬Brought xz skip o s k e := by
  constructor
  · intro h k e he
    obtain ⟨v, hv, -⟩ := he.restoredOf xz skip hxz hns
    rw [Std.ExtTreeMap.isEmpty_iff.mp h] at hv
    simp at hv
  · intro h
    rw [Std.ExtTreeMap.isEmpty_iff]
    apply Std.ExtTreeMap.ext_getElem?
    intro k
    rw [restoredOf_of_not_brought xz skip hxz hns (h k), Std.ExtTreeMap.getElem?_empty]

theorem Brought.origin {k : Str} {e : CpioEntry} (h : Brought xz skip o s k e)
    (hm : ∀ k w, (changed o s)[k ++ xzSuffix]? = some w → Cpio.packed xz skip w = none →
      w.decompress xz ≠ none → o.entries[k]?.map CpioEntry.metadata = some w.metadata) :
    o.entries[k]?.map CpioEntry.metadata = some e.metadata := by
  cases h with
  | packed hk => rw [(changed_eq_some.mp hk).1, map_some]
  | plain hk => rw [(changed_eq_some.mp hk).1, map_some]
  | mistaken hk hp hd => exact hm k e hk hp hd

/-- There is nothing to undo. -/
def Clears (o s : Cpio) : Prop :=
  rmListRead xz skip o s = [] ∧ ∀ k e, ¬Brought xz skip o s k e

section Restored

variable (hxz : ∀ d z, xz.compress d = some z → xz.decompress z = some d) (hns : NoBackup s)
include hxz hns

theorem restore_stored_eq (k : Str) : (Clears xz skip o s →
      (restore xz (stored xz skip o s)).entries[k]? = none) ∧
    (¬Clears xz skip o s → (restore xz (stored xz skip o s)).entries[k]? =
      (restoredOf xz (stored xz skip o s))[k]?.or
        (if k ∈ removedNames xz skip o s then none else s.entries[k]?)) := by
  have hcond : rmListRead xz skip o s = [] ∧
      (restoredOf xz (stored xz skip o s)).isEmpty ↔ Clears xz skip o s :=
    and_congr_right fun _ => restoredOf_isEmpty_iff xz skip hxz hns
  rw [getElem?_restore xz skip hns, rmListIn_eq_rmListRead xz skip hns]
  exact ⟨fun h => if_pos (hcond.mpr h), fun h => if_neg (hcond.not.mpr h)⟩

theorem metadata_restore_of_brought {k : Str} {e : CpioEntry}
    (he : Brought xz skip o s k e) :
    (restore xz (stored xz skip o s)).entries[k]?.map CpioEntry.metadata =
      some e.metadata := by
  obtain ⟨v, hv, hmeta⟩ := he.restoredOf xz skip hxz hns
  rw [(restore_stored_eq xz skip hxz hns k).2 fun h => h.2 k e he, hv, some_or,
    map_some, hmeta]

theorem metadata_restore_of_not_brought (hcl : ¬Clears xz skip o s) {k : Str}
    (hk : ∀ e, ¬Brought xz skip o s k e) :
    (restore xz (stored xz skip o s)).entries[k]?.map CpioEntry.metadata =
      if k ∈ removedNames xz skip o s then none
      else s.entries[k]?.map CpioEntry.metadata := by
  rw [(restore_stored_eq xz skip hxz hns k).2 hcl,
    restoredOf_of_not_brought xz skip hxz hns hk, none_or]
  exact apply_ite (Option.map CpioEntry.metadata) _ _ _

theorem sameMetadata_restore_iff : SameMetadata (restore xz (stored xz skip o s)) o ↔
    KeepsMetadata xz skip o s := by
  by_cases hcl : Clears xz skip o s
  · have hnone : SameMetadata (restore xz (stored xz skip o s)) o ↔ ∀ n, n ∉ o.entries := by
      refine forall_congr' fun n => ?_
      rw [(restore_stored_eq xz skip hxz hns n).1 hcl,
        ← OrderedMap.getElem?_eq_none_iff, map_none, eq_comm, map_eq_none_iff]
    rw [hnone]
    constructor
    · intro h
      refine ⟨fun _ _ => h, fun k w hw hp hd => absurd (.mistaken hw hp hd) (hcl.2 k w), ?_⟩
      rintro (hl | ⟨k, e, he⟩)
      · exact absurd hcl.1 hl
      · exact absurd he (hcl.2 k e)
    · intro h
      exact h.cleared hcl.1 hcl.2
  · have hundo : rmListRead xz skip o s ≠ [] ∨ ∃ k e, Brought xz skip o s k e := by
      by_contra hno
      push Not at hno
      exact hcl hno
    constructor
    · intro h
      refine ⟨fun hl hb => absurd ⟨hl, hb⟩ hcl, fun k w hw hp hd => ?_, fun _ k hk => ?_⟩
      · rw [← h k]
        exact metadata_restore_of_brought xz skip hxz hns (.mistaken hw hp hd)
      · rw [← h k]
        exact (metadata_restore_of_not_brought xz skip hxz hns hcl hk).symm
    · intro h k
      by_cases hk : ∃ e, Brought xz skip o s k e
      · obtain ⟨e, he⟩ := hk
        rw [metadata_restore_of_brought xz skip hxz hns he,
          he.origin xz skip h.mistaken]
      · rw [not_exists] at hk
        rw [metadata_restore_of_not_brought xz skip hxz hns hcl hk]
        exact h.others hundo k hk

end Restored

/-- Every entry comes back with the metadata of the origin exactly when the ones that are not in
the backup have them already. -/
theorem restore_backup_metadata_iff
    (hxz : ∀ d z, xz.compress d = some z → xz.decompress z = some d) {origin : Bytes}
    (ho : loadFromData origin = .ok o) (hno : NoBackup o) (hns : NoBackup s) :
    (∃ c, backup xz s origin skip = .ok c ∧ SameMetadata (restore xz c) o) ↔
      KeepsMetadata xz skip o s := by
  have hb : backup xz s origin skip = .ok (stored xz skip o s) :=
    backup_eq xz skip ho hno hns
  rw [← sameMetadata_restore_iff xz skip hxz hns]
  constructor
  · rintro ⟨c, hc, h⟩
    rw [hb] at hc
    cases hc
    exact h
  · exact fun h => ⟨_, hb, h⟩

end Metadata

def withOverlay (e : CpioEntry) : Cpio :=
  ⟨((∅ : Entries).insert "init".toList e).insert "overlay".toList (file [3])⟩

section WithOverlay

variable {d : Bytes} {e : CpioEntry}

theorem getElem?_withOverlay (e : CpioEntry) (n : Str) : (withOverlay e).entries[n]? =
    if n = "overlay".toList then some (file [3]) else if n = "init".toList then some e else none := by
  rw [withOverlay, getElem?_insert_eq, getElem?_insert_eq, Std.ExtTreeMap.getElem?_empty]
  simp only [eq_comm]

theorem mem_withOverlay {n : Str} :
    n ∈ (withOverlay e).entries ↔ n = "overlay".toList ∨ n = "init".toList := by
  rw [mem_iff_exists, getElem?_withOverlay]
  split_ifs with h1 h2
  · exact iff_of_true ⟨_, rfl⟩ (.inl h1)
  · exact iff_of_true ⟨_, rfl⟩ (.inr h2)
  · refine iff_of_false ?_ (not_or.mpr ⟨h1, h2⟩)
    rintro ⟨v, hv⟩
    cases hv

theorem noBackup_withOverlay (e : CpioEntry) : NoBackup (withOverlay e) := by
  refine ⟨by rw [mem_withOverlay]; decide, fun m => ?_⟩
  rw [mem_withOverlay]
  rintro (h | h)
  · exact absurd (isPrefixOf_backupDir.mpr ⟨m, h.symm⟩) (by decide)
  · exact absurd (isPrefixOf_backupDir.mpr ⟨m, h.symm⟩) (by decide)

theorem normalized_withOverlay (e : CpioEntry) : Normalized (withOverlay e) := by
  intro n hn
  rcases mem_withOverlay.mp hn with rfl | rfl
  · decide
  · decide

theorem mem_newNames_withOverlay {n : Str} :
    n ∈ newNames (single "init".toList d) (withOverlay e) ↔ n = "overlay".toList := by
  rw [mem_newNames, mem_withOverlay, mem_single]
  constructor
  · rintro ⟨h | h, hne⟩
    · exact h
    · exact absurd h hne
  · rintro rfl
    exact ⟨.inl rfl, by decide⟩

theorem changed_withOverlay {k : Str} {x : CpioEntry}
    (h : (changed (single "init".toList d) (withOverlay e))[k]? = some x) :
    k = "init".toList ∧ x = file d ∧ e.data ≠ d := by
  obtain ⟨ho, hne⟩ := changed_eq_some.mp h
  rw [getElem?_single] at ho
  split_ifs at ho with hk
  subst hk
  cases ho
  exact ⟨rfl, rfl, fun he => hne (congrArg some he)⟩

theorem brought_withOverlay {k : Str} {x : CpioEntry}
    (h : Brought framed false (single "init".toList d) (withOverlay e) k x) :
    k = "init".toList ∧ e.data ≠ d := by
  cases h with
  | packed hk => exact ⟨(changed_withOverlay hk).1, (changed_withOverlay hk).2.2⟩
  | plain hk => exact ⟨(changed_withOverlay hk).1, (changed_withOverlay hk).2.2⟩
  | mistaken hk =>
    have hs : ¬ xzSuffix <:+ "init".toList := by decide
    exact absurd ⟨k, (changed_withOverlay hk).1⟩ hs

theorem rmListOf_withOverlay : rmListOf (single "init".toList d) (withOverlay e) ≠ [] :=
  rmListOf_ne_nil (mem_withOverlay.mpr (.inl rfl)) (by rw [mem_single]; decide)

theorem removedNames_withOverlay {k : Str} :
    k ∈ removedNames framed false (single "init".toList d) (withOverlay e) ↔
      k = "overlay".toList := by
  rw [removedNames, rmListRead, if_pos rmListOf_withOverlay, mem_removed (normalized_withOverlay e),
    mem_newNames_withOverlay]
  · refine and_iff_left_of_imp ?_
    rintro rfl
    decide
  · intro n hn
    rw [mem_newNames_withOverlay.mp hn]
    decide

theorem load_init (d : Bytes) (h : d.length < 2 ^ 32) :
    loadFromData (dump (single "init".toList d)) = .ok (single "init".toList d) :=
  load_single ⟨by decide, h, by simp [file], by simp [file]⟩
    ⟨by decide, by decide, by decide, by decide⟩

end WithOverlay

/-- A file with other data comes back as it was. -/
theorem restore_backup_metadata_init : ∃ c,
    backup framed (withOverlay (file [2])) (dump (single "init".toList [1])) false = .ok c ∧
      SameMetadata (restore framed c) (single "init".toList [1]) := by
  refine (restore_backup_metadata_iff framed false framed_decompress (load_init [1] (by decide))
    (noBackup_single (by decide) (by decide)) (noBackup_withOverlay _)).mpr ⟨?_, ?_, ?_⟩
  · intro h
    rw [rmListRead, if_pos rmListOf_withOverlay] at h
    exact absurd h rmListOf_withOverlay
  · intro k w hw
    have hs : ¬ xzSuffix <:+ "init".toList := by decide
    exact absurd ⟨k, (changed_withOverlay hw).1⟩ hs
  · intro _ k hk
    rw [getElem?_withOverlay, getElem?_single]
    by_cases hover : k = "overlay".toList
    · rw [if_pos (removedNames_withOverlay.mpr hover), if_neg (by rw [hover]; decide)]
      rfl
    · rw [if_neg (removedNames_withOverlay.not.mpr hover), if_neg hover]
      by_cases hinit : k = "init".toList
      · rw [if_pos hinit, if_pos hinit.symm]
        rfl
      · rw [if_neg hinit, if_neg fun h => hinit h.symm]

/-- A file with the same data keeps the mode that it has in the archive. -/
theorem restore_backup_mode :
    loadFromData (dump (single "init".toList [1])) = .ok (single "init".toList [1]) ∧
    NoBackup (single "init".toList [1]) ∧ Normalized (single "init".toList [1]) ∧
    NoBackup (withOverlay ⟨sIFREG ||| 0o600, 0, 0, 0, 0, [1]⟩) ∧
    Normalized (withOverlay ⟨sIFREG ||| 0o600, 0, 0, 0, 0, [1]⟩) ∧
    withOverlay ⟨sIFREG ||| 0o600, 0, 0, 0, 0, [1]⟩ ≠ single "init".toList [1] ∧
    ¬ ∃ c, backup framed (withOverlay ⟨sIFREG ||| 0o600, 0, 0, 0, 0, [1]⟩)
      (dump (single "init".toList [1])) false = .ok c ∧
        SameMetadata (restore framed c) (single "init".toList [1]) := by
  have hno : NoBackup (single "init".toList [1]) := noBackup_single (by decide) (by decide)
  have hns := noBackup_withOverlay ⟨sIFREG ||| 0o600, 0, 0, 0, 0, [1]⟩
  have hl := load_init [1] (by decide)
  refine ⟨hl, hno, ?_, hns, normalized_withOverlay _, ?_, ?_⟩
  · intro n hn
    rw [mem_single.mp hn]
    decide
  · intro h
    have hmem := (mem_withOverlay (e := ⟨sIFREG ||| 0o600, 0, 0, 0, 0, [1]⟩)).mpr (.inl rfl)
    rw [h, mem_single] at hmem
    exact absurd hmem (by decide)
  · rintro ⟨c, hc, h⟩
    rw [backup_eq framed false hl hno hns] at hc
    cases hc
    have hk := (sameMetadata_restore_iff framed false framed_decompress hns).mp h
    have hinit := hk.others (.inl (by
      rw [rmListRead, if_pos rmListOf_withOverlay]
      exact rmListOf_withOverlay)) "init".toList fun x hx => (brought_withOverlay hx).2 rfl
    rw [if_neg (by rw [removedNames_withOverlay]; decide), getElem?_withOverlay, getElem?_single,
      if_neg (by decide), if_pos rfl, if_pos rfl] at hinit
    exact absurd hinit (by decide)

end Cpio
end Magisk
