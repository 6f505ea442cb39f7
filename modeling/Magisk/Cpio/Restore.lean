import Magisk.Cpio.Stored
import Magisk.Path

namespace Magisk.Cpio

open List
open OrderedMap

section Restore

variable (xz : Xz)

def decoded (ne : Str × CpioEntry) : Option (Str × CpioEntry) :=
  if ne.1 = backupDir ++ rmlistFile then none
  else if ne.1 ≠ backupDir ++ magiskFile then some (restored xz ne.1 ne.2)
  else none

def rmText (ne : Str × CpioEntry) : Str :=
  if ne.1 = backupDir ++ rmlistFile then (fromUtf8 ne.2.data).getD [] else []

theorem foldl_restoreStep (l : Items) (st : Entries × Str) :
    l.foldl (restoreStep xz) st =
      (st.1.insertMany (l.filterMap (decoded xz)), st.2 ++ l.flatMap rmText) := by
  induction l generalizing st with
  | nil => simp
  | cons ne l ih =>
    rw [foldl_cons, ih, flatMap_cons]
    obtain ⟨n, e⟩ := ne
    by_cases hr : n = backupDir ++ rmlistFile
    · have hd : decoded xz (n, e) = none := by rw [decoded, if_pos hr]
      rw [filterMap_cons_none hd]
      simp only [restoreStep, rmText, hr, if_true]
      cases fromUtf8 e.data <;> simp
    · by_cases hm : n = backupDir ++ magiskFile
      · have hd : decoded xz (n, e) = none := by rw [decoded, if_neg hr, if_neg (not_not.mpr hm)]
        rw [filterMap_cons_none hd]
        simp only [restoreStep, rmText, if_neg hr, if_neg (not_not.mpr hm), nil_append]
      · have hd : decoded xz (n, e) = some ((restored xz n e).1, (restored xz n e).2) := by
          rw [decoded, if_neg hr, if_pos hm]
        rw [filterMap_cons_some hd, Std.ExtTreeMap.insertMany_cons]
        simp only [restoreStep, rmText, if_neg hr, if_pos hm, nil_append]

theorem flatMap_rmText (t : Entries) : t.toList.flatMap rmText =
    (t[backupDir ++ rmlistFile]?.map fun e => (fromUtf8 e.data).getD []).getD [] := by
  have h := flatMap_of_one_key t rmText (k := backupDir ++ rmlistFile)
    fun a v ha => if_neg ha
  rw [h]
  simp only [rmText, if_true]

variable {k m : Str} {e v : CpioEntry}

theorem restored_packed (h : e.decompress xz = some v) :
    restored xz (backupDir ++ (k ++ xzSuffix)) e = (k, v) := by
  have hs : xzSuffix.isSuffixOf (backupDir ++ (k ++ xzSuffix)) :=
    isSuffixOf_backupDir.mpr ⟨k, rfl⟩
  have hd : (backupDir ++ (k ++ xzSuffix)).drop 8 = k ++ xzSuffix :=
    drop_left' (by decide)
  have hl : (backupDir ++ (k ++ xzSuffix)).length - 3 - 8 = k.length := by
    rw [length_append, length_append, show backupDir.length = 8 by decide,
      show xzSuffix.length = 3 by decide]
    omega
  simp only [restored, hs, if_true, h, hd, hl, take_left]

theorem restored_raw (h : ∀ k, m = k ++ xzSuffix → e.decompress xz = none) :
    restored xz (backupDir ++ m) e = (m, e) := by
  have hd : (backupDir ++ m).drop 8 = m := drop_left' (by decide)
  unfold restored
  split_ifs with hs
  · obtain ⟨k, hk⟩ := isSuffixOf_backupDir.mp hs
    rw [h k hk, hd]
  · rw [hd]

theorem restored_inv (h : restored xz (backupDir ++ m) e = (k, v)) :
    (m = k ++ xzSuffix ∧ e.decompress xz = some v) ∨
      (m = k ∧ e = v ∧ ∀ j, m = j ++ xzSuffix → e.decompress xz = none) := by
  by_cases hp : ∃ j, m = j ++ xzSuffix ∧ ∃ w, e.decompress xz = some w
  · obtain ⟨j, rfl, w, hw⟩ := hp
    rw [restored_packed xz hw] at h
    cases h
    exact .inl ⟨rfl, hw⟩
  · have hn : ∀ j, m = j ++ xzSuffix → e.decompress xz = none := by
      intro j hj
      by_contra hne
      exact hp ⟨j, hj, Option.ne_none_iff_exists'.mp hne⟩
    rw [restored_raw xz hn] at h
    cases h
    exact .inr ⟨rfl, rfl, hn⟩

theorem decoded_inv (h : decoded xz (backupDir ++ m, e) = some (k, v)) :
    m ≠ rmlistFile ∧ m ≠ magiskFile ∧
      ((m = k ++ xzSuffix ∧ e.decompress xz = some v) ∨
        (m = k ∧ e = v ∧ ∀ j, m = j ++ xzSuffix → e.decompress xz = none)) := by
  unfold decoded at h
  split_ifs at h with hr hm
  exact ⟨fun hk => hr (by rw [hk]), fun hk => hm (by rw [hk]),
    restored_inv xz (Option.some.inj h)⟩

theorem decoded_eq (e : CpioEntry) (hr : m ≠ rmlistFile) (hm : m ≠ magiskFile) :
    decoded xz (backupDir ++ m, e) = some (restored xz (backupDir ++ m) e) := by
  rw [decoded, if_neg fun h => hr (append_cancel_left h),
    if_pos fun h => hm (append_cancel_left h)]

theorem append_xzSuffix_ne (k : Str) : k ++ xzSuffix ≠ rmlistFile ∧ k ++ xzSuffix ≠ magiskFile := by
  have hr : ¬ xzSuffix <:+ rmlistFile := by decide
  have hm : ¬ xzSuffix <:+ magiskFile := by decide
  exact ⟨fun h => hr ⟨k, h⟩, fun h => hm ⟨k, h⟩⟩

variable (c : Cpio)

def takenOut : Entries := c.entries.filter fun n _ => backupDir.isPrefixOf n

def restoredOf : Entries := (∅ : Entries).insertMany ((takenOut c).toList.filterMap (decoded xz))

def rmListIn : Str :=
  (c.entries[backupDir ++ rmlistFile]?.map fun e => (fromUtf8 e.data).getD []).getD []

variable {c}

theorem takenOut_backupDir (m : Str) : (takenOut c)[backupDir ++ m]? = c.entries[backupDir ++ m]? := by
  rw [takenOut, Std.ExtTreeMap.getElem?_filter']
  cases c.entries[backupDir ++ m]? with
  | none => rfl
  | some v => simp [Option.filter, isPrefixOf_backupDir.mpr ⟨m, rfl⟩]

theorem takenOut_inv {n : Str} (h : (takenOut c)[n]? = some v) :
    ∃ m, n = backupDir ++ m ∧ c.entries[backupDir ++ m]? = some v := by
  have hp : backupDir.isPrefixOf n := by
    rw [takenOut, Std.ExtTreeMap.getElem?_filter', Option.filter_eq_some_iff] at h
    exact h.2
  obtain ⟨m, rfl⟩ := isPrefixOf_backupDir.mp hp
  exact ⟨m, rfl, (takenOut_backupDir m).symm.trans h⟩

theorem restoredOf_packed
    (hs : c.entries[backupDir ++ (k ++ xzSuffix)]? = some e) (hd : e.decompress xz = some v) :
    (restoredOf xz c)[k]? = some v := by
  refine collect_some _ _ _ ((takenOut_backupDir _).trans hs)
    ((decoded_eq xz e (append_xzSuffix_ne k).1 (append_xzSuffix_ne k).2).trans
      (congrArg some (restored_packed xz hd))) ?_
  intro b w hb hlt w' hw
  obtain ⟨m, rfl, -⟩ := takenOut_inv hb
  rcases (decoded_inv xz hw).2.2 with ⟨rfl, -⟩ | ⟨rfl, -⟩
  · exact ne_of_compare_lt hlt rfl
  · exact not_compare_lt hlt (compare_append_xzSuffix m)

theorem restoredOf_raw (hs : c.entries[backupDir ++ k]? = some e)
    (hr : k ≠ rmlistFile) (hm : k ≠ magiskFile)
    (hd : ∀ j, k = j ++ xzSuffix → e.decompress xz = none)
    (hx : ∀ v, c.entries[backupDir ++ (k ++ xzSuffix)]? = some v → v.decompress xz = none) :
    (restoredOf xz c)[k]? = some e := by
  refine collect_some _ _ _ ((takenOut_backupDir _).trans hs)
    ((decoded_eq xz e hr hm).trans (congrArg some (restored_raw xz hd))) ?_
  intro b w hb hlt w' hw
  obtain ⟨m, rfl, hc⟩ := takenOut_inv hb
  rcases (decoded_inv xz hw).2.2 with ⟨rfl, hd⟩ | ⟨rfl, -⟩
  · rw [hx w hc] at hd
    cases hd
  · exact ne_of_compare_lt hlt rfl

theorem restoredOf_none
    (hs : ∀ v, c.entries[backupDir ++ k]? = some v →
      k = rmlistFile ∨ k = magiskFile ∨ ∃ j, k = j ++ xzSuffix ∧ v.decompress xz ≠ none)
    (hx : ∀ v, c.entries[backupDir ++ (k ++ xzSuffix)]? = some v → v.decompress xz = none) :
    (restoredOf xz c)[k]? = none := by
  rw [restoredOf, collect_none]
  · simp
  · intro a v ha v' hv
    obtain ⟨m, rfl, hc⟩ := takenOut_inv ha
    obtain ⟨hr, hm, ⟨rfl, hd⟩ | ⟨rfl, -, hd⟩⟩ := decoded_inv xz hv
    · rw [hx v hc] at hd
      cases hd
    · rcases hs v hc with rfl | rfl | ⟨j, hj, hn⟩
      · exact hr rfl
      · exact hm rfl
      · exact hn (hd j hj)

end Restore

section Remove

def rmNames (rmList : Str) : List Str := (rmList.splitOn '\x00').filter (· ≠ [])

def outside (c : Cpio) : Cpio :=
  rm ⟨c.entries.filter fun n _ => !backupDir.isPrefixOf n⟩ ".backup".toList false

theorem restore_eq (xz : Xz) (c : Cpio) : restore xz c =
    if rmListIn c = [] ∧ (restoredOf xz c).isEmpty then new
    else ⟨((rmNames (rmListIn c)).foldl (fun self name => rm self name false)
      (outside c)).entries.insertMany (restoredOf xz c).toList⟩ := by
  have hf := foldl_restoreStep xz (takenOut c).toList ((∅ : Entries), [])
  rw [flatMap_rmText, takenOut_backupDir] at hf
  unfold restore
  simp only [takenOut] at hf
  simp only [hf]
  rfl

theorem getElem?_rm (c : Cpio) (name k : Str) :
    (rm c name false).entries[k]? = if normPath name = k then none else c.entries[k]? := by
  simp [rm, getElem?_erase_eq]

theorem getElem?_rmAll (names : List Str) (c : Cpio) (k : Str) :
    (names.foldl (fun self name => rm self name false) c).entries[k]? =
      if k ∈ names.map normPath then none else c.entries[k]? := by
  induction names generalizing c with
  | nil => simp
  | cons n names ih =>
    rw [foldl_cons, ih, getElem?_rm, map_cons]
    by_cases hk : k ∈ names.map normPath
    · rw [if_pos hk, if_pos (mem_cons_of_mem _ hk)]
    · simp only [hk, mem_cons, or_false, if_false, eq_comm]

theorem mem_normPath {x : Char} {n : Str} (h : x ∈ normPath n) : x = '/' ∨ x ∈ n := by
  rcases mem_of_mem_intercalate h with h | ⟨l, hl, hx⟩
  · exact .inl (mem_singleton.mp h)
  · exact .inr ((mem_splitOn (mem_of_mem_filter hl)).2 x hx)

theorem splitOn_nulSeparated {names : List Str} (h : ∀ n ∈ names, '\x00' ∉ n) :
    (nulSeparated names).splitOn '\x00' = names ++ [[]] := by
  induction names with
  | nil => simp [nulSeparated]
  | cons n names ih =>
    have hn : nulSeparated (n :: names) = n ++ '\x00' :: nulSeparated names := by
      simp [nulSeparated]
    rw [hn, splitOn_append_cons_self_of_not_mem (h n (by simp)),
      ih fun m hm => h m (mem_cons_of_mem _ hm)]
    rfl

theorem mem_rmNames {names : List Str} (h : ∀ n ∈ names, '\x00' ∉ n) {n : Str} :
    n ∈ rmNames (nulSeparated names) ↔ n ∈ names ∧ n ≠ [] := by
  rw [rmNames, splitOn_nulSeparated h]
  simp only [mem_filter, mem_append, mem_singleton, decide_eq_true_eq]
  exact ⟨fun ⟨hn, h0⟩ => ⟨hn.resolve_right h0, h0⟩, fun ⟨hn, h0⟩ => ⟨.inl hn, h0⟩⟩

theorem nul_notMem_of_removed {rmList k : Str} (h : k ∈ (rmNames rmList).map normPath) :
    '\x00' ∉ k := by
  obtain ⟨p, hp, rfl⟩ := List.mem_map.mp h
  intro h0
  rcases mem_normPath h0 with h0 | h0
  · exact absurd h0 (by decide)
  · exact (mem_splitOn (mem_of_mem_filter hp)).1 h0

end Remove

end Magisk.Cpio
