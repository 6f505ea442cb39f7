import Magisk.Cpio.BackupRestore
import Magisk.Cpio.Bounds
import Magisk.Cpio.Commands
import Magisk.Loops

namespace Magisk.Cpio

open List
open OrderedMap

/-- The names that stand for no entry. -/
def reserved : List Str := [[], ".".toList, "..".toList, "TRAILER!!!".toList]

structure IsKey (k : Str) : Prop where
  normal : normPath k = k
  named : k ∉ reserved

def Keyed (c : Cpio) : Prop := ∀ k ∈ c.entries, IsKey k

/-- Every key is a normalized path, is found under its own name and survives a dump. -/
structure Accessible (c : Cpio) : Prop where
  keyed : Keyed c
  found : ∀ k ∈ c.entries, existsEntry c k
  removed : ∀ k ∈ c.entries, k ∉ (rm c k false).entries
  /-- Here the numbers must have a place in the header. -/
  reloaded : (∀ ne ∈ c.entries.toList, Fits ne.1 ne.2 ∧ '\x00' ∉ ne.1) →
    300000 + c.entries.size < 2 ^ 32 → loadFromData (dump c) = .ok c

/-- All names that the command adds are keys. -/
def AddsKeys (env : Env) (c : Cpio) : Command → Prop
  | .rm _ _ => True
  | .patch => True
  | .mkdir _ dir => normPath dir ∉ reserved
  | .ln _ dst => normPath dst ∉ reserved
  | .mv _ dest => normPath dest ∉ reserved
  | .add _ path _ => normPath path ∉ reserved
  | .backup origin skipCompress => ∀ data o, env.map origin = .ok data →
      loadFromData data = .ok o → ∀ n e,
        (changed (rm o ".backup".toList true) (rm c ".backup".toList true))[n]? = some e →
          normPath (backupEntry env.xz skipCompress (n, e)).1 =
            (backupEntry env.xz skipCompress (n, e)).1
  | .restore => ∀ m e, c.entries[backupDir ++ m]? = some e → m ≠ rmlistFile → m ≠ magiskFile →
      IsKey (restored env.xz (backupDir ++ m) e).1

theorem splitOn_normPath {p : Str} (h : normPath p ≠ []) :
    (normPath p).splitOn '/' = (p.splitOn '/').filter (· ≠ []) := by
  apply splitOn_intercalate
  · intro l hl
    exact (mem_splitOn (mem_of_mem_filter hl)).1
  · intro hnil
    rw [normPath, hnil] at h
    exact h rfl

theorem normPath_normPath (p : Str) : normPath (normPath p) = normPath p := by
  by_cases h : normPath p = []
  · rw [h]
    decide
  · rw [normPath, splitOn_normPath h, List.filter_filter]
    simp only [Bool.and_self]
    rfl

theorem isKey_normPath_iff {p : Str} : IsKey (normPath p) ↔ normPath p ∉ reserved :=
  ⟨IsKey.named, fun h => ⟨normPath_normPath p, h⟩⟩

theorem backupDir_notMem_reserved (m : Str) : backupDir ++ m ∉ reserved := by
  intro h
  have hlen : 8 ≤ (backupDir ++ m).length := by
    rw [length_append, show backupDir.length = 8 by decide]
    omega
  have hhead : (backupDir ++ m).head? = some '.' := rfl
  simp only [reserved, mem_cons, not_mem_nil, or_false] at h
  rcases h with h | h | h | h
  · rw [h] at hlen
    exact absurd hlen (by decide)
  · rw [h] at hlen
    exact absurd hlen (by decide)
  · rw [h] at hlen
    exact absurd hlen (by decide)
  · rw [h] at hhead
    exact absurd hhead (by decide)

theorem isKey_backup : IsKey ".backup".toList := ⟨by decide, by decide⟩

theorem isKey_rmlist : IsKey (backupDir ++ rmlistFile) := ⟨by decide, by decide⟩

variable {c c' o s : Cpio} {data : Bytes} {pos : ℕ} {k : Str} {xz : Xz} {skipCompress : Bool}
  {env : Env}

theorem accessible_iff : Accessible c ↔ Keyed c := by
  constructor
  · exact Accessible.keyed
  · intro h
    refine ⟨h, fun k hk => ?_, fun k hk hmem => ?_, fun hfits hn => ?_⟩
    · rw [existsEntry, (h k hk).normal]
      exact Std.ExtTreeMap.contains_iff_mem.mpr hk
    · obtain ⟨e, he⟩ := mem_iff_exists.mp hmem
      rw [getElem?_rm, if_pos (h k hk).normal] at he
      cases he
    · refine reload_of_storable (fun ne hne => ⟨(hfits ne hne).1, ?_⟩) hn
      have hmem : ne.1 ∈ c.entries :=
        mem_iff_exists.mpr ⟨ne.2, Std.ExtTreeMap.mem_toList_iff_getElem?_eq_some.mp hne⟩
      have hnamed := (h ne.1 hmem).named
      simp only [reserved, mem_cons, not_mem_nil, or_false, not_or] at hnamed
      exact ⟨(hfits ne hne).2, hnamed.2.1, hnamed.2.2.1, hnamed.2.2.2⟩

def Step.cpio : Step → Cpio
  | .next _ c => c
  | .stop c => c

theorem loadStep_cpio {r : Step} (h : loadStep data pos c = .ok r) :
    r.cpio = c ∨ ∃ name entry, name ∉ [".".toList, "..".toList, "TRAILER!!!".toList] ∧
      r.cpio = ⟨c.entries.insert name entry⟩ := by
  obtain ⟨⟨hdr, name, p⟩, hr, -⟩ := bind_eq_ok.mp h
  rw [loadStep_of_readName c hr] at h
  split_ifs at h with hdots htrailer
  · cases h
    exact .inl rfl
  · obtain ⟨b, -, h⟩ := bind_eq_ok.mp h
    cases hf : find b (lit "070701") with
    | none =>
      rw [hf] at h
      cases h
      exact .inl rfl
    | some x =>
      rw [hf] at h
      cases h
      exact .inl rfl
  · obtain ⟨⟨entry, q⟩, -, h⟩ := bind_eq_ok.mp h
    cases h
    refine .inr ⟨name, entry, ?_, rfl⟩
    simp only [mem_cons, not_mem_nil, or_false, not_or]
    exact ⟨fun h => hdots (.inl h), fun h => hdots (.inr h), htrailer⟩

/-- The loader skips the names that newc reserves. -/
def Unreserved (c : Cpio) : Prop :=
  ∀ k ∈ c.entries, k ∉ [".".toList, "..".toList, "TRAILER!!!".toList]

theorem loadStep_unreserved {r : Step}
    (h : loadStep data pos c = .ok r) (hc : Unreserved c) : Unreserved r.cpio := by
  rcases loadStep_cpio h with h | ⟨name, entry, hname, h⟩
  · rw [h]
    exact hc
  · rw [h]
    intro k hk
    rcases Std.ExtTreeMap.mem_insert.mp hk with hk | hk
    · rw [← Std.LawfulEqCmp.eq_of_compare hk]
      exact hname
    · exact hc k hk

theorem loadLoop_unreserved
    (h : loadLoop data pos c = .ok c') (hc : Unreserved c) : Unreserved c' := by
  induction pos, c using loadLoop.induct data with
  | case1 pos c hlt e he =>
    rw [loadLoop_error hlt he] at h
    cases h
  | case2 pos c hlt d hs =>
    rw [loadLoop_stop hlt hs] at h
    cases h
    exact loadStep_unreserved hs hc
  | case3 pos c hlt p d hs _ ih =>
    rw [loadLoop_next hlt hs] at h
    exact ih h (loadStep_unreserved hs hc)
  | case4 pos c hlt =>
    rw [loadLoop, if_neg hlt] at h
    cases h
    exact hc

theorem keyed_of_load_iff (h : loadFromData data = .ok c) :
    Keyed c ↔ ∀ k ∈ c.entries, normPath k = k ∧ k ≠ [] := by
  have hnew : Unreserved new := by
    intro k hk
    exact absurd hk Std.ExtTreeMap.not_mem_empty
  have hun := loadLoop_unreserved h hnew
  constructor
  · intro hk k hmem
    refine ⟨(hk k hmem).normal, ?_⟩
    rintro rfl
    exact (hk [] hmem).named mem_cons_self
  · intro hk k hmem
    refine ⟨(hk k hmem).1, fun hr => ?_⟩
    rcases mem_cons.mp hr with h0 | hr
    · exact (hk k hmem).2 h0
    · exact hun k hmem hr

theorem mem_of_mem_rm {path k : Str} {recursive : Bool}
    (h : k ∈ (rm c path recursive).entries) : k ∈ c.entries := by
  unfold rm at h
  have herase : ∀ {k}, k ∈ c.entries.erase (normPath path) → k ∈ c.entries :=
    fun h => Std.ExtTreeMap.mem_of_mem_erase h
  split_ifs at h
  · obtain ⟨e, he⟩ := mem_iff_exists.mp h
    rw [Std.ExtTreeMap.getElem?_filter', Option.filter_eq_some_iff] at he
    exact herase (mem_iff_exists.mpr ⟨e, he.1⟩)
  · exact herase h

theorem mem_of_mem_patch {keepVerity keepForceEncrypt : Bool}
    (h : k ∈ (patch keepVerity keepForceEncrypt c).entries) : k ∈ c.entries := by
  obtain ⟨e, he⟩ := mem_iff_exists.mp h
  rw [patch, Std.ExtTreeMap.getElem?_filterMap'] at he
  obtain ⟨e', he', -⟩ := Option.bind_eq_some_iff.mp he
  exact mem_iff_exists.mpr ⟨e', he'⟩

theorem add_eq_ok {mode : UInt32} {path : Str} {file : Except Fault InFile}
    (h : add c mode path file = .ok c') : ∃ e, c' = ⟨c.entries.insert (normPath path) e⟩ := by
  unfold add at h
  split_ifs at h
  · cases h
  obtain ⟨attr, -, h⟩ := bind_eq_ok.mp h
  split_ifs at h
  · obtain ⟨data, -, h⟩ := bind_eq_ok.mp h
    cases h
    exact ⟨_, rfl⟩
  · cases h
    exact ⟨_, rfl⟩
  · cases h
    exact ⟨_, rfl⟩
  · cases h

theorem keyed_insert_iff {t : Entries} {e : CpioEntry} (ht : ∀ k ∈ t, IsKey k) :
    Keyed ⟨t.insert k e⟩ ↔ IsKey k := by
  constructor
  · intro h
    exact h k Std.ExtTreeMap.mem_insert_self
  · intro hk x hx
    rcases Std.ExtTreeMap.mem_insert.mp hx with hx | hx
    · rw [← Std.LawfulEqCmp.eq_of_compare hx]
      exact hk
    · exact ht x hx

theorem keyed_insertMany_iff {t u : Entries} (ht : ∀ k ∈ t, IsKey k) :
    Keyed ⟨t.insertMany u.toList⟩ ↔ ∀ k ∈ u, IsKey k := by
  constructor
  · intro h k hk
    exact h k (mem_insertMany_toList.mpr (.inl hk))
  · intro h k hk
    rcases mem_insertMany_toList.mp hk with hk | hk
    · exact h k hk
    · exact ht k hk

theorem mem_backupsOf :
    k ∈ backupsOf xz skipCompress o s ↔
      (∃ n e, (changed o s)[n]? = some e ∧ (backupEntry xz skipCompress (n, e)).1 = k) ∨
        k = ".backup".toList := by
  rw [backupsOf_eq, mem_collect]
  refine or_congr ?_ ?_
  · refine exists_congr fun n => exists_congr fun e => ?_
    rw [exists_and_left]
    refine and_congr_right fun _ => ?_
    simp [Prod.ext_iff]
  · rw [Std.ExtTreeMap.mem_insert, Std.LawfulEqCmp.compare_eq_iff_eq, eq_comm]
    exact or_iff_left Std.ExtTreeMap.not_mem_empty

theorem addedBy_isKey_iff :
    (∀ k ∈ addedBy xz skipCompress o s, IsKey k) ↔
      ∀ k ∈ backupsOf xz skipCompress o s, IsKey k := by
  unfold addedBy
  split_ifs
  · constructor
    · intro h k hk
      exact h k (Std.ExtTreeMap.mem_insert.mpr (.inr hk))
    · intro h
      exact (keyed_insert_iff h).mpr isKey_rmlist
  · rfl

theorem backupEntry_isKey_iff {ne : Str × CpioEntry} :
    IsKey (backupEntry xz skipCompress ne).1 ↔
      normPath (backupEntry xz skipCompress ne).1 = (backupEntry xz skipCompress ne).1 := by
  refine ⟨IsKey.normal, fun h => ⟨h, ?_⟩⟩
  unfold backupEntry
  cases packed xz skipCompress ne.2 with
  | none => exact backupDir_notMem_reserved _
  | some e => exact backupDir_notMem_reserved _

theorem backupsOf_isKey_iff :
    (∀ k ∈ backupsOf xz skipCompress o s, IsKey k) ↔ ∀ n e, (changed o s)[n]? = some e →
      normPath (backupEntry xz skipCompress (n, e)).1 = (backupEntry xz skipCompress (n, e)).1 := by
  constructor
  · intro h n e hne
    exact (h _ (mem_backupsOf.mpr (.inl ⟨n, e, hne, rfl⟩))).normal
  · intro h k hk
    rcases mem_backupsOf.mp hk with ⟨n, e, hne, rfl⟩ | rfl
    · exact backupEntry_isKey_iff.mpr (h n e hne)
    · exact isKey_backup

theorem mem_restoredOf : k ∈ restoredOf xz c ↔
    ∃ m e, c.entries[backupDir ++ m]? = some e ∧ m ≠ rmlistFile ∧ m ≠ magiskFile ∧
      (restored xz (backupDir ++ m) e).1 = k := by
  rw [restoredOf, mem_collect]
  constructor
  · rintro (⟨n, e, v, hn, hd⟩ | h)
    · obtain ⟨m, rfl, hc⟩ := takenOut_inv hn
      obtain ⟨hr, hm, -⟩ := decoded_inv xz hd
      rw [decoded_eq xz e hr hm] at hd
      exact ⟨m, e, hc, hr, hm, congrArg Prod.fst (Option.some.inj hd)⟩
    · exact absurd h Std.ExtTreeMap.not_mem_empty
  · rintro ⟨m, e, hc, hr, hm, rfl⟩
    exact .inl ⟨_, e, _, (takenOut_backupDir m).trans hc, decoded_eq xz e hr hm⟩

theorem keyed_restore_iff (hk : Keyed c) :
    Keyed (restore xz c) ↔ ∀ k ∈ restoredOf xz c, IsKey k := by
  rw [restore_eq]
  split_ifs with h
  · refine iff_of_true (fun k hmem => absurd hmem Std.ExtTreeMap.not_mem_empty) fun k hmem => ?_
    exact absurd hmem (by rw [Std.ExtTreeMap.isEmpty_iff.mp h.2]; exact Std.ExtTreeMap.not_mem_empty)
  · apply keyed_insertMany_iff
    intro k hmem
    obtain ⟨e, he⟩ := mem_iff_exists.mp hmem
    rw [getElem?_rmAll] at he
    split_ifs at he
    have hout := mem_of_mem_rm (mem_iff_exists.mpr ⟨e, he⟩)
    obtain ⟨e', he'⟩ := mem_iff_exists.mp hout
    rw [Std.ExtTreeMap.getElem?_filter', Option.filter_eq_some_iff] at he'
    exact hk k (mem_iff_exists.mpr ⟨e', he'.1⟩)

theorem exec_keyed_iff {cmd : Command} (hk : Keyed c)
    (h : exec env c cmd = .ok c') : Keyed c' ↔ AddsKeys env c cmd := by
  cases cmd with
  | rm path recursive =>
    cases h
    exact iff_of_true (fun k hmem => hk k (mem_of_mem_rm hmem)) trivial
  | patch =>
    cases h
    exact iff_of_true (fun k hmem => hk k (mem_of_mem_patch hmem)) trivial
  | mkdir mode dir =>
    cases h
    exact (keyed_insert_iff hk).trans isKey_normPath_iff
  | ln src dst =>
    cases h
    exact (keyed_insert_iff hk).trans isKey_normPath_iff
  | mv source dest =>
    change mv c source dest = _ at h
    unfold mv at h
    cases hs : c.entries[normPath source]? with
    | none =>
      rw [hs] at h
      cases h
    | some e =>
      rw [hs] at h
      cases h
      refine (keyed_insert_iff fun k hmem => ?_).trans isKey_normPath_iff
      exact hk k (Std.ExtTreeMap.mem_of_mem_erase hmem)
  | add mode path file =>
    obtain ⟨e, rfl⟩ := add_eq_ok h
    exact (keyed_insert_iff hk).trans isKey_normPath_iff
  | backup origin skipCompress =>
    obtain ⟨data, hdata, h⟩ := bind_eq_ok.mp h
    obtain ⟨o, ho, -⟩ := bind_eq_ok.mp h
    rw [backup_of_load env.xz skipCompress ho] at h
    cases h
    rw [keyed_insertMany_iff fun k hmem => hk k (mem_of_mem_rm hmem), addedBy_isKey_iff,
      backupsOf_isKey_iff]
    constructor
    · intro hn data' o' hdata' ho'
      rw [hdata] at hdata'
      cases hdata'
      rw [ho] at ho'
      cases ho'
      exact hn
    · intro hn
      exact hn data o hdata ho
  | restore =>
    cases h
    rw [keyed_restore_iff hk]
    constructor
    · intro h m e hc hr hm
      exact h _ (mem_restoredOf.mpr ⟨m, e, hc, hr, hm, rfl⟩)
    · intro h k hmem
      obtain ⟨m, e, hc, hr, hm, rfl⟩ := mem_restoredOf.mp hmem
      exact h m e hc hr hm

theorem throughout_accessible_iff {cmds : List Command} :
    Throughout (execStep env) Accessible c cmds ↔ Throughout (execStep env) Keyed c cmds :=
  ⟨Throughout.mono fun _ h => h.keyed, Throughout.mono fun _ h => accessible_iff.mpr h⟩

theorem throughout_keyed_iff (hc : Keyed c) (cmds : List Command) :
    Throughout (execStep env) Keyed c cmds ↔ Along (execStep env) (AddsKeys env) c cmds := by
  apply throughout_iff_along (fun _ _ _ _ _ _ => trivial) _ trivial hc
  intro d cmd d' _ hd h
  exact exec_keyed_iff hd (execStep_eq_some h)

/-- After every command each entry can be reached under its key, when the archive was loaded with
normalized names and no command adds another name. -/
theorem accessible_throughout_iff {env : Env} {data : Bytes} {c : Cpio}
    (hc : loadFromData data = .ok c) (cmds : List Command) :
    Throughout (execStep env) Accessible c cmds ↔
      (∀ k ∈ c.entries, normPath k = k ∧ k ≠ []) ∧
        Along (execStep env) (AddsKeys env) c cmds := by
  rw [throughout_accessible_iff, ← keyed_of_load_iff hc]
  constructor
  · intro h
    exact ⟨h.start, (throughout_keyed_iff h.start cmds).mp h⟩
  · rintro ⟨hkeyed, hadds⟩
    exact (throughout_keyed_iff hkeyed cmds).mpr hadds

def noFiles : Env where
  xz := framed
  keepVerity := false
  keepForceEncrypt := false
  attr _ := .error (.error "No such file or directory")
  map _ := .error (.error "No such file or directory")

/-- A file moves into a new directory. -/
theorem accessible_throughout_overlay :
    Throughout (execStep noFiles) Accessible (single "init".toList [1])
      [.mkdir 0o755 "/overlay.d/".toList, .mv "init".toList "overlay.d/init".toList] := by
  have hload : loadFromData (dump (single "init".toList [1])) = .ok (single "init".toList [1]) :=
    load_single ⟨by decide, by decide, by decide, by decide⟩
      ⟨by decide, by decide, by decide, by decide⟩
  refine (accessible_throughout_iff hload _).mpr ⟨?_, ?_⟩
  · intro k hk
    rw [mem_single.mp hk]
    decide
  · intro c' _
    refine ⟨?_, fun c'' _ => ⟨?_, trivial⟩⟩
    · show normPath "/overlay.d/".toList ∉ reserved
      decide
    · show normPath "overlay.d/init".toList ∉ reserved
      decide

/-- The loader takes `/init` as it is, and no command finds it. -/
theorem accessible_slash_init :
    loadFromData (dump (single "/init".toList [1])) = .ok (single "/init".toList [1]) ∧
    existsEntry (single "/init".toList [1]) "/init".toList = false ∧
    rm (single "/init".toList [1]) "/init".toList false = single "/init".toList [1] ∧
    ¬ Throughout (execStep noFiles) Accessible (single "/init".toList [1]) [] := by
  have hnorm : normPath "/init".toList = "init".toList := by decide
  have hne : "/init".toList ≠ "init".toList := by decide
  refine ⟨?_, ?_, ?_, fun h => ?_⟩
  · exact load_single ⟨by decide, by decide, by decide, by decide⟩
      ⟨by decide, by decide, by decide, by decide⟩
  · rw [existsEntry, hnorm, ← Bool.not_eq_true, Std.ExtTreeMap.contains_iff_mem, mem_single]
    exact hne.symm
  · apply Cpio.ext
    apply Std.ExtTreeMap.ext_getElem?
    intro k
    rw [getElem?_rm, hnorm]
    split_ifs with hk
    · rw [← hk, getElem?_single, if_neg hne]
    · rfl
  · have hkey := h.start.keyed "/init".toList (mem_single.mpr rfl)
    rw [hkey.normal] at hnorm
    exact hne hnorm

end Magisk.Cpio
