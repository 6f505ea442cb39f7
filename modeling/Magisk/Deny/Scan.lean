import Magisk.Deny.Index

namespace Magisk.Deny

open List

variable {α : Type} {q : Engine α}

/-- The pairs in the table; none if there is no table. -/
def rowsOf (db : Db α) : List (Bytes × Bytes) := db.denylist.getD []

theorem rowsOf_insert {db db' : Db α} {pkg proc : Bytes} (h : db.insert pkg proc = (true, db')) :
    rowsOf db' = rowsOf db ++ [(pkg, proc)] ∧ (pkg, proc) ∉ rowsOf db ∧ db'.rest = db.rest := by
  unfold Db.insert at h
  unfold rowsOf
  cases hrows : db.denylist with
  | none => simp [hrows] at h
  | some rows =>
    simp only [hrows] at h
    split_ifs at h with hmem
    · simp at h
    · obtain rfl := (Prod.mk.inj h).2
      exact ⟨rfl, hmem, rfl⟩

theorem delete_denylist (db : Db α) (selects : Bytes × Bytes → Bool) :
    (db.delete selects).2.denylist =
      db.denylist.map fun rows => rows.filter fun row => !selects row := by
  unfold Db.delete
  cases hrows : db.denylist with
  | none => simp [hrows]
  | some rows => rfl

theorem rowsOf_delete (db : Db α) (selects : Bytes × Bytes → Bool) :
    rowsOf (db.delete selects).2 = (rowsOf db).filter fun row => !selects row := by
  rw [rowsOf, delete_denylist, rowsOf]
  cases db.denylist <;> rfl

/-- A package whose name is written to a statement as it stands. -/
def Removable (pkg : Bytes) : Prop := Plain pkg ∧ (deletePkgText pkg).length < 4096

theorem dbExec_deletePkgSql (w : World) (db : Db α) {pkg : Bytes} (h : Removable pkg) :
    w.dbExec q db (deletePkgSql pkg) = if w.fails (deletePkgSql pkg) then (false, db)
      else db.delete fun row => row.1 = pkg := by
  have htext : deletePkgSql pkg = deletePkgText pkg := take_of_length_le (Nat.le_of_lt_succ h.2)
  rw [World.dbExec, htext, q.exec_deletePkgText db h.1]

theorem rowsOf_deletePkgSql (w : World) (db : Db α) {pkg : Bytes} (h : Removable pkg) :
    rowsOf (w.dbExec q db (deletePkgSql pkg)).2 =
      if w.fails (deletePkgSql pkg) then rowsOf db
      else (rowsOf db).filter fun row => !(decide (row.1 = pkg)) := by
  rw [dbExec_deletePkgSql w db h]
  split_ifs
  · rfl
  · exact rowsOf_delete db _

variable {w : World} {d : DenyData} {db : Db α}

/-- The scan removes something of the package from memory. -/
def Forgets (q : Engine α) (w : World) (d : DenyData) (db : Db α) (pkg : Bytes) : Prop :=
  ∃ proc ∈ d.pkgToProcs.find pkg, proc ∉ (scanDenyApps q w d db).1.pkgToProcs.find pkg

/-- The scan removes a row of the package from the table. -/
def Deletes (q : Engine α) (w : World) (d : DenyData) (db : Db α) (pkg : Bytes) : Prop :=
  ∃ proc, (pkg, proc) ∈ rowsOf db ∧ (pkg, proc) ∉ rowsOf (scanDenyApps q w d db).2

/-- Some user has a data directory of the package. -/
def AppData.HasDataDir (a : AppData) (pkg : Bytes) : Prop := ∃ user ∈ a.users, a.owner user pkg ≠ none

/-- The directory of the users cannot be listed to its end. -/
def AppData.ListFails (a : AppData) : Prop := a.opens = false ∨ a.reads < a.users.length

/-- The first data directory of the package that can be queried belongs to an app. -/
def AppData.Finds (a : AppData) (pkg : Bytes) : Prop :=
  ∃ user uid, Before (fun u => a.stat (AppData.userDir u) pkg = none) a.collectUsers user ∧
    a.stat (AppData.userDir user) pkg = some uid ∧ uid % 100000 ≠ 0

theorem toInt32_mod_ne_zero_iff (uid : UInt32) :
    (uid % 100000).toInt32 ≠ 0 ↔ uid % 100000 ≠ 0 := by
  have hinj (a : UInt32) (h : a.toInt32 = 0) : a = 0 := by
    rw [← UInt32.toUInt32_toInt32 a, h]
    rfl
  exact not_congr ⟨hinj _, fun h => by rw [h]; rfl⟩

theorem getAppId_ne_zero_iff (a : AppData) (pkg : Bytes) (users : List Int32) :
    a.getAppId pkg users ≠ 0 ↔
      ∃ user uid, Before (fun u => a.stat (AppData.userDir u) pkg = none) users user ∧
        a.stat (AppData.userDir user) pkg = some uid ∧ uid % 100000 ≠ 0 := by
  induction users with
  | nil => simp [AppData.getAppId, not_before_nil]
  | cons u users ih =>
    rw [AppData.getAppId]
    cases hs : a.stat (AppData.userDir u) pkg with
    | none =>
      simp only [ih, before_cons, hs, true_and]
      constructor
      · rintro ⟨user, uid, hb, h⟩
        exact ⟨user, uid, Or.inr hb, h⟩
      · rintro ⟨user, uid, rfl | hb, h⟩
        · rw [hs] at h
          simp at h
        · exact ⟨user, uid, hb, h⟩
    | some uid =>
      simp only [toInt32_mod_ne_zero_iff, before_cons, hs, reduceCtorEq, false_and, or_false]
      constructor
      · exact fun h => ⟨u, uid, rfl, hs, h⟩
      · rintro ⟨user, uid', rfl, h, hne⟩
        rw [hs] at h
        rw [Option.some.inj h]
        exact hne

theorem gone_iff (pkg : Bytes) :
    Gone w w.appData.collectUsers pkg ↔ pkg ≠ isolatedMagic ∧ ¬ w.appData.Finds pkg := by
  unfold Gone AppData.Finds
  rw [← getAppId_ne_zero_iff, not_not]

theorem forgets_iff (pkg : Bytes) : Forgets q w d db pkg ↔
    (d.pkgToProcs.find pkg).Nonempty ∧ Gone w w.appData.collectUsers pkg := by
  unfold Forgets
  simp only [scanDenyApps_pkgToProcs, not_and, not_not]
  constructor
  · rintro ⟨proc, hproc, h⟩
    exact ⟨⟨proc, hproc⟩, h hproc⟩
  · rintro ⟨⟨proc, hproc⟩, h⟩
    exact ⟨proc, hproc, fun _ => h⟩

theorem scanStep_rows {users : List Int32} {s : DenyData × Db α} {pkg : Bytes}
    (h : Gone w users pkg → Removable pkg) {p r : Bytes} :
    (p, r) ∈ rowsOf (scanStep q w users s pkg).2 ↔ (p, r) ∈ rowsOf s.2 ∧
      ¬ (p = pkg ∧ Gone w users p ∧ w.fails (deletePkgSql p) = false) := by
  simp only [scanStep]
  split_ifs with h1 h2
  · simp only [iff_self_and]
    rintro - ⟨rfl, hgone, -⟩
    exact hgone.1 h1
  · have hgone : Gone w users pkg := ⟨h1, h2⟩
    rw [rowsOf_deletePkgSql w s.2 (h hgone)]
    split_ifs with hf
    · simp only [iff_self_and]
      rintro - ⟨rfl, -, hok⟩
      rw [hf] at hok
      cases hok
    · simp only [mem_filter, Bool.not_eq_true', decide_eq_false_iff_not]
      refine and_congr_right fun _ => not_congr ⟨fun hp => ?_, fun hp => hp.1⟩
      subst hp
      exact ⟨rfl, hgone, by simpa using hf⟩
  · simp only [iff_self_and]
    rintro - ⟨rfl, hgone, -⟩
    exact h2 hgone.2

theorem foldl_scanStep_rows {users : List Int32} (l : List Bytes)
    (hl : ∀ pkg ∈ l, Gone w users pkg → Removable pkg) (s : DenyData × Db α) {p r : Bytes} :
    (p, r) ∈ rowsOf (l.foldl (scanStep q w users) s).2 ↔ (p, r) ∈ rowsOf s.2 ∧
      ¬ (p ∈ l ∧ Gone w users p ∧ w.fails (deletePkgSql p) = false) := by
  induction l generalizing s with
  | nil => simp
  | cons pkg l ih =>
    rw [foldl_cons, ih fun p hp => hl p (mem_cons_of_mem pkg hp),
      scanStep_rows (hl pkg mem_cons_self), mem_cons]
    tauto

/-- The rows of the packages that the scan takes for uninstalled are deleted, unless a statement
fails. -/
theorem scanDenyApps_rows (h : ∀ pkg, (d.pkgToProcs.find pkg).Nonempty → Removable pkg)
    (db : Db α) {p r : Bytes} : (p, r) ∈ rowsOf (scanDenyApps q w d db).2 ↔ (p, r) ∈ rowsOf db ∧
      ¬ ((d.pkgToProcs.find p).Nonempty ∧ Gone w w.appData.collectUsers p ∧
        w.fails (deletePkgSql p) = false) := by
  unfold scanDenyApps
  rw [foldl_scanStep_rows _ fun pkg hpkg _ => h pkg (SetMap.mem_keys.mp hpkg), SetMap.mem_keys]

theorem scanDenyApps_denylist (h : ∀ pkg, (d.pkgToProcs.find pkg).Nonempty → Removable pkg)
    (hdb : db.denylist ≠ none) : (scanDenyApps q w d db).2.denylist ≠ none := by
  have hstep (l : List Bytes) (hl : ∀ pkg ∈ l, Removable pkg) (s : DenyData × Db α)
      (hs : s.2.denylist ≠ none) :
      (l.foldl (scanStep q w w.appData.collectUsers) s).2.denylist ≠ none := by
    induction l generalizing s with
    | nil => exact hs
    | cons pkg l ih =>
      refine ih (fun p hp => hl p (mem_cons_of_mem pkg hp)) _ ?_
      simp only [scanStep]
      split_ifs
      · exact hs
      · rw [dbExec_deletePkgSql w s.2 (hl pkg mem_cons_self)]
        split_ifs
        · exact hs
        · rw [delete_denylist, ne_eq, Option.map_eq_none_iff]
          exact hs
      · exact hs
  exact hstep _ (fun pkg hpkg => h pkg (SetMap.mem_keys.mp hpkg)) _ hdb

/-- The scan removes a package only if no user has a data directory of it, and nothing if the users
cannot be listed. -/
def ScanSafe (q : Engine α) (w : World) (d : DenyData) (db : Db α) : Prop :=
  ∀ pkg, Forgets q w d db pkg ∨ Deletes q w d db pkg →
    ¬ w.appData.HasDataDir pkg ∧ ¬ w.appData.ListFails

/-- Where no name has a quote, a scan is safe exactly if it finds the app of every package on the
list that has a data directory, and of every package if the users cannot be listed. -/
theorem scanSafe_iff (q : Engine α) (w : World) (d : DenyData) (db : Db α)
    (hnames : ∀ pkg, (d.pkgToProcs.find pkg).Nonempty → Removable pkg) :
    ScanSafe q w d db ↔
      ∀ pkg, (d.pkgToProcs.find pkg).Nonempty → pkg ≠ isolatedMagic →
        (w.appData.HasDataDir pkg ∨ w.appData.ListFails) → w.appData.Finds pkg := by
  have hdeletes (pkg : Bytes) (h : Deletes q w d db pkg) : Forgets q w d db pkg := by
    obtain ⟨proc, hmem, hgone⟩ := h
    rw [scanDenyApps_rows hnames, not_and, not_not] at hgone
    exact (forgets_iff pkg).mpr ⟨(hgone hmem).1, (hgone hmem).2.1⟩
  have hsafe : ScanSafe q w d db ↔ ∀ pkg, Forgets q w d db pkg →
      ¬ w.appData.HasDataDir pkg ∧ ¬ w.appData.ListFails := by
    constructor
    · exact fun h pkg hf => h pkg (Or.inl hf)
    · rintro h pkg (hf | hd)
      · exact h pkg hf
      · exact h pkg (hdeletes pkg hd)
  rw [hsafe]
  refine forall_congr' fun pkg => ?_
  rw [forgets_iff, gone_iff]
  tauto

theorem find_load_sample (pkg : Bytes)
    (h : ((load [(samplePkg, samplePkg)]).pkgToProcs.find pkg).Nonempty) : pkg = samplePkg := by
  obtain ⟨proc, hproc⟩ := h
  rcases SetMap.mem_add.mp hproc with ⟨rfl, -⟩ | hproc
  · rfl
  · simp at hproc

/-- An installed package is kept. -/
theorem scanSafe_installed : ScanSafe denyEngine { appData := installed 10010 }
    (load [(samplePkg, samplePkg)]) ⟨some [(samplePkg, samplePkg)], ()⟩ := by
  apply (scanSafe_iff denyEngine { appData := installed 10010 } (load [(samplePkg, samplePkg)])
    ⟨some [(samplePkg, samplePkg)], ()⟩ fun pkg hpkg => ?_).mpr
  · intro pkg hpkg _ _
    rw [find_load_sample pkg hpkg]
    exact ⟨0, 10010, ⟨[], [], by decide +kernel, by simp⟩, by decide +kernel, by decide⟩
  · rw [find_load_sample pkg hpkg]
    exact ⟨by decide, by decide +kernel⟩

/-- The app data directory cannot be opened, and an installed package is removed. -/
theorem scanSafe_unlisted :
    ¬ ScanSafe denyEngine { appData := { installed 10010 with opens := false } }
      (load [(samplePkg, samplePkg)]) ⟨some [(samplePkg, samplePkg)], ()⟩ := by
  intro h
  have hforgets : Forgets denyEngine { appData := { installed 10010 with opens := false } }
      (load [(samplePkg, samplePkg)]) ⟨some [(samplePkg, samplePkg)], ()⟩ samplePkg :=
    ⟨samplePkg, by decide +kernel, by decide +kernel⟩
  apply (h samplePkg (Or.inl hforgets)).1
  exact ⟨['0'], mem_singleton_self _, by decide⟩

end Magisk.Deny
