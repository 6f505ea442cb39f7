import Magisk.Deny.Scan

namespace Magisk.Deny

open List

variable {α : Type} {q : Engine α}

/-- Names that are written to every statement as they stand. -/
def Storable (pkg proc : Bytes) : Prop :=
  Plain pkg ∧ Plain proc ∧ (insertText pkg proc).length < 4096

instance (pkg proc : Bytes) : Decidable (Storable pkg proc) :=
  inferInstanceAs (Decidable (_ ∧ _ ∧ _))

section Statements

variable {pkg proc : Bytes}

theorem length_insertText : (insertText pkg proc).length = 59 + pkg.length + proc.length := by
  have h1 : (lit "INSERT INTO denylist (package_name, process) VALUES('").length = 53 := by
    decide +kernel
  have h2 : (lit "', '").length = 4 := by decide +kernel
  have h3 : (lit "')").length = 2 := by decide +kernel
  simp only [insertText, length_append, h1, h2, h3]
  omega

theorem length_deletePkgText : (deletePkgText pkg).length = 42 + pkg.length := by
  have h1 : (lit "DELETE FROM denylist WHERE package_name='").length = 41 := by decide +kernel
  have h2 : (lit "'").length = 1 := by decide +kernel
  simp only [deletePkgText, length_append, h1, h2]
  omega

theorem length_deleteProcText : (deleteProcText pkg proc).length = 57 + pkg.length + proc.length := by
  have h1 : (lit "DELETE FROM denylist WHERE package_name='").length = 41 := by decide +kernel
  have h2 : (lit "' AND process='").length = 15 := by decide +kernel
  have h3 : (lit "'").length = 1 := by decide +kernel
  simp only [deleteProcText, length_append, h1, h2, h3]
  omega

theorem Storable.removable (h : Storable pkg proc) : Removable pkg := by
  have hlen := h.2.2
  rw [length_insertText] at hlen
  exact ⟨h.1, by rw [length_deletePkgText]; omega⟩

variable (w : World) (db : Db α)

theorem dbExec_insertSql (h : Storable pkg proc) : w.dbExec q db (insertSql pkg proc) =
    if w.fails (insertSql pkg proc) then (false, db) else db.insert pkg proc := by
  have htext : insertSql pkg proc = insertText pkg proc :=
    take_of_length_le (Nat.le_of_lt_succ h.2.2)
  rw [World.dbExec, htext, q.exec_insertText db h.1 h.2.1]

def deleteSql (pkg proc : Bytes) : Bytes :=
  if proc = [] then deletePkgSql pkg else deleteProcSql pkg proc

/-- The rows that it deletes. -/
def Removed (pkg proc : Bytes) (row : Bytes × Bytes) : Prop :=
  row.1 = pkg ∧ (proc = [] ∨ row.2 = proc)

instance (pkg proc : Bytes) : DecidablePred (Removed pkg proc) := fun _ =>
  inferInstanceAs (Decidable (_ ∧ _))

theorem dbExec_deleteSql {r : Bytes} (h : Storable pkg r) (hproc : proc = [] ∨ proc = r) :
    w.dbExec q db (deleteSql pkg proc) = if w.fails (deleteSql pkg proc) then (false, db)
      else db.delete fun row => Removed pkg proc row := by
  unfold World.dbExec
  congr 1
  by_cases hnil : proc = []
  · have htext : deletePkgSql pkg = deletePkgText pkg :=
      take_of_length_le (Nat.le_of_lt_succ h.removable.2)
    rw [deleteSql, if_pos hnil, htext, q.exec_deletePkgText db h.1]
    congr 1
    funext row
    simp [Removed, hnil]
  · obtain rfl := hproc.resolve_left hnil
    have htext : deleteProcSql pkg proc = deleteProcText pkg proc := by
      have hlen := h.2.2
      rw [length_insertText] at hlen
      exact take_of_length_le (by rw [length_deleteProcText]; omega)
    rw [deleteSql, if_neg hnil, htext, q.exec_deleteProcText db h.1 h.2.1]
    congr 1
    funext row
    simp [Removed, hnil, Prod.ext_iff]

end Statements

theorem mem_load {rows : List (Bytes × Bytes)} {p r : Bytes} :
    r ∈ (load rows).pkgToProcs.find p ↔ (p, r) ∈ rows := by
  have h : ∀ m : SetMap Bytes Bytes,
      r ∈ (rows.foldl (fun m row => m.add row.1 row.2) m).find p ↔
        (p, r) ∈ rows ∨ r ∈ m.find p := by
    induction rows with
    | nil => simp
    | cons row rows ih =>
      intro m
      rw [foldl_cons, ih, SetMap.mem_add, mem_cons, Prod.ext_iff]
      tauto
  rw [load, h]
  simp

/-- The list that `clear_data` and `ensure_data` leave. -/
def rebuild (q : Engine α) (w : World) (db : Db α) : Option DenyData :=
  ((⟨none, db⟩ : DenyList α).ensureData q w).1

/-- The package is taken for uninstalled. -/
def AppData.Misses (a : AppData) (pkg : Bytes) : Prop :=
  pkg ≠ isolatedMagic ∧ a.getAppId pkg a.collectUsers = 0

/-- The maps are those of the table on this device. -/
structure Mirrors (a : AppData) (rows : List (Bytes × Bytes)) (d : DenyData) : Prop where
  procs : ∀ p r, r ∈ d.pkgToProcs.find p ↔ (p, r) ∈ rows ∧ ¬ a.Misses p
  index : ∀ p id, p ∈ d.appIdToPkgs.find id ↔
    (∃ r, (p, r) ∈ rows) ∧ p ≠ isolatedMagic ∧ a.getAppId p a.collectUsers = id ∧ 0 < id

variable {a : AppData} {rows : List (Bytes × Bytes)} {d d' : DenyData} {w : World} {db : Db α}

theorem scanDenyApps_mirrors (w : World) (db : Db α) (rows : List (Bytes × Bytes)) :
    Mirrors w.appData rows (scanDenyApps q w (load rows) db).1 where
  procs p r := by
    rw [scanDenyApps_pkgToProcs, mem_load]
    rfl
  index p id := by
    rw [scanDenyApps_appIdToPkgs, SetMap.mem_keys, Finset.Nonempty]
    simp only [mem_load]

theorem Mirrors.unique (h : Mirrors a rows d) (h' : Mirrors a rows d') : d = d' := by
  have hprocs : d.pkgToProcs = d'.pkgToProcs :=
    SetMap.ext_find fun p => Finset.ext fun r => (h.procs p r).trans (h'.procs p r).symm
  have hindex : d.appIdToPkgs = d'.appIdToPkgs :=
    SetMap.ext_find fun id => Finset.ext fun p => (h.index p id).trans (h'.index p id).symm
  cases d
  cases d'
  congr

theorem rebuild_eq_some_iff (hrows : db.denylist = some rows) :
    rebuild q { appData := a } db = some d ↔ Mirrors a rows d := by
  have hrebuild : rebuild q { appData := a } db =
      some (scanDenyApps q { appData := a } (load rows) db).1 := by
    simp [rebuild, DenyList.ensureData, hrows]
  have hmirrors := scanDenyApps_mirrors (q := q) { appData := a } db rows
  rw [hrebuild, Option.some.injEq]
  constructor
  · rintro rfl
    exact hmirrors
  · exact hmirrors.unique

/-- What is missed may be left out of the table. -/
theorem Mirrors.congr {rows' : List (Bytes × Bytes)} (h : Mirrors a rows d)
    (hrows : ∀ p r, ¬ a.Misses p → ((p, r) ∈ rows' ↔ (p, r) ∈ rows)) : Mirrors a rows' d where
  procs p r := by
    rw [h.procs]
    exact and_congr_left fun hp => (hrows p r hp).symm
  index p id := by
    rw [h.index]
    refine and_congr_left fun hid => exists_congr fun r => (hrows p r ?_).symm
    obtain ⟨-, hid, hpos⟩ := hid
    rintro ⟨-, hzero⟩
    rw [← hid, hzero] at hpos
    exact absurd hpos (by decide)

theorem not_misses_of_appIdOf {pkg : Bytes} (h : a.appIdOf pkg ≠ 0) : ¬ a.Misses pkg := by
  rintro ⟨hne, hid⟩
  apply h
  rw [AppData.appIdOf, if_neg hne, hid]

theorem Mirrors.added {pkg proc : Bytes} (h : Mirrors a rows d) (hid : a.appIdOf pkg ≠ 0) :
    Mirrors a (rows ++ [(pkg, proc)]) (d.added (a.appIdOf pkg) pkg proc) where
  procs p r := by
    rw [DenyData.added, updateAppId_pkgToProcs, SetMap.mem_add, h.procs, mem_append,
      mem_singleton, Prod.mk.injEq]
    constructor
    · rintro (⟨rfl, rfl⟩ | ⟨hmem, hp⟩)
      · exact ⟨Or.inr ⟨rfl, rfl⟩, not_misses_of_appIdOf hid⟩
      · exact ⟨Or.inl hmem, hp⟩
    · rintro ⟨hmem | ⟨rfl, rfl⟩, hp⟩
      · exact Or.inr ⟨hmem, hp⟩
      · exact Or.inl ⟨rfl, rfl⟩
  index p id := by
    rw [DenyData.added, mem_updateAppId_add, h.index]
    simp only [mem_append, mem_singleton, Prod.mk.injEq, exists_or, exists_and_left, exists_eq,
      and_true]
    constructor
    · rintro (⟨hpos, heq, rfl⟩ | ⟨hmem, hp⟩)
      · have hne : p ≠ isolatedMagic := by
          rintro rfl
          rw [AppData.appIdOf, if_pos rfl] at hpos
          exact absurd hpos (by decide)
        rw [AppData.appIdOf, if_neg hne] at hpos heq
        exact ⟨Or.inr rfl, hne, heq, heq ▸ hpos⟩
      · exact ⟨Or.inl hmem, hp⟩
    · rintro ⟨hmem | rfl, hne, heq, hpos⟩
      · exact Or.inr ⟨hmem, hne, heq, hpos⟩
      · rw [AppData.appIdOf, if_neg hne]
        exact Or.inl ⟨heq ▸ hpos, heq, rfl⟩

namespace DenyList

theorem removeFrom_procs {pkg proc : Bytes} (h : removeFrom w d pkg proc = some d') :
    (d.pkgToProcs.find pkg).Nonempty ∧ (proc = [] ∨ proc ∈ d.pkgToProcs.find pkg) ∧
      ∀ p r, r ∈ d'.pkgToProcs.find p ↔
        r ∈ d.pkgToProcs.find p ∧ ¬ Removed pkg proc (p, r) := by
  rcases d.removeFrom_cases w pkg proc with ⟨he, hr⟩ | ⟨hne, hr | ⟨hmem, hr⟩⟩
  · obtain rfl := Option.some.inj (hr.symm.trans h)
    have hproc : proc = [] ∨ proc ∈ d.pkgToProcs.find pkg :=
      he.2.imp_right fun hs => by rw [hs]; exact Finset.mem_singleton_self proc
    refine ⟨he.1, hproc, fun p r => ?_⟩
    simp only [DenyData.erased, updateAppId_pkgToProcs, SetMap.mem_erase, Removed]
    refine and_congr_right fun hmem => not_congr ⟨fun hp => ⟨hp.symm, ?_⟩, fun hp => hp.1.symm⟩
    subst hp
    exact he.2.imp_right fun hs => by rwa [hs, Finset.mem_singleton] at hmem
  · rw [hr] at h
    cases h
  · obtain rfl := Option.some.inj (hr.symm.trans h)
    have hnil : proc ≠ [] := fun hnil => hne ⟨⟨proc, hmem⟩, Or.inl hnil⟩
    refine ⟨⟨proc, hmem⟩, Or.inr hmem, fun p r => ?_⟩
    rw [SetMap.mem_remove]
    simp [Removed, hnil, eq_comm]

end DenyList

theorem Mirrors.removed {pkg proc : Bytes} (h : Mirrors w.appData rows d)
    (hr : DenyList.removeFrom w d pkg proc = some d') :
    Mirrors w.appData (rows.filter fun row => !(decide (Removed pkg proc row))) d' where
  procs p r := by
    rw [(DenyList.removeFrom_procs hr).2.2, h.procs, mem_filter]
    simp only [Bool.not_eq_true', decide_eq_false_iff_not]
    tauto
  index p id := by
    simp only [mem_filter, Bool.not_eq_true', decide_eq_false_iff_not]
    -- a package of the index is on the list
    have hmem (r : Bytes) (hp : (p, r) ∈ rows) (hid : w.appData.getAppId p
        w.appData.collectUsers = id) (hpos : 0 < id) : r ∈ d.pkgToProcs.find p := by
      refine (h.procs p r).mpr ⟨hp, fun hm => ?_⟩
      rw [← hid, hm.2] at hpos
      exact absurd hpos (by decide)
    rcases d.removeFrom_cases w pkg proc with ⟨he, hr'⟩ | ⟨hne, hr' | ⟨hproc, hr'⟩⟩
    · obtain rfl := Option.some.inj (hr'.symm.trans hr)
      rw [DenyData.erased]
      simp only [mem_updateAppId_remove, h.index]
      constructor
      · rintro ⟨⟨⟨r, hp⟩, hiso, hid, hpos⟩, hkept⟩
        refine ⟨⟨r, hp, fun hrem => hkept ?_⟩, hiso, hid, hpos⟩
        have hpkg : p = pkg := hrem.1
        subst hpkg
        rw [AppData.appIdOf, if_neg hiso]
        exact ⟨hid ▸ hpos, hid, rfl⟩
      · rintro ⟨⟨r, hp, hkeep⟩, hiso, hid, hpos⟩
        refine ⟨⟨⟨r, hp⟩, hiso, hid, hpos⟩, ?_⟩
        rintro ⟨-, -, rfl⟩
        apply hkeep
        refine ⟨rfl, he.2.imp_right fun hs => ?_⟩
        have hr := hmem r hp hid hpos
        rwa [hs, Finset.mem_singleton] at hr
    · rw [hr'] at hr
      cases hr
    · obtain rfl := Option.some.inj (hr'.symm.trans hr)
      rw [h.index]
      have hnil : proc ≠ [] := fun hnil => hne ⟨⟨proc, hproc⟩, Or.inl hnil⟩
      refine and_congr_left fun _ => ⟨?_, Exists.imp fun r hr => hr.1⟩
      rintro ⟨r, hp⟩
      by_cases hrem : Removed pkg proc (p, r)
      · obtain ⟨other, hother, hne⟩ := DenyData.exists_ne_of_not_erases hproc hne
        have hpkg : p = pkg := hrem.1
        rw [hpkg]
        refine ⟨other, ((h.procs pkg other).mp hother).1, ?_⟩
        rintro ⟨-, h | h⟩
        · exact hnil h
        · exact hne h
      · exact ⟨r, hp, hrem⟩

inductive Edit
  | add (pkg proc : Bytes)
  | rm (pkg proc : Bytes)

/-- The names of an addition can be stored. -/
def Edit.Fits : Edit → Prop
  | .add pkg proc => Storable pkg (procOf pkg proc)
  | .rm _ _ => True

/-- A request on a device, with what fails while it runs. -/
structure EditCall where
  selects : Bool
  fails : Bytes → Bool
  edit : Edit
  fits : edit.Fits

def EditCall.world (c : EditCall) (a : AppData) : World := ⟨a, c.selects, c.fails⟩

namespace DenyList

variable {s : DenyList α}

def edit (q : Engine α) (s : DenyList α) (w : World) : Edit → DenyResponse × DenyList α
  | .add pkg proc => s.addList q w pkg proc
  | .rm pkg proc => s.rmList q w pkg proc

/-- The request gets to its statement, and that fails. -/
def StatementFails (q : Engine α) (s : DenyList α) (w : World) : Edit → Prop
  | .add pkg proc => ∃ d, (s.ensureData q w).1 = some d ∧
      validate pkg (procOf pkg proc) ∧ w.appData.appIdOf pkg ≠ 0 ∧
      procOf pkg proc ∉ d.pkgToProcs.find pkg ∧
      w.fails (insertSql pkg (procOf pkg proc))
  | .rm pkg proc => ∃ d, (s.ensureData q w).1 = some d ∧ removeFrom w d pkg proc ≠ none ∧
      w.fails (deleteSql pkg proc)

/-- An error leaves the maps as they were. -/
def KeepsOnError (q : Engine α) (s : DenyList α) (w : World) (e : Edit) : Prop :=
  (s.edit q w e).1 = .error → (s.edit q w e).2.data = s.data

/-- Loading the table again gives the maps. -/
def Reloads (q : Engine α) (a : AppData) (s : DenyList α) : Prop :=
  ∀ d, s.data = some d → rebuild q { appData := a } s.db = some d

/-- There is a table, and its names are stored as they stand. -/
structure Kept (s : DenyList α) : Prop where
  table : s.db.denylist ≠ none
  names : ∀ p r, (p, r) ∈ rowsOf s.db → Storable p r

theorem ensureData_of_data (h : s.data = some d) : s.ensureData q w = (some d, s.db) := by
  simp only [ensureData, h]

theorem data_eq_none (h : (s.ensureData q w).1 = none) : s.data = none := by
  cases hd : s.data with
  | none => rfl
  | some d => rw [ensureData_of_data hd] at h; cases h

theorem Kept.storable (hk : s.Kept) (hrows : s.db.denylist = some rows) {p r : Bytes}
    (h : (p, r) ∈ rows) : Storable p r := by
  refine hk.names p r ?_
  rw [rowsOf, hrows]
  exact h

theorem Kept.removable (hk : s.Kept) (hrows : s.db.denylist = some rows) (pkg : Bytes)
    (h : ((load rows).pkgToProcs.find pkg).Nonempty) : Removable pkg := by
  obtain ⟨r, hr⟩ := h
  exact (hk.storable hrows (mem_load.mp hr)).removable

/-- Loading the data keeps the table, and the maps are those of the table then. -/
theorem Kept.ensureData (hk : s.Kept) (hs : s.Reloads q w.appData) :
    Kept ⟨(s.ensureData q w).1, (s.ensureData q w).2⟩ ∧
      ∀ d, (s.ensureData q w).1 = some d →
        ∃ rows, (s.ensureData q w).2.denylist = some rows ∧ Mirrors w.appData rows d := by
  obtain ⟨rows, hrows⟩ := Option.ne_none_iff_exists'.mp hk.table
  cases hd : s.data with
  | some d =>
    rw [ensureData_of_data hd]
    refine ⟨⟨hk.table, hk.names⟩, fun d' hd' => ⟨rows, hrows, ?_⟩⟩
    rw [← Option.some.inj hd']
    exact (rebuild_eq_some_iff hrows).mp (hs d hd)
  | none =>
    have hload : s.ensureData q w = if w.selects then
        ((scanDenyApps q w (load rows) s.db).1, (scanDenyApps q w (load rows) s.db).2).map some id
        else (none, s.db) := by
      simp only [DenyList.ensureData, hd, hrows]
      cases w.selects <;> rfl
    rw [hload]
    split_ifs
    · have hrem := hk.removable hrows
      have htable := scanDenyApps_denylist (q := q) (w := w) hrem hk.table
      obtain ⟨rows', hrows'⟩ := Option.ne_none_iff_exists'.mp htable
      have hmem (p r : Bytes) : (p, r) ∈ rows' ↔ (p, r) ∈ rows ∧
          ¬ (((load rows).pkgToProcs.find p).Nonempty ∧ w.appData.Misses p ∧
            w.fails (deletePkgSql p) = false) := by
        have h := scanDenyApps_rows (q := q) (w := w) hrem s.db (p := p) (r := r)
        rw [rowsOf, rowsOf, hrows', hrows] at h
        exact h
      refine ⟨⟨htable, fun p r hp => ?_⟩, fun d hd => ⟨rows', hrows', ?_⟩⟩
      · rw [rowsOf, Prod.map_snd, id, hrows'] at hp
        exact hk.storable hrows ((hmem p r).mp hp).1
      · rw [← Option.some.inj hd]
        refine (scanDenyApps_mirrors w s.db rows).congr fun p r hp => ?_
        rw [hmem, and_iff_left]
        exact fun h => hp h.2.1
    · exact ⟨⟨hk.table, hk.names⟩, fun d hd => by cases hd⟩

theorem added_ne {appId : Int32} {pkg proc : Bytes} (h : proc ∉ d.pkgToProcs.find pkg) :
    d.added appId pkg proc ≠ d := by
  intro heq
  apply h
  rw [← heq, DenyData.added, updateAppId_pkgToProcs]
  exact SetMap.mem_add.mpr (Or.inl ⟨rfl, rfl⟩)

theorem removeFrom_ne {pkg proc : Bytes} (h : removeFrom w d pkg proc = some d') : d' ≠ d := by
  obtain ⟨⟨r, hr⟩, hproc, hfind⟩ := removeFrom_procs h
  rintro rfl
  rcases hproc with rfl | hproc
  · exact ((hfind pkg r).mp hr).2 ⟨rfl, Or.inl rfl⟩
  · exact ((hfind pkg proc).mp hproc).2 ⟨rfl, Or.inr rfl⟩

theorem ne_data {d d' : DenyData} (hd : (s.ensureData q w).1 = some d) (hne : d' ≠ d) :
    some d' ≠ s.data := by
  intro hdata
  rw [ensureData_of_data hdata.symm] at hd
  exact hne (Option.some.inj hd)

/-- A list that has been loaded, and was left with another database. -/
theorem Reloads.of_mirrors (hrows : db.denylist = some rows) (h : Mirrors a rows d) :
    Reloads q a ⟨some d, db⟩ := by
  intro d' hd'
  obtain rfl := Option.some.inj hd'
  exact (rebuild_eq_some_iff hrows).mpr h

theorem addList_step (hk : s.Kept) (hs : s.Reloads q w.appData) {pkg proc : Bytes}
    (hfits : Storable pkg (procOf pkg proc)) :
    (s.addList q w pkg proc).2.Kept ∧
      (s.KeepsOnError q w (.add pkg proc) ∧ (s.addList q w pkg proc).2.Reloads q w.appData ↔
        ¬ s.StatementFails q w (.add pkg proc)) := by
  obtain ⟨hkept, hmirrors⟩ := hk.ensureData (w := w) hs
  unfold KeepsOnError StatementFails edit
  dsimp only
  rcases s.addList_cases q w pkg proc with
    ⟨hv, h⟩ | ⟨hd, h⟩ | ⟨d, hd, ⟨hid, h⟩ | ⟨hmem, h⟩ | ⟨hv, hid, hmem, h⟩⟩
  · rw [h]
    exact ⟨hk, by simp [hv, hs]⟩
  · rw [h]
    refine ⟨⟨hkept.table, hkept.names⟩, iff_of_true ⟨fun _ => (data_eq_none hd).symm, nofun⟩ ?_⟩
    simp [hd]
  · rw [h]
    obtain ⟨rows, hrows, hm⟩ := hmirrors d hd
    exact ⟨⟨hkept.table, hkept.names⟩,
      iff_of_true ⟨nofun, .of_mirrors hrows hm⟩ (by simp [hid])⟩
  · rw [h]
    obtain ⟨rows, hrows, hm⟩ := hmirrors d hd
    exact ⟨⟨hkept.table, hkept.names⟩,
      iff_of_true ⟨nofun, .of_mirrors hrows hm⟩ (by simp [hd, hmem])⟩
  · obtain ⟨rows, hrows, hm⟩ := hmirrors d hd
    rw [h, dbExec_insertSql w _ hfits]
    cases hf : w.fails (insertSql pkg (procOf pkg proc)) with
    | true =>
      refine ⟨⟨hkept.table, hkept.names⟩, iff_of_false ?_ ?_⟩
      · exact fun hkeeps => ne_data hd (added_ne hmem) (hkeeps.1 rfl)
      · exact not_not_intro ⟨d, hd, hv, hid, hmem, rfl⟩
    | false =>
      -- what is not on the list is not in the table either
      have hnew : (pkg, procOf pkg proc) ∉ rows := fun hrow =>
        hmem ((hm.procs _ _).mpr ⟨hrow, not_misses_of_appIdOf hid⟩)
      have hinsert : (s.ensureData q w).2.insert pkg (procOf pkg proc) = (true,
          { (s.ensureData q w).2 with denylist := some (rows ++ [(pkg, procOf pkg proc)]) }) := by
        simp only [Db.insert, hrows, if_neg hnew]
      simp only [Bool.false_eq_true, if_false, hinsert, if_true]
      refine ⟨⟨nofun, fun p r hp => ?_⟩,
        iff_of_true ⟨nofun, .of_mirrors rfl (hm.added hid)⟩ (by simp)⟩
      rcases mem_append.mp hp with hp | hp
      · exact hkept.storable hrows hp
      · obtain ⟨rfl, rfl⟩ := Prod.mk.inj (mem_singleton.mp hp)
        exact hfits

theorem rmList_eq (pkg proc : Bytes) : s.rmList q w pkg proc =
    (s.ensureData q w).1.elim (.error, ⟨none, (s.ensureData q w).2⟩) fun d =>
      (removeFrom w d pkg proc).elim (.itemNotExist, ⟨some d, (s.ensureData q w).2⟩) fun d =>
        (if (w.dbExec q (s.ensureData q w).2 (deleteSql pkg proc)).1 then .ok else .error,
          ⟨some d, (w.dbExec q (s.ensureData q w).2 (deleteSql pkg proc)).2⟩) := by
  rw [rmList]
  rcases s.ensureData q w with ⟨_ | d, db⟩
  · rfl
  · dsimp only [Option.elim]
    cases removeFrom w d pkg proc <;> rfl

theorem rmList_step (hk : s.Kept) (hs : s.Reloads q w.appData) (pkg proc : Bytes) :
    (s.rmList q w pkg proc).2.Kept ∧
      (s.KeepsOnError q w (.rm pkg proc) ∧ (s.rmList q w pkg proc).2.Reloads q w.appData ↔
        ¬ s.StatementFails q w (.rm pkg proc)) := by
  obtain ⟨hkept, hmirrors⟩ := hk.ensureData (w := w) hs
  unfold KeepsOnError StatementFails edit
  dsimp only
  rw [rmList_eq]
  rcases he : s.ensureData q w with ⟨_ | d, db⟩
  · rw [he] at hkept
    refine ⟨⟨hkept.table, hkept.names⟩, iff_of_true ⟨fun _ => ?_, fun _ h => by cases h⟩ (by simp)⟩
    exact (data_eq_none (congrArg Prod.fst he)).symm
  · rw [he] at hkept hmirrors
    obtain ⟨rows, hrows, hm⟩ := hmirrors d rfl
    dsimp only [Option.elim_some] at hrows ⊢
    cases hr : removeFrom w d pkg proc with
    | none =>
      exact ⟨⟨hkept.table, hkept.names⟩,
        iff_of_true ⟨by simp, .of_mirrors hrows hm⟩ (by simp [hr])⟩
    | some d' =>
      obtain ⟨⟨r, hmem⟩, hproc, -⟩ := removeFrom_procs hr
      have hnames (r : Bytes) (hr : r ∈ d.pkgToProcs.find pkg) : Storable pkg r :=
        hkept.storable hrows ((hm.procs pkg r).mp hr).1
      have hsql : w.dbExec q db (deleteSql pkg proc) =
          if w.fails (deleteSql pkg proc) then (false, db)
          else db.delete fun row => Removed pkg proc row := by
        rcases hproc with hnil | hproc
        · exact dbExec_deleteSql w db (hnames r hmem) (Or.inl hnil)
        · exact dbExec_deleteSql w db (hnames proc hproc) (Or.inr rfl)
      simp only [hsql, Option.some.injEq, exists_eq_left', hr, ne_eq, reduceCtorEq,
        not_false_eq_true, true_and]
      cases hf : w.fails (deleteSql pkg proc) with
      | true =>
        refine ⟨⟨hkept.table, hkept.names⟩, iff_of_false ?_ (by simp)⟩
        exact fun hkeeps => ne_data (congrArg Prod.fst he) (removeFrom_ne hr) (hkeeps.1 rfl)
      | false =>
        have hdelete : db.delete (fun row => Removed pkg proc row) = (true, { db with
            denylist := some (rows.filter fun row => !(decide (Removed pkg proc row))) }) := by
          simp only [Db.delete, hrows]
        simp only [Bool.false_eq_true, if_false, hdelete, if_true]
        refine ⟨⟨by simp, fun p r hp => ?_⟩,
          iff_of_true ⟨by simp, .of_mirrors rfl (hm.removed hr)⟩ (by simp)⟩
        exact hkept.storable hrows (mem_filter.mp hp).1

end DenyList

def editStep (q : Engine α) (a : AppData) (s : DenyList α) (c : EditCall) : Option (DenyList α) :=
  some (s.edit q (c.world a) c.edit).2

/-- Over any requests every error leaves the maps as they were, and loading the table again gives
the maps after each of them, exactly if no statement fails that a request gets to. -/
theorem edits_reload_iff (q : Engine α) (a : AppData) (s : DenyList α) (hk : s.Kept)
    (hs : s.Reloads q a) (calls : List EditCall) :
    Along (editStep q a) (fun s c => s.KeepsOnError q (c.world a) c.edit) s calls ∧
      Throughout (editStep q a) (DenyList.Reloads q a) s calls ↔
    Along (editStep q a) (fun s c => ¬ s.StatementFails q (c.world a) c.edit) s calls := by
  have hstep (s : DenyList α) (c : EditCall) (s' : DenyList α) (hk : s.Kept)
      (hs : s.Reloads q a) (h : editStep q a s c = some s') : s'.Kept ∧
      (s.KeepsOnError q (c.world a) c.edit ∧ s'.Reloads q a ↔
        ¬ s.StatementFails q (c.world a) c.edit) := by
    obtain rfl := Option.some.inj h
    obtain ⟨selects, fails, edit, fits⟩ := c
    cases edit with
    | add pkg proc => exact DenyList.addList_step (w := ⟨a, selects, fails⟩) hk hs fits
    | rm pkg proc => exact DenyList.rmList_step (w := ⟨a, selects, fails⟩) hk hs pkg proc
  exact along_and_throughout_iff _ (fun s c s' hk hs h => (hstep s c s' hk hs h).1)
    (fun s c s' hk hs h => (hstep s c s' hk hs h).2) hk hs calls

def addAndRemove : List EditCall :=
  [⟨true, fun _ => false, .add samplePkg [],
    show Storable samplePkg samplePkg by decide +kernel⟩,
   ⟨true, fun _ => false, .rm samplePkg [], trivial⟩]

theorem edits_reload_addAndRemove :
    Throughout (editStep denyEngine (installed 10010))
      (DenyList.Reloads denyEngine (installed 10010)) ⟨none, ⟨some [], ()⟩⟩ addAndRemove := by
  refine ((edits_reload_iff denyEngine (installed 10010) ⟨none, ⟨some [], ()⟩⟩
    ⟨by simp, fun p r h => nomatch h⟩ nofun addAndRemove).mpr ?_).2
  intro s₁ _
  refine ⟨?_, fun s₂ _ => ⟨?_, trivial⟩⟩
  · rintro ⟨d, -, -, -, -, hfail⟩
    cases hfail
  · rintro ⟨d, -, -, hfail⟩
    cases hfail

/-- The statement of an addition fails: it returns an error, and the package is in memory but not in
the table. -/
theorem edit_error_add :
    let w : World := { appData := installed 10010, fails := fun _ => true }
    let s : DenyList Unit := ⟨some (load []), ⟨some [], ()⟩⟩
    (s.edit denyEngine w (.add samplePkg [])).1 = .error ∧
      (s.edit denyEngine w (.add samplePkg [])).2.data ≠ s.data ∧
      ¬ (s.edit denyEngine w (.add samplePkg [])).2.Reloads denyEngine (installed 10010) := by
  refine ⟨by decide +kernel, fun h => ?_, fun h => ?_⟩
  · have hfind := congrArg (Option.map fun d => d.pkgToProcs.find samplePkg) h
    revert hfind
    decide +kernel
  · have hfind := congrArg (Option.map fun d => d.pkgToProcs.find samplePkg) (h _ rfl)
    revert hfind
    decide +kernel

end Magisk.Deny
