import Magisk.Sql.Commits

namespace Magisk.Sqlite

open List Sql Sql.Db

def dbVersion : Int32 := 12

def policyColumns : List Name :=
  [lit "uid", lit "policy", lit "until", lit "logging", lit "notification"]

def listColumns : List Name := [lit "package_name", lit "process"]

def createPolicy : Stmt := .createTable (lit "policies") policyColumns [lit "uid"]

def createSettings : Stmt :=
  .createTable (lit "settings") [lit "key", lit "value"] [lit "key"]

def createStrings : Stmt :=
  .createTable (lit "strings") [lit "key", lit "value"] [lit "key"]

def createDenylist : Stmt := .createTable (lit "denylist") listColumns listColumns

def rebuildHidelist (selected : Option (List Name)) : List Stmt :=
  rebuild (lit "hidelist") (lit "hidelist_tmp") listColumns listColumns selected

def rebuildPolicies : List Stmt :=
  rebuild (lit "policies") (lit "policies_tmp") policyColumns [lit "uid"] (some policyColumns)

def dropLogs : List Stmt := [.dropTable (lit "logs") true]

def dropHidelist : List Stmt := [.dropTable (lit "hidelist") true]

def deleteMagiskhide : List Stmt :=
  [.delete (lit "settings") [(lit "key", .text (lit "magiskhide"))]]

def setVersion : List Stmt := [.setUserVersion dbVersion]

/-- The variables `ver` and `upgrade`, and what has been committed. -/
structure Upgrade where
  ver : Int32
  upgrade : Bool := false
  work : List (List Stmt) := []

namespace Upgrade

def goto (m : Upgrade) (ver : Int32) (work : List (List Stmt)) : Upgrade :=
  ⟨ver, true, m.work ++ work⟩

def step (ver next : Int32) (work : List (List Stmt)) (m : Upgrade) : Upgrade :=
  if m.ver = ver then m.goto next work else m

def fromOld (m : Upgrade) : Upgrade :=
  if m.ver ≤ 6 then
    m.goto dbVersion [[createPolicy], [createSettings], [createStrings], [createDenylist]]
  else m

def from7 : Upgrade → Upgrade :=
  step 7 9 [rebuildHidelist (some [lit "process", lit "process"])]

-- The columns of version 8 are taken in their order, which puts the process first.
def from8 : Upgrade → Upgrade := step 8 9 [rebuildHidelist none]

def from9 : Upgrade → Upgrade := step 9 10 [dropLogs]

def from10 : Upgrade → Upgrade := step 10 11 [dropHidelist, deleteMagiskhide, [createDenylist]]

def from11 : Upgrade → Upgrade := step 11 12 [rebuildPolicies]

end Upgrade

open Upgrade in
/-- What is committed for a database of this version, in this order. -/
def migration (ver : Int32) : List (List Stmt) :=
  let m := from11 (from10 (from9 (from8 (from7 (fromOld { ver })))))
  if m.upgrade then m.work ++ [setVersion] else m.work

/-- Whether the database can be used, and what it is then. One of a later version is deleted. -/
def openAndInitDb (db : Db) : Bool × Db :=
  let db := if dbVersion < db.userVersion then {} else db
  db.commits (migration db.userVersion)

/-- The database that is left when the process stops after `k` commits. -/
def stopped (db : Db) (k : ℕ) : Db := (db.commits ((migration db.userVersion).take k)).2

section

variable {db : Db}

theorem openAndInitDb_eq (h : db.userVersion ≤ dbVersion) :
    openAndInitDb db = db.commits (migration db.userVersion) := by
  simp only [openAndInitDb, if_neg (Int32.not_lt.mpr h)]

theorem idempotent_rebuildPolicies : Idempotent rebuildPolicies := by
  apply idempotent_rebuild
  · decide
  · decide
  · rfl
  · intro t row hlen
    exact map_get_columns (t := ⟨policyColumns, [lit "uid"], []⟩) (by decide)
      (by simp)

theorem idempotent_rebuildHidelist_star : Idempotent (rebuildHidelist none) := by
  apply idempotent_rebuild
  · decide
  · decide
  · rfl
  · intro t row hlen
    exact map_get_columns (t := ⟨listColumns, listColumns, []⟩) (by decide)
      (by simpa using hlen)

theorem idempotent_rebuildHidelist_process :
    Idempotent (rebuildHidelist (some [lit "process", lit "process"])) := by
  apply idempotent_rebuild
  · decide
  · decide
  · rfl
  · intro t row _
    rfl

/-- The steps behind version 9, without the version. -/
def steps : List (List Stmt) :=
  [dropLogs, dropHidelist, deleteMagiskhide, [createDenylist], rebuildPolicies]

theorem restartable_steps : Restartable steps where
  keepsVersion := by decide
  idempotent := by
    simp only [steps, forall_mem_cons, not_mem_nil, false_imp_iff, implies_true, and_true]
    exact ⟨idempotent_drop _, idempotent_drop _, idempotent_delete _ _, idempotent_create _ _ _,
      idempotent_rebuildPolicies⟩
  disjoint := by decide

variable {selected : Option (List Name)} {us vs : List (List Stmt)} {v : Int32} {t : Table}

theorem restartable_rebuildHidelist (h : Idempotent (rebuildHidelist selected)) :
    Restartable [rebuildHidelist selected, dropLogs] where
  keepsVersion := by simp [rebuildHidelist, rebuild, dropLogs, Stmt.keepsVersion]
  idempotent := by
    simp only [forall_mem_cons, not_mem_nil, false_imp_iff, implies_true, and_true]
    exact ⟨h, idempotent_drop _⟩
  disjoint := by
    have htables : tablesOf (rebuildHidelist selected) = tablesOf (rebuildHidelist none) := rfl
    rw [pairwise_pair, htables]
    decide

theorem migration_latest : migration dbVersion = [] := by decide

theorem open_latest (h : db.userVersion = dbVersion) : openAndInitDb db = (true, db) := by
  have hle : db.userVersion ≤ dbVersion := by
    rw [h]
    decide
  rw [openAndInitDb_eq hle, h, migration_latest, commits]

theorem foldl_stopped_latest (h : db.userVersion = dbVersion) (ks : List ℕ) :
    ks.foldl stopped db = db := by
  have hstop : ∀ k, stopped db k = db := by
    intro k
    rw [stopped, h, migration_latest, take_nil, commits]
  induction ks with
  | nil => rfl
  | cons k ks ih => rw [foldl_cons, hstop, ih]

theorem commits_setVersion : db.commits [setVersion] = (true, { db with userVersion := dbVersion }) :=
  rfl

theorem stopped_keeps (hm : migration db.userVersion = us ++ vs)
    (h : Restartable us) (k : ℕ) (hk : k ≤ us.length) :
    (stopped db k).userVersion = db.userVersion := by
  rw [stopped, hm, take_append_of_le_length hk]
  exact (commits_frame _ _).2 (h.sublist (take_sublist k us)).keepsVersion

section

variable {us : List (List Stmt)} (hver : db.userVersion ≤ dbVersion)
  (hm : migration db.userVersion = us ++ [setVersion]) (hopen : (openAndInitDb db).1) (k : ℕ)
  (hk : us.length < k)

include hver hm hk

theorem stopped_finished : stopped db k = (openAndInitDb db).2 := by
  have hall : (migration db.userVersion).take k = migration db.userVersion := by
    apply take_of_length_le
    rw [hm, length_append, length_singleton]
    omega
  rw [stopped, hall, openAndInitDb_eq hver]

include hopen

theorem stopped_latest : (stopped db k).userVersion = dbVersion := by
  rw [stopped_finished hver hm k hk]
  rw [openAndInitDb_eq hver, hm] at hopen ⊢
  rw [commits_append (commits_of_append hopen), commits_setVersion]

theorem open_finished : openAndInitDb (stopped db k) = openAndInitDb db := by
  calc openAndInitDb (stopped db k) = (true, stopped db k) :=
        open_latest (stopped_latest hver hm hopen k hk)
    _ = ((openAndInitDb db).1, (openAndInitDb db).2) := by
        rw [hopen, stopped_finished hver hm k hk]
    _ = openAndInitDb db := Prod.mk.eta

end

theorem open_stopped (hver : db.userVersion ≤ dbVersion)
    (hm : migration db.userVersion = us ++ vs) (h : Restartable us)
    (hopen : (openAndInitDb db).1) (k : ℕ) (hk : k ≤ us.length) :
    openAndInitDb (stopped db k) = openAndInitDb db := by
  have htake : Restartable (us.take k) := h.sublist (take_sublist k us)
  have hkeep := stopped_keeps hm h k hk
  have hsplit : migration db.userVersion = us.take k ++ (us.drop k ++ vs) := by
    rw [hm, ← append_assoc, take_append_drop]
  rw [openAndInitDb_eq hver, hsplit] at hopen ⊢
  rw [openAndInitDb_eq (hkeep ▸ hver), hkeep, hsplit, stopped, hm, take_append_of_le_length hk]
  exact htake.resume (commits_of_append hopen) _

theorem open_stuck (hver : db.userVersion ≤ dbVersion)
    (hm : migration db.userVersion = rebuildHidelist selected :: (steps ++ [setVersion]))
    (hopen : (openAndInitDb db).1) (k : ℕ) (h3 : 3 ≤ k) (h6 : k ≤ 6) :
    (openAndInitDb (stopped db k)).1 = false := by
  let done := [rebuildHidelist selected, dropLogs, dropHidelist]
  let rest := (steps.drop 2).take (k - 3)
  have htake : (migration db.userVersion).take k = done ++ rest := by
    have hlist : migration db.userVersion = done ++ (steps.drop 2 ++ [setVersion]) := hm
    rw [hlist, take_append, take_of_length_le (by exact h3),
      take_append_of_le_length]
    · rfl
    · change k - 3 ≤ 3
      omega
  have hrest : ∀ u ∈ rest, u ∈ steps.drop 2 := fun u hu => mem_of_mem_take hu
  have hkeep : (stopped db k).userVersion = db.userVersion := by
    rw [stopped, htake]
    apply (commits_frame _ _).2
    rw [forall_mem_append]
    refine ⟨?_, fun u hu => restartable_steps.keepsVersion u (mem_of_mem_drop (hrest u hu))⟩
    simp [done, rebuildHidelist, rebuild, dropLogs, dropHidelist, Stmt.keepsVersion]
  have hgone : (stopped db k).tables[lit "hidelist"]? = none := by
    have hrun : (db.commits ([rebuildHidelist selected, dropLogs] ++ ([dropHidelist] ++
        (steps.drop 2 ++ [setVersion])))).1 := by
      rw [openAndInitDb_eq hver, hm] at hopen
      exact hopen
    have hfirst := commits_of_append hrun
    rw [commits_append hfirst] at hrun
    have hdrop := commits_of_append hrun
    have hnone : ((db.commits [rebuildHidelist selected, dropLogs]).2.commits
        [dropHidelist]).2.tables[lit "hidelist"]? = none := by
      generalize (db.commits [rebuildHidelist selected, dropLogs]).2 = mid at hdrop ⊢
      simp only [commits] at hdrop ⊢
      cases ht : mid.transaction dropHidelist with
      | none => simp [ht] at hdrop
      | some mid' => exact transaction_drop ht
    rw [stopped, htake]
    change (db.commits
      ([rebuildHidelist selected, dropLogs] ++ ([dropHidelist] ++ rest))).2.tables[_]? = _
    rw [commits_append hfirst, commits_append hdrop, (commits_frame _ _).1]
    · exact hnone
    · intro u hu
      have hnot : ∀ u ∈ steps.drop 2, lit "hidelist" ∉ tablesOf u := by decide
      exact hnot u (hrest u hu)
  have hfail : (stopped db k).transaction (rebuildHidelist selected) = none := by
    rw [Option.eq_none_iff_forall_ne_some]
    intro db' h
    obtain ⟨t, -, ht, -⟩ := (rebuild_iff (by decide)).mp h
    rw [hgone] at ht
    exact absurd ht (by simp)
  rw [openAndInitDb_eq (hkeep ▸ hver), hkeep, hm, commits, hfail]

theorem migration_of_le (h9 : 9 ≤ v) (h11 : v ≤ 11) :
    ∃ us, us.Sublist steps ∧ migration v = us ++ [setVersion] := by
  have hv : v = 9 ∨ v = 10 ∨ v = 11 := by
    simp only [Int32.le_iff_toInt_le, ← Int32.toInt_inj] at h9 h11 ⊢
    simp only [Int32.reduceToInt] at h9 h11 ⊢
    omega
  rcases hv with rfl | rfl | rfl
  · exact ⟨steps, List.Sublist.refl _, by decide⟩
  · exact ⟨steps.drop 1, drop_sublist 1 _, by decide⟩
  · exact ⟨steps.drop 4, drop_sublist 4 _, by decide⟩

theorem eq_of_hidelist (h7 : 7 ≤ v) (h8 : v ≤ 8) : v = 7 ∨ v = 8 := by
  simp only [Int32.le_iff_toInt_le, ← Int32.toInt_inj] at h7 h8 ⊢
  simp only [Int32.reduceToInt] at h7 h8 ⊢
  omega

theorem nine_le (h8 : ¬ v ≤ 8) : 9 ≤ v := by
  simp only [Int32.le_iff_toInt_le, Int32.reduceToInt] at h8 ⊢
  omega

theorem migration_7 : migration 7 =
    rebuildHidelist (some [lit "process", lit "process"]) :: (steps ++ [setVersion]) := by
  decide

theorem migration_8 : migration 8 = rebuildHidelist none :: (steps ++ [setVersion]) := by
  decide

theorem migration_hidelist (h7 : 7 ≤ v) (h8 : v ≤ 8) :
    ∃ selected, Idempotent (rebuildHidelist selected) ∧
      migration v = rebuildHidelist selected :: (steps ++ [setVersion]) := by
  rcases eq_of_hidelist h7 h8 with rfl | rfl
  · exact ⟨_, idempotent_rebuildHidelist_process, migration_7⟩
  · exact ⟨_, idempotent_rebuildHidelist_star, migration_8⟩

theorem open_stopped_of_le (h9 : 9 ≤ db.userVersion) (h11 : db.userVersion ≤ 11)
    (hopen : (openAndInitDb db).1) (k : ℕ) :
    openAndInitDb (stopped db k) = openAndInitDb db := by
  obtain ⟨us, hus, hm⟩ := migration_of_le h9 h11
  have hver : db.userVersion ≤ dbVersion := Int32.le_trans h11 (by decide)
  rcases Nat.lt_or_ge us.length k with hk | hk
  · exact open_finished hver hm hopen k hk
  · exact open_stopped hver hm (restartable_steps.sublist hus) hopen k hk

/-- A migration from version 9 on can be stopped any number of times. -/
theorem open_restarts (h9 : 9 ≤ db.userVersion) (h11 : db.userVersion ≤ 11)
    (hopen : (openAndInitDb db).1) (ks : List ℕ) :
    openAndInitDb (ks.foldl stopped db) = openAndInitDb db := by
  induction ks generalizing db with
  | nil => rfl
  | cons k ks ih =>
    obtain ⟨us, hus, hm⟩ := migration_of_le h9 h11
    have hver : db.userVersion ≤ dbVersion := Int32.le_trans h11 (by decide)
    have hnext := open_stopped_of_le h9 h11 hopen k
    rw [foldl_cons]
    rcases Nat.lt_or_ge us.length k with hk | hk
    · have hlatest := stopped_latest hver hm hopen k hk
      rw [foldl_stopped_latest hlatest, hnext]
    · have hkeep := stopped_keeps hm (restartable_steps.sublist hus) k hk
      have h9' : 9 ≤ (stopped db k).userVersion := by rw [hkeep]; exact h9
      have h11' : (stopped db k).userVersion ≤ 11 := by rw [hkeep]; exact h11
      have hopen' : (openAndInitDb (stopped db k)).1 := by rw [hnext]; exact hopen
      rw [ih h9' h11' hopen', hnext]

def hideColumns (ver : Int32) : List Name :=
  if ver = 7 then [lit "process"] else [lit "process", lit "package_name"]

/-- The database has the tables of its version. -/
structure WellFormed (db : Db) : Prop where
  policies : ∃ t, db.tables[lit "policies"]? = some t ∧ policyColumns ⊆ t.columns ∧
    t.key = [lit "uid"] ∧ t.Keyed
  policies_tmp : db.tables[lit "policies_tmp"]? = none
  settings : ∃ t, db.tables[lit "settings"]? = some t ∧ lit "key" ∈ t.columns
  hidelist : db.userVersion ≤ 8 → ∃ t, db.tables[lit "hidelist"]? = some t ∧
    t.columns = hideColumns db.userVersion ∧ t.key = [lit "process"] ∧ t.Keyed
  hidelist_tmp : db.userVersion ≤ 8 → db.tables[lit "hidelist_tmp"]? = none

theorem rebuildPolicies_of_keyed (ht : db.tables[lit "policies"]? = some t)
    (htmp : db.tables[lit "policies_tmp"]? = none) (hcols : policyColumns ⊆ t.columns)
    (hkey : t.key = [lit "uid"]) (hkeyed : t.Keyed) :
    ∃ db', db.transaction rebuildPolicies = some db' := by
  refine rebuild_of_keyed (by decide) ht htmp ?_ rfl hkeyed ?_
  · rw [Option.getD_some, List.all_eq_true]
    intro c hc
    exact decide_eq_true (hcols hc)
  · intro r r' h
    simp only [Table.keyOf, hkey] at h
    exact h

theorem steps_of_tables (hus : us.Sublist steps) (hp : ∃ t, db.tables[lit "policies"]? = some t ∧
      policyColumns ⊆ t.columns ∧ t.key = [lit "uid"] ∧ t.Keyed)
    (htmp : db.tables[lit "policies_tmp"]? = none)
    (hs : ∃ t, db.tables[lit "settings"]? = some t ∧ lit "key" ∈ t.columns) :
    (db.commits (us ++ [setVersion])).1 := by
  have hdrop : ∀ name, ∃ db', db.transaction [.dropTable name true] = some db' := by
    intro name
    cases ht : db.tables[name]? <;> simp [transaction, exec, ht]
  have hcreate : ∃ db', db.transaction [createDenylist] = some db' := by
    cases ht : db.tables[lit "denylist"]? <;> simp [transaction, createDenylist, exec, ht]
  have hdelete : ∃ db', db.transaction deleteMagiskhide = some db' := by
    obtain ⟨t, ht, hc⟩ := hs
    simp [transaction, deleteMagiskhide, exec, ht, hc]
  obtain ⟨t, ht, hcols, hkey, hkeyed⟩ := hp
  have hall : ∀ u ∈ steps, ∃ db', db.transaction u = some db' := by
    simp only [steps, forall_mem_cons, not_mem_nil, false_imp_iff, implies_true, and_true]
    exact ⟨hdrop _, hdrop _, hdelete, hcreate, rebuildPolicies_of_keyed ht htmp hcols hkey hkeyed⟩
  have hrun := commits_of_disjoint (fun u hu => hall u (hus.subset hu))
    (restartable_steps.sublist hus).disjoint
  rw [commits_append (Prod.ext hrun rfl), commits_setVersion]

theorem rebuildHidelist_of_keyed (ht : db.tables[lit "hidelist"]? = some t)
    (htmp : db.tables[lit "hidelist_tmp"]? = none) (hkey : t.key = [lit "process"])
    (hkeyed : t.Keyed) :
    (t.columns = [lit "process"] →
      ∃ db', db.transaction (rebuildHidelist (some [lit "process", lit "process"])) = some db') ∧
    (t.columns = [lit "process", lit "package_name"] →
      ∃ db', db.transaction (rebuildHidelist none) = some db') := by
  have hkeys : ∀ r r', .null ∈ t.keyOf r' ∨ t.keyOf r ≠ t.keyOf r' →
      t.get r' (lit "process") = .null ∨ t.get r (lit "process") ≠ t.get r' (lit "process") := by
    intro r r' h
    simpa [Table.keyOf, hkey, eq_comm] using h
  unfold rebuildHidelist
  constructor
  · intro hcols
    refine rebuild_of_keyed (by decide) ht htmp ?_ rfl hkeyed fun r r' h => ?_
    · rw [hcols]
      decide
    · change .null ∈ [t.get r' (lit "process"), t.get r' (lit "process")] ∨
        [t.get r (lit "process"), t.get r (lit "process")] ≠
          [t.get r' (lit "process"), t.get r' (lit "process")]
      simpa [eq_comm] using hkeys r r' h
  · intro hcols
    refine rebuild_of_keyed (by decide) ht htmp ?_ ?_ hkeyed fun r r' h => ?_
    · rw [hcols]
      decide
    · rw [hcols]
      rfl
    · rw [hcols]
      change .null ∈ [t.get r' (lit "process"), t.get r' (lit "package_name")] ∨
        [t.get r (lit "process"), t.get r (lit "package_name")] ≠
          [t.get r' (lit "process"), t.get r' (lit "package_name")]
      rcases hkeys r r' h with hnull | hne
      · left
        rw [hnull]
        exact mem_cons_self
      · right
        exact fun heq => hne (cons.inj heq).1

/-- A database that has the tables of its version can be opened. -/
theorem WellFormed.opens (h : WellFormed db) (h7 : 7 ≤ db.userVersion) (h11 : db.userVersion ≤ 11) :
    (openAndInitDb db).1 := by
  rw [openAndInitDb_eq (Int32.le_trans h11 (by decide))]
  by_cases h8 : db.userVersion ≤ 8
  · obtain ⟨t, ht, hcols, hkey, hkeyed⟩ := h.hidelist h8
    have hfirst := rebuildHidelist_of_keyed ht (h.hidelist_tmp h8) hkey hkeyed
    have hrest : ∀ {selected mid}, db.transaction (rebuildHidelist selected) = some mid →
        (mid.commits (steps ++ [setVersion])).1 := by
      intro selected mid hmid
      have hsame : ∀ n, n ∉ tablesOf (rebuildHidelist none) → mid.tables[n]? = db.tables[n]? :=
        fun n hn => (transaction_frame hmid).1 n hn
      apply steps_of_tables (List.Sublist.refl _)
      · rw [hsame _ (by decide)]
        exact h.policies
      · rw [hsame _ (by decide)]
        exact h.policies_tmp
      · rw [hsame _ (by decide)]
        exact h.settings
    rcases eq_of_hidelist h7 h8 with hv | hv
    · rw [hv] at hcols ⊢
      obtain ⟨mid, hmid⟩ := hfirst.1 hcols
      rw [migration_7, commits, hmid]
      exact hrest hmid
    · rw [hv] at hcols ⊢
      obtain ⟨mid, hmid⟩ := hfirst.2 hcols
      rw [migration_8, commits, hmid]
      exact hrest hmid
  · obtain ⟨us, hus, hm⟩ := migration_of_le (nine_le h8) h11
    rw [hm]
    exact steps_of_tables hus h.policies h.policies_tmp h.settings

end

/-- Opening the database after `k` commits succeeds with the tables of a migration in one go. -/
def Resumes (db : Db) (k : ℕ) : Prop :=
  (openAndInitDb (stopped db k)).1 ∧
    ∀ name ∈ [lit "policies", lit "settings", lit "strings", lit "denylist"],
      (openAndInitDb (stopped db k)).2.tables[name]? = (openAndInitDb db).2.tables[name]?

theorem resumes_of_eq {db : Db} {k : ℕ} (h : openAndInitDb (stopped db k) = openAndInitDb db)
    (hopen : (openAndInitDb db).1) : Resumes db k := by
  rw [Resumes, h]
  exact ⟨hopen, fun _ _ => rfl⟩

/-- A migration that is stopped is resumed, unless the hidelist is gone and the version is still one
that has a hidelist. -/
theorem resumes_iff (db : Db) (k : ℕ) (h7 : 7 ≤ db.userVersion) (h11 : db.userVersion ≤ 11)
    (hopen : (openAndInitDb db).1) :
    Resumes db k ↔ ¬ (db.userVersion ≤ 8 ∧ 3 ≤ k ∧ k ≤ 6) := by
  have hver : db.userVersion ≤ dbVersion := Int32.le_trans h11 (by decide)
  by_cases h8 : db.userVersion ≤ 8
  · obtain ⟨selected, hidem, hm⟩ := migration_hidelist h7 h8
    constructor
    · rintro ⟨hok, -⟩ ⟨-, h3, h6⟩
      rw [open_stuck hver hm hopen k h3 h6] at hok
      exact Bool.noConfusion hok
    · intro h
      apply resumes_of_eq _ hopen
      rcases Nat.lt_or_ge k 3 with hk | hk
      · exact open_stopped hver hm (restartable_rebuildHidelist hidem) hopen k (Nat.le_of_lt_succ hk)
      · have hall : migration db.userVersion = (rebuildHidelist selected :: steps) ++ [setVersion] := hm
        have hlen : (rebuildHidelist selected :: steps).length = 6 := rfl
        have h6 : ¬ k ≤ 6 := fun h6 => h ⟨h8, hk, h6⟩
        exact open_finished hver hall hopen k (by omega)
  · have heq := open_stopped_of_le (nine_le h8) h11 hopen k
    exact iff_of_true (resumes_of_eq heq hopen) fun h => h8 h.1

/-- A database of an older version, with one policy and one hidden process. -/
def oldDb (ver : Int32) : Db where
  userVersion := ver
  tables := (∅ : Std.ExtTreeMap Name Table compare)
    |>.insert (lit "policies")
      { columns := [lit "uid", lit "package_name", lit "policy", lit "until", lit "logging",
          lit "notification"]
        key := [lit "uid"]
        rows := [[.int 10010, .text (lit "com.a"), .int 2, .int 0, .int 1, .int 1]] }
    |>.insert (lit "settings") { columns := [lit "key", lit "value"], key := [lit "key"] }
    |>.insert (lit "strings") { columns := [lit "key", lit "value"], key := [lit "key"] }
    |>.insert (lit "hidelist")
      { columns := [lit "process"], key := [lit "process"], rows := [[.text (lit "com.a")]] }

/-- A stop behind the rebuilt policies of version 11. -/
theorem resumes_policies : Resumes (oldDb 11) 1 :=
  (resumes_iff (oldDb 11) 1 (by decide) (by decide) (by decide +kernel)).mpr (by decide)

/-- Version 11, stopped three times. -/
theorem open_restarts_policies :
    openAndInitDb ([1, 0, 2].foldl stopped (oldDb 11)) = openAndInitDb (oldDb 11) :=
  open_restarts (by decide) (by decide) (by decide +kernel) [1, 0, 2]

theorem wellFormed_oldDb : WellFormed (oldDb 7) :=
  ⟨⟨_, rfl, by decide, rfl, pairwise_singleton _ _⟩, by decide +kernel, ⟨_, rfl, by decide⟩,
    fun _ => ⟨_, rfl, by decide, rfl, pairwise_singleton _ _⟩, fun _ => by decide +kernel⟩

theorem wellFormed_opens_oldDb : (openAndInitDb (oldDb 7)).1 :=
  wellFormed_oldDb.opens (by decide) (by decide)

/-- Version 7, stopped right behind `DROP TABLE IF EXISTS hidelist`. -/
theorem resumes_hidelist : (openAndInitDb (oldDb 7)).1 ∧ ¬ Resumes (oldDb 7) 3 := by
  refine ⟨by decide +kernel, fun h => ?_⟩
  have hok := h.1
  revert hok
  decide +kernel

end Magisk.Sqlite
