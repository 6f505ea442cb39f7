import Magisk.Loops
import Magisk.Su.Database
import Magisk.Utf8

namespace Magisk.Su

open List

def aidAppStart : Int32 := 10000
def aidAppEnd : Int32 := 19999

/-- An entry of a user's directory: its name and owner, and which of the calls on it succeed. -/
structure PackageDir where
  name : Bytes
  stUid : UInt32
  reads : Bool := true
  resolves : Bool := true
  getAttr : Bool := true
deriving DecidableEq, Repr

def PackageDir.appId (p : PackageDir) : Int32 := toAppId p.stUid.toInt32

structure UserDir where
  name : Bytes
  packages : List PackageDir
  reads : Bool := true
  /-- whether it is a directory that can be opened -/
  opens : Bool := true
  /-- whether the read behind the last package succeeds -/
  ends : Bool := true
deriving DecidableEq, Repr

structure AppDataDir where
  users : List UserDir
  opens : Bool := true
deriving DecidableEq, Repr

def isAppId (appId : Int32) : Bool := aidAppStart ≤ appId && appId ≤ aidAppEnd

def appNo (appId : Int32) : ℕ := (appId - aidAppStart).toNatClampNeg

/-- The package comes to the list. -/
def PackageDir.Counted (p : PackageDir) : Prop :=
  p.reads ∧ isUtf8 p.name ∧ p.resolves ∧ p.getAttr

/-- The scan goes on behind the package. -/
def PackageDir.Passed (p : PackageDir) : Prop :=
  p.reads ∧ (isUtf8 p.name → p.resolves ∧ p.getAttr)

/-- The packages of a user, and whether the scan goes on behind them. -/
def scanPackages (ends : Bool) : List PackageDir → Finset ℕ → Finset ℕ × Bool
  | [], list => (list, ends)
  | p :: ps, list =>
    if !p.reads then (list, false)
    -- `Directory::read` goes on to the next entry
    else if !isUtf8 p.name then scanPackages ends ps list
    else if !p.resolves || !p.getAttr then (list, false)
    else scanPackages ends ps (if isAppId p.appId then insert (appNo p.appId) list else list)

def scanUsers : List UserDir → Finset ℕ → Finset ℕ
  | [], list => list
  | u :: us, list =>
    if !u.reads then list
    else if !isUtf8 u.name || !u.opens then scanUsers us list
    else match scanPackages u.ends u.packages list with
      | (list, true) => scanUsers us list
      | (list, false) => list

def AppDataDir.getAppNoList (d : AppDataDir) : Finset ℕ := if d.opens then scanUsers d.users ∅ else ∅

namespace Database

variable (db : Database)

def uidList : List Int32 × Int32 :=
  dbExecWithRows ["uid".toList] (db.policies.map fun row => intColumns [row.uid]) db.policiesEnding
    (fun list _ values => list ++ [values.getInt 0]) []

def deletePolicy (uid : Int32) : Database :=
  { db with
    policies := db.policies.filter (·.uid ≠ uid.toInt64)
    primary_key := db.primary_key.filter _ }

def pruneSuAccess (d : AppDataDir) : Database :=
  let (list, code) := db.uidList
  match sqlResult code with
  | .error _ => db
  | .ok () =>
    let appList := d.getAppNoList
    let rmUids := list.filter fun uid => isAppId (toAppId uid) && appNo (toAppId uid) ∉ appList
    rmUids.foldl deletePolicy db

end Database

/-- The scan goes on behind the user. -/
def UserDir.Passed (u : UserDir) : Prop :=
  u.reads ∧
    (isUtf8 u.name → u.opens → (∀ p ∈ u.packages, p.Passed) ∧ u.ends)

/-- The scan of a user finds a package of the app. -/
def UserDir.Finds (u : UserDir) (appId : Int32) : Prop :=
  u.reads ∧ isUtf8 u.name ∧ u.opens ∧
    ∃ p, Before PackageDir.Passed u.packages p ∧ p.Counted ∧ p.appId = appId

/-- The scan finds a package of the app before its first error. -/
def AppDataDir.Finds (d : AppDataDir) (appId : Int32) : Prop :=
  d.opens ∧ ∃ u, Before UserDir.Passed d.users u ∧ u.Finds appId

theorem appNo_inj {a b : Int32} (ha : isAppId a) (hb : isAppId b) :
    appNo a = appNo b ↔ a = b := by
  simp only [isAppId, Bool.and_eq_true, decide_eq_true_eq, Int32.le_iff_toInt_le] at ha hb
  have hs : aidAppStart.toInt = 10000 := by decide
  have he : aidAppEnd.toInt = 19999 := by decide
  have hno : ∀ c : Int32, aidAppStart.toInt ≤ c.toInt ∧ c.toInt ≤ aidAppEnd.toInt →
      (appNo c : ℤ) = c.toInt - 10000 := by
    intro c hc
    have hsub : (c - aidAppStart).toInt = c.toInt - 10000 := by
      rw [Int32.toInt_sub, hs]
      apply Int.bmod_eq_of_le <;> omega
    unfold appNo Int32.toNatClampNeg
    omega
  constructor
  · intro h
    have h1 := hno a ha
    have h2 := hno b hb
    rw [← Int32.toInt_inj]
    omega
  · intro h
    rw [h]

variable {p : PackageDir} {ps : List PackageDir} {ends : Bool} {list : Finset ℕ}

theorem PackageDir.Counted.passed (h : p.Counted) : p.Passed := ⟨h.1, fun _ => h.2.2⟩

theorem scanPackages_of_counted (h : p.Counted) : scanPackages ends (p :: ps) list =
    scanPackages ends ps (if isAppId p.appId then insert (appNo p.appId) list else list) := by
  obtain ⟨hr, hu, hres, ha⟩ := h
  simp [scanPackages, hr, hu, hres, ha]

theorem scanPackages_of_skipped (h : p.Passed) (hc : ¬ p.Counted) :
    scanPackages ends (p :: ps) list = scanPackages ends ps list := by
  have hu : isUtf8 p.name = false := by
    by_contra hn
    rw [Bool.not_eq_false] at hn
    exact hc ⟨h.1, hn, h.2 hn⟩
  simp [scanPackages, h.1, hu]

theorem scanPackages_of_not_passed (h : ¬ p.Passed) :
    scanPackages ends (p :: ps) list = (list, false) := by
  simp only [PackageDir.Passed, not_and, Classical.not_imp] at h
  rw [scanPackages]
  cases hr : p.reads with
  | false => rfl
  | true =>
    obtain ⟨hu, hcalls⟩ := h hr
    rw [hu]
    cases hres : p.resolves with
    | false => rfl
    | true => simp [hcalls hres]

theorem scanPackages_snd (ends : Bool) (ps : List PackageDir) (list : Finset ℕ) :
    (scanPackages ends ps list).2 ↔ (∀ p ∈ ps, p.Passed) ∧ ends := by
  induction ps generalizing list with
  | nil => simp [scanPackages]
  | cons p ps ih =>
    rw [forall_mem_cons]
    by_cases hp : p.Passed
    · by_cases hc : p.Counted
      · rw [scanPackages_of_counted hc, ih]
        simp [hp]
      · rw [scanPackages_of_skipped hp hc, ih]
        simp [hp]
    · rw [scanPackages_of_not_passed hp]
      simp [hp]

theorem mem_insert_appId {appId : Int32} (ha : isAppId appId) :
    appNo appId ∈ (if isAppId p.appId then insert (appNo p.appId) list else list : Finset ℕ) ↔
      p.appId = appId ∨ appNo appId ∈ list := by
  by_cases hid : isAppId p.appId
  · rw [if_pos hid, Finset.mem_insert, appNo_inj ha hid, eq_comm]
  · have hne : p.appId ≠ appId := by
      intro h
      rw [h] at hid
      exact hid ha
    simp [hid, hne]

theorem mem_scanPackages {appId : Int32} (ha : isAppId appId) (ends : Bool)
    (ps : List PackageDir) (list : Finset ℕ) :
    appNo appId ∈ (scanPackages ends ps list).1 ↔ appNo appId ∈ list ∨
      ∃ p, Before PackageDir.Passed ps p ∧ p.Counted ∧ p.appId = appId := by
  induction ps generalizing list with
  | nil => simp [scanPackages, not_before_nil]
  | cons p ps ih =>
    have hcons : (∃ q, Before PackageDir.Passed (p :: ps) q ∧ q.Counted ∧ q.appId = appId) ↔
        p.Counted ∧ p.appId = appId ∨
          p.Passed ∧ ∃ q, Before PackageDir.Passed ps q ∧ q.Counted ∧ q.appId = appId := by
      simp only [before_cons, or_and_right, exists_or, exists_eq_left, and_assoc, exists_and_left]
    rw [hcons]
    by_cases hc : p.Counted
    · rw [scanPackages_of_counted hc, ih, mem_insert_appId ha]
      simp only [hc, hc.passed, true_and]
      rw [or_right_comm, or_comm, or_left_comm]
    · by_cases hp : p.Passed
      · rw [scanPackages_of_skipped hp hc, ih]
        simp [hc, hp]
      · rw [scanPackages_of_not_passed hp]
        simp [hc, hp]

theorem mem_scanUsers {appId : Int32} (ha : isAppId appId) (us : List UserDir)
    (list : Finset ℕ) : appNo appId ∈ scanUsers us list ↔ appNo appId ∈ list ∨
      ∃ u, Before UserDir.Passed us u ∧ u.Finds appId := by
  induction us generalizing list with
  | nil => simp [scanUsers, not_before_nil]
  | cons u us ih =>
    have hcons : (∃ v, Before UserDir.Passed (u :: us) v ∧ v.Finds appId) ↔
        u.Finds appId ∨ u.Passed ∧ ∃ v, Before UserDir.Passed us v ∧ v.Finds appId := by
      simp only [before_cons, or_and_right, exists_or, exists_eq_left, and_assoc, exists_and_left]
    rw [scanUsers, hcons]
    cases hr : u.reads with
    | false => simp [UserDir.Finds, UserDir.Passed, hr]
    | true =>
      by_cases hopen : isUtf8 u.name ∧ u.opens
      · obtain ⟨hn, ho⟩ := hopen
        have hmem := mem_scanPackages ha u.ends u.packages list
        have hsnd := scanPackages_snd u.ends u.packages list
        have hfinds : u.Finds appId ↔
            ∃ p, Before PackageDir.Passed u.packages p ∧ p.Counted ∧ p.appId = appId := by
          simp [UserDir.Finds, hr, hn, ho]
        have hpassed : u.Passed ↔ (scanPackages u.ends u.packages list).2 := by
          rw [hsnd]
          simp [UserDir.Passed, hr, hn, ho]
        rw [← hfinds] at hmem
        rw [hn, ho]
        rcases hs : scanPackages u.ends u.packages list with ⟨found, goesOn⟩
        rw [hs] at hmem hpassed
        cases goesOn with
        | true => simp [hpassed, ih, hmem, or_assoc]
        | false => simp [hpassed, hmem]
      · -- the user is passed over, whatever is in it
        have hskip : (!isUtf8 u.name || !u.opens) = true := by
          simpa [imp_iff_not_or] using hopen
        have hpassed : u.Passed := ⟨hr, fun hn ho => absurd ⟨hn, ho⟩ hopen⟩
        have hfinds : ¬ u.Finds appId := fun h => hopen ⟨h.2.1, h.2.2.1⟩
        simp [hskip, ih, hpassed, hfinds]

theorem mem_getAppNoList {d : AppDataDir} {appId : Int32} (ha : isAppId appId) :
    appNo appId ∈ d.getAppNoList ↔ d.Finds appId := by
  unfold AppDataDir.getAppNoList AppDataDir.Finds
  split_ifs with ho
  · rw [mem_scanUsers ha]
    simp [ho]
  · simp [ho]

namespace Database

theorem mem_foldl_deletePolicy (db : Database) (uids : List Int32) (row : PolicyRow) :
    row ∈ (uids.foldl deletePolicy db).policies ↔
      row ∈ db.policies ∧ ∀ uid ∈ uids, row.uid ≠ uid.toInt64 := by
  induction uids generalizing db with
  | nil => simp
  | cons uid uids ih =>
    rw [foldl_cons, ih]
    simp [deletePolicy, and_assoc]

theorem foldl_uids (rows : List PolicyRow) (list : List Int32) :
    (rows.map fun row => intColumns [row.uid]).foldl (fun list values => list ++ [values.getInt 0])
      list = list ++ rows.map fun row => row.uid.toInt32 := by
  induction rows generalizing list with
  | nil => simp
  | cons row rows ih =>
    rw [map_cons, foldl_cons, ih]
    simp [intColumns]

theorem uidList_done {db : Database} (h : db.policiesEnding = .done) :
    db.uidList = (db.policies.map fun row => row.uid.toInt32, 0) := by
  simp only [uidList, dbExecWithRows, h, foldl_uids, nil_append]

theorem pruneSuAccess_failed {db : Database} (h : db.policiesEnding ≠ .done) (d : AppDataDir) :
    db.pruneSuAccess d = db := by
  cases hp : db.policiesEnding with
  | done => exact absurd hp h
  | failed n code hc => simp only [pruneSuAccess, uidList, dbExecWithRows, hp, sqlResult, if_pos hc]

theorem mem_pruneSuAccess {db : Database} (h : db.policiesEnding = .done) (d : AppDataDir)
    {row : PolicyRow} {uid : Int32} (hu : row.uid = uid.toInt64) (hrow : row ∈ db.policies) :
    row ∈ (db.pruneSuAccess d).policies ↔
      (isAppId (toAppId uid) → d.Finds (toAppId uid)) := by
  have hmem : uid ∈ db.policies.map fun row => row.uid.toInt32 :=
    List.mem_map.mpr ⟨row, hrow, by rw [hu, Int32.toInt32_toInt64]⟩
  simp only [pruneSuAccess, uidList_done h, sqlResult, ne_eq, not_true_eq_false, if_false,
    mem_foldl_deletePolicy]
  constructor
  · rintro ⟨-, hkeep⟩ ha
    by_contra hn
    refine hkeep uid (mem_filter.mpr ⟨hmem, ?_⟩) hu
    rw [← mem_getAppNoList ha] at hn
    simp [ha, hn]
  · intro hfinds
    refine ⟨hrow, fun other hother heq => ?_⟩
    have hsame : other = uid := by
      rw [← Int32.toInt32_toInt64 other, ← heq, hu, Int32.toInt32_toInt64]
    have hcond := (mem_filter.mp hother).2
    rw [hsame, Bool.and_eq_true, decide_eq_true_eq] at hcond
    exact hcond.2 ((mem_getAppNoList hcond.1).mpr (hfinds hcond.1))

end Database

/-- The app owns a package directory of some user. -/
def AppDataDir.Installed (d : AppDataDir) (appId : Int32) : Prop :=
  ∃ u ∈ d.users, ∃ p ∈ u.packages, p.appId = appId

/-- The rows of installed apps are not deleted. -/
def KeepsInstalled (db : Database) (d : AppDataDir) : Prop :=
  ∀ row ∈ db.policies, ∀ uid : Int32, row.uid = uid.toInt64 → d.Installed (toAppId uid) →
    row ∈ (db.pruneSuAccess d).policies

/-- The rows of installed apps are kept exactly if the scan finds a package of each of them before
its first error, or the uids cannot be read. -/
theorem keepsInstalled_iff (db : Database) (d : AppDataDir) :
    KeepsInstalled db d ↔ (db.policiesEnding = .done →
      ∀ row ∈ db.policies, ∀ uid : Int32, row.uid = uid.toInt64 → d.Installed (toAppId uid) →
        isAppId (toAppId uid) → d.Finds (toAppId uid)) := by
  by_cases h : db.policiesEnding = .done
  · constructor
    · intro hk _ row hrow uid hu hi
      exact (Database.mem_pruneSuAccess h d hu hrow).mp (hk row hrow uid hu hi)
    · intro hf row hrow uid hu hi
      exact (Database.mem_pruneSuAccess h d hu hrow).mpr (hf h row hrow uid hu hi)
  · constructor
    · intro _ hdone
      exact absurd hdone h
    · intro _ row hrow uid _ _
      rw [Database.pruneSuAccess_failed h]
      exact hrow

/-- A user with two packages, of which the attributes of the first cannot be queried. -/
def brokenAppData : AppDataDir :=
  { users := [{ name := lit "0", packages :=
      [{ name := lit "a", stUid := 10010, getAttr := false }, { name := lit "b", stUid := 10050 }] }] }

theorem allowedApp_key :
    [(⟨10050, 2, 0, 1, 1⟩ : PolicyRow)].Pairwise fun a b => a.uid ≠ b.uid :=
  pairwise_singleton _ _

def allowedApp : Database where
  settings := []
  policies := [⟨10050, 2, 0, 1, 1⟩]
  now := 0
  primary_key := allowedApp_key

/-- The app 10050 is installed, and its row is deleted. -/
theorem keepsInstalled_broken : ¬ KeepsInstalled allowedApp brokenAppData := by
  intro h
  have hi : brokenAppData.Installed (toAppId 10050) :=
    ⟨_, mem_singleton_self _, { name := lit "b", stUid := 10050 }, by decide, by decide⟩
  have hkept := h ⟨10050, 2, 0, 1, 1⟩ (mem_singleton_self _) 10050 (by decide) hi
  have hlist : brokenAppData.getAppNoList = ∅ := by
    simp [AppDataDir.getAppNoList, brokenAppData, scanUsers, scanPackages, lit]
  have hnone : (allowedApp.pruneSuAccess brokenAppData).policies = [] := by
    rw [Database.pruneSuAccess, hlist]
    decide +kernel
  rw [hnone] at hkept
  exact absurd hkept not_mem_nil

end Magisk.Su
