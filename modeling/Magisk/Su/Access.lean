import Magisk.Su.Database

namespace Magisk.Su

open List

structure AccessInfo where
  settings : RootSettings
  timestamp : ℕ
deriving DecidableEq, Repr

structure SuInfo where
  uid : Int32 := -1
  evalUid : Int32 := -1
  mgrPkg : Str := []
  mgrUid : Int32 := -1
  cfg : DbSettings := {}
  access : AccessInfo
deriving DecidableEq, Repr

namespace SuInfo

def allow (now : ℕ) (uid : Int32) : SuInfo where
  uid := uid
  access := ⟨{ policy := .allow, log := false, notify := false }, now⟩

def deny (now : ℕ) (uid : Int32) : SuInfo where
  uid := uid
  access := ⟨{ policy := .deny, log := false, notify := false }, now⟩

def policy (info : SuInfo) : SuPolicy := info.access.settings.policy

@[simp] theorem allow_policy (now : ℕ) (uid : Int32) : (allow now uid).policy = .allow := rfl
@[simp] theorem deny_policy (now : ℕ) (uid : Int32) : (deny now uid).policy = .deny := rfl

theorem deny_ne_allow (now : ℕ) (uid : Int32) : deny now uid ≠ allow now uid := by
  intro h
  have hp : SuPolicy.deny = .allow := congrArg SuInfo.policy h
  exact absurd hp (by decide)

end SuInfo

/-- The daemon, with the owners of the files it can see. -/
structure MagiskD where
  sdkInt : Int32
  isEmulator : Bool
  cachedSuInfo : SuInfo
  db : Database
  getAttr : Str → Option UInt32

def appPackageName : Str := "pro.magisk".toList

namespace MagiskD

variable (m : MagiskD)

def appDataDir : Str :=
  if 24 ≤ m.sdkInt then "/data/user_de".toList else "/data/user".toList

def getPackageUid (user : Int32) (pkg : Str) : Int32 :=
  let path := m.appDataDir ++ '/' :: (toString user.toInt).toList ++ '/' :: pkg
  match m.getAttr path with
  | some stUid => stUid.toInt32
  | none => -1

def getManager (user : Int32) : Int32 × Str :=
  let uid := m.getPackageUid user appPackageName
  if uid < 0 then (-1, []) else (uid, appPackageName)

def getManagerUid (user : Int32) : Int32 := (m.getManager user).1

/-- The uid the tables are asked for; `none` where the mode refuses the user. -/
def evalUid? (mode : MultiuserMode) (uid : Int32) : Option Int32 :=
  match mode with
  | .ownerOnly => if toUserId uid ≠ 0 then none else some uid
  | .ownerManaged => some (toAppId uid)
  | .user => some uid

def rootAccessAllows (access : RootAccess) (uid : Int32) : Bool :=
  match access with
  | .disabled => false
  | .adbOnly => uid = aidShell
  | .appsOnly => uid ≠ aidShell
  | .appsAndAdb => true

/-- The part of `build_su_info` after both queries. -/
def suInfoOf (now : ℕ) (uid evalUid : Int32) (cfg : DbSettings) (access : RootSettings) : SuInfo :=
  -- We need to talk to the manager, get the app info
  let (mgrUid, mgrPkg) :=
    if access.policy = .query || access.log || access.notify then
      m.getManager (toUserId evalUid)
    else (-1, [])
  -- If it's the manager, allow it silently
  if toAppId uid = toAppId mgrUid then SuInfo.allow now uid
  -- Check su access settings
  else if !rootAccessAllows cfg.rootAccess uid then SuInfo.deny now uid
  -- If still not determined, check if manager exists
  else if access.policy = .query && mgrUid < 0 then SuInfo.deny now uid
  else { uid, evalUid, mgrPkg, mgrUid, cfg, access := ⟨access, now⟩ }

def buildSuInfo? (now : ℕ) (uid : Int32) : Except SqliteError SuInfo := do
  let cfg ← m.db.getDbSettings m.isEmulator
  -- Check multiuser settings
  match evalUid? cfg.multiuserMode uid with
  | none => return SuInfo.deny now uid
  | some evalUid =>
    let access ← m.db.getRootSettings evalUid {}
    return m.suInfoOf now uid evalUid cfg access

def buildSuInfo (now : ℕ) (uid : Int32) : SuInfo :=
  match m.buildSuInfo? now uid with
  | .ok info => info
  | .error _ => SuInfo.deny now uid

def uidGrantedRoot (uid : Int32) : Bool :=
  if uid = aidRoot then true
  else match m.db.getDbSettings m.isEmulator with
  | .error _ => false
  | .ok cfg =>
    -- Check user root access settings
    match cfg.rootAccess with
    | .disabled => false
    | .appsOnly => if uid = aidShell then false else granted cfg.multiuserMode
    | .adbOnly => if uid ≠ aidShell then false else granted cfg.multiuserMode
    | .appsAndAdb => granted cfg.multiuserMode
where
  -- Check multiuser settings
  granted (mode : MultiuserMode) : Bool :=
    match mode with
    | .ownerOnly => if toUserId uid ≠ 0 then false else policyAllows uid
    | .ownerManaged => policyAllows (toAppId uid)
    | .user => policyAllows uid
  -- The code of the query is not looked at.
  policyAllows (uid : Int32) : Bool :=
    (dbExecWithRows ["policy".toList]
      ((m.db.selectedRows uid).map fun row => intColumns [row.policy]) m.db.policiesEnding
      (fun _ _ values => values.getInt 0 == SuPolicy.allow.repr) false).1

/-- The settings in force and whether both queries succeed. -/
def settings : DbSettings := m.db.dbSettings m.isEmulator

def QueriesSucceed : Prop := m.db.settingsEnding = .done ∧ m.db.policiesEnding = .done

/-- The access the deciding row gives, or the default one. -/
def accessOf (evalUid : Int32) : RootSettings :=
  (m.db.policyOf evalUid).elim {} PolicyRow.rootSettings

/-- The manager's uid, if it is looked up at all. -/
def consultedManager (evalUid : Int32) : Int32 :=
  let access := m.accessOf evalUid
  if access.policy = .query || access.log || access.notify then
    m.getManagerUid (toUserId evalUid)
  else -1

/-- The policy that the tables and the settings give a uid. -/
def tablePolicy (uid evalUid : Int32) : SuPolicy :=
  if toAppId uid = toAppId (m.consultedManager evalUid) then .allow
  else if !rootAccessAllows m.settings.rootAccess uid then .deny
  else if (m.accessOf evalUid).policy = .query && m.consultedManager evalUid < 0 then .deny
  else (m.accessOf evalUid).policy

theorem consultedManager_cases (evalUid : Int32) :
    m.consultedManager evalUid = m.getManagerUid (toUserId evalUid) ∨
      m.consultedManager evalUid = -1 := by
  simp only [consultedManager]
  split_ifs
  · exact Or.inl rfl
  · exact Or.inr rfl

variable {m} {now : ℕ} {uid evalUid : Int32}

theorem buildSuInfo_failed (h : ¬ m.QueriesSucceed) :
    (m.buildSuInfo now uid).policy = .deny := by
  unfold buildSuInfo buildSuInfo?
  cases hs : m.db.settingsEnding with
  | failed n code hc => rw [m.db.getDbSettings_failed hs]; rfl
  | done =>
    rw [m.db.getDbSettings_done hs]
    cases hp : m.db.policiesEnding with
    | done => exact absurd ⟨hs, hp⟩ h
    | failed n code hc =>
      cases he : evalUid? (m.db.dbSettings m.isEmulator).multiuserMode uid with
      | none => simp only [bind, Except.bind, he]; rfl
      | some e => simp only [bind, Except.bind, he, m.db.getRootSettings_failed hp]; rfl

theorem buildSuInfo_refused (h : m.QueriesSucceed)
    (he : evalUid? m.settings.multiuserMode uid = none) :
    m.buildSuInfo now uid = SuInfo.deny now uid := by
  unfold settings at he
  simp only [buildSuInfo, buildSuInfo?, m.db.getDbSettings_done h.1, bind, Except.bind, he]
  rfl

theorem buildSuInfo_eq (h : m.QueriesSucceed)
    (he : evalUid? m.settings.multiuserMode uid = some evalUid) :
    m.buildSuInfo now uid = m.suInfoOf now uid evalUid m.settings (m.accessOf evalUid) := by
  unfold settings at he
  simp only [buildSuInfo, buildSuInfo?, m.db.getDbSettings_done h.1, bind, Except.bind, he,
    m.db.getRootSettings_done h.2]
  rfl

theorem suInfoOf_policy :
    (m.suInfoOf now uid evalUid m.settings (m.accessOf evalUid)).policy =
      m.tablePolicy uid evalUid := by
  have hm : (if (m.accessOf evalUid).policy = .query || (m.accessOf evalUid).log ||
      (m.accessOf evalUid).notify then m.getManager (toUserId evalUid)
      else (-1, [])).1 = m.consultedManager evalUid := by
    simp only [consultedManager, getManagerUid]
    split_ifs <;> rfl
  simp only [suInfoOf, hm, tablePolicy]
  split_ifs <;> rfl

/-- The table holds an unexpired row for the uid that says Allow. -/
def HasAllowRow (db : Database) (uid : Int32) : Prop :=
  ∃ row ∈ db.policies, row.selected uid db.now ∧ row.rootSettings.policy = .allow

theorem accessOf_policy_eq_allow :
    (m.accessOf evalUid).policy = .allow ↔ HasAllowRow m.db evalUid := by
  unfold accessOf HasAllowRow
  constructor
  · intro h
    cases hrow : m.db.policyOf evalUid with
    | none => rw [hrow] at h; exact absurd h (by decide)
    | some row =>
      rw [hrow] at h
      have hsel := (m.db.policyOf_eq_some evalUid row).mp hrow
      exact ⟨row, hsel.1, hsel.2, h⟩
  · rintro ⟨row, hmem, hsel, hp⟩
    rw [(m.db.policyOf_eq_some evalUid row).mpr ⟨hmem, hsel⟩]
    exact hp

theorem suInfoOf_policy_eq_allow (h : toAppId uid ≠ toAppId (m.consultedManager evalUid)) :
    (m.suInfoOf now uid evalUid m.settings (m.accessOf evalUid)).policy = .allow ↔
      rootAccessAllows m.settings.rootAccess uid ∧ HasAllowRow m.db evalUid := by
  rw [suInfoOf_policy, tablePolicy, if_neg h, ← accessOf_policy_eq_allow]
  cases hr : rootAccessAllows m.settings.rootAccess uid with
  | false => simp [SuPolicy.deny, SuPolicy.allow]
  | true =>
    simp only [Bool.not_true, Bool.false_eq_true, if_false, true_and]
    split_ifs with hq
    · -- The policy is Query here, which is neither Deny nor Allow.
      simp only [Bool.and_eq_true, decide_eq_true_eq] at hq
      rw [hq.1]
      decide
    · rfl

/-- Allow is given only for an unexpired Allow row that the settings let through. -/
def AllowsByRowOnly (m : MagiskD) (now : ℕ) (uid : Int32) : Prop :=
  (m.buildSuInfo now uid).policy = .allow →
    ∃ evalUid, evalUid? m.settings.multiuserMode uid = some evalUid ∧
      rootAccessAllows m.settings.rootAccess uid ∧ HasAllowRow m.db evalUid

/-- No manager app is installed for the user the tables are asked for. -/
def NoManager (m : MagiskD) (uid : Int32) : Prop :=
  ∀ evalUid, evalUid? m.settings.multiuserMode uid = some evalUid →
    m.getManagerUid (toUserId evalUid) = -1

theorem consultedManager_eq_neg_one (h : m.getManagerUid (toUserId evalUid) = -1) :
    m.consultedManager evalUid = -1 := by
  rcases consultedManager_cases m evalUid with hc | hc
  · rw [hc, h]
  · exact hc

/-- Without a manager the sentinel -1 takes its place, and every uid whose app id is -1
passes for the manager. -/
theorem allowsByRowOnly_iff (m : MagiskD) (now : ℕ) (peer : UInt32)
    (hm : NoManager m peer.toInt32) :
    AllowsByRowOnly m now peer.toInt32 ↔
      (toAppId peer.toInt32 = -1 → m.QueriesSucceed →
        ∀ evalUid, evalUid? m.settings.multiuserMode peer.toInt32 = some evalUid →
          rootAccessAllows m.settings.rootAccess peer.toInt32 ∧
            HasAllowRow m.db evalUid) := by
  generalize peer.toInt32 = uid at *
  by_cases hq : m.QueriesSucceed
  swap
  · have hdeny : (m.buildSuInfo now uid).policy = .deny := buildSuInfo_failed hq
    simp [AllowsByRowOnly, hdeny, hq, SuPolicy.deny, SuPolicy.allow]
  cases he : evalUid? m.settings.multiuserMode uid with
  | none =>
    have hdeny : m.buildSuInfo now uid = .deny now uid := buildSuInfo_refused hq he
    simp [AllowsByRowOnly, hdeny, he, SuPolicy.deny, SuPolicy.allow]
  | some evalUid =>
    have hmgr := consultedManager_eq_neg_one (hm evalUid he)
    simp only [AllowsByRowOnly, buildSuInfo_eq hq he, he, Option.some.injEq, exists_eq_left',
      hq, forall_const, forall_eq']
    by_cases happ : toAppId uid = -1
    · have hallow : (m.suInfoOf now uid evalUid m.settings (m.accessOf evalUid)).policy =
          .allow := by
        rw [suInfoOf_policy, tablePolicy, hmgr, toAppId_neg_one, if_pos happ]
      simp [hallow, happ]
    · have hne : toAppId uid ≠ toAppId (m.consultedManager evalUid) := by
        rw [hmgr, toAppId_neg_one]
        exact happ
      simp [suInfoOf_policy_eq_allow hne, happ]

/-- A device whose manager app has uid 10100, with one row in the table. -/
def managerDevice (row : PolicyRow) : MagiskD where
  sdkInt := 34
  isEmulator := false
  cachedSuInfo := { access := ⟨{}, 0⟩ }
  db := { settings := [], policies := [row], now := 0, primary_key := pairwise_singleton _ _ }
  getAttr path := if path = "/data/user_de/0/pro.magisk".toList then some 10100 else none

/-- No manager app, and one app that is allowed. -/
def allowDevice : MagiskD := { managerDevice ⟨10050, 2, 0, 0, 0⟩ with getAttr := fun _ => none }

theorem allowsByRowOnly_app : (allowDevice.buildSuInfo 0 10050).policy = .allow ∧
    AllowsByRowOnly allowDevice 0 (10050 : UInt32).toInt32 :=
  ⟨by decide +kernel, (allowsByRowOnly_iff allowDevice 0 10050 fun _ _ => rfl).mpr
    fun h => absurd h (by decide)⟩

/-- No manager app and no rows, in the mode in which every user has root of their own. -/
def userDevice : MagiskD := { allowDevice with
  db.settings := [⟨"multiuser_mode".toList, 2⟩]
  db.policies := []
  db.primary_key := .nil }

/-- The uid 4294867295 is given root although there is no row at all. -/
theorem allowsByRowOnly_sentinel :
    ¬ AllowsByRowOnly userDevice 0 (4294867295 : UInt32).toInt32 := by
  intro h
  obtain ⟨evalUid, -, -, row, hrow, -⟩ := h (by decide +kernel)
  exact absurd hrow not_mem_nil

/-- The uid belongs to the manager app that is installed for the user the tables are asked for. -/
def IsManager (m : MagiskD) (uid evalUid : Int32) : Prop :=
  0 ≤ m.getManagerUid (toUserId evalUid) ∧
    toAppId uid = toAppId (m.getManagerUid (toUserId evalUid))

/-- The manager app is looked up. -/
def Consults (access : RootSettings) : Prop :=
  access.policy = .query ∨ access.log ∨ access.notify

theorem consults_iff (access : RootSettings) :
    (access.policy = .query || access.log || access.notify) = true ↔ Consults access := by
  simp only [Consults, Bool.or_eq_true, decide_eq_true_eq, or_assoc]

theorem evalUid_cases (he : evalUid? m.settings.multiuserMode uid = some evalUid) :
    evalUid = uid ∨ evalUid = toAppId uid := by
  cases hmode : m.settings.multiuserMode with
  | ownerOnly =>
    simp only [hmode, evalUid?] at he
    split_ifs at he
    exact Or.inl (Option.some.inj he).symm
  | ownerManaged =>
    simp only [hmode, evalUid?] at he
    exact Or.inr (Option.some.inj he).symm
  | user =>
    simp only [hmode, evalUid?] at he
    exact Or.inl (Option.some.inj he).symm

theorem IsManager.toAppId_ne (h : IsManager m uid evalUid) : toAppId uid ≠ -1 := by
  have hn := toAppId_nonneg h.1
  rw [← h.2] at hn
  intro hc
  rw [hc] at hn
  exact absurd hn (by decide)

theorem suInfoOf_of_isManager (hm : IsManager m uid evalUid)
    (hc : Consults (m.accessOf evalUid)) :
    m.suInfoOf now uid evalUid m.settings (m.accessOf evalUid) = SuInfo.allow now uid := by
  simp only [suInfoOf, (consults_iff _).mpr hc, if_true]
  exact if_pos hm.2

/-- Without the lookup the tables decide, and what they give is not what the manager gets. -/
theorem suInfoOf_ne_allow (he : evalUid? m.settings.multiuserMode uid = some evalUid)
    (hm : IsManager m uid evalUid) (hc : ¬ Consults (m.accessOf evalUid)) :
    m.suInfoOf now uid evalUid m.settings (m.accessOf evalUid) ≠ SuInfo.allow now uid := by
  have happ := hm.toAppId_ne
  have hne : evalUid ≠ -1 := by
    rcases evalUid_cases he with h | h
    · rw [h]
      intro hu
      rw [hu] at happ
      exact happ toAppId_neg_one
    · rw [h]
      exact happ
  intro h
  rw [← consults_iff] at hc
  simp only [suInfoOf, if_neg hc, toAppId_neg_one, if_neg happ] at h
  split_ifs at h
  · exact SuInfo.deny_ne_allow now uid h
  · exact SuInfo.deny_ne_allow now uid h
  · exact hne (congrArg SuInfo.evalUid h)

/-- The manager app is allowed exactly if the queries succeed and it is looked up. -/
theorem buildSuInfo_manager_iff (m : MagiskD) (now : ℕ) (uid evalUid : Int32)
    (he : evalUid? m.settings.multiuserMode uid = some evalUid) (hm : IsManager m uid evalUid) :
    m.buildSuInfo now uid = SuInfo.allow now uid ↔
      m.QueriesSucceed ∧ Consults (m.accessOf evalUid) := by
  constructor
  · intro h
    have hq : m.QueriesSucceed := by
      by_contra hq
      have hdeny : (m.buildSuInfo now uid).policy = .deny := buildSuInfo_failed hq
      rw [h, SuInfo.allow_policy] at hdeny
      exact absurd hdeny (by decide)
    refine ⟨hq, ?_⟩
    rw [buildSuInfo_eq hq he] at h
    by_contra hc
    exact suInfoOf_ne_allow he hm hc h
  · rintro ⟨hq, hc⟩
    rw [buildSuInfo_eq hq he]
    exact suInfoOf_of_isManager hm hc

/-- A Deny row with logging does not keep the manager out. -/
theorem buildSuInfo_manager_logged :
    (managerDevice ⟨10100, 1, 0, 1, 0⟩).buildSuInfo 0 10100 = SuInfo.allow 0 10100 := by
  have he : evalUid? (managerDevice ⟨10100, 1, 0, 1, 0⟩).settings.multiuserMode 10100 =
      some 10100 := by decide +kernel
  have hc : Consults ((managerDevice ⟨10100, 1, 0, 1, 0⟩).accessOf 10100) :=
    Or.inr (Or.inl (by decide +kernel))
  exact (buildSuInfo_manager_iff _ 0 10100 10100 he ⟨by decide +kernel, by decide +kernel⟩).mpr
    ⟨⟨rfl, rfl⟩, hc⟩

/-- A silent Deny row locks the manager out. -/
theorem buildSuInfo_manager_silent :
    IsManager (managerDevice ⟨10100, 1, 0, 0, 0⟩) 10100 10100 ∧
      evalUid? (managerDevice ⟨10100, 1, 0, 0, 0⟩).settings.multiuserMode 10100 = some 10100 ∧
      ((managerDevice ⟨10100, 1, 0, 0, 0⟩).buildSuInfo 0 10100).policy = .deny :=
  ⟨⟨by decide +kernel, by decide +kernel⟩, by decide +kernel, by decide +kernel⟩

theorem policyAllows_eq (h : m.db.policiesEnding = .done) (uid : Int32) :
    uidGrantedRoot.policyAllows m uid ↔ HasAllowRow m.db uid := by
  have hv : ∀ row : PolicyRow, (intColumns [row.policy]).getInt 0 = row.rootSettings.policy.repr :=
    fun _ => rfl
  rw [← accessOf_policy_eq_allow]
  simp only [uidGrantedRoot.policyAllows, dbExecWithRows, h, m.db.selectedRows_eq, accessOf]
  cases m.db.policyOf uid with
  | none => decide
  | some row =>
    simp only [Option.toList_some, map_cons, map_nil, foldl_cons, foldl_nil,
      hv, beq_iff_eq, Option.elim_some]
    constructor
    · intro hr
      cases hp : row.rootSettings.policy with
      | mk repr => rw [hp] at hr; simp only at hr; rw [hr]
    · intro hr
      rw [hr]

theorem granted_eq (mode : MultiuserMode) : uidGrantedRoot.granted m uid mode =
    (evalUid? mode uid).elim false (uidGrantedRoot.policyAllows m) := by
  cases mode with
  | ownerOnly => simp only [uidGrantedRoot.granted, evalUid?]; split_ifs <;> rfl
  | ownerManaged => rfl
  | user => rfl

theorem uidGrantedRoot_eq (hu : uid ≠ aidRoot) (h : m.QueriesSucceed) :
    m.uidGrantedRoot uid = (rootAccessAllows m.settings.rootAccess uid &&
      (evalUid? m.settings.multiuserMode uid).elim false (uidGrantedRoot.policyAllows m)) := by
  simp only [uidGrantedRoot, if_neg hu, m.db.getDbSettings_done h.1, granted_eq, settings]
  cases (m.db.dbSettings m.isEmulator).rootAccess with
  | disabled => rfl
  | appsAndAdb => rfl
  | appsOnly | adbOnly => by_cases hs : uid = aidShell <;> simp [rootAccessAllows, hs]

/-- What Zygisk reports is what su decides, for every uid that is not the manager's. -/
theorem uidGrantedRoot_iff (m : MagiskD) (now : ℕ) (uid : Int32) (hu : 0 < uid)
    (hq : m.QueriesSucceed)
    (hm : ∀ evalUid, evalUid? m.settings.multiuserMode uid = some evalUid →
      toAppId uid ≠ toAppId (m.getManagerUid (toUserId evalUid))) :
    m.uidGrantedRoot uid ↔ (m.buildSuInfo now uid).policy = .allow := by
  have hroot : uid ≠ aidRoot := fun h => absurd hu (by rw [h]; decide)
  rw [uidGrantedRoot_eq hroot hq, Bool.and_eq_true]
  cases he : evalUid? m.settings.multiuserMode uid with
  | none =>
    rw [buildSuInfo_refused hq he]
    simp [SuPolicy.deny, SuPolicy.allow]
  | some evalUid =>
    have hne : toAppId uid ≠ toAppId (m.consultedManager evalUid) := by
      rcases consultedManager_cases m evalUid with hc | hc
      · rw [hc]
        exact hm evalUid he
      · -- An app id of a uid from 1 on is not the sentinel.
        rw [hc, toAppId_neg_one]
        intro h
        have hn := toAppId_nonneg (Int32.le_of_lt hu)
        rw [h] at hn
        exact absurd hn (by decide)
    rw [buildSuInfo_eq hq he, suInfoOf_policy_eq_allow hne, Option.elim_some,
      policyAllows_eq hq.2]

def sampleDevice : MagiskD := managerDevice ⟨10050, 2, 0, 1, 1⟩

theorem uidGrantedRoot_iff_app : sampleDevice.uidGrantedRoot 10050 ∧
    (sampleDevice.buildSuInfo 0 10050).policy = .allow := by
  have h : sampleDevice.uidGrantedRoot 10050 := by decide +kernel
  refine ⟨h, (uidGrantedRoot_iff sampleDevice 0 10050 (by decide) ⟨rfl, rfl⟩ ?_).mp h⟩
  intro evalUid he
  have h0 : evalUid = 10050 := by
    have hs : evalUid? sampleDevice.settings.multiuserMode 10050 = some 10050 := by decide +kernel
    exact Option.some.inj (he.symm.trans hs)
  rw [h0]
  decide +kernel

end MagiskD

end Magisk.Su
