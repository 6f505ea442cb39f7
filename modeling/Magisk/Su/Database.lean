import Magisk.Bytes

namespace Magisk.Su

open List

def aidRoot : Int32 := 0
def aidShell : Int32 := 2000
def aidUserOffset : Int32 := 100000

-- The division of `Int32` rounds towards zero, as the one of `i32` does.
def toAppId (uid : Int32) : Int32 := uid % aidUserOffset
def toUserId (uid : Int32) : Int32 := uid / aidUserOffset

theorem toAppId_nonneg {uid : Int32} (h : 0 ≤ uid) : 0 ≤ toAppId uid := by
  rw [Int32.le_iff_toInt_le] at h ⊢
  simp only [toAppId, Int32.toInt_mod]
  exact Int.tmod_nonneg _ h

@[simp] theorem toAppId_neg_one : toAppId (-1) = -1 := by decide

def isDigit (c : Char) : Bool := '0' ≤ c && c ≤ '9'

/-- `parse_num<int, 10>`: -1 at the first character that is not a digit. -/
def parseNum (val : Int32) : Str → Int32
  | [] => val
  | c :: s => if isDigit c then parseNum (val * 10 + Int32.ofNat (c.toNat - '0'.toNat)) s else -1

-- The value wraps, as the compiled arithmetic of `int` does.
def parseInt (s : Str) : Int32 := parseNum 0 s

/-- What SQLite returns for the columns of the current row. -/
structure DbValues where
  getInt : ℕ → Int32
  getText : ℕ → Str

structure SettingsRow where
  key : Str
  value : Int64
deriving DecidableEq

structure PolicyRow where
  uid : Int64
  policy : Int64
  until_ : Int64
  logging : Int64
  notification : Int64
deriving DecidableEq

-- `sqlite3_column_int` returns the low 32 bits of the stored integer.
def intColumns (values : List Int64) : DbValues where
  getInt i := (values.getD i 0).toInt32
  getText _ := []

def SettingsRow.values (row : SettingsRow) : DbValues where
  getInt i := if i = 1 then row.value.toInt32 else 0
  getText i := if i = 0 then row.key else []

def settingsColumns : List Str := ["key".toList, "value".toList]

/-- `SELECT policy, logging, notification FROM policies` -/
def PolicyRow.values (row : PolicyRow) : DbValues :=
  intColumns [row.policy, row.logging, row.notification]

def policyColumns : List Str := ["policy".toList, "logging".toList, "notification".toList]

/-- `uid=? AND (until=0 OR until>strftime('%s', 'now'))` -/
def PolicyRow.selected (uid : Int32) (now : Int64) (row : PolicyRow) : Bool :=
  row.uid = uid.toInt64 && (row.until_ = 0 || now < row.until_)

/-- How a query ends: after its last row, or with an error code before it. -/
inductive Ending
  | done
  | failed (rows : ℕ) (code : Int32) (error : code ≠ 0)

/-- The content of the database, the time and how the queries on it end. -/
structure Database where
  settings : List SettingsRow
  policies : List PolicyRow
  now : Int64
  settingsEnding : Ending := .done
  policiesEnding : Ending := .done
  primary_key : policies.Pairwise fun a b => a.uid ≠ b.uid

structure SqliteError where
  code : Int32
deriving DecidableEq

def sqlResult (code : Int32) : Except SqliteError Unit :=
  if code ≠ 0 then .error ⟨code⟩ else .ok ()

/-- Calls `onRow` on the rows a query delivers; returns the code of the query. -/
def dbExecWithRows {α : Type} (columns : List Str) (rows : List DbValues) (ending : Ending)
    (onRow : α → List Str → DbValues → α) (out : α) : α × Int32 :=
  match ending with
  | .done => (rows.foldl (fun out values => onRow out columns values) out, 0)
  | .failed n code _ => ((rows.take n).foldl (fun out values => onRow out columns values) out, code)

structure SuPolicy where
  repr : Int32
deriving DecidableEq, Repr

namespace SuPolicy

def query : SuPolicy := ⟨0⟩
def deny : SuPolicy := ⟨1⟩
def allow : SuPolicy := ⟨2⟩
def restrict : SuPolicy := ⟨3⟩

end SuPolicy

structure RootSettings where
  policy : SuPolicy := .query
  log : Bool := false
  notify : Bool := false
deriving DecidableEq, Repr

def RootSettings.setColumn (settings : RootSettings) (column : Str) (val : Int32) : RootSettings :=
  if column = "policy".toList then { settings with policy := ⟨val⟩ }
  else if column = "logging".toList then { settings with log := val != 0 }
  else if column = "notification".toList then { settings with notify := val != 0 }
  else settings

def RootSettings.onRow (settings : RootSettings) (columns : List Str) (values : DbValues) :
    RootSettings :=
  columns.zipIdx.foldl (fun settings (column, i) => settings.setColumn column (values.getInt i))
    settings

def PolicyRow.rootSettings (row : PolicyRow) : RootSettings where
  policy := ⟨row.policy.toInt32⟩
  log := row.logging.toInt32 != 0
  notify := row.notification.toInt32 != 0

theorem onRow_policyColumns (settings : RootSettings) (row : PolicyRow) :
    settings.onRow policyColumns row.values = row.rootSettings := by
  rfl

namespace Database

variable (db : Database)

def selectedRows (uid : Int32) : List PolicyRow := db.policies.filter (·.selected uid db.now)

def getRootSettings (uid : Int32) (settings : RootSettings) : Except SqliteError RootSettings :=
  let (settings, code) := dbExecWithRows policyColumns
    ((db.selectedRows uid).map PolicyRow.values) db.policiesEnding RootSettings.onRow settings
  (sqlResult code).map fun _ => settings

theorem length_selectedRows_le (uid : Int32) : (db.selectedRows uid).length ≤ 1 := by
  have h : (db.selectedRows uid).Pairwise fun a b => a.uid ≠ b.uid := db.primary_key.filter _
  have hu : ∀ row ∈ db.selectedRows uid, row.uid = uid.toInt64 := by
    intro row hrow
    have hs := (mem_filter.mp hrow).2
    simp only [PolicyRow.selected, Bool.and_eq_true, decide_eq_true_eq] at hs
    exact hs.1
  match hrows : db.selectedRows uid with
  | [] => simp
  | [_] => simp
  | a :: b :: rest =>
    rw [hrows] at h hu
    have ha := hu a (by simp)
    have hb := hu b (by simp)
    exact absurd (ha.trans hb.symm) (rel_of_pairwise_cons h (by simp))

/-- The row that decides for a uid: unexpired, and the only one. -/
def policyOf (uid : Int32) : Option PolicyRow := (db.selectedRows uid).head?

theorem selectedRows_eq (uid : Int32) : db.selectedRows uid = (db.policyOf uid).toList := by
  have h := db.length_selectedRows_le uid
  unfold policyOf
  match hrows : db.selectedRows uid with
  | [] => rfl
  | [_] => rfl
  | _ :: _ :: _ => simp [hrows] at h

theorem policyOf_eq_some (uid : Int32) (row : PolicyRow) :
    db.policyOf uid = some row ↔ row ∈ db.policies ∧ row.selected uid db.now := by
  have h : row ∈ db.selectedRows uid ↔ db.policyOf uid = some row := by
    rw [selectedRows_eq, Option.mem_toList]
  rw [← h, selectedRows, mem_filter]

theorem getRootSettings_done (h : db.policiesEnding = .done) (uid : Int32)
    (settings : RootSettings) : db.getRootSettings uid settings =
      .ok ((db.policyOf uid).elim settings PolicyRow.rootSettings) := by
  simp only [getRootSettings, dbExecWithRows, h, selectedRows_eq]
  cases db.policyOf uid with
  | none => rfl
  | some row =>
    simp only [Option.toList_some, map_cons, map_nil, foldl_cons, foldl_nil,
      onRow_policyColumns]
    rfl

theorem getRootSettings_failed {n : ℕ} {code : Int32} {hc : code ≠ 0}
    (h : db.policiesEnding = .failed n code hc) (uid : Int32) (settings : RootSettings) :
    db.getRootSettings uid settings = .error ⟨code⟩ := by
  simp only [getRootSettings, dbExecWithRows, h, sqlResult, if_pos hc]
  rfl

end Database

inductive RootAccess
  | disabled
  | appsOnly
  | adbOnly
  | appsAndAdb
deriving DecidableEq, Repr

def RootAccess.fromI32 (value : Int32) : Option RootAccess :=
  if value = 0 then some .disabled
  else if value = 1 then some .appsOnly
  else if value = 2 then some .adbOnly
  else if value = 3 then some .appsAndAdb
  else none

inductive MultiuserMode
  | ownerOnly
  | ownerManaged
  | user
deriving DecidableEq, Repr

def MultiuserMode.fromI32 (value : Int32) : Option MultiuserMode :=
  if value = 0 then some .ownerOnly
  else if value = 1 then some .ownerManaged
  else if value = 2 then some .user
  else none

structure MntNsMode where
  repr : Int32
deriving DecidableEq, Repr

def MntNsMode.requester : MntNsMode := ⟨1⟩

structure DbSettings where
  rootAccess : RootAccess := .appsAndAdb
  multiuserMode : MultiuserMode := .ownerOnly
  mntNs : MntNsMode := .requester
  bootCount : Int32 := 0
  denylist : Bool := false
  zygisk : Bool := false
deriving DecidableEq, Repr

def DbSettings.onRow (cfg : DbSettings) (columns : List Str) (values : DbValues) : DbSettings :=
  let (key, value) := columns.zipIdx.foldl (fun (key, value) (column, i) =>
    if column = "key".toList then (values.getText i, value)
    else if column = "value".toList then (key, values.getInt i)
    else (key, value)) (([] : Str), (0 : Int32))
  if key = "root_access".toList then
    { cfg with rootAccess := (RootAccess.fromI32 value).getD .appsAndAdb }
  else if key = "multiuser_mode".toList then
    { cfg with multiuserMode := (MultiuserMode.fromI32 value).getD .ownerOnly }
  else if key = "mnt_ns".toList then { cfg with mntNs := ⟨value⟩ }
  else if key = "denylist".toList then { cfg with denylist := value != 0 }
  else if key = "zygisk".toList then { cfg with zygisk := value != 0 }
  else if key = "bootloop".toList then { cfg with bootCount := value }
  else cfg

namespace Database

variable (db : Database)

/-- The settings that all rows of the table give together. -/
def dbSettings (isEmulator : Bool) : DbSettings :=
  (db.settings.map SettingsRow.values).foldl
    (fun cfg values => cfg.onRow settingsColumns values) { zygisk := isEmulator }

def getDbSettings (isEmulator : Bool) : Except SqliteError DbSettings :=
  let (cfg, code) := dbExecWithRows settingsColumns (db.settings.map SettingsRow.values)
    db.settingsEnding DbSettings.onRow { zygisk := isEmulator }
  (sqlResult code).map fun _ => cfg

theorem getDbSettings_done (h : db.settingsEnding = .done) (isEmulator : Bool) :
    db.getDbSettings isEmulator = .ok (db.dbSettings isEmulator) := by
  simp only [getDbSettings, dbExecWithRows, h]
  rfl

theorem getDbSettings_failed {n : ℕ} {code : Int32} {hc : code ≠ 0}
    (h : db.settingsEnding = .failed n code hc) (isEmulator : Bool) :
    db.getDbSettings isEmulator = .error ⟨code⟩ := by
  simp only [getDbSettings, dbExecWithRows, h, sqlResult, if_pos hc]
  rfl

end Database

end Magisk.Su
