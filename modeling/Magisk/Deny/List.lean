import Magisk.SetMap
import Magisk.Deny.Database
import Magisk.Su.Database

namespace Magisk.Deny

open Su (parseInt)

def isolatedMagic : Bytes := lit "isolated"

/-- The app data directory, with the calls on it that fail. -/
structure AppData where
  /-- the entries of the directory, in the order in which they are read -/
  users : List Str
  /-- the owner of the data directory of a package, under the directory of a user -/
  owner : Str → Bytes → Option UInt32
  exists_user : ∀ user pkg, owner user pkg ≠ none → user ∈ users
  opens : Bool := true
  /-- how many entries are read before a read fails -/
  reads : ℕ := users.length
  statFails : Str → Bytes → Bool := fun _ _ => false

namespace AppData

variable (a : AppData)

def stat (user : Str) (pkg : Bytes) : Option UInt32 :=
  if a.statFails user pkg then none else a.owner user pkg

-- A read that fails ends the list as the last entry does.
def collectUsers : List Int32 := if a.opens then (a.users.take a.reads).map parseInt else []

def userDir (user : Int32) : Str := (toString user.toInt).toList

def getAppId (pkg : Bytes) : List Int32 → Int32
  | [] => 0
  | user :: users =>
    match a.stat (userDir user) pkg with
    -- `st_uid` is unsigned, and so is its remainder
    | some uid => (uid % 100000).toInt32
    | none => getAppId pkg users

def appIdOf (pkg : Bytes) : Int32 :=
  if pkg = isolatedMagic then -1 else a.getAppId pkg a.collectUsers

end AppData

/-- The surroundings of one call. -/
structure World where
  appData : AppData
  /-- whether `SELECT * FROM denylist` succeeds -/
  selects : Bool := true
  /-- the statements that fail for a reason of their own -/
  fails : Bytes → Bool := fun _ => false

variable {α : Type} (q : Engine α)

def World.dbExec (w : World) (db : Db α) (sql : Bytes) : Bool × Db α :=
  if w.fails sql then (false, db) else q.exec db sql

/-- `ssprintf` into a buffer of 4096 bytes. -/
def ssprintf (sql : Bytes) : Bytes := sql.take 4095

def insertSql (pkg proc : Bytes) : Bytes := ssprintf (insertText pkg proc)

def deletePkgSql (pkg : Bytes) : Bytes := ssprintf (deletePkgText pkg)

def deleteProcSql (pkg proc : Bytes) : Bytes := ssprintf (deleteProcText pkg proc)

structure DenyData where
  pkgToProcs : SetMap Bytes Bytes
  appIdToPkgs : SetMap Int32 Bytes

structure DenyList (α : Type) where
  /-- `none` until the data has been loaded -/
  data : Option DenyData
  db : Db α

namespace DenyData

variable (d : DenyData)

def updateAppId (appId : Int32) (pkg : Bytes) (remove : Bool) : DenyData :=
  if appId ≤ 0 then d
  else if remove then { d with appIdToPkgs := d.appIdToPkgs.remove appId pkg }
  else { d with appIdToPkgs := d.appIdToPkgs.add appId pkg }

def added (appId : Int32) (pkg proc : Bytes) : DenyData :=
  { d with pkgToProcs := d.pkgToProcs.add pkg proc }.updateAppId appId pkg false

def erased (appId : Int32) (pkg : Bytes) : DenyData :=
  let d := d.updateAppId appId pkg true
  { d with pkgToProcs := d.pkgToProcs.erase pkg }

end DenyData

def scanStep (w : World) (users : List Int32) (s : DenyData × Db α) (pkg : Bytes) :
    DenyData × Db α :=
  if pkg = isolatedMagic then s
  else
    let appId := w.appData.getAppId pkg users
    if appId = 0 then
      ({ s.1 with pkgToProcs := s.1.pkgToProcs.erase pkg }, (w.dbExec q s.2 (deletePkgSql pkg)).2)
    else (s.1.updateAppId appId pkg false, s.2)

def scanDenyApps (w : World) (d : DenyData) (db : Db α) : DenyData × Db α :=
  d.pkgToProcs.keys.foldl (scanStep q w w.appData.collectUsers) ({ d with appIdToPkgs := ∅ }, db)

def load (rows : List (Bytes × Bytes)) : DenyData :=
  ⟨rows.foldl (fun m row => m.add row.1 row.2) ∅, ∅⟩

/-- The data, and the table after it has been loaded. -/
def DenyList.ensureData (s : DenyList α) (w : World) : Option DenyData × Db α :=
  match s.data with
  | some d => (some d, s.db)
  | none =>
    match s.db.denylist with
    | none => (none, s.db)
    | some rows =>
      if !w.selects then (none, s.db)
      else
        let (d, db) := scanDenyApps q w (load rows) s.db
        (some d, db)

inductive DenyResponse
  | ok
  | itemExist
  | itemNotExist
  | invalidPkg
  | error
deriving DecidableEq, Repr

def isAlnum (c : UInt8) : Bool :=
  48 ≤ c && c ≤ 57 || 65 ≤ c && c ≤ 90 || 97 ≤ c && c ≤ 122

def underscore : UInt8 := 95
def dot : UInt8 := 46
def colon : UInt8 := 58

/-- The process of an isolated service; what stands behind a colon is not checked. -/
def validIsolated : Bytes → Bool
  | [] => true
  | c :: proc =>
    if isAlnum c || c = underscore || c = dot then validIsolated proc else c = colon

def validPkg (valid : Bool) : Bytes → Bool
  | [] => valid
  | c :: pkg =>
    if isAlnum c || c = underscore then validPkg valid pkg
    else if c = dot then validPkg true pkg
    else false

def validProc (proc : Bytes) : Bool :=
  proc.all fun c => isAlnum c || c = underscore || c = colon || c = dot

def validate (pkg proc : Bytes) : Bool :=
  if pkg = isolatedMagic then validIsolated proc else validPkg false pkg && validProc proc

def procOf (pkg proc : Bytes) : Bytes := if proc = [] then pkg else proc

namespace DenyList

variable (s : DenyList α) (w : World)

def addList (pkg proc : Bytes) : DenyResponse × DenyList α :=
  let proc := procOf pkg proc
  if !validate pkg proc then (.invalidPkg, s)
  else
    match s.ensureData q w with
    | (none, db) => (.error, ⟨none, db⟩)
    | (some d, db) =>
      let appId := w.appData.appIdOf pkg
      if appId = 0 then (.invalidPkg, ⟨some d, db⟩)
      else if proc ∈ d.pkgToProcs.find pkg then (.itemExist, ⟨some d, db⟩)
      else
        let (res, db) := w.dbExec q db (insertSql pkg proc)
        (if res then .ok else .error, ⟨some (d.added appId pkg proc), db⟩)

theorem addList_cases (pkg proc : Bytes) :
    validate pkg (procOf pkg proc) = false ∧ s.addList q w pkg proc = (.invalidPkg, s) ∨
    (s.ensureData q w).1 = none ∧ s.addList q w pkg proc = (.error, ⟨none, (s.ensureData q w).2⟩) ∨
    ∃ d, (s.ensureData q w).1 = some d ∧
      (w.appData.appIdOf pkg = 0 ∧
        s.addList q w pkg proc = (.invalidPkg, ⟨some d, (s.ensureData q w).2⟩) ∨
      procOf pkg proc ∈ d.pkgToProcs.find pkg ∧
        s.addList q w pkg proc = (.itemExist, ⟨some d, (s.ensureData q w).2⟩) ∨
      validate pkg (procOf pkg proc) ∧ w.appData.appIdOf pkg ≠ 0 ∧
        procOf pkg proc ∉ d.pkgToProcs.find pkg ∧
        s.addList q w pkg proc =
          (if (w.dbExec q (s.ensureData q w).2 (insertSql pkg (procOf pkg proc))).1 then .ok
            else .error,
            ⟨some (d.added (w.appData.appIdOf pkg) pkg (procOf pkg proc)),
              (w.dbExec q (s.ensureData q w).2 (insertSql pkg (procOf pkg proc))).2⟩)) := by
  simp only [addList]
  generalize procOf pkg proc = proc'
  by_cases hv : validate pkg proc'
  · rcases s.ensureData q w with ⟨_ | d, db⟩
    · exact Or.inr (Or.inl ⟨rfl, by simp [hv]⟩)
    · refine Or.inr (Or.inr ⟨d, rfl, ?_⟩)
      by_cases hid : w.appData.appIdOf pkg = 0
      · exact Or.inl ⟨hid, by simp [hv, hid]⟩
      · by_cases hmem : proc' ∈ d.pkgToProcs.find pkg
        · exact Or.inr (Or.inl ⟨hmem, by simp [hv, hid, hmem]⟩)
        · exact Or.inr (Or.inr ⟨hv, hid, hmem, by simp [hv, hid, hmem]⟩)
  · exact Or.inl ⟨by simpa using hv, by simp [hv]⟩

/-- The maps after a removal; `none` if there is nothing to remove. -/
def removeFrom (d : DenyData) (pkg proc : Bytes) : Option DenyData :=
  let procs := d.pkgToProcs.find pkg
  if procs = ∅ then none
  else if proc = [] then some (d.erased (w.appData.appIdOf pkg) pkg)
  else if proc ∈ procs then
    if procs.erase proc = ∅ then some (d.erased (w.appData.appIdOf pkg) pkg)
    else some { d with pkgToProcs := d.pkgToProcs.remove pkg proc }
  else none

def rmList (pkg proc : Bytes) : DenyResponse × DenyList α :=
  match s.ensureData q w with
  | (none, db) => (.error, ⟨none, db⟩)
  | (some d, db) =>
    match removeFrom w d pkg proc with
    | none => (.itemNotExist, ⟨some d, db⟩)
    | some d =>
      let sql := if proc = [] then deletePkgSql pkg else deleteProcSql pkg proc
      let (res, db) := w.dbExec q db sql
      (if res then .ok else .error, ⟨some d, db⟩)

/-- The scan does nothing before the data has been loaded. -/
def scan : DenyList α :=
  match s.data with
  | none => s
  | some d =>
    let (d, db) := scanDenyApps q w d s.db
    ⟨some d, db⟩

def ensured : DenyList α :=
  let (data, db) := s.ensureData q w
  ⟨data, db⟩

-- What is written to the client is the content of `pkg_to_procs`.
def lsList : DenyList α := (s.ensured q w).scan q w

end DenyList

/-- `none` where the code dereferences the end of `pkg_to_procs`. -/
def isDenyTarget (d : DenyData) (uid : Int32) (process : Bytes) : Option Bool :=
  let appId := Su.toAppId uid
  if 90000 ≤ appId then
    some (decide (∃ proc ∈ d.pkgToProcs.find isolatedMagic, proc <+: process))
  else
    let pkgs := d.appIdToPkgs.find appId
    if ∃ pkg ∈ pkgs, d.pkgToProcs.find pkg = ∅ then none
    else some (decide (∃ pkg ∈ pkgs, process ∈ d.pkgToProcs.find pkg))

inductive Request
  | addList (pkg proc : Bytes)
  | rmList (pkg proc : Bytes)
  | scanDenyApps
  | lsList
  | isDenyTarget (uid : Int32) (process : Bytes)

/-- One call, with the device as it is then. -/
def DenyList.call (s : DenyList α) (c : World × Request) : DenyList α :=
  match c.2 with
  | .addList pkg proc => (s.addList q c.1 pkg proc).2
  | .rmList pkg proc => (s.rmList q c.1 pkg proc).2
  | .scanDenyApps => s.scan q c.1
  | .lsList => s.lsList q c.1
  | .isDenyTarget _ _ => s.ensured q c.1

def step (s : DenyList α) (c : World × Request) : Option (DenyList α) := some (s.call q c)

def samplePkg : Bytes := lit "com.a"

/-- The package is installed for user 0 and belongs to `uid`. -/
def installed (uid : UInt32) : AppData where
  users := [['0']]
  owner user pkg := if user = ['0'] ∧ pkg = samplePkg then some uid else none
  exists_user user pkg h := by
    have hu : user = ['0'] ∧ pkg = samplePkg := by
      by_contra hn
      exact h (if_neg hn)
    simp [hu.1]

end Magisk.Deny
