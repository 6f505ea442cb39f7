import Magisk.Bytes

namespace Magisk.BootStages

open List

structure BootState where
  bits : UInt32 := 0
  deriving DecidableEq, Repr

namespace BootState

def postFsDataDone : BootState := ⟨(1 : UInt32) <<< 0⟩
def lateStartDone : BootState := ⟨(1 : UInt32) <<< 1⟩
def bootComplete : BootState := ⟨(1 : UInt32) <<< 2⟩
def safeMode : BootState := ⟨(1 : UInt32) <<< 3⟩

def contains (self other : BootState) : Bool := self.bits &&& other.bits = other.bits

def insert (self other : BootState) : BootState := ⟨self.bits ||| other.bits⟩

theorem or_and_distrib (x y z : UInt32) : (x ||| y) &&& z = x &&& z ||| y &&& z :=
  UInt32.toBitVec_inj.mp BitVec.and_or_distrib_right

theorem and_or_self (x y : UInt32) : x &&& y ||| y = y := by
  apply UInt32.toBitVec_inj.mp
  ext i hi
  simp only [UInt32.toBitVec_or, UInt32.toBitVec_and, BitVec.getElem_or, BitVec.getElem_and]
  cases y.toBitVec[i] <;> simp

theorem contains_insert_self (s a : BootState) : (s.insert a).contains a := by
  rw [contains, decide_eq_true_iff, insert, or_and_distrib, UInt32.and_self, and_or_self]

theorem contains_insert_of_disjoint (s : BootState) {a b : BootState} (h : a.bits &&& b.bits = 0) :
    (s.insert a).contains b = s.contains b := by
  rw [contains, insert, or_and_distrib, h, UInt32.or_zero]
  rfl

end BootState

/-- What the device says while a request is handled. -/
structure Device where
  /-- The lines of `/proc/mounts`, when it can be opened. -/
  mounts : Option (List Str)
  getProp : Str → Str
  secureDirExists : Bool
  sdkInt : Int32
  /-- `setup_magisk_env` finds busybox. -/
  busyboxExists : Bool
  checkKeyCombo : Bool
  /-- The database takes writes. -/
  dbWritable : Bool

def checkData (d : Device) : Bool :=
  match d.mounts with
  | some lines =>
    let mnt := lines.any fun line =>
      decide (" /data ".toList <:+: line) && !decide ("tmpfs".toList <:+: line)
    if !mnt then false
    else
      let crypto := d.getProp "ro.crypto.state".toList
      if crypto ≠ [] then
        if crypto ≠ "encrypted".toList then true
        else d.getProp "init.svc.vold".toList ≠ []
      else true
  | none => false

/-- The fields of `MagiskD` that the stages use, with two rows of the settings. -/
structure MagiskD where
  bootState : BootState := {}
  zygiskEnabled : Bool := false
  bootloopCount : Int32
  zygiskConfig : Int32
  deriving DecidableEq, Repr

namespace MagiskD

variable (self : MagiskD) (d : Device)

/-- A failed write is logged. -/
def setBootloopCount (value : Int32) : MagiskD :=
  if d.dbWritable then { self with bootloopCount := value } else self

def setZygiskConfig (value : Int32) : MagiskD :=
  if d.dbWritable then { self with zygiskConfig := value } else self

/-- The daemon afterwards and whether it is in safe mode. -/
def postFsData : MagiskD × Bool :=
  -- before Android 7 the directory is made here
  if !d.secureDirExists && !decide (d.sdkInt < 24) then (self, true)
  else if !d.busyboxExists then (self, true)
  else
    let bootCnt := self.bootloopCount
    let self := self.setBootloopCount d (bootCnt + 1)
    let safeMode := decide (2 ≤ bootCnt) ||
      decide (d.getProp "persist.sys.safemode".toList = "1".toList) ||
      decide (d.getProp "ro.sys.safemode".toList = "1".toList) || d.checkKeyCombo
    if safeMode then (self.setZygiskConfig d 0, true)
    else ({ self with zygiskEnabled := decide (self.zygiskConfig ≠ 0) }, false)

def bootComplete : MagiskD := self.setBootloopCount d 0

end MagiskD

/-- The codes behind `_STAGE_BARRIER_`. -/
inductive RequestCode where
  | postFsData
  | lateStart
  | bootComplete
  deriving DecidableEq, Repr

/-- A stage that was run; `post_fs_data` with what it returned. -/
inductive Stage where
  | postFsData (safeMode : Bool)
  | lateStart
  | bootComplete
  deriving DecidableEq, Repr

open BootState in
def bootStageHandler (self : MagiskD) (d : Device) : RequestCode → MagiskD × Option Stage
  | .postFsData =>
    if checkData d && !self.bootState.contains postFsDataDone then
      let (self, safe) := self.postFsData d
      let state := if safe then self.bootState.insert safeMode else self.bootState
      ({ self with bootState := state.insert postFsDataDone }, some (.postFsData safe))
    else (self, none)
  | .lateStart =>
    if self.bootState.contains postFsDataDone && !self.bootState.contains safeMode then
      ({ self with bootState := self.bootState.insert lateStartDone }, some .lateStart)
    else (self, none)
  | .bootComplete =>
    if self.bootState.contains postFsDataDone then
      let self := { self with bootState := self.bootState.insert bootComplete }
      (self.bootComplete d, some .bootComplete)
    else (self, none)

/-- A request and what the device says meanwhile. -/
abbrev Request := RequestCode × Device

/-- The stages that are run over one life of the daemon. -/
def stages (self : MagiskD) : List Request → List Stage
  | [] => []
  | (code, d) :: rest =>
    let (self, stage) := bootStageHandler self d code
    stage.toList ++ stages self rest

structure Orderly (trace : List Stage) : Prop where
  postFsData_once : trace.countP (fun s => s matches .postFsData _) ≤ 1
  lateStart_once : trace.count .lateStart ≤ 1
  bootComplete_once : trace.count .bootComplete ≤ 1
  /-- Every other stage comes behind `post_fs_data`. -/
  after : ∀ l s r, trace = l ++ s :: r → s = .lateStart ∨ s = .bootComplete →
    ∃ safe, .postFsData safe ∈ l
  safe : ∀ l r, trace = l ++ .lateStart :: r → .postFsData true ∉ l

/-- The request that runs `post_fs_data`, if none before it did. -/
def starts (q : Request) : Bool := decide (q.1 = .postFsData) && checkData q.2

/-- After `post_fs_data` has returned `safe`. -/
structure Serving (safe : Bool) (m : MagiskD) : Prop where
  done : m.bootState.contains .postFsDataDone
  mode : m.bootState.contains .safeMode = safe

/-- The stage that a request runs after `post_fs_data`. No other flag is looked at. -/
def served (safe : Bool) : RequestCode → Option Stage
  | .postFsData => none
  | .lateStart => if safe then none else some .lateStart
  | .bootComplete => some .bootComplete

section Step

open BootState

variable {self : MagiskD} {d : Device} {safe : Bool}

theorem bootState_postFsData : (self.postFsData d).1.bootState = self.bootState := by
  unfold MagiskD.postFsData MagiskD.setBootloopCount MagiskD.setZygiskConfig
  dsimp only
  split_ifs <;> rfl

theorem bootState_bootComplete : (self.bootComplete d).bootState = self.bootState := by
  unfold MagiskD.bootComplete MagiskD.setBootloopCount
  split_ifs <;> rfl

theorem bootStageHandler_idle (hdone : self.bootState.contains postFsDataDone = false)
    {code : RequestCode} (h : starts (code, d) = false) :
    bootStageHandler self d code = (self, none) := by
  cases code with
  | postFsData =>
    have hcheck : checkData d = false := h
    simp only [bootStageHandler, hcheck, Bool.false_and, Bool.false_eq_true, if_false]
  | lateStart => simp only [bootStageHandler, hdone, Bool.false_and, Bool.false_eq_true, if_false]
  | bootComplete => simp only [bootStageHandler, hdone, Bool.false_eq_true, if_false]

theorem bootStageHandler_starts (hstate : self.bootState = {}) (h : checkData d) :
    ∃ self', bootStageHandler self d .postFsData =
      (self', some (.postFsData (self.postFsData d).2)) ∧ Serving (self.postFsData d).2 self' := by
  have hdone : self.bootState.contains postFsDataDone = false := by rw [hstate]; decide
  simp only [bootStageHandler, h, hdone, Bool.not_false, Bool.and_true, if_true]
  refine ⟨_, rfl, contains_insert_self _ _, ?_⟩
  rw [contains_insert_of_disjoint _ (by decide), bootState_postFsData, hstate]
  cases (self.postFsData d).2 <;> decide

theorem Serving.insert {m : MagiskD} (h : Serving safe self) {flag : BootState}
    (hm : m.bootState = self.bootState.insert flag)
    (hflag : flag = lateStartDone ∨ flag = bootComplete) : Serving safe m := by
  have hdone : flag.bits &&& postFsDataDone.bits = 0 := by rcases hflag with rfl | rfl <;> decide
  have hmode : flag.bits &&& safeMode.bits = 0 := by rcases hflag with rfl | rfl <;> decide
  constructor
  · rw [hm, contains_insert_of_disjoint _ hdone, h.done]
  · rw [hm, contains_insert_of_disjoint _ hmode, h.mode]

theorem bootStageHandler_serving (h : Serving safe self) (code : RequestCode) :
    ∃ self', bootStageHandler self d code = (self', served safe code) ∧ Serving safe self' := by
  cases code with
  | postFsData =>
    refine ⟨self, ?_, h⟩
    simp only [bootStageHandler, h.done, Bool.not_true, Bool.and_false, Bool.false_eq_true, if_false]
    rfl
  | lateStart =>
    cases safe with
    | true =>
      refine ⟨self, ?_, h⟩
      simp only [bootStageHandler, h.done, h.mode, Bool.not_true, Bool.and_false,
        Bool.false_eq_true, if_false]
      rfl
    | false =>
      refine ⟨{ self with bootState := self.bootState.insert lateStartDone }, ?_,
        h.insert rfl (.inl rfl)⟩
      simp only [bootStageHandler, h.done, h.mode, Bool.not_false, Bool.and_true, if_true]
      rfl
  | bootComplete =>
    let m := { self with bootState := self.bootState.insert bootComplete }
    refine ⟨m.bootComplete d, ?_, h.insert bootState_bootComplete (.inr rfl)⟩
    simp only [bootStageHandler, h.done, if_true]
    rfl

end Step

theorem stages_serving {safe : Bool} {self : MagiskD} (h : Serving safe self)
    (reqs : List Request) : stages self reqs = (reqs.map Prod.fst).filterMap (served safe) := by
  induction reqs generalizing self with
  | nil => rfl
  | cons q rest ih =>
    obtain ⟨code, d⟩ := q
    obtain ⟨self', hh, hs⟩ := bootStageHandler_serving (d := d) h code
    rw [stages, hh, map_cons, filterMap_cons]
    dsimp only
    rw [ih hs]
    cases served safe code <;> rfl

/-- What stands behind the request that runs `post_fs_data`, and that request. -/
def fromStart (reqs : List Request) : List Request := reqs.dropWhile fun q => !starts q

theorem stages_eq {self : MagiskD} (hstate : self.bootState = {}) (reqs : List Request) :
    stages self reqs =
      match fromStart reqs with
      | [] => []
      | q :: rest => .postFsData (self.postFsData q.2).2 ::
          (rest.map Prod.fst).filterMap (served (self.postFsData q.2).2) := by
  have hdone : self.bootState.contains .postFsDataDone = false := by rw [hstate]; decide
  induction reqs with
  | nil => rfl
  | cons q rest ih =>
    obtain ⟨code, d⟩ := q
    rw [stages, fromStart]
    cases hs : starts (code, d) with
    | true =>
      obtain ⟨hcode, hcheck⟩ := Bool.and_eq_true_iff.mp hs
      obtain rfl := of_decide_eq_true hcode
      obtain ⟨self', hh, hserving⟩ := bootStageHandler_starts hstate hcheck
      rw [dropWhile_cons_of_neg (by simp [hs]), hh]
      dsimp only
      rw [stages_serving hserving]
      rfl
    | false =>
      rw [dropWhile_cons_of_pos (by simp [hs]), bootStageHandler_idle hdone hs]
      exact ih

/-- Of the requests behind the one that runs `post_fs_data`, one is for the end of the boot and,
outside of safe mode, one for the services. -/
def AskedOnce (self : MagiskD) (reqs : List Request) : Prop :=
  ∀ q rest, fromStart reqs = q :: rest →
    (rest.map Prod.fst).count .bootComplete ≤ 1 ∧
      ((self.postFsData q.2).2 = false → (rest.map Prod.fst).count .lateStart ≤ 1)

section Trace

variable {safe : Bool} {codes : List RequestCode}

theorem postFsData_notMem_served (s : Bool) : .postFsData s ∉ codes.filterMap (served safe) := by
  intro h
  obtain ⟨code, -, hc⟩ := mem_filterMap.mp h
  cases code with
  | postFsData => cases hc
  | lateStart =>
    rw [served] at hc
    split_ifs at hc
    cases hc
  | bootComplete => cases hc

theorem count_bootComplete_served :
    (codes.filterMap (served safe)).count .bootComplete = codes.count .bootComplete := by
  induction codes with
  | nil => rfl
  | cons code codes ih =>
    cases code with
    | postFsData => simpa [served, filterMap_cons] using ih
    | lateStart => cases safe <;> simpa [served, filterMap_cons] using ih
    | bootComplete => simpa [served] using ih

theorem count_lateStart_served : (codes.filterMap (served false)).count .lateStart =
    codes.count .lateStart := by
  induction codes with
  | nil => rfl
  | cons code codes ih => cases code <;> simpa [served, filterMap_cons] using ih

theorem lateStart_notMem_served : .lateStart ∉ codes.filterMap (served true) := by
  intro h
  obtain ⟨code, -, hc⟩ := mem_filterMap.mp h
  cases code <;> cases hc

theorem orderly_served_iff :
    Orderly (.postFsData safe :: codes.filterMap (served safe)) ↔
      codes.count .bootComplete ≤ 1 ∧ (safe = false → codes.count .lateStart ≤ 1) := by
  constructor
  · intro h
    have hcomplete := h.bootComplete_once
    have hlate := h.lateStart_once
    rw [count_cons_of_ne (by simp), count_bootComplete_served] at hcomplete
    refine ⟨hcomplete, ?_⟩
    rintro rfl
    rw [count_cons_of_ne (by simp), count_lateStart_served] at hlate
    exact hlate
  · rintro ⟨hcomplete, hlate⟩
    refine ⟨?_, ?_, ?_, ?_, ?_⟩
    · rw [countP_cons_of_pos rfl, countP_eq_zero.mpr]
      intro s hs
      cases s with
      | postFsData s => exact absurd hs (postFsData_notMem_served s)
      | lateStart => simp
      | bootComplete => simp
    · rw [count_cons_of_ne (by simp)]
      cases safe with
      | false =>
        rw [count_lateStart_served]
        exact hlate rfl
      | true =>
        rw [count_eq_zero.mpr lateStart_notMem_served]
        exact Nat.zero_le 1
    · rw [count_cons_of_ne (by simp), count_bootComplete_served]
      exact hcomplete
    · intro l s r hl hs
      cases l with
      | nil =>
        rw [nil_append] at hl
        rw [← (cons.inj hl).1] at hs
        simp at hs
      | cons a l =>
        rw [cons_append] at hl
        exact ⟨safe, by rw [(cons.inj hl).1]; exact mem_cons_self⟩
    · intro l r hl hmem
      cases l with
      | nil => cases hmem
      | cons a l =>
        rw [cons_append] at hl
        obtain ⟨rfl, htail⟩ := cons.inj hl
        rcases mem_cons.mp hmem with hsafe | hmem
        · cases hsafe
          have hlate : .lateStart ∈ codes.filterMap (served true) := by
            rw [htail]
            exact mem_append_right l mem_cons_self
          exact lateStart_notMem_served hlate
        · have hpost : .postFsData true ∈ codes.filterMap (served safe) := by
            rw [htail]
            exact mem_append_left _ hmem
          exact postFsData_notMem_served true hpost

end Trace

theorem orderly_nil : Orderly [] :=
  ⟨by decide, by decide, by decide, fun l s r h => by simp at h, fun l r h => by simp at h⟩

def MagiskD.start (bootloopCount zygiskConfig : Int32) : MagiskD :=
  { bootloopCount, zygiskConfig }

/-- Each stage runs once, behind `post_fs_data` and not in safe mode, as long as init asks for it
only once. -/
theorem stages_orderly_iff (bootloopCount zygiskConfig : Int32) (reqs : List Request) :
    Orderly (stages (.start bootloopCount zygiskConfig) reqs) ↔
      AskedOnce (.start bootloopCount zygiskConfig) reqs := by
  rw [stages_eq rfl, AskedOnce]
  cases fromStart reqs with
  | nil => exact iff_of_true orderly_nil fun q rest h => by cases h
  | cons q rest =>
    rw [orderly_served_iff]
    constructor
    · intro h q' rest' he
      cases he
      exact h
    · intro h
      exact h q rest rfl

/-- The events of the injected rc file. -/
inductive Trigger where
  | postFsData
  /-- `property:vold.decrypt=trigger_restart_framework` -/
  | voldDecrypt
  | nonencrypted
  /-- `property:sys.boot_completed=1` -/
  | bootCompleted
  deriving DecidableEq, Repr

/-- The request of the program that `inject_magisk_rc` starts. -/
def Trigger.request : Trigger → RequestCode
  | .postFsData => .postFsData
  | .voldDecrypt => .lateStart
  | .nonencrypted => .lateStart
  | .bootCompleted => .bootComplete

/-- An unencrypted device on which nothing is missing. -/
def healthy : Device where
  mounts := some ["/dev/block/dm-0 /data ext4 rw 0 0".toList]
  getProp _ := []
  secureDirExists := true
  sdkInt := 34
  busyboxExists := true
  checkKeyCombo := false
  dbWritable := true

/-- Both events for the services come, and the services are run twice. -/
theorem stages_both_services :
    let reqs : List Request :=
      [.postFsData, .nonencrypted, .voldDecrypt].map fun t : Trigger => (t.request, healthy)
    stages (.start 0 0) reqs = [.postFsData false, .lateStart, .lateStart] ∧
      ¬ Orderly (stages (.start 0 0) reqs) := by
  have h : stages (.start 0 0)
      ([.postFsData, .nonencrypted, .voldDecrypt].map fun t : Trigger => (t.request, healthy)) =
        [.postFsData false, .lateStart, .lateStart] := by decide
  refine ⟨h, fun ho => ?_⟩
  rw [h] at ho
  exact absurd ho.lateStart_once (by decide)

end Magisk.BootStages
