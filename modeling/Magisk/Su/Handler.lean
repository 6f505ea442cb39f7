import Magisk.Su.Access

namespace Magisk.Su

structure SuRequest where
  targetUid : Int32 := aidRoot
  targetPid : Int32 := -1
  login : Bool := false
  keepEnv : Bool := false
  dropCap : Bool := false
  shell : Str := "/system/bin/sh".toList
  command : Str := []
  context : Str := []
  gids : List UInt32 := []
deriving DecidableEq, Repr

structure UCred where
  uid : UInt32
  pid : Option Int32
deriving DecidableEq, Repr

/-- The read end of the FIFO: all bytes ever written to it, or a read that fails. -/
inductive Fifo
  | written (bytes : Bytes)
  | failed
deriving DecidableEq, Repr

/-- What the system and the app do during one `app_request`. -/
structure Dialogue where
  mkfifo : Bool
  setAttr : Bool
  /-- The output of each run of `am start`; `none` for a run that could not start. -/
  runs : List (Option Bytes)
  opens : Bool
  polls : Bool
  fifo : Fifo
deriving DecidableEq, Repr

/-- The loop of `exec_cmd` ends with the first run that prints something. -/
def execCmd : List (Option Bytes) → Bool
  | [] => false
  | some stdout :: runs => if stdout.isEmpty then execCmd runs else true
  | none :: runs => execCmd runs

def decodeI32 (b0 b1 b2 b3 : UInt8) : Int32 :=
  (b0.toUInt32 ||| b1.toUInt32 <<< 8 ||| b2.toUInt32 <<< 16 ||| b3.toUInt32 <<< 24).toInt32

-- On a little-endian machine `from_be` swaps the bytes.
def fromBe (v : Int32) : Int32 :=
  let u := v.toUInt32
  let byte : UInt32 := 0xff
  (u <<< 24 ||| (u >>> 8 &&& byte) <<< 16 ||| (u >>> 16 &&& byte) <<< 8 ||| u >>> 24).toInt32

/-- `none` when fewer than four bytes ever come: the daemon keeps the write end open,
so the read waits for more and never sees an end of file. -/
def readI32 : Fifo → Option (Except Unit Int32)
  | .failed => some (.error ())
  | .written (b0 :: b1 :: b2 :: b3 :: _) => some (.ok (decodeI32 b0 b1 b2 b3))
  | .written _ => none

def readAnswer (fifo : Fifo) : Option SuPolicy :=
  (readI32 fifo).map fun
    | .ok answer => ⟨fromBe answer⟩
    | .error _ => .deny

namespace Dialogue

variable (d : Dialogue)

/-- Whether the FIFO was opened and polled without an error. -/
def requestFifo : Option Bool :=
  if !d.mkfifo || !d.setAttr then some false
  else if !execCmd d.runs then none
  else some (d.opens && d.polls)

def appRequest : Option SuPolicy :=
  match d.requestFifo with
  | none => none
  | some false => some .deny
  | some true => readAnswer d.fifo

-- The log and the notification are sent from a forked process, which leaves the settings alone.
def connectApp (settings : RootSettings) : Option RootSettings :=
  if settings.policy = .query then d.appRequest.map fun policy => { settings with policy }
  else some settings

end Dialogue

def AccessInfo.isFresh (access : AccessInfo) (now : ℕ) : Bool := now - access.timestamp < 3000000000

/-- What a handler ends with; the grant and the failed fork carry the final policy. -/
inductive Outcome
  | rejected
  | shell (policy : SuPolicy) (pid : Int32) (req : SuRequest) (mode : MntNsMode)
  | forkFailed (policy : SuPolicy)
deriving DecidableEq, Repr

/-- One request: the peer, what it sends, the clock, the dialogue and whether `fork` works. -/
structure Call where
  cred : UCred
  request : Option SuRequest
  start : ℕ
  finish : ℕ
  dialogue : Dialogue
  forks : Bool

namespace MagiskD

variable (m : MagiskD)

def getSuInfo (now : ℕ) (uid : Int32) : SuInfo × MagiskD :=
  if uid = aidRoot then (SuInfo.allow now aidRoot, m)
  else if m.cachedSuInfo.uid = uid && m.cachedSuInfo.access.isFresh now then (m.cachedSuInfo, m)
  else
    let info := m.buildSuInfo now uid
    (info, { m with cachedSuInfo := info })

-- The cache and the handler share one `SuInfo`, except for root's, which is never cached.
def updateAccess (info : SuInfo) (access : AccessInfo) : MagiskD :=
  if info.uid = aidRoot then m else { m with cachedSuInfo := { info with access } }

def suDaemonHandler (call : Call) : Option (Outcome × MagiskD) :=
  match call.request with
  | none => some (.rejected, m)
  | some req =>
    let (info, m) := m.getSuInfo call.start call.cred.uid.toInt32
    match call.dialogue.connectApp info.access.settings with
    | none => none
    | some settings =>
      let m := m.updateAccess info ⟨settings, call.finish⟩
      let req := if settings.policy = .restrict then { req with dropCap := true } else req
      if settings.policy = .deny then some (.rejected, m)
      else if call.forks then
        some (.shell settings.policy (call.cred.pid.getD (-1)) req info.cfg.mntNs, m)
      else some (.forkFailed settings.policy, m)

/-- A shell only under Allow or Restrict, and a denial under every other policy. -/
def EndsByPolicy : Option (Outcome × MagiskD) → Prop
  | none => False
  | some (.rejected, _) => True
  | some (.shell policy _ req _, _) =>
    policy = .allow ∨ policy = .restrict ∧ req.dropCap
  | some (.forkFailed policy, _) => policy = .allow ∨ policy = .restrict

/-- The policies that settle a request. -/
def Settles (policy : SuPolicy) : Prop := policy = .deny ∨ policy = .allow ∨ policy = .restrict

/-- The prompt fails, or is answered with a policy that settles the request. -/
def Answered (d : Dialogue) : Prop :=
  d.mkfifo = false ∨ d.setAttr = false ∨ execCmd d.runs ∧
    (d.opens = false ∨ d.polls = false ∨ d.fifo = .failed ∨
      ∃ b0 b1 b2 b3 rest, d.fifo = .written (b0 :: b1 :: b2 :: b3 :: rest) ∧
        Settles ⟨fromBe (decodeI32 b0 b1 b2 b3)⟩)

theorem settles_deny : Settles .deny := Or.inl rfl

theorem readAnswer_settles_iff (fifo : Fifo) :
    (∃ policy, readAnswer fifo = some policy ∧ Settles policy) ↔
    fifo = .failed ∨ ∃ b0 b1 b2 b3 rest, fifo = .written (b0 :: b1 :: b2 :: b3 :: rest) ∧
      Settles ⟨fromBe (decodeI32 b0 b1 b2 b3)⟩ := by
  match fifo with
  | .failed => simp [readAnswer, readI32, settles_deny]
  | .written (b0 :: b1 :: b2 :: b3 :: rest) => simp [readAnswer, readI32]
  | .written [] | .written [_] | .written [_, _] | .written [_, _, _] => simp [readAnswer, readI32]

theorem appRequest_settles_iff (d : Dialogue) :
    (∃ policy, d.appRequest = some policy ∧ Settles policy) ↔ Answered d := by
  unfold Dialogue.appRequest Dialogue.requestFifo Answered
  cases d.mkfifo <;> cases d.setAttr <;> cases execCmd d.runs <;> cases d.opens <;>
    cases d.polls <;> simp [settles_deny, readAnswer_settles_iff]

theorem connectApp_settles_iff (d : Dialogue) (settings : RootSettings) :
    (∃ settings', d.connectApp settings = some settings' ∧ Settles settings'.policy) ↔
      Settles settings.policy ∨ settings.policy = .query ∧ Answered d := by
  unfold Dialogue.connectApp
  split_ifs with hq
  · have hn : ¬ Settles .query := by simp [Settles, SuPolicy.query, SuPolicy.deny,
      SuPolicy.allow, SuPolicy.restrict]
    rw [← appRequest_settles_iff]
    simp [hq, hn]
  · simp [hq]

/-- The policy that the cache holds, or else that the tables give. -/
def storedPolicy (now : ℕ) (uid : Int32) : SuPolicy :=
  if uid = aidRoot then .allow
  else if m.cachedSuInfo.uid = uid && m.cachedSuInfo.access.isFresh now then m.cachedSuInfo.policy
  else
    match m.db.settingsEnding, m.db.policiesEnding, evalUid? m.settings.multiuserMode uid with
    | .done, .done, some evalUid => m.tablePolicy uid evalUid
    -- a query fails, or the mode refuses the user
    | _, _, _ => .deny

theorem getSuInfo_policy (now : ℕ) (uid : Int32) :
    (m.getSuInfo now uid).1.policy = m.storedPolicy now uid := by
  unfold getSuInfo storedPolicy
  split_ifs
  · rfl
  · rfl
  · split
    · next evalUid hs hp he => rw [buildSuInfo_eq ⟨hs, hp⟩ he, suInfoOf_policy]
    · next h =>
      by_cases hq : m.QueriesSucceed
      · cases he : evalUid? m.settings.multiuserMode uid with
        | none => rw [buildSuInfo_refused hq he, SuInfo.deny_policy]
        | some evalUid => exact absurd he (h evalUid hq.1 hq.2)
      · exact buildSuInfo_failed hq

/-- A call ends by the final policy exactly when the request cannot be read, the stored
policy settles it, or it is Query and the prompt is answered. -/
theorem endsByPolicy_iff (m : MagiskD) (call : Call) :
    EndsByPolicy (m.suDaemonHandler call) ↔ call.request = none ∨
      Settles (m.storedPolicy call.start call.cred.uid.toInt32) ∨
      m.storedPolicy call.start call.cred.uid.toInt32 = .query ∧ Answered call.dialogue := by
  rw [← getSuInfo_policy]
  unfold suDaemonHandler SuInfo.policy
  cases call.request with
  | none => simp [EndsByPolicy]
  | some req =>
    generalize m.getSuInfo call.start call.cred.uid.toInt32 = found
    rw [← connectApp_settles_iff]
    simp only
    cases call.dialogue.connectApp found.1.access.settings with
    | none => simp [EndsByPolicy]
    | some settings =>
      simp only [reduceCtorEq, Option.some.injEq, exists_eq_left', false_or]
      by_cases hd : settings.policy = .deny
      · simp [hd, EndsByPolicy, Settles]
      by_cases hr : settings.policy = .restrict
      · cases call.forks <;> simp [hr, EndsByPolicy, Settles, SuPolicy.restrict, SuPolicy.deny]
      · cases call.forks <;> simp [hd, hr, EndsByPolicy, Settles]

/-- A device on which the row of uid 10050 holds the policy `value`. -/
def deviceWith (value : Int64) : MagiskD := managerDevice ⟨10050, value, 0, 0, 0⟩

/-- A request of uid 10050; the prompt, if any, is shown and `bytes` are written to the FIFO. -/
def sampleCall (bytes : Bytes) : Call where
  cred := ⟨10050, some 4000⟩
  request := some {}
  start := 5000000000
  finish := 6000000000
  dialogue := ⟨true, true, [some [83]], true, true, .written bytes⟩
  forks := true

theorem shell_of_unknown_policy : ((deviceWith 7).suDaemonHandler (sampleCall [])).map (·.1) =
    some (.shell ⟨7⟩ 4000 {} .requester) := by
  decide +kernel

theorem unanswered_prompt : ((deviceWith 0).suDaemonHandler (sampleCall [])).map (·.1) = none := by
  decide +kernel

/-- The policy 7 is granted a shell, and a prompt without an answer is never denied. -/
theorem endsByPolicy_unknown : ¬ EndsByPolicy ((deviceWith 7).suDaemonHandler (sampleCall [])) ∧
    ¬ EndsByPolicy ((deviceWith 0).suDaemonHandler (sampleCall [])) := by
  constructor
  · intro h
    obtain ⟨⟨outcome, m'⟩, hr, ho⟩ := Option.map_eq_some_iff.mp shell_of_unknown_policy
    simp only at ho
    rw [hr, ho] at h
    exact absurd h (by simp [EndsByPolicy, SuPolicy.allow, SuPolicy.restrict])
  · rw [Option.map_eq_none_iff.mp unanswered_prompt]
    exact id

end MagiskD

end Magisk.Su
