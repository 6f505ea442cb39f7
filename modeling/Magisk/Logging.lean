import Magisk.AtomicPipe
import Magisk.Socket

namespace Magisk.Logging

open List Option

def pipeBuf : ℕ := 4096

structure LogMeta where
  prio : Int32
  len : Int32
  pid : Int32
  tid : Int32
  deriving DecidableEq, Repr

def LogMeta.bytes (m : LogMeta) : Bytes :=
  Codec.i32.encode m.prio ++ (Codec.i32.encode m.len ++
    (Codec.i32.encode m.pid ++ Codec.i32.encode m.tid))

def metaSize : ℕ := 16

def maxMsgLen : ℕ := pipeBuf - metaSize

/-- What is written to the pipe: `write_log_to_pipe` in a thread, and `setup_logfile`. -/
inductive LogCall where
  | log (prio pid tid : Int32) (msg : Bytes)
  | setup
  deriving DecidableEq, Repr

def LogCall.bytes : LogCall → Bytes
  | .log prio pid tid msg =>
    let msg := msg.take maxMsgLen
    LogMeta.bytes ⟨prio, Int32.ofNat msg.length, pid, tid⟩ ++ msg
  | .setup => LogMeta.bytes ⟨-1, 0, 0, 0⟩

inductive LogLevel where
  | error
  | warn
  | info
  | debug
  deriving DecidableEq, Repr

def levelToPrio : LogLevel → Int32
  | .error => 6
  | .warn => 5
  | .info => 4
  | .debug => 3

/-- What the loop takes from the pipe in one turn. -/
inductive Frame where
  /-- a negative priority -/
  | setup
  /-- a length out of range -/
  | invalid
  | record (prio pid tid : Int32) (msg : Bytes)
  deriving DecidableEq, Repr

def readI32 (b : Bytes) : Option (Int32 × Bytes) := (Codec.i32.decode b).toOption

/-- `read_pod`; `none` while there are not enough bytes. -/
def readMeta (b : Bytes) : Option (LogMeta × Bytes) := do
  let (prio, b) ← readI32 b
  let (len, b) ← readI32 b
  let (pid, b) ← readI32 b
  let (tid, b) ← readI32 b
  return (⟨prio, len, pid, tid⟩, b)

/-- The next frame and the rest of the stream. -/
def readFrame (b : Bytes) : Option (Frame × Bytes) :=
  (readMeta b).bind fun (m, b) =>
    if m.prio < 0 then some (.setup, b)
    else if m.len < 0 ∨ Int32.ofNat maxMsgLen < m.len then some (.invalid, b)
    else if m.len.toNatClampNeg ≤ b.length then
      some (.record m.prio m.pid m.tid (b.take m.len.toNatClampNeg), b.drop m.len.toNatClampNeg)
    else none

variable {b : Bytes} {c : LogCall} {ι : Type} (clock : ℕ → Stamp) (n : ℕ) (lines : Bytes)

theorem readI32_length {r : Int32 × Bytes} (h : readI32 b = some r) : r.2.length < b.length := by
  unfold readI32 Codec.i32 Codec.u32 Codec.readExact at h
  dsimp only at h
  split_ifs at h with hlen
  · obtain rfl := some.inj h
    show (b.drop 4).length < b.length
    rw [length_drop]
    omega
  · cases h

theorem readMeta_length {r : LogMeta × Bytes} (h : readMeta b = some r) : r.2.length < b.length := by
  obtain ⟨prio, hprio, h⟩ := bind_eq_some_iff.mp h
  obtain ⟨len, hlen, h⟩ := bind_eq_some_iff.mp h
  obtain ⟨pid, hpid, h⟩ := bind_eq_some_iff.mp h
  obtain ⟨tid, htid, h⟩ := bind_eq_some_iff.mp h
  obtain rfl := some.inj h
  have h1 := readI32_length hprio
  have h2 := readI32_length hlen
  have h3 := readI32_length hpid
  have h4 := readI32_length htid
  dsimp only at *
  omega

theorem readFrame_length {r : Frame × Bytes} (h : readFrame b = some r) : r.2.length < b.length := by
  obtain ⟨⟨m, rest⟩, hm, h⟩ := bind_eq_some_iff.mp h
  have hrest := readMeta_length hm
  dsimp only at h hrest
  split_ifs at h with hneg hinvalid hlen
  · obtain rfl := some.inj h
    exact hrest
  · obtain rfl := some.inj h
    exact hrest
  · obtain rfl := some.inj h
    rw [length_drop]
    omega

def frames (b : Bytes) : List Frame :=
  match _h : readFrame b with
  | none => []
  | some r => r.1 :: frames r.2
termination_by b.length
decreasing_by exact readFrame_length ‹_›

def prioLetter (prio : Int32) : Option Char :=
  if prio = 2 then some 'V'
  else if prio = 3 then some 'D'
  else if prio = 4 then some 'I'
  else if prio = 5 then some 'W'
  else if prio = 6 then some 'E'
  else none

def padLeft (c : Char) (n : ℕ) (b : Bytes) : Bytes :=
  List.replicate (n - b.length) c.toUInt8 ++ b

/-- The date and time as `strftime` gives them, and the milliseconds. -/
structure Stamp where
  date : Bytes
  millis : ℕ

/-- What stands before the message, in a buffer of 64 bytes that ends with a zero byte. -/
def lineHead (now : Stamp) (pid tid : Int32) (letter : Char) : Bytes :=
  (now.date ++ (lit "." ++ padLeft '0' 3 (lit (toString now.millis)) ++
    lit " " ++ padLeft ' ' 5 (lit (toString pid.toInt)) ++
    lit " " ++ padLeft ' ' 5 (lit (toString tid.toInt)) ++
    lit " " ++ asBytes [letter] ++ lit " : ")).take 63

/-- The line of a record with a supported priority; nothing for the others. -/
def Frame.line (now : Stamp) : Frame → Bytes
  | .record prio pid tid msg =>
    match prioLetter prio with
    | some letter => lineHead now pid tid letter ++ msg
    | none => []
  | _ => []

/-- Where lines go: to memory, or to the file. -/
inductive LogFile where
  | buffer (lines : Bytes)
  | actual

/-- The daemon, with the log file and the one before it. -/
structure Daemon where
  logfile : LogFile
  log : Option Bytes
  bak : Option Bytes

def Daemon.handle (now : Stamp) (d : Daemon) (f : Frame) : Daemon :=
  match f, d.logfile with
  | .setup, .buffer lines => ⟨.actual, some lines, d.log.or d.bak⟩
  | .setup, .actual => d
  | f, .buffer lines => { d with logfile := .buffer (lines ++ f.line now) }
  | f, .actual => { d with log := d.log.map (· ++ f.line now) }

/-- The turns of the loop, the `n`th at the time `clock n`. -/
def Daemon.handleAll (clock : ℕ → Stamp) : ℕ → Daemon → List Frame → Daemon
  | _, d, [] => d
  | n, d, f :: fs => handleAll clock (n + 1) (d.handle (clock n) f) fs

/-- The loop on everything that comes through the pipe. -/
def logfileWriteLoop (clock : ℕ → Stamp) (log bak : Option Bytes) (stream : Bytes) : Daemon :=
  Daemon.handleAll clock 0 ⟨.buffer [], log, bak⟩ (frames stream)

def LogCall.frame : LogCall → Frame
  | .log prio pid tid msg => .record prio pid tid (msg.take maxMsgLen)
  | .setup => .setup

/-- The priority is one that the reader does not take for the end of the setup. -/
def LogCall.NonNeg : LogCall → Prop
  | .log prio _ _ _ => ¬prio < 0
  | .setup => True

instance : DecidablePred LogCall.NonNeg
  | .log prio _ _ _ => inferInstanceAs (Decidable ¬prio < 0)
  | .setup => inferInstanceAs (Decidable True)

theorem readI32_append (v : Int32) (rest : Bytes) :
    readI32 (Codec.i32.encode v ++ rest) = some (v, rest) := by
  rw [readI32, Codec.i32.decode_encode v rest trivial]
  rfl

theorem readMeta_append (m : LogMeta) (rest : Bytes) :
    readMeta (m.bytes ++ rest) = some (m, rest) := by
  simp only [readMeta, LogMeta.bytes, append_assoc, readI32_append, bind_eq_bind,
    bind_some]
  rfl

theorem LogCall.bytes_length_le (c : LogCall) : c.bytes.length ≤ pipeBuf := by
  have hmeta (m : LogMeta) : m.bytes.length = metaSize := by
    rfl
  cases c with
  | log prio pid tid msg =>
    rw [LogCall.bytes, length_append, hmeta, length_take]
    simp only [maxMsgLen, pipeBuf, metaSize]
    omega
  | setup =>
    decide

theorem readFrame_append (h : c.NonNeg) (rest : Bytes) :
    readFrame (c.bytes ++ rest) = some (c.frame, rest) := by
  cases c with
  | setup =>
    rfl
  | log prio pid tid msg =>
    have hle : (msg.take maxMsgLen).length ≤ maxMsgLen := length_take_le _ _
    have hmax : maxMsgLen = 4080 := rfl
    have hlen : (Int32.ofNat (msg.take maxMsgLen).length).toInt = (msg.take maxMsgLen).length :=
      Int32.toInt_ofNat_of_lt (by omega)
    have hclamp : (Int32.ofNat (msg.take maxMsgLen).length).toNatClampNeg =
        (msg.take maxMsgLen).length := by
      rw [Int32.toNatClampNeg, hlen, Int.toNat_natCast]
    have hvalid : ¬(Int32.ofNat (msg.take maxMsgLen).length < 0 ∨
        Int32.ofNat maxMsgLen < Int32.ofNat (msg.take maxMsgLen).length) := by
      rw [Int32.lt_iff_toInt_lt, Int32.lt_iff_toInt_lt, hlen,
        Int32.toInt_ofNat_of_lt (by rw [hmax]; decide)]
      rw [not_or, not_lt, not_lt]
      exact ⟨Int.natCast_nonneg _, by exact_mod_cast hle⟩
    rw [LogCall.bytes, append_assoc, readFrame, readMeta_append, bind_some]
    dsimp only
    rw [if_neg h, if_neg hvalid, hclamp, if_pos (by simp), take_left, drop_left]
    rfl

/-- A record with a negative priority is taken for a setup, and its message stays in the
stream. -/
theorem readFrame_negative {prio pid tid : Int32} (h : prio < 0) (msg rest : Bytes) :
    readFrame ((LogCall.log prio pid tid msg).bytes ++ rest) =
      some (.setup, msg.take maxMsgLen ++ rest) := by
  rw [LogCall.bytes, append_assoc, readFrame, readMeta_append, bind_some]
  exact if_pos h

theorem frames_of_some {b rest : Bytes} {f : Frame} (h : readFrame b = some (f, rest)) :
    frames b = f :: frames rest := by
  rw [frames]
  split
  · rename_i hn
    rw [h] at hn
    cases hn
  · rename_i r hr
    rw [h] at hr
    obtain rfl := some.inj hr
    rfl

theorem frames_nil : frames [] = [] := by
  rw [frames]
  rfl

theorem frames_eq_iff (cs : List LogCall) :
    frames (cs.flatMap LogCall.bytes) = cs.map LogCall.frame ↔ ∀ c ∈ cs, c.NonNeg := by
  induction cs with
  | nil => simp [frames_nil]
  | cons c cs ih =>
    rw [flatMap_cons, map_cons, forall_mem_cons]
    by_cases hc : c.NonNeg
    · rw [frames_of_some (readFrame_append hc _), cons.injEq, ih]
      simp [hc]
    · simp only [hc, false_and, iff_false]
      cases c with
      | setup => exact absurd trivial hc
      | log prio pid tid msg =>
        rw [frames_of_some (readFrame_negative (not_not.mp hc) _ _)]
        intro h
        cases (cons.inj h).1

/-- The lines of the calls, from the `n`th turn on. -/
def logText (clock : ℕ → Stamp) : ℕ → List LogCall → Bytes
  | _, [] => []
  | n, c :: cs => c.frame.line (clock n) ++ logText clock (n + 1) cs

/-- What the calls are to leave: all lines are in the log file once it is set up, and in memory
before. -/
def logged (clock : ℕ → Stamp) (log bak : Option Bytes) (cs : List LogCall) : Daemon :=
  if .setup ∈ cs then ⟨.actual, some (logText clock 0 cs), log.or bak⟩
  else ⟨.buffer (logText clock 0 cs), log, bak⟩

theorem handleAll_actual (bak : Option Bytes) (cs : List LogCall) :
    Daemon.handleAll clock n ⟨.actual, some lines, bak⟩ (cs.map LogCall.frame) =
      ⟨.actual, some (lines ++ logText clock n cs), bak⟩ := by
  induction cs generalizing n lines with
  | nil => rw [logText, append_nil]; rfl
  | cons c cs ih =>
    have hstep : Daemon.handle (clock n) ⟨.actual, some lines, bak⟩ c.frame =
        ⟨.actual, some (lines ++ c.frame.line (clock n)), bak⟩ := by
      cases c with
      | log => rfl
      | setup =>
        show (⟨.actual, some lines, bak⟩ : Daemon) = ⟨.actual, some (lines ++ []), bak⟩
        rw [append_nil]
    rw [map_cons, Daemon.handleAll, hstep, ih, logText, append_assoc]

theorem handleAll_buffer (log bak : Option Bytes) (cs : List LogCall) :
    Daemon.handleAll clock n ⟨.buffer lines, log, bak⟩ (cs.map LogCall.frame) =
      if .setup ∈ cs then ⟨.actual, some (lines ++ logText clock n cs), log.or bak⟩
      else ⟨.buffer (lines ++ logText clock n cs), log, bak⟩ := by
  induction cs generalizing n lines with
  | nil =>
    rw [if_neg not_mem_nil, logText, append_nil]
    rfl
  | cons c cs ih =>
    cases c with
    | setup =>
      have hstep : Daemon.handle (clock n) ⟨.buffer lines, log, bak⟩ LogCall.setup.frame =
          ⟨.actual, some lines, log.or bak⟩ := rfl
      rw [map_cons, Daemon.handleAll, hstep, handleAll_actual, if_pos mem_cons_self]
      rfl
    | log prio pid tid msg =>
      have hstep : Daemon.handle (clock n) ⟨.buffer lines, log, bak⟩
          (LogCall.log prio pid tid msg).frame =
          ⟨.buffer (lines ++ (LogCall.log prio pid tid msg).frame.line (clock n)), log, bak⟩ := rfl
      rw [map_cons, Daemon.handleAll, hstep, ih, logText, append_assoc]
      simp only [mem_cons, reduceCtorEq, false_or]

/-- The writers write their calls to the pipe, in any order. -/
def Reaches {ι : Type} [DecidableEq ι] (calls : ι → List LogCall)
    (s : PipeState ι LogCall) : Prop :=
  Relation.ReflTransGen (PipeStep LogCall.bytes pipeBuf) (.start calls) s

theorem daemon_iff_of_sent [DecidableEq ι] {calls : ι → List LogCall}
    {s : PipeState ι LogCall} {sent : List (ι × LogCall)} (hsent : Sent LogCall.bytes calls s sent)
    (clock : ℕ → Stamp) (log bak : Option Bytes) :
    (frames s.stream = sent.map (·.2.frame) ∧
        logfileWriteLoop clock log bak s.stream = logged clock log bak (sent.map Prod.snd)) ↔
      ∀ w ∈ sent, w.2.NonNeg := by
  have hstream : s.stream = (sent.map Prod.snd).flatMap LogCall.bytes := by
    rw [hsent.stream, flatMap_map]
  have hframes : frames s.stream = sent.map (·.2.frame) ↔ ∀ w ∈ sent, w.2.NonNeg := by
    have h := frames_eq_iff (sent.map Prod.snd)
    rw [← hstream, List.map_map, List.forall_mem_map] at h
    exact h
  rw [hframes, and_iff_left_iff_imp]
  intro h
  have hlines := handleAll_buffer clock 0 [] log bak (sent.map Prod.snd)
  rw [List.map_map] at hlines
  rw [logfileWriteLoop, hframes.mpr h]
  exact hlines

/-- The calls of the writers come through the pipe in some order, and the daemon takes them apart
and logs them as they are exactly when none of them has a negative priority. -/
theorem logfileWriteLoop_iff {ι : Type} [DecidableEq ι] (calls : ι → List LogCall)
    {s : PipeState ι LogCall} (hs : Reaches calls s) (clock : ℕ → Stamp) (log bak : Option Bytes) :
    ∃ sent : List (ι × LogCall),
      (∀ i, (sent.filter (·.1 = i)).map Prod.snd ++ s.queue i = calls i) ∧
      s.stream = sent.flatMap (·.2.bytes) ∧
      ((frames s.stream = sent.map (·.2.frame) ∧
          logfileWriteLoop clock log bak s.stream = logged clock log bak (sent.map Prod.snd)) ↔
        ∀ w ∈ sent, w.2.NonNeg) := by
  obtain ⟨sent, hsent⟩ := reachable_sent (fun _ c _ => c.bytes_length_le) hs
  exact ⟨sent, hsent.queue, hsent.stream, daemon_iff_of_sent hsent clock log bak⟩

/-- The calls that the loggers of the daemon and of zygisk make. -/
def LogCall.FromLogger : LogCall → Prop
  | .log prio _ _ _ => ∃ level, prio = levelToPrio level
  | .setup => True

theorem LogCall.FromLogger.nonNeg (h : c.FromLogger) : c.NonNeg := by
  cases c with
  | setup => trivial
  | log prio pid tid msg =>
    obtain ⟨level, rfl⟩ := h
    have hprio : ¬levelToPrio level < 0 := by cases level <;> decide
    exact hprio

theorem logfileWriteLoop_loggers [DecidableEq ι] {calls : ι → List LogCall}
    (hcalls : ∀ i, ∀ c ∈ calls i, c.FromLogger) {s : PipeState ι LogCall} (hs : Reaches calls s)
    (clock : ℕ → Stamp) (log bak : Option Bytes) :
    ∃ sent : List (ι × LogCall),
      (∀ i, (sent.filter (·.1 = i)).map Prod.snd ++ s.queue i = calls i) ∧
      frames s.stream = sent.map (·.2.frame) ∧
      logfileWriteLoop clock log bak s.stream = logged clock log bak (sent.map Prod.snd) := by
  obtain ⟨sent, hsent⟩ := reachable_sent (fun _ c _ => c.bytes_length_le) hs
  refine ⟨sent, hsent.queue, (daemon_iff_of_sent hsent clock log bak).mpr fun w hw => ?_⟩
  refine (hcalls w.1 w.2 ?_).nonNeg
  rw [← hsent.queue w.1]
  exact mem_append_left _ (List.mem_map.mpr ⟨w, by simp [hw], rfl⟩)

/-- A thread that logs a line, and the one that sets up the log file. -/
def twoWriters : Bool → List LogCall
  | true => [.log 4 100 101 (lit "up\n")]
  | false => [.setup]

theorem logfileWriteLoop_twoWriters : ∃ s, Reaches twoWriters s ∧ s.queue true = [] ∧
    s.queue false = [] ∧ ∃ sent : List (Bool × LogCall),
      (∀ i, (sent.filter (·.1 = i)).map Prod.snd ++ s.queue i = twoWriters i) ∧
      s.stream = sent.flatMap (·.2.bytes) ∧
      ((frames s.stream = sent.map (·.2.frame) ∧
          logfileWriteLoop (fun _ => ⟨lit "01-01 00:00:00", 0⟩) none none s.stream =
            logged (fun _ => ⟨lit "01-01 00:00:00", 0⟩) none none (sent.map Prod.snd)) ↔
        ∀ w ∈ sent, w.2.NonNeg) := by
  have h1 : PipeStep LogCall.bytes pipeBuf (.start twoWriters)
      ⟨Function.update twoWriters true [], fun _ => [],
        [] ++ (LogCall.log 4 100 101 (lit "up\n")).bytes⟩ :=
    .whole _ true _ [] rfl rfl (LogCall.bytes_length_le _)
  have h2 : PipeStep LogCall.bytes pipeBuf
      ⟨Function.update twoWriters true [], fun _ => [],
        [] ++ (LogCall.log 4 100 101 (lit "up\n")).bytes⟩
      ⟨Function.update (Function.update twoWriters true []) false [], fun _ => [],
        [] ++ (LogCall.log 4 100 101 (lit "up\n")).bytes ++ LogCall.setup.bytes⟩ :=
    .whole _ false _ [] rfl rfl (LogCall.bytes_length_le _)
  have hs := (Relation.ReflTransGen.single h1).tail h2
  exact ⟨_, hs, rfl, rfl, logfileWriteLoop_iff twoWriters hs _ none none⟩

/-- A record with a negative priority, and one behind it: the first is taken for a setup, and its
message for the start of the second. -/
theorem frames_negative :
    frames ([.log (-1) 1 1 (lit "x"), .log 4 1 1 (lit "ok")].flatMap LogCall.bytes) = [.setup] ∧
    [.log (-1) 1 1 (lit "x"), .log 4 1 1 (lit "ok")].map LogCall.frame =
      [.record (-1) 1 1 (lit "x"), .record 4 1 1 (lit "ok")] := by
  decide +kernel

end Magisk.Logging
