import Magisk.Bytes
import Magisk.Loops

namespace Magisk.Su

open List

/-- The two ways in which bytes are carried. -/
inductive Flow where
  | stdinToPtmx
  | ptmxToStdout
  deriving DecidableEq, Repr

/-- `useSplice` is `SHOULD_USE_SPLICE` and `pipe` what the pipe holds. All that was read from the
source of a flow and written to its destination so far is kept beside it. -/
structure Tty where
  useSplice : Bool
  pipe : Bytes
  read : Flow → Bytes
  written : Flow → Bytes

/-- How the system answers the calls of one pump: what can be read, whether the first `splice`
works, what the second one moves if it works, whether a `read` fails, and where a `write_all` does.
-/
structure Answers where
  input : Bytes
  spliceIn : Bool
  spliceOut : Option ℕ
  readFails : Bool
  writeFails : Option ℕ
  deriving DecidableEq, Repr

def Tty.fetch (t : Tty) (f : Flow) (b : Bytes) : Tty :=
  { t with read := Function.update t.read f (t.read f ++ b) }

def Tty.deliver (t : Tty) (f : Flow) (b : Bytes) : Tty :=
  { t with written := Function.update t.written f (t.written f ++ b) }

/-- What a `write_all` gets out. -/
def Answers.accepted (a : Answers) (b : Bytes) : Bytes :=
  match a.writeFails with
  | none => b
  | some n => b.take n

/-- What `pump_via_copy` reads from: the source of the flow, or the pipe. -/
inductive ReadEnd where
  | source
  | pipe
  deriving DecidableEq, Repr

/-- The state and whether the call returned without an error. -/
def pumpViaCopy (t : Tty) (f : Flow) (fdIn : ReadEnd) (a : Answers) : Tty × Bool :=
  if a.readFails then (t, false)
  else
    match fdIn with
    | .source =>
      let buf := a.input.take 4096
      ((t.fetch f buf).deliver f (a.accepted buf), a.accepted buf = buf)
    | .pipe =>
      let buf := t.pipe.take 4096
      ({ t with pipe := t.pipe.drop 4096 }.deliver f (a.accepted buf), a.accepted buf = buf)

def pumpViaSplice (t : Tty) (f : Flow) (a : Answers) : Tty × Bool :=
  if t.useSplice = false then pumpViaCopy t f .source a
  else if a.spliceIn = false then pumpViaCopy { t with useSplice := false } f .source a
  else
    let data := a.input.take 65536
    if data.length = 0 then (t, true)
    else
      let t := { t.fetch f data with pipe := t.pipe ++ data }
      match a.spliceOut with
      | none => pumpViaCopy { t with useSplice := false } f .pipe a
      | some n =>
        let moved := min n data.length
        ({ t with pipe := t.pipe.drop moved }.deliver f (t.pipe.take moved), true)

inductive Fd where
  | ptmx
  | signal
  | stdin
  deriving DecidableEq, Repr

structure PollFlags where
  pollin : Bool
  pollerr : Bool
  pollhup : Bool
  pollnval : Bool
  deriving DecidableEq, Repr

/-- What `poll` reports for a descriptor, and how the calls it leads to are answered. There are no
`revents` if they hold an unknown flag. -/
structure Polled where
  revents : Option PollFlags
  answers : Answers
  signalRead : Bool
  deriving DecidableEq, Repr

/-- All events that are waited for have come: `pfd.all().unwrap_or(false)`. -/
def Polled.all (x : Polled) : Bool :=
  match x.revents with
  | none => false
  | some flags => flags.pollin

def Polled.stop (x : Polled) : Bool :=
  match x.revents with
  | none => true
  | some flags => flags.pollerr || flags.pollhup || flags.pollnval

/-- One turn of the `for` loop: the state and whether the loop goes on. -/
def handle (t : Tty) (fd : Fd) (x : Polled) : Tty × Bool :=
  if x.all then
    match fd with
    | .stdin => pumpViaSplice t .stdinToPtmx x.answers
    | .ptmx => pumpViaSplice t .ptmxToStdout x.answers
    | .signal => (t, x.signalRead)
  else (t, !x.stop)

def visit (x : Fd → Polled) : Tty → List Fd → Tty × Bool
  | t, [] => (t, true)
  | t, fd :: fds =>
    match handle t fd (x fd) with
    | (t', true) => visit x t' fds
    | (t', false) => (t', false)

def pollFds (pumpStdin : Bool) : List Fd :=
  if pumpStdin then [.ptmx, .signal, .stdin] else [.ptmx]

/-- The loop waits in `poll`, or has ended. -/
structure PumpState where
  tty : Tty
  waiting : Bool

def PumpState.start (useSplice : Bool) : PumpState :=
  ⟨⟨useSplice, [], fun _ => [], fun _ => []⟩, true⟩

def pumpStep (pumpStdin : Bool) (s : PumpState) (x : Fd → Polled) : Option PumpState :=
  if s.waiting then
    let r := visit x s.tty (pollFds pumpStdin)
    some ⟨r.1, r.2⟩
  else none

/-- Each destination has got the first bytes of its source, and all of them if the loop waits. -/
def PumpState.Delivers (s : PumpState) : Prop :=
  ∀ f, s.tty.written f <+: s.tty.read f ∧ (s.waiting → s.tty.written f = s.tty.read f)

def fetched (t : Tty) (a : Answers) : Bytes :=
  if t.useSplice ∧ a.spliceIn then a.input.take 65536
  else if a.readFails then []
  else a.input.take 4096

def delivered (t : Tty) (a : Answers) : Bytes :=
  if t.useSplice ∧ a.spliceIn then
    if a.input.take 65536 = [] then []
    else
      match a.spliceOut with
      | none =>
        if a.readFails then []
        else a.accepted ((t.pipe ++ a.input.take 65536).take 4096)
      | some n => (t.pipe ++ a.input.take 65536).take (min n (a.input.take 65536).length)
  else if a.readFails then []
  else a.accepted (a.input.take 4096)

theorem Tty.fetch_nil (t : Tty) (f : Flow) : (t.fetch f []).read = t.read := by
  rw [Tty.fetch, append_nil, Function.update_eq_self]

theorem Tty.deliver_nil (t : Tty) (f : Flow) : (t.deliver f []).written = t.written := by
  rw [Tty.deliver, append_nil, Function.update_eq_self]

section Pump

variable {t : Tty} {f : Flow} {a : Answers}

theorem prefix_accepted (a : Answers) (b : Bytes) : a.accepted b <+: b := by
  rw [Answers.accepted]
  cases a.writeFails with
  | none => exact prefix_rfl
  | some n => exact take_prefix n b

/-- The ways in which a pump can end, with what it has read and what it has written. -/
inductive Pumped (t : Tty) (f : Flow) (a : Answers) : Tty × Bool → Bytes → Bytes → Prop
  | unread (h : ¬(t.useSplice ∧ a.spliceIn)) (hr : a.readFails) :
      Pumped t f a ({ t with useSplice := false }, false) [] []
  | copied (h : ¬(t.useSplice ∧ a.spliceIn)) (hr : a.readFails = false)
      (buf : Bytes) (hbuf : a.input.take 4096 = buf) :
      Pumped t f a (({ t with useSplice := false }.fetch f buf).deliver f (a.accepted buf),
        decide (a.accepted buf = buf)) buf (a.accepted buf)
  | nothing (h : t.useSplice ∧ a.spliceIn) (hd : a.input.take 65536 = []) :
      Pumped t f a (t, true) [] []
  | spliced (h : t.useSplice ∧ a.spliceIn) (data : Bytes)
      (hdata : a.input.take 65536 = data) (n : ℕ) (ho : a.spliceOut = some n) :
      Pumped t f a (Tty.deliver ⟨t.useSplice, (t.pipe ++ data).drop (min n data.length),
          (t.fetch f data).read, t.written⟩ f ((t.pipe ++ data).take (min n data.length)), true)
        data ((t.pipe ++ data).take (min n data.length))
  | stuck (h : t.useSplice ∧ a.spliceIn) (data : Bytes)
      (hdata : a.input.take 65536 = data) (ho : a.spliceOut = none) (hr : a.readFails) :
      Pumped t f a (⟨false, t.pipe ++ data, (t.fetch f data).read, t.written⟩, false) data []
  | drained (h : t.useSplice ∧ a.spliceIn) (data : Bytes)
      (hdata : a.input.take 65536 = data) (ho : a.spliceOut = none) (hr : a.readFails = false)
      (buf : Bytes) (hbuf : (t.pipe ++ data).take 4096 = buf) :
      Pumped t f a (Tty.deliver ⟨false, (t.pipe ++ data).drop 4096, (t.fetch f data).read,
        t.written⟩ f (a.accepted buf), decide (a.accepted buf = buf)) data (a.accepted buf)

theorem pumpViaSplice_of_copy (h : ¬(t.useSplice ∧ a.spliceIn)) :
    pumpViaSplice t f a = pumpViaCopy { t with useSplice := false } f .source a := by
  rw [pumpViaSplice]
  by_cases hu : t.useSplice = false
  · rw [if_pos hu, ← hu]
  · have hi : a.spliceIn = false := by
      rw [Bool.not_eq_false] at hu
      exact Bool.eq_false_of_not_eq_true fun hi => h ⟨hu, hi⟩
    rw [if_neg hu, if_pos hi]

theorem pumped (t : Tty) (f : Flow) (a : Answers) :
    Pumped t f a (pumpViaSplice t f a) (fetched t a) (delivered t a) := by
  by_cases h : t.useSplice ∧ a.spliceIn
  · rw [pumpViaSplice, if_neg (by simp [h.1]), if_neg (by simp [h.2]), fetched, delivered,
      if_pos h, if_pos h]
    by_cases hd : a.input.take 65536 = []
    · rw [hd, if_pos rfl]
      exact .nothing h hd
    · have hlen : ¬(a.input.take 65536).length = 0 := fun hl => hd (length_eq_zero_iff.mp hl)
      rw [if_neg hlen, if_neg hd]
      cases ho : a.spliceOut with
      | some n => exact .spliced h _ rfl n ho
      | none =>
        dsimp only [pumpViaCopy]
        cases hr : a.readFails with
        | true => exact .stuck h _ rfl ho hr
        | false => exact .drained h _ rfl ho hr _ rfl
  · rw [pumpViaSplice_of_copy h, fetched, delivered, if_neg h, if_neg h, pumpViaCopy]
    cases hr : a.readFails with
    | true => exact .unread h hr
    | false => exact .copied h hr _ rfl

theorem pump_flow (t : Tty) (f : Flow) (a : Answers) :
    (pumpViaSplice t f a).1.read = (t.fetch f (fetched t a)).read ∧
      (pumpViaSplice t f a).1.written = (t.deliver f (delivered t a)).written := by
  have hp := pumped t f a
  generalize pumpViaSplice t f a = r, fetched t a = x, delivered t a = y at hp ⊢
  cases hp with
  | unread => exact ⟨(Tty.fetch_nil t f).symm, (Tty.deliver_nil t f).symm⟩
  | copied => exact ⟨rfl, rfl⟩
  | nothing => exact ⟨(Tty.fetch_nil t f).symm, (Tty.deliver_nil t f).symm⟩
  | spliced => exact ⟨rfl, rfl⟩
  | stuck => exact ⟨rfl, (Tty.deliver_nil t f).symm⟩
  | drained => exact ⟨rfl, rfl⟩

/-- A pump without an error loses nothing: what it has read and not written is in the pipe. -/
theorem pump_conserves (hok : (pumpViaSplice t f a).2) :
    (delivered t a).length + (pumpViaSplice t f a).1.pipe.length =
      t.pipe.length + (fetched t a).length := by
  have hp := pumped t f a
  generalize pumpViaSplice t f a = r, fetched t a = x, delivered t a = y at hok hp ⊢
  cases hp with
  | unread => cases hok
  | copied h hr buf hbuf =>
    rw [of_decide_eq_true hok]
    exact Nat.add_comm _ _
  | nothing => exact Nat.zero_add _
  | spliced h data hdata n ho =>
    dsimp only [Tty.deliver]
    rw [← length_append, take_append_drop, length_append]
  | stuck => cases hok
  | drained h data hdata ho hr buf hbuf =>
    dsimp only [Tty.deliver]
    rw [of_decide_eq_true hok, ← hbuf, ← length_append, take_append_drop,
      length_append]

/-- All that is read goes out: the second `splice` moves as much as the first one, or it fails
and what is in the pipe fits the buffer of the copy. -/
def Whole (useSplice : Bool) (a : Answers) : Prop :=
  useSplice → a.spliceIn →
    match a.spliceOut with
    | none => (a.input.take 65536).length ≤ 4096
    | some n => (a.input.take 65536).length ≤ n

/-- A copy out of the pipe whose write fails has written nothing but bytes of its own flow. -/
def Untangled (t : Tty) (a : Answers) : Prop :=
  t.useSplice → a.spliceIn → a.spliceOut = none → a.readFails = false →
    a.accepted ((t.pipe ++ a.input.take 65536).take 4096) <+: a.input.take 65536

theorem prefix_delivered (hp : t.pipe = []) : delivered t a <+: fetched t a := by
  have hpump := pumped t .stdinToPtmx a
  generalize pumpViaSplice t .stdinToPtmx a = r, fetched t a = x, delivered t a = y at hpump ⊢
  cases hpump with
  | unread => exact prefix_rfl
  | copied => exact prefix_accepted a _
  | nothing => exact prefix_rfl
  | spliced h data hdata n ho =>
    rw [hp, nil_append]
    exact take_prefix _ _
  | stuck => exact nil_prefix
  | drained h data hdata ho hr buf hbuf =>
    rw [hp, nil_append] at hbuf
    exact (prefix_accepted a buf).trans (hbuf ▸ take_prefix _ _)

theorem whole_iff (h : t.useSplice ∧ a.spliceIn) : Whole t.useSplice a ↔
    match a.spliceOut with
    | none => (a.input.take 65536).length ≤ 4096
    | some n => (a.input.take 65536).length ≤ n := by
  exact ⟨fun hw => hw h.1 h.2, fun hw _ _ => hw⟩

theorem delivered_eq_iff (hp : t.pipe = []) (hok : (pumpViaSplice t f a).2) :
    delivered t a = fetched t a ↔ Whole t.useSplice a := by
  have hpump := pumped t f a
  generalize pumpViaSplice t f a = r, fetched t a = x, delivered t a = y at hok hpump ⊢
  cases hpump with
  | unread => cases hok
  | copied h hr buf hbuf =>
    exact iff_of_true (of_decide_eq_true hok) fun hu hi => absurd ⟨hu, hi⟩ h
  | nothing h hd =>
    rw [whole_iff h, hd]
    cases a.spliceOut with
    | none => exact iff_of_true rfl (Nat.zero_le _)
    | some n => exact iff_of_true rfl (Nat.zero_le _)
  | spliced h data hdata n ho =>
    rw [whole_iff h, ho, hdata, hp, nil_append, take_eq_self_iff]
    omega
  | stuck => cases hok
  | drained h data hdata ho hr buf hbuf =>
    rw [whole_iff h, ho, hdata, of_decide_eq_true hok, ← hbuf, hp, nil_append,
      take_eq_self_iff]

theorem prefix_delivered_iff (hok : (pumpViaSplice t f a).2 = false) :
    delivered t a <+: fetched t a ↔ Untangled t a := by
  have hpump := pumped t f a
  generalize pumpViaSplice t f a = r, fetched t a = x, delivered t a = y at hok hpump ⊢
  cases hpump with
  | unread h hr => exact iff_of_true prefix_rfl fun hu hi => absurd ⟨hu, hi⟩ h
  | copied h hr buf hbuf =>
    exact iff_of_true (prefix_accepted a _) fun hu hi => absurd ⟨hu, hi⟩ h
  | nothing => cases hok
  | spliced => cases hok
  | stuck h data hdata ho hr =>
    refine iff_of_true nil_prefix fun _ _ _ hr' => ?_
    exact absurd (hr.symm.trans hr') Bool.true_eq_false_eq_False
  | drained h data hdata ho hr buf hbuf =>
    rw [Untangled, hdata, hbuf]
    exact ⟨fun hpre _ _ _ _ => hpre, fun hu => hu h.1 h.2 ho hr⟩

end Pump

def Flow.fd : Flow → Fd
  | .stdinToPtmx => .stdin
  | .ptmxToStdout => .ptmx

def Polled.fetched (x : Polled) (t : Tty) : Bytes :=
  if x.all then Su.fetched t x.answers else []

def Polled.delivered (x : Polled) (t : Tty) : Bytes :=
  if x.all then Su.delivered t x.answers else []

/-- As many bytes are in the pipe as were read and not written. -/
def Tty.Conserves (t : Tty) : Prop :=
  (t.written .stdinToPtmx).length + (t.written .ptmxToStdout).length + t.pipe.length =
    (t.read .stdinToPtmx).length + (t.read .ptmxToStdout).length

section Handle

variable {t : Tty} {f : Flow} {x : Polled}

theorem handle_fd (t : Tty) (f : Flow) (x : Polled) :
    handle t f.fd x = if x.all then pumpViaSplice t f x.answers else (t, !x.stop) := by
  cases f <;> rfl

theorem handle_signal (t : Tty) (x : Polled) : (handle t .signal x).1 = t := by
  rw [handle]
  split <;> rfl

theorem handle_flow (t : Tty) (f : Flow) (x : Polled) :
    (handle t f.fd x).1.read = (t.fetch f (x.fetched t)).read ∧
      (handle t f.fd x).1.written = (t.deliver f (x.delivered t)).written := by
  rw [handle_fd, Polled.fetched, Polled.delivered]
  by_cases hx : x.all
  · rw [if_pos hx, if_pos hx, if_pos hx]
    exact pump_flow t f x.answers
  · rw [if_neg hx, if_neg hx, if_neg hx]
    exact ⟨(Tty.fetch_nil t f).symm, (Tty.deliver_nil t f).symm⟩

theorem handle_conserves (hok : (handle t f.fd x).2) :
    (x.delivered t).length + (handle t f.fd x).1.pipe.length =
      t.pipe.length + (x.fetched t).length := by
  rw [handle_fd] at hok ⊢
  rw [Polled.fetched, Polled.delivered]
  by_cases hx : x.all
  · rw [if_pos hx] at hok ⊢
    rw [if_pos hx, if_pos hx]
    exact pump_conserves hok
  · rw [if_neg hx, if_neg hx, if_neg hx]
    exact Nat.zero_add _

theorem Tty.Conserves.handle (h : t.Conserves) (fd : Fd) (hok : (handle t fd x).2) :
    (handle t fd x).1.Conserves := by
  have hflow : ∀ f : Flow, (Su.handle t f.fd x).2 → (Su.handle t f.fd x).1.Conserves := by
    intro f hf
    have hc := handle_conserves hf
    obtain ⟨hr, hw⟩ := handle_flow t f x
    rw [Tty.Conserves] at h ⊢
    rw [hr, hw, Tty.fetch, Tty.deliver]
    cases f <;> simp <;> omega
  cases fd with
  | ptmx => exact hflow .ptmxToStdout hok
  | signal => rwa [handle_signal]
  | stdin => exact hflow .stdinToPtmx hok

theorem prefix_polled (hp : t.pipe = []) : x.delivered t <+: x.fetched t := by
  rw [Polled.delivered, Polled.fetched]
  split
  · exact prefix_delivered hp
  · exact prefix_rfl

theorem polled_eq_iff (hp : t.pipe = []) (hok : (handle t f.fd x).2) :
    x.delivered t = x.fetched t ↔ (x.all → Whole t.useSplice x.answers) := by
  rw [handle_fd] at hok
  rw [Polled.delivered, Polled.fetched]
  by_cases hx : x.all
  · rw [if_pos hx] at hok
    rw [if_pos hx, if_pos hx, delivered_eq_iff hp hok]
    simp only [hx, true_imp_iff]
  · rw [if_neg hx, if_neg hx]
    exact iff_of_true rfl fun h => absurd h hx

theorem prefix_polled_iff (hok : (handle t f.fd x).2 = false) :
    x.delivered t <+: x.fetched t ↔ (x.all → Untangled t x.answers) := by
  rw [handle_fd] at hok
  rw [Polled.delivered, Polled.fetched]
  by_cases hx : x.all
  · rw [if_pos hx] at hok
    rw [if_pos hx, if_pos hx, prefix_delivered_iff hok]
    simp only [hx, true_imp_iff]
  · rw [if_neg hx, if_neg hx]
    exact iff_of_true prefix_rfl fun h => absurd h hx

end Handle

section Visit

variable {x : Fd → Polled} {t : Tty} {fd : Fd} {fds : List Fd}

theorem visit_of_ok (h : (handle t fd (x fd)).2) :
    visit x t (fd :: fds) = visit x (handle t fd (x fd)).1 fds := by
  rw [visit, ← Prod.eta (handle t fd (x fd)), h]

theorem visit_of_end (h : (handle t fd (x fd)).2 = false) :
    visit x t (fd :: fds) = ((handle t fd (x fd)).1, false) := by
  rw [visit, ← Prod.eta (handle t fd (x fd)), h]

theorem visit_conserves (h : t.Conserves) (hok : (visit x t fds).2) :
    (visit x t fds).1.Conserves := by
  induction fds generalizing t with
  | nil => exact h
  | cons fd fds ih =>
    cases hfd : (handle t fd (x fd)).2 with
    | true =>
      rw [visit_of_ok hfd] at hok ⊢
      exact ih (h.handle fd hfd) hok
    | false =>
      rw [visit_of_end hfd] at hok
      exact absurd hok Bool.false_ne_true

end Visit

/-- The bytes that a turn of the loop hands over. If the loop goes on, all that was read went out
again. If it ends in a failed copy to `ptmx`, that copy came out of a pipe without bytes for
`stdout`, or did not get as far as to write one in a wrong place. -/
def TurnOk (pumpStdin : Bool) (s : PumpState) (x : Fd → Polled) : Prop :=
  let p := handle s.tty .ptmx (x .ptmx)
  if (visit x s.tty (pollFds pumpStdin)).2 = true then
    ((x .ptmx).all → Whole s.tty.useSplice (x .ptmx).answers) ∧
      (pumpStdin → (x .stdin).all → Whole p.1.useSplice (x .stdin).answers)
  else
    pumpStdin → p.2 → (handle p.1 .signal (x .signal)).2 →
      (x .stdin).all → Untangled p.1 (x .stdin).answers

theorem delivers_iff {t t' : Tty} {ok : Bool} {read written : Flow → Bytes}
    (h : ∀ f, t.written f = t.read f) (hr : ∀ f, t'.read f = t.read f ++ read f)
    (hw : ∀ f, t'.written f = t.written f ++ written f) :
    PumpState.Delivers ⟨t', ok⟩ ↔
      ∀ f, written f <+: read f ∧ (ok → written f = read f) := by
  simp only [PumpState.Delivers, hr, hw, h, prefix_append_right_inj,
    append_cancel_left_eq]

theorem pipe_of_delivers {s : PumpState} (hw : s.waiting) (hc : s.tty.Conserves)
    (hd : s.Delivers) : s.tty.pipe = [] := by
  have hin := (hd .stdinToPtmx).2 hw
  have hout := (hd .ptmxToStdout).2 hw
  rw [Tty.Conserves, hin, hout] at hc
  exact length_eq_zero_iff.mp (by omega)

section Turn

variable {t : Tty} {x : Fd → Polled}

theorem delivers_ptmx (hp : t.pipe = []) (h : ∀ f, t.written f = t.read f) (ok : Bool) :
    PumpState.Delivers ⟨(handle t .ptmx (x .ptmx)).1, ok⟩ ↔
      (ok → (x .ptmx).delivered t = (x .ptmx).fetched t) := by
  obtain ⟨hr, hw⟩ := handle_flow t .ptmxToStdout (x .ptmx)
  have hpre : (x .ptmx).delivered t <+: (x .ptmx).fetched t := prefix_polled hp
  simp only [Flow.fd] at hr hw
  constructor
  · intro hd hok
    have hout := (hd .ptmxToStdout).2 hok
    rw [hr, hw] at hout
    simpa [Tty.fetch, Tty.deliver, h] using hout
  · intro hd f
    rw [hr, hw]
    cases f with
    | stdinToPtmx => simp [Tty.fetch, Tty.deliver, h]
    | ptmxToStdout => simpa [Tty.fetch, Tty.deliver, h, prefix_append_right_inj, hpre] using hd

theorem delivers_stdin (hp : t.pipe = []) (h : ∀ f, t.written f = t.read f) {p : Tty}
    (hpt : (handle t .ptmx (x .ptmx)).1 = p) (ok : Bool) :
    PumpState.Delivers ⟨(handle p .stdin (x .stdin)).1, ok⟩ ↔
      (x .stdin).delivered p <+: (x .stdin).fetched p ∧
        (ok → (x .ptmx).delivered t = (x .ptmx).fetched t ∧
          (x .stdin).delivered p = (x .stdin).fetched p) := by
  obtain ⟨hr, hw⟩ := handle_flow t .ptmxToStdout (x .ptmx)
  obtain ⟨hr', hw'⟩ := handle_flow p .stdinToPtmx (x .stdin)
  have hpre : (x .ptmx).delivered t <+: (x .ptmx).fetched t := prefix_polled hp
  simp only [Flow.fd, hpt] at hr hw hr' hw'
  have hread : ∀ f, (handle p .stdin (x .stdin)).1.read f = t.read f ++
      match f with
      | .stdinToPtmx => (x .stdin).fetched p
      | .ptmxToStdout => (x .ptmx).fetched t := by
    intro f
    rw [hr', Tty.fetch]
    dsimp only
    rw [hr, Tty.fetch]
    cases f <;> simp
  have hwritten : ∀ f, (handle p .stdin (x .stdin)).1.written f = t.written f ++
      match f with
      | .stdinToPtmx => (x .stdin).delivered p
      | .ptmxToStdout => (x .ptmx).delivered t := by
    intro f
    rw [hw', Tty.deliver]
    dsimp only
    rw [hw, Tty.deliver]
    cases f <;> simp
  rw [delivers_iff h hread hwritten]
  constructor
  · intro hd
    exact ⟨(hd .stdinToPtmx).1, fun hok => ⟨(hd .ptmxToStdout).2 hok, (hd .stdinToPtmx).2 hok⟩⟩
  · intro hd f
    cases f with
    | stdinToPtmx => exact ⟨hd.1, fun hok => (hd.2 hok).2⟩
    | ptmxToStdout => exact ⟨hpre, fun hok => (hd.2 hok).1⟩

theorem pipe_ptmx (hp : t.pipe = []) (hok : (handle t .ptmx (x .ptmx)).2)
    (hd : (x .ptmx).delivered t = (x .ptmx).fetched t) :
    (handle t .ptmx (x .ptmx)).1.pipe = [] := by
  have hc : ((x .ptmx).delivered t).length + (handle t .ptmx (x .ptmx)).1.pipe.length =
      t.pipe.length + ((x .ptmx).fetched t).length := handle_conserves (f := .ptmxToStdout) hok
  rw [hp, hd, length_nil] at hc
  exact length_eq_zero_iff.mp (by omega)

theorem untangled_of_pipe {a : Answers} (hp : t.pipe = []) : Untangled t a := by
  intro _ _ _ _
  rw [hp, nil_append]
  exact (prefix_accepted a _).trans <| take_prefix _ _

/-- With an empty pipe before the turn it is enough that the pumps are whole, also if it is the
last one. -/
theorem turnOk_of_whole {ok : Bool} (hp : t.pipe = [])
    (hptmx : (x .ptmx).all → Whole t.useSplice (x .ptmx).answers)
    (hstdin : (x .stdin).all → Whole true (x .stdin).answers) (pumpStdin : Bool) :
    TurnOk pumpStdin ⟨t, ok⟩ x := by
  rw [TurnOk]
  dsimp only
  split_ifs
  · exact ⟨hptmx, fun _ hall _ => hstdin hall rfl⟩
  · intro _ hok _ _
    have hd := (polled_eq_iff (f := .ptmxToStdout) hp hok).mpr hptmx
    exact untangled_of_pipe (pipe_ptmx hp hok hd)

theorem turn_delivers_iff (pumpStdin : Bool) (hp : t.pipe = [])
    (h : ∀ f, t.written f = t.read f) :
    PumpState.Delivers ⟨(visit x t (pollFds pumpStdin)).1, (visit x t (pollFds pumpStdin)).2⟩ ↔
      TurnOk pumpStdin ⟨t, true⟩ x := by
  have hptmx : (handle t .ptmx (x .ptmx)).2 →
      ((x .ptmx).delivered t = (x .ptmx).fetched t ↔
        ((x .ptmx).all → Whole t.useSplice (x .ptmx).answers)) :=
    polled_eq_iff (f := .ptmxToStdout) hp
  rw [TurnOk]
  dsimp only
  cases pumpStdin with
  | false =>
    have hfds : pollFds false = [.ptmx] := rfl
    cases hok : (handle t .ptmx (x .ptmx)).2 with
    | true =>
      rw [hfds, visit_of_ok hok, visit, if_pos rfl, delivers_ptmx hp h, hptmx hok]
      simp
    | false =>
      rw [hfds, visit_of_end hok, if_neg Bool.false_ne_true, delivers_ptmx hp h]
      simp
  | true =>
    have hfds : pollFds true = [.ptmx, .signal, .stdin] := rfl
    cases hok : (handle t .ptmx (x .ptmx)).2 with
    | false =>
      rw [hfds, visit_of_end hok, if_neg Bool.false_ne_true, delivers_ptmx hp h]
      simp
    | true =>
      rw [hfds, visit_of_ok hok]
      cases hsig : (handle (handle t .ptmx (x .ptmx)).1 .signal (x .signal)).2 with
      | false =>
        rw [visit_of_end hsig, if_neg Bool.false_ne_true, handle_signal, delivers_ptmx hp h]
        simp
      | true =>
        rw [visit_of_ok hsig, handle_signal]
        cases hin : (handle (handle t .ptmx (x .ptmx)).1 .stdin (x .stdin)).2 with
        | false =>
          rw [visit_of_end hin, if_neg Bool.false_ne_true, delivers_stdin hp h rfl,
            prefix_polled_iff (f := .stdinToPtmx) hin]
          simp
        | true =>
          rw [visit_of_ok hin, visit, if_pos rfl, delivers_stdin hp h rfl]
          simp only [true_imp_iff]
          rw [← hptmx hok]
          -- The pipe is empty for the second pump if the first one was whole.
          constructor
          · rintro ⟨-, hout, hstdin⟩
            have hp' := pipe_ptmx hp hok hout
            exact ⟨hout, (polled_eq_iff (f := .stdinToPtmx) hp' hin).mp hstdin⟩
          · rintro ⟨hout, hwhole⟩
            have hp' := pipe_ptmx hp hok hout
            have hstdin := (polled_eq_iff (f := .stdinToPtmx) hp' hin).mpr hwhole
            exact ⟨hstdin ▸ prefix_rfl, hout, hstdin⟩

end Turn

theorem pumpStep_eq_some {pumpStdin : Bool} {s s' : PumpState} {x : Fd → Polled}
    (h : pumpStep pumpStdin s x = some s') :
    s.waiting ∧ s' = ⟨(visit x s.tty (pollFds pumpStdin)).1,
      (visit x s.tty (pollFds pumpStdin)).2⟩ := by
  rw [pumpStep] at h
  by_cases hw : s.waiting
  · rw [if_pos hw] at h
    exact ⟨hw, (Option.some.inj h).symm⟩
  · rw [if_neg hw] at h
    cases h

/-- In any run of `pump_tty_impl` the bytes come out on the right side, in order, and all of them
before the loop waits again, exactly if every turn hands over all it reads. -/
theorem pumpTtyImpl_delivers_iff (pumpStdin useSplice : Bool) (turns : List (Fd → Polled)) :
    Throughout (pumpStep pumpStdin) PumpState.Delivers (.start useSplice) turns ↔
      Along (pumpStep pumpStdin) (TurnOk pumpStdin) (.start useSplice) turns := by
  apply throughout_iff_along (I := fun s => s.waiting → s.tty.Conserves)
  · intro s x s' hI _ hstep hw'
    obtain ⟨hw, rfl⟩ := pumpStep_eq_some hstep
    exact visit_conserves (hI hw) hw'
  · intro s x s' hI hd hstep
    obtain ⟨hw, rfl⟩ := pumpStep_eq_some hstep
    have hp := pipe_of_delivers hw (hI hw) hd
    rw [turn_delivers_iff pumpStdin hp fun f => (hd f).2 hw]
    rfl
  · intro _
    rfl
  · intro f
    exact ⟨prefix_rfl, fun _ => rfl⟩

def idle : Polled := ⟨some ⟨false, false, false, false⟩, ⟨[], true, some 0, false, none⟩, true⟩

/-- Something can be read, and the second `splice` moves at most `n` bytes of it. -/
def readable (input : Bytes) (n : ℕ) : Polled :=
  ⟨some ⟨true, false, false, false⟩, ⟨input, true, some n, false, none⟩, true⟩

/-- The shell prints two bytes and one of them goes out. -/
def shortTurn : Fd → Polled
  | .ptmx => readable [104, 105] 1
  | _ => idle

def keyTurn : Fd → Polled
  | .stdin => readable [113] 1
  | _ => idle

/-- One byte stays in the pipe while the loop waits. -/
theorem pumpTtyImpl_short_splice :
    ¬Throughout (pumpStep true) PumpState.Delivers (.start true) [shortTurn] := by
  intro h
  have hd := h.2 _ rfl .ptmxToStdout
  exact absurd (hd.2 rfl) (by decide)

-- The byte that stayed is written to the shell, in place of the key.
example : ((runAll (pumpStep true) (.start true) [shortTurn, keyTurn]).map
    fun s => s.tty.written .stdinToPtmx) = some [105] := by
  decide

end Magisk.Su
