import Magisk.Loops

namespace Magisk

open List Option

/-- `notify_one` wakes one of those that block, and no one if there are none. -/
def notifyOne {α : Type} (wake : α → Option α) (l : List α) : Option ℕ → Option (List α)
  | none => if l.all fun a => (wake a).isNone then some l else none
  | some i => do
    let a ← l[i]?
    let b ← wake a
    return l.set i b

section Notify

variable {α : Type} {wake : α → Option α} {l l' : List α} {notified : Option ℕ}

theorem notifyOne_eq_some (h : notifyOne wake l notified = some l') :
    l' = l ∧ (∀ a ∈ l, wake a = none) ∨
      ∃ i a b, l[i]? = some a ∧ wake a = some b ∧ l' = l.set i b := by
  cases notified with
  | none =>
    simp only [notifyOne, ite_none_right_eq_some, some.injEq, List.all_eq_true,
      isNone_iff_eq_none] at h
    exact Or.inl ⟨h.2.symm, h.1⟩
  | some i =>
    simp only [notifyOne, bind_eq_bind, bind_eq_some_iff, Option.pure_def,
      some.injEq] at h
    obtain ⟨a, ha, b, hb, rfl⟩ := h
    exact Or.inr ⟨i, a, b, ha, hb, rfl⟩

theorem countP_set_add (p : α → Bool) {i : ℕ} {a : α} (h : l[i]? = some a) (b : α) :
    (l.set i b).countP p + (p a).toNat = l.countP p + (p b).toNat := by
  obtain ⟨hi, rfl⟩ := List.getElem?_eq_some_iff.mp h
  rw [countP_set hi]
  cases hp : p l[i] with
  | false => cases p b <;> simp
  | true =>
    have hpos : 0 < l.countP p := countP_pos_iff.mpr ⟨_, getElem_mem hi, hp⟩
    cases p b <;> simp <;> omega

theorem notifyOne_countP {p : α → Bool} (hp : ∀ a b, wake a = some b → p b = p a)
    (h : notifyOne wake l notified = some l') : l'.countP p = l.countP p := by
  rcases notifyOne_eq_some h with ⟨rfl, -⟩ | ⟨i, a, b, ha, hb, rfl⟩
  · rfl
  · have hc := countP_set_add p ha b
    rw [hp a b hb] at hc
    omega

end Notify

def corePoolSize : ℕ := 3

/-- Where a thread of the pool stands. A thread that has been woken or has timed out
still has to take the lock again. -/
inductive Thread
  | ready (isCore : Bool)
  | waiting (isCore : Bool)
  | woken (isCore : Bool)
  | timedOut
  | running (isCore : Bool) (task : ℕ)
  | exited
deriving DecidableEq, Repr

/-- Where a caller of `exec_task` stands. -/
inductive Caller
  | ready (task : ℕ)
  | waiting (task : ℕ)
  | returned
deriving DecidableEq, Repr

def Thread.wake : Thread → Option Thread
  | .waiting isCore => some (.woken isCore)
  | _ => none

def Thread.isIdle : Thread → Bool
  | .waiting _ | .woken _ | .timedOut => true
  | _ => false

/-- The thread takes a task at its next step. -/
def Thread.takesNext : Thread → Bool
  | .ready _ | .woken _ => true
  | _ => false

def Caller.holds (task : ℕ) : Caller → Bool
  | .ready t | .waiting t => t = task
  | .returned => false

def Caller.wake : Caller → Option Caller
  | .waiting task => some (.ready task)
  | _ => none

/-- The pool with its threads and callers. Closures are numbered in the order of their calls. -/
structure ThreadPool where
  idleThreads : ℕ := 0
  totalThreads : ℕ := 0
  task : Option ℕ := none
  threads : List Thread := []
  callers : List Caller := []
  submitted : ℕ := 0
  ran : List ℕ := []
deriving DecidableEq, Repr

inductive Event
  | execTask
  /-- a caller takes the lock; `notify_one` reaches the thread `notified` -/
  | callerLocks (i : ℕ) (notified : Option ℕ)
  | callerWakes (i : ℕ)
  /-- a thread takes the lock; `notify_one` reaches the caller `notified` -/
  | threadLocks (i : ℕ) (notified : Option ℕ)
  | threadWakes (i : ℕ)
  | timesOut (i : ℕ)
  | finishes (i : ℕ)
deriving DecidableEq, Repr

namespace ThreadPool

variable (s : ThreadPool)

def setThread (i : ℕ) (t : Thread) : ThreadPool := { s with threads := s.threads.set i t }

def setCaller (i : ℕ) (c : Caller) : ThreadPool := { s with callers := s.callers.set i c }

/-- The end of the locked section of `pool_loop`. -/
def take (i : ℕ) (isCore : Bool) (notified : Option ℕ) : Option ThreadPool := do
  let callers ← notifyOne Caller.wake s.callers notified
  let s := { s with callers, idleThreads := s.idleThreads - 1 }
  match s.task with
  | some task =>
    return { s.setThread i (.running isCore task) with task := none, ran := s.ran ++ [task] }
  | none => return s.setThread i (.ready isCore)

def poolLoop (i : ℕ) (notified : Option ℕ) : Option ThreadPool :=
  match s.threads[i]? with
  | some (.ready isCore) =>
    let s := { s with idleThreads := s.idleThreads + 1 }
    if s.task.isNone then some (s.setThread i (.waiting isCore)) else s.take i isCore notified
  | some (.woken isCore) => s.take i isCore notified
  | some .timedOut =>
    some { s.setThread i .exited with
      idleThreads := s.idleThreads - 1
      totalThreads := s.totalThreads - 1 }
  | _ => none

/-- The end of `exec_task_impl`, once the slot is empty. -/
def store (i task : ℕ) (notified : Option ℕ) : Option ThreadPool :=
  let s := { s.setCaller i .returned with task := some task }
  if s.idleThreads = 0 then
    let isCore := decide (s.totalThreads + 1 ≤ corePoolSize)
    some { s with
      totalThreads := s.totalThreads + 1
      threads := s.threads ++ [.ready isCore] }
  else do
    let threads ← notifyOne Thread.wake s.threads notified
    return { s with threads }

def execTaskImpl (i : ℕ) (notified : Option ℕ) : Option ThreadPool :=
  match s.callers[i]? with
  | some (.ready task) =>
    if s.task.isSome then some (s.setCaller i (.waiting task)) else s.store i task notified
  | _ => none

def step : Event → Option ThreadPool
  | .execTask => some { s with
      callers := s.callers ++ [.ready s.submitted]
      submitted := s.submitted + 1 }
  | .callerLocks i notified => s.execTaskImpl i notified
  | .callerWakes i => do
    let c ← s.callers[i]?
    let c ← c.wake
    return s.setCaller i c
  | .threadLocks i notified => s.poolLoop i notified
  | .threadWakes i => do
    let t ← s.threads[i]?
    let t ← t.wake
    return s.setThread i t
  -- The core threads wait without a timeout.
  | .timesOut i =>
    match s.threads[i]? with
    | some (.waiting false) => some (s.setThread i .timedOut)
    | _ => none
  | .finishes i =>
    match s.threads[i]? with
    | some (.running isCore _) => some (s.setThread i (.ready isCore))
    | _ => none

/-- `idle_threads` counts the threads in a wait, also when the wait is already over. -/
def Counted : Prop := s.idleThreads = s.threads.countP Thread.isIdle

/-- In how many places a closure is: with its caller, in the slot, or run. -/
def places (x : ℕ) : ℕ :=
  s.callers.countP (Caller.holds x) + (if s.task = some x then 1 else 0) + s.ran.count x

/-- Every closure that has been submitted is in one place, and no other is in any. -/
def Conserved : Prop := ∀ x, s.places x = if x < s.submitted then 1 else 0

theorem wake_isIdle (t u : Thread) (h : t.wake = some u) : u.isIdle = t.isIdle := by
  cases t <;> simp [Thread.wake] at h
  rw [← h]
  rfl

theorem wake_holds (x : ℕ) (c d : Caller) (h : c.wake = some d) :
    Caller.holds x d = Caller.holds x c := by
  cases c <;> simp [Caller.wake] at h
  rw [← h]
  rfl

variable {s} {s' : ThreadPool} {i : ℕ} {notified : Option ℕ}

variable {t : Thread} {isCore : Bool} {task : ℕ} {e : Event}

theorem counted_setThread (ht : s.threads[i]? = some t) (u : Thread)
    (h : s.idleThreads + (t.isIdle).toNat = s.threads.countP Thread.isIdle + (u.isIdle).toNat) :
    (s.setThread i u).Counted := by
  have hc := countP_set_add Thread.isIdle ht u
  unfold Counted setThread
  simp only
  omega

theorem counted_take (ht : s.threads[i]? = some t)
    (hs : s.idleThreads + (t.isIdle).toNat = s.threads.countP Thread.isIdle + 1)
    (h : s.take i isCore notified = some s') : s'.Counted := by
  simp only [take, bind_eq_bind, bind_eq_some_iff] at h
  obtain ⟨callers, -, h⟩ := h
  have hpos : t.isIdle → 0 < s.threads.countP Thread.isIdle :=
    fun hidle => countP_pos_iff.mpr ⟨t, mem_of_getElem? ht, hidle⟩
  have hle : s.idleThreads - 1 + t.isIdle.toNat = s.threads.countP Thread.isIdle := by
    cases hidle : t.isIdle with
    | false => simp [hidle] at hs ⊢; omega
    | true =>
      have := hpos hidle
      simp [hidle] at hs ⊢
      omega
  split at h
  all_goals
    rw [Option.pure_def, some.injEq] at h
    rw [← h]
    exact counted_setThread (s := { s with callers, idleThreads := s.idleThreads - 1 }) ht _ hle

theorem counted_poolLoop (hs : s.Counted) (h : s.poolLoop i notified = some s') : s'.Counted := by
  unfold Counted at hs
  unfold poolLoop at h
  split at h
  · next isCore ht =>
    dsimp only at h
    split_ifs at h
    · rw [← some.inj h]
      exact counted_setThread (s := { s with idleThreads := s.idleThreads + 1 }) ht _
        (by simp [Thread.isIdle, hs])
    · exact counted_take (s := { s with idleThreads := s.idleThreads + 1 }) ht
        (by simp [Thread.isIdle, hs]) h
  · next isCore ht =>
    exact counted_take ht (by simp [Thread.isIdle, hs]) h
  · next ht =>
    have hpos : 0 < s.threads.countP Thread.isIdle :=
      countP_pos_iff.mpr ⟨_, mem_of_getElem? ht, rfl⟩
    rw [← some.inj h]
    exact counted_setThread (s := { s with
      idleThreads := s.idleThreads - 1
      totalThreads := s.totalThreads - 1 }) ht _ (by simp [Thread.isIdle]; omega)
  · simp at h

theorem store_eq_some (h : s.store i task notified = some s') :
    s.idleThreads = 0 ∧ s' = { s.setCaller i .returned with
        task := some task
        totalThreads := s.totalThreads + 1
        threads := s.threads ++ [.ready (decide (s.totalThreads + 1 ≤ corePoolSize))] } ∨
    s.idleThreads ≠ 0 ∧ ∃ threads, notifyOne Thread.wake s.threads notified = some threads ∧
      s' = { s.setCaller i .returned with task := some task, threads } := by
  simp only [store] at h
  split_ifs at h with hidle
  · exact Or.inl ⟨hidle, (some.inj h).symm⟩
  · simp only [bind_eq_bind, bind_eq_some_iff, Option.pure_def,
      some.injEq] at h
    obtain ⟨threads, hn, rfl⟩ := h
    exact Or.inr ⟨hidle, threads, hn, rfl⟩

theorem counted_store (hs : s.Counted) (h : s.store i task notified = some s') : s'.Counted := by
  unfold Counted at hs ⊢
  rcases store_eq_some h with ⟨-, rfl⟩ | ⟨-, threads, hn, rfl⟩
  · simp [setCaller, hs, Thread.isIdle]
  · simp only [setCaller, hs, notifyOne_countP wake_isIdle hn]

theorem counted_step (hs : s.Counted) (h : s.step e = some s') : s'.Counted := by
  cases e with
  | execTask =>
    rw [← some.inj h]
    exact hs
  | callerLocks i notified =>
    simp only [step, execTaskImpl] at h
    split at h
    · split_ifs at h
      · rw [← some.inj h]
        exact hs
      · exact counted_store hs h
    · simp at h
  | callerWakes i =>
    simp only [step, bind_eq_bind, bind_eq_some_iff, Option.pure_def,
      some.injEq] at h
    obtain ⟨c, -, d, -, rfl⟩ := h
    exact hs
  | threadLocks i notified => exact counted_poolLoop hs h
  | threadWakes i =>
    simp only [step, bind_eq_bind, bind_eq_some_iff, Option.pure_def,
      some.injEq] at h
    obtain ⟨t, ht, u, hu, rfl⟩ := h
    exact counted_setThread ht u (by rw [hs, wake_isIdle t u hu])
  | timesOut i =>
    simp only [step] at h
    split at h
    · next ht =>
      rw [← some.inj h]
      exact counted_setThread ht _ (by rw [hs]; rfl)
    · simp at h
  | finishes i =>
    simp only [step] at h
    split at h
    · next ht =>
      rw [← some.inj h]
      exact counted_setThread ht _ (by rw [hs]; rfl)
    · simp at h

theorem conserved_of_eq (hs : s.Conserved) (hp : ∀ x, s'.places x = s.places x)
    (hn : s'.submitted = s.submitted) : s'.Conserved := by
  intro x
  rw [hp x, hs x, hn]

theorem places_setCaller {c d : Caller} (hc : s.callers[i]? = some c)
    (hd : ∀ x, Caller.holds x d = Caller.holds x c) (x : ℕ) :
    (s.setCaller i d).places x = s.places x := by
  have h := countP_set_add (Caller.holds x) hc d
  rw [hd x] at h
  unfold places setCaller
  simp only
  omega

theorem conserved_take (hs : s.Conserved) (h : s.take i isCore notified = some s') :
    s'.Conserved := by
  simp only [take, bind_eq_bind, bind_eq_some_iff] at h
  obtain ⟨callers, hn, h⟩ := h
  have hc := fun x => notifyOne_countP (wake_holds x) hn
  cases htask : s.task with
  | none =>
    simp only [htask, Option.pure_def, some.injEq] at h
    rw [← h]
    exact conserved_of_eq hs (fun x => by simp [places, setThread, hc, htask]) rfl
  | some task =>
    simp only [htask, Option.pure_def, some.injEq] at h
    rw [← h]
    refine conserved_of_eq hs (fun x => ?_) rfl
    simp only [places, setThread, hc, htask, count_append, count_singleton,
      reduceCtorEq, if_false, some.injEq, beq_iff_eq]
    omega

theorem conserved_store (hs : s.Conserved) (hc : s.callers[i]? = some (.ready task))
    (hnone : s.task = none) (h : s.store i task notified = some s') : s'.Conserved := by
  have hp : ∀ x, ({ s.setCaller i .returned with task := some task } : ThreadPool).places x =
      s.places x := by
    intro x
    have hcount := countP_set_add (Caller.holds x) hc .returned
    unfold places setCaller
    simp only [hnone, reduceCtorEq, if_false, some.injEq]
    by_cases hx : task = x
    · simp [Caller.holds, hx] at hcount ⊢
      omega
    · simp [Caller.holds, hx] at hcount ⊢
      omega
  rcases store_eq_some h with ⟨-, rfl⟩ | ⟨-, threads, -, rfl⟩
  · exact conserved_of_eq hs hp rfl
  · exact conserved_of_eq hs hp rfl

theorem conserved_step (hs : s.Conserved) (h : s.step e = some s') : s'.Conserved := by
  cases e with
  | execTask =>
    rw [← some.inj h]
    intro x
    have hx := hs x
    unfold places at hx ⊢
    simp only [countP_append, countP_singleton, Caller.holds, decide_eq_true_eq]
    split_ifs at hx ⊢ <;> omega
  | callerLocks i notified =>
    simp only [step, execTaskImpl] at h
    split at h
    · next task hc =>
      split_ifs at h with hsome
      · rw [← some.inj h]
        exact conserved_of_eq hs (places_setCaller hc fun x => rfl) rfl
      · exact conserved_store hs hc (by simpa using hsome) h
    · simp at h
  | callerWakes i =>
    simp only [step, bind_eq_bind, bind_eq_some_iff, Option.pure_def,
      some.injEq] at h
    obtain ⟨c, hc, d, hd, rfl⟩ := h
    exact conserved_of_eq hs (places_setCaller hc fun x => wake_holds x c d hd) rfl
  | threadLocks i notified =>
    simp only [step, poolLoop] at h
    split at h
    · split_ifs at h
      · rw [← some.inj h]
        exact hs
      · next isCore _ _ =>
        exact conserved_take (s := { s with idleThreads := s.idleThreads + 1 }) hs h
    · exact conserved_take hs h
    · rw [← some.inj h]
      exact hs
    · simp at h
  | threadWakes i =>
    simp only [step, bind_eq_bind, bind_eq_some_iff, Option.pure_def,
      some.injEq] at h
    obtain ⟨t, -, u, -, rfl⟩ := h
    exact hs
  | timesOut i =>
    simp only [step] at h
    split at h
    · rw [← some.inj h]
      exact hs
    · simp at h
  | finishes i =>
    simp only [step] at h
    split at h
    · rw [← some.inj h]
      exact hs
    · simp at h

theorem Conserved.ran_nodup (hs : s.Conserved) : s.ran.Nodup := by
  rw [nodup_iff_count_le_one]
  intro x
  have hx := hs x
  unfold places at hx
  split_ifs at hx <;> omega

/-- A closure in the slot will be taken by some thread at its next step. -/
def HandsOver (s : ThreadPool) : Prop :=
  s.task ≠ none → ∃ t ∈ s.threads, t.takesNext

/-- A thread has timed out, and all the others run a task or have exited. -/
def Stranded (s : ThreadPool) : Prop :=
  .timedOut ∈ s.threads ∧ ∀ t ∈ s.threads, t.takesNext = false ∧ t.wake = none

/-- The event is not a closure stored while the pool is stranded. -/
def Safe (s : ThreadPool) : Event → Prop
  | .callerLocks i _ =>
    ∀ task, s.callers[i]? = some (.ready task) → s.task = none → ¬ Stranded s
  | _ => True

theorem handsOver_of_threads (hs : s.HandsOver) (htask : s'.task = s.task)
    (ht : ∀ t ∈ s.threads, t.takesNext → t ∈ s'.threads) : s'.HandsOver := by
  intro hsome
  rw [htask] at hsome
  obtain ⟨t, hmem, htakes⟩ := hs hsome
  exact ⟨t, ht t hmem htakes, htakes⟩

theorem mem_set_of_ne {α : Type} {l : List α} {a b c : α} (h : l[i]? = some a) (hb : b ∈ l)
    (hne : b ≠ a) : b ∈ l.set i c := by
  obtain ⟨j, hj⟩ := mem_iff_getElem?.mp hb
  refine mem_iff_getElem?.mpr ⟨j, ?_⟩
  have hij : i ≠ j := by
    rintro rfl
    exact hne (some.inj (hj.symm.trans h))
  rw [getElem?_set_ne hij, hj]

theorem handsOver_setThread (hs : s.HandsOver) (ht : s.threads[i]? = some t)
    (hn : t.takesNext = false) (u : Thread) : (s.setThread i u).HandsOver := by
  refine handsOver_of_threads hs rfl fun v hv htakes => mem_set_of_ne ht hv ?_
  rintro rfl
  rw [hn] at htakes
  exact Bool.noConfusion htakes

theorem take_task (h : s.take i isCore notified = some s') : s'.task = none := by
  simp only [take, bind_eq_bind, bind_eq_some_iff] at h
  obtain ⟨callers, -, h⟩ := h
  split at h
  all_goals
    rw [Option.pure_def, some.injEq] at h
    rw [← h]
  assumption

theorem handsOver_store_iff (hs : s.Counted) (h : s.store i task notified = some s') :
    s'.HandsOver ↔ ¬ s.Stranded := by
  rcases store_eq_some h with ⟨hidle, rfl⟩ | ⟨hidle, threads, hn, rfl⟩
  · have hno : ∀ t ∈ s.threads, t.isIdle = false := by
      rw [hs, countP_eq_zero] at hidle
      simpa using hidle
    apply iff_of_true
    · exact fun _ => ⟨_, mem_append_right _ (mem_singleton_self _), rfl⟩
    · rintro ⟨hmem, -⟩
      exact Bool.noConfusion (hno _ hmem)
  · have hpos : 0 < s.threads.countP Thread.isIdle := by
      rw [← hs]
      omega
    obtain ⟨t, ht, htidle⟩ := countP_pos_iff.mp hpos
    simp only [HandsOver, ne_eq, reduceCtorEq, not_false_eq_true, true_imp_iff]
    rcases notifyOne_eq_some hn with ⟨rfl, hnone⟩ | ⟨j, a, b, ha, hb, rfl⟩
    · -- Nobody blocks, so the notification is lost.
      constructor
      · rintro ⟨u, hu, htakes⟩ ⟨-, hall⟩
        rw [(hall u hu).1] at htakes
        exact Bool.noConfusion htakes
      · intro hstranded
        by_contra hno
        simp only [not_exists, not_and, Bool.not_eq_true] at hno
        refine hstranded ⟨?_, fun u hu => ⟨hno u hu, hnone u hu⟩⟩
        have h1 := hno t ht
        have h2 := hnone t ht
        cases t <;> simp [Thread.isIdle, Thread.takesNext, Thread.wake] at htidle h1 h2
        exact ht
    · have hi : j < s.threads.length := (List.getElem?_eq_some_iff.mp ha).1
      apply iff_of_true
      · refine ⟨b, mem_set hi b, ?_⟩
        cases a <;> simp [Thread.wake] at hb
        rw [← hb]
        rfl
      · rintro ⟨-, hall⟩
        have hblocked := (hall a (mem_of_getElem? ha)).2
        rw [hblocked] at hb
        exact absurd hb (by simp)

theorem handsOver_poolLoop (hs : s.HandsOver) (h : s.poolLoop i notified = some s') :
    s'.HandsOver := by
  unfold poolLoop at h
  split at h
  · dsimp only at h
    split_ifs at h with hnone
    · rw [← some.inj h]
      exact fun hsome => absurd (isNone_iff_eq_none.mp hnone) hsome
    · exact fun hsome => absurd (take_task h) hsome
  · exact fun hsome => absurd (take_task h) hsome
  · next ht =>
    rw [← some.inj h]
    exact handsOver_setThread hs ht rfl _
  · simp at h

theorem handsOver_step (hc : s.Counted) (hs : s.HandsOver)
    (h : s.step e = some s') : s'.HandsOver ↔ Safe s e := by
  cases e with
  | execTask =>
    rw [← some.inj h]
    exact iff_of_true hs trivial
  | callerLocks i notified =>
    simp only [step, execTaskImpl] at h
    split at h
    · next task hcaller =>
      simp only [Safe, hcaller, some.injEq, Caller.ready.injEq, forall_eq']
      split_ifs at h with hsome
      · rw [← some.inj h]
        refine iff_of_true hs fun hnone => ?_
        rw [hnone] at hsome
        exact Bool.noConfusion hsome
      · have hnone : s.task = none := by simpa using hsome
        simp only [hnone, true_imp_iff]
        exact handsOver_store_iff hc h
    · simp at h
  | callerWakes i =>
    simp only [step, bind_eq_bind, bind_eq_some_iff, Option.pure_def,
      some.injEq] at h
    obtain ⟨c, -, d, -, rfl⟩ := h
    exact iff_of_true hs trivial
  | threadLocks i notified => exact iff_of_true (handsOver_poolLoop hs h) trivial
  | threadWakes i =>
    simp only [step, bind_eq_bind, bind_eq_some_iff, Option.pure_def,
      some.injEq] at h
    obtain ⟨t, ht, u, hu, rfl⟩ := h
    refine iff_of_true (handsOver_setThread hs ht ?_ u) trivial
    cases t <;> simp [Thread.wake] at hu
    rfl
  | timesOut i =>
    simp only [step] at h
    split at h
    · next ht =>
      rw [← some.inj h]
      exact iff_of_true (handsOver_setThread hs ht rfl _) trivial
    · simp at h
  | finishes i =>
    simp only [step] at h
    split at h
    · next ht =>
      rw [← some.inj h]
      exact iff_of_true (handsOver_setThread hs ht rfl _) trivial
    · simp at h

/-- In every run, a closure in the slot always has a thread that takes it next, and no closure runs
twice, exactly if no closure is stored while the pool is stranded. -/
theorem handsOver_iff (events : List Event) :
    Throughout step (fun s => s.HandsOver ∧ s.ran.Nodup) {} events ↔ Along step Safe {} events := by
  have hcounted : Counted {} := rfl
  have hconserved : Conserved {} := fun x => rfl
  have honce : Throughout step (fun s => s.ran.Nodup) {} events :=
    (throughout_of_invariant (fun _ _ _ hs h => conserved_step hs h) hconserved events).mono
      fun _ hs => hs.ran_nodup
  rw [throughout_and, and_iff_left honce]
  exact throughout_iff_along (fun _ _ _ hs _ h => counted_step hs h)
    (fun _ _ _ hc hs h => handsOver_step hc hs h) hcounted (fun h => absurd rfl h) events

/-- Four closures keep four threads busy, one of them no core thread. That one finishes, waits and
times out, and before it leaves a fifth closure is stored. -/
def strandingRun : List Event :=
  [.execTask, .callerLocks 0 none, .threadLocks 0 none,
   .execTask, .callerLocks 1 none, .threadLocks 1 none,
   .execTask, .callerLocks 2 none, .threadLocks 2 none,
   .execTask, .callerLocks 3 none, .threadLocks 3 none,
   .finishes 3, .threadLocks 3 none, .timesOut 3, .execTask, .callerLocks 4 none]

/-- The fifth closure stays in the slot with no thread to take it. -/
theorem handsOver_stranded :
    ¬ Throughout step (fun s => s.HandsOver ∧ s.ran.Nodup) {} strandingRun := by
  intro h
  have hr : ∃ s, runAll step {} strandingRun = some s ∧ s.task = some 4 ∧
      ∀ t ∈ s.threads, t.takesNext = false := ⟨_, rfl, by decide, by decide⟩
  obtain ⟨s, hr, htask, hno⟩ := hr
  obtain ⟨t, ht, htakes⟩ := (h.runAll hr).1 (by simp [htask])
  rw [hno t ht] at htakes
  exact Bool.noConfusion htakes

end ThreadPool

end Magisk
