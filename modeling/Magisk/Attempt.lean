import Mathlib

namespace Magisk

inductive Outcome where
  | clean
  /-- `Ok`, after an error that was logged -/
  | logged
  | failed
  deriving DecidableEq, Repr

/-- How a call ends when an error was logged before its last part. -/
def Outcome.afterLogged : Outcome → Outcome
  | .failed => .failed
  | _ => .logged

def Attempt (σ : Type) := σ → σ × Outcome

namespace Attempt

variable {σ β : Type}

def skip : Attempt σ := fun s => (s, .clean)

def fail : Attempt σ := fun s => (s, .failed)

/-- An operation that changes nothing when it fails. -/
def perform (f : σ → Option σ) : Attempt σ := fun s =>
  match f s with
  | some s' => (s', .clean)
  | none => (s, .failed)

/-- A call that depends on the state it starts in. -/
def reading (f : σ → Attempt σ) : Attempt σ := fun s => f s s

/-- The `?` operator behind the first call. -/
def andThen (m k : Attempt σ) : Attempt σ := fun s =>
  match m s with
  | (s', .clean) => k s'
  | (s', .logged) => ((k s').1, (k s').2.afterLogged)
  | (s', .failed) => (s', .failed)

/-- `log_ok` -/
def logOk (m : Attempt σ) : Attempt σ := fun s =>
  match m s with
  | (s', .failed) => (s', .logged)
  | r => r

theorem andThen_logOk_fst (m k : Attempt σ) (s : σ) :
    (andThen (logOk m) k s).1 = (k (m s).1).1 := by
  rw [andThen, logOk]
  cases m s with
  | mk t o =>
    cases o with
    | clean => rfl
    | logged => rfl
    | failed => rfl

/-- The call ends in the state, and nothing has failed on the way. -/
def Runs (m : Attempt σ) (s s' : σ) : Prop := m s = (s', .clean)

variable {m : Attempt σ} {s s' : σ} {f : σ → β}

theorem runs_of_clean (h : (m s).2 = .clean) : Runs m s (m s).1 :=
  Prod.ext rfl h

theorem runs_skip : Runs skip s s' ↔ s' = s := by
  rw [Runs, skip, Prod.mk.injEq, and_iff_left rfl]
  exact eq_comm

theorem not_runs_fail : ¬ Runs fail s s' := by
  intro h
  cases h

theorem runs_perform {f : σ → Option σ} : Runs (perform f) s s' ↔ f s = some s' := by
  rw [Runs, perform]
  cases f s with
  | none => exact iff_of_false nofun nofun
  | some t => simp

theorem runs_reading {f : σ → Attempt σ} : Runs (reading f) s s' ↔ Runs (f s) s s' := Iff.rfl

theorem runs_andThen {m k : Attempt σ} :
    Runs (andThen m k) s s' ↔ ∃ t, Runs m s t ∧ Runs k t s' := by
  constructor
  · intro h
    rw [Runs, andThen] at h
    cases hm : m s with
    | mk t o =>
      rw [hm] at h
      cases o with
      | clean => exact ⟨t, hm, h⟩
      | logged =>
        -- what follows does not make the run clean again
        have ho := congrArg Prod.snd h
        dsimp only at ho
        cases hk : (k t).2 <;> rw [hk] at ho <;> cases ho
      | failed => cases h
  · rintro ⟨t, hm, hk⟩
    rw [Runs, andThen, hm]
    exact hk

theorem runs_logOk : Runs (logOk m) s s' ↔ Runs m s s' := by
  rw [Runs, Runs, logOk]
  cases m s with
  | mk t o =>
    cases o with
    | clean => rfl
    | logged => rfl
    | failed => exact iff_of_false nofun nofun

/-- The call does not change this part of the state, however it ends. -/
def Leaves (f : σ → β) (m : Attempt σ) : Prop := ∀ s, f (m s).1 = f s

theorem leaves_skip (f : σ → β) : Leaves f skip := fun _ => rfl

theorem leaves_fail (f : σ → β) : Leaves f fail := fun _ => rfl

theorem leaves_perform {g : σ → Option σ} (h : ∀ s s', g s = some s' → f s' = f s) :
    Leaves f (perform g) := by
  intro s
  rw [perform]
  cases hg : g s with
  | none => rfl
  | some s' => exact h s s' hg

theorem leaves_reading {g : σ → Attempt σ} (h : ∀ s, Leaves f (g s)) :
    Leaves f (reading g) := fun s => h s s

theorem Leaves.andThen {m k : Attempt σ} (hm : Leaves f m) (hk : Leaves f k) :
    Leaves f (andThen m k) := by
  intro s
  have hs := hm s
  rw [Attempt.andThen]
  cases hr : m s with
  | mk t o =>
    rw [hr] at hs
    cases o with
    | clean => exact (hk t).trans hs
    | logged => exact (hk t).trans hs
    | failed => exact hs

theorem Leaves.logOk (h : Leaves f m) : Leaves f (logOk m) := by
  intro s
  have hs := h s
  rw [Attempt.logOk]
  cases hr : m s with
  | mk t o =>
    rw [hr] at hs
    cases o with
    | clean => exact hs
    | logged => exact hs
    | failed => exact hs

end Attempt

end Magisk
