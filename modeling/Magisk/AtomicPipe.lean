import Magisk.Bytes

namespace Magisk

/-- What each writer still has to write, the rest of a write that is in parts, and what has come
through the pipe. -/
structure PipeState (ι α : Type*) where
  queue : ι → List α
  rest : ι → Bytes
  stream : Bytes

section Pipe

variable {ι α : Type*} [DecidableEq ι] (bytes : α → Bytes) (limit : ℕ)

inductive PipeStep : PipeState ι α → PipeState ι α → Prop
  | whole (s : PipeState ι α) (i : ι) (a : α) (as : List α) (hq : s.queue i = a :: as)
      (hrest : s.rest i = []) (hle : (bytes a).length ≤ limit) :
      PipeStep s ⟨Function.update s.queue i as, s.rest, s.stream ++ bytes a⟩
  | start (s : PipeState ι α) (i : ι) (a : α) (as : List α) (hq : s.queue i = a :: as)
      (hrest : s.rest i = []) (hlt : limit < (bytes a).length) :
      PipeStep s ⟨Function.update s.queue i as, Function.update s.rest i (bytes a), s.stream⟩
  | part (s : PipeState ι α) (i : ι) (n : ℕ) (hrest : s.rest i ≠ []) :
      PipeStep s ⟨s.queue, Function.update s.rest i ((s.rest i).drop n),
        s.stream ++ (s.rest i).take n⟩

/-- Nothing is written yet. -/
def PipeState.start (queue : ι → List α) : PipeState ι α := ⟨queue, fun _ => [], []⟩

/-- The writes that have come through, in order, each with its writer. -/
structure Sent (queue : ι → List α) (s : PipeState ι α) (sent : List (ι × α)) : Prop where
  stream : s.stream = sent.flatMap fun w => bytes w.2
  rest : ∀ i, s.rest i = []
  queue : ∀ i, (sent.filter (·.1 = i)).map Prod.snd ++ s.queue i = queue i

variable {bytes limit}

theorem Sent.step {queue : ι → List α} (hle : ∀ i, ∀ a ∈ queue i, (bytes a).length ≤ limit)
    {s s' : PipeState ι α} {sent : List (ι × α)} (h : Sent bytes queue s sent)
    (hs : PipeStep bytes limit s s') : ∃ sent', Sent bytes queue s' sent' := by
  cases hs with
  | whole i a as hq hrest ha =>
    refine ⟨sent ++ [(i, a)], ?_, h.rest, fun j => ?_⟩
    · rw [List.flatMap_append, ← h.stream, List.flatMap_singleton]
    · rw [List.filter_append, List.map_append, ← h.queue j]
      by_cases hj : j = i
      · subst hj
        simp [hq]
      · have hij : ¬i = j := fun he => hj he.symm
        simp [Function.update_of_ne hj, hij]
  | start i a as hq hrest ha =>
    have hmem : a ∈ queue i := by
      rw [← h.queue i, hq]
      simp
    exact absurd (hle i a hmem) (not_le.mpr ha)
  | part i n hrest => exact absurd (h.rest i) hrest

/-- Where all writes are atomic the stream is made of whole writes, those of each writer in
their order. -/
theorem reachable_sent {queue : ι → List α} (hle : ∀ i, ∀ a ∈ queue i, (bytes a).length ≤ limit)
    {s : PipeState ι α} (hs : Relation.ReflTransGen (PipeStep bytes limit) (.start queue) s) :
    ∃ sent, Sent bytes queue s sent := by
  induction hs with
  | refl => exact ⟨[], rfl, fun _ => rfl, fun _ => rfl⟩
  | tail _ hstep ih =>
    obtain ⟨sent, hsent⟩ := ih
    exact hsent.step hle hstep

end Pipe

end Magisk
