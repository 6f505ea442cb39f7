import Magisk.BootStages

namespace Magisk.BootStages

open List

def finalState (self : MagiskD) (reqs : List Request) : MagiskD :=
  reqs.foldl (fun m q => (bootStageHandler m q.2 q.1).1) self

section Life

open BootState

variable {self : MagiskD} {d : Device} {safe : Bool}

/-- Nothing is missing that `post_fs_data` needs. -/
def Device.Complete (d : Device) : Prop :=
  (d.secureDirExists ∨ d.sdkInt < 24) ∧ d.busyboxExists

theorem bootloopCount_postFsData (hd : d.Complete) (hw : d.dbWritable) :
    (self.postFsData d).1.bootloopCount = self.bootloopCount + 1 := by
  obtain ⟨hdir, hbusybox⟩ := hd
  have hsecure : ¬ (!d.secureDirExists && !decide (d.sdkInt < 24)) = true := by
    rcases hdir with h | h <;> simp [h]
  unfold MagiskD.postFsData MagiskD.setBootloopCount MagiskD.setZygiskConfig
  simp only [if_neg hsecure, hbusybox, hw, Bool.not_true, Bool.false_eq_true, if_false, if_true]
  split_ifs <;> rfl

theorem bootloopCount_lt_of_not_safe (h : (self.postFsData d).2 = false) :
    self.bootloopCount < 2 := by
  unfold MagiskD.postFsData at h
  dsimp only at h
  split_ifs at h with hdir hbusybox hsafe
  simp only [Bool.or_eq_true, decide_eq_true_eq, not_or] at hsafe
  exact Int32.not_le.mp hsafe.1.1.1

theorem bootloopCount_starts (hstate : self.bootState = {}) (hcheck : checkData d)
    (hd : d.Complete) (hw : d.dbWritable) :
    (bootStageHandler self d .postFsData).1.bootloopCount = self.bootloopCount + 1 := by
  have hdone : self.bootState.contains postFsDataDone = false := by rw [hstate]; decide
  simp only [bootStageHandler, hcheck, hdone, Bool.not_false, Bool.and_true, if_true]
  exact bootloopCount_postFsData hd hw

theorem bootloopCount_serving (h : Serving safe self) (hw : d.dbWritable)
    (code : RequestCode) : (bootStageHandler self d code).1.bootloopCount =
      if code = .bootComplete then 0 else self.bootloopCount := by
  cases code with
  | postFsData =>
    simp only [bootStageHandler, h.done, Bool.not_true, Bool.and_false, Bool.false_eq_true,
      if_false]
    rfl
  | lateStart =>
    rw [if_neg (by decide)]
    unfold bootStageHandler
    dsimp only
    split_ifs <;> rfl
  | bootComplete =>
    simp only [bootStageHandler, h.done, if_true, MagiskD.bootComplete, MagiskD.setBootloopCount,
      hw]

theorem bootloopCount_finalState_serving (h : Serving safe self) {reqs : List Request}
    (hw : ∀ q ∈ reqs, q.2.dbWritable) : (finalState self reqs).bootloopCount =
      if .bootComplete ∈ reqs.map Prod.fst then 0 else self.bootloopCount := by
  induction reqs generalizing self with
  | nil => rfl
  | cons q rest ih =>
    obtain ⟨hq, hrest⟩ := forall_mem_cons.mp hw
    obtain ⟨self', hh, hs⟩ := bootStageHandler_serving (d := q.2) h q.1
    have hcount := bootloopCount_serving h hq q.1
    rw [hh] at hcount
    change (finalState (bootStageHandler self q.2 q.1).1 rest).bootloopCount = _
    rw [hh, ih hs hrest, hcount]
    by_cases hc : q.1 = .bootComplete
    · simp only [map_cons, mem_cons, hc, true_or, if_true, ite_self]
    · simp only [map_cons, mem_cons, Ne.symm hc, hc, false_or, if_false]

theorem finalState_fromStart (hdone : self.bootState.contains postFsDataDone = false)
    (reqs : List Request) : finalState self reqs = finalState self (fromStart reqs) := by
  induction reqs with
  | nil => rfl
  | cons q rest ih =>
    unfold fromStart
    cases hs : starts q with
    | true => rw [dropWhile_cons_of_neg (by simp [hs])]
    | false =>
      rw [dropWhile_cons_of_pos (by simp [hs])]
      change finalState (bootStageHandler self q.2 q.1).1 rest = _
      rw [bootStageHandler_idle hdone hs]
      exact ih

variable {reqs rest : List Request} {q : Request}

theorem bootComplete_mem_stages_iff (hstate : self.bootState = {})
    (hstart : fromStart reqs = q :: rest) :
    .bootComplete ∈ stages self reqs ↔ .bootComplete ∈ rest.map Prod.fst := by
  rw [stages_eq hstate, hstart]
  rw [← count_pos_iff, count_cons_of_ne (by simp), count_bootComplete_served,
    count_pos_iff]

theorem bootloopCount_lt_of_applied (hstate : self.bootState = {})
    (h : .postFsData false ∈ stages self reqs) : self.bootloopCount < 2 := by
  rw [stages_eq hstate] at h
  cases hstart : fromStart reqs with
  | nil =>
    rw [hstart] at h
    cases h
  | cons q rest =>
    rw [hstart] at h
    rcases mem_cons.mp h with h | h
    · exact bootloopCount_lt_of_not_safe (Stage.postFsData.inj h).symm
    · exact absurd h (postFsData_notMem_served false)

theorem starts_of_fromStart (hstart : fromStart reqs = q :: rest) :
    q.1 = .postFsData ∧ checkData q.2 := by
  have hhead := head?_dropWhile_not (fun q => !starts q) reqs
  unfold fromStart at hstart
  rw [hstart] at hhead
  simpa [starts] using hhead

theorem bootloopCount_finalState (hstate : self.bootState = {})
    (hstart : fromStart reqs = q :: rest) (hq : q.2.Complete)
    (hw : ∀ q ∈ reqs, q.2.dbWritable) : (finalState self reqs).bootloopCount =
      if .bootComplete ∈ stages self reqs then 0 else self.bootloopCount + 1 := by
  have hdone : self.bootState.contains postFsDataDone = false := by rw [hstate]; decide
  have hsub : ∀ x ∈ q :: rest, x.2.dbWritable := by
    intro x hx
    rw [← hstart] at hx
    exact hw x ((dropWhile_sublist _).mem hx)
  obtain ⟨hqw, hrest⟩ := forall_mem_cons.mp hsub
  obtain ⟨hcode, hcheck⟩ := starts_of_fromStart hstart
  obtain ⟨self', hh, hs⟩ := bootStageHandler_starts hstate hcheck
  have hcount := bootloopCount_starts hstate hcheck hq hqw
  rw [hh] at hcount
  rw [finalState_fromStart hdone, hstart]
  change (finalState (bootStageHandler self q.2 q.1).1 rest).bootloopCount = _
  rw [hcode, hh, bootloopCount_finalState_serving hs hrest, hcount]
  simp only [bootComplete_mem_stages_iff hstate hstart]

end Life

/-- One boot. The user may have set Zygisk on or off before it. -/
structure Boot where
  zygiskConfig : Int32
  reqs : List Request

/-- The daemon at the start of a boot. A counter that is not stored is read as 0. -/
def Boot.daemon (b : Boot) (stored : Option Int32) : MagiskD :=
  .start (stored.getD 0) b.zygiskConfig

def storedCount (boots : List Boot) : Option Int32 :=
  boots.foldl (fun stored b => some (finalState (b.daemon stored) b.reqs).bootloopCount) none

def bootTrace (prev : List Boot) (b : Boot) : List Stage :=
  stages (b.daemon (storedCount prev)) b.reqs

/-- `post_fs_data` is run and finds what it needs, and the database takes all writes. -/
structure Boot.Passes (b : Boot) : Prop where
  runs : ∃ q rest, fromStart b.reqs = q :: rest ∧ q.2.Complete
  writable : ∀ q ∈ b.reqs, q.2.dbWritable

theorem storedCount_concat (prev : List Boot) {b : Boot} (h : b.Passes) :
    (storedCount (prev ++ [b])).getD 0 =
      if .bootComplete ∈ bootTrace prev b then 0 else (storedCount prev).getD 0 + 1 := by
  obtain ⟨q, rest, hstart, hq⟩ := h.runs
  unfold storedCount
  rw [foldl_concat]
  exact bootloopCount_finalState rfl hstart hq h.writable

theorem count_lt_of_applied {prev : List Boot} {b : Boot}
    (h : .postFsData false ∈ bootTrace prev b) : (storedCount prev).getD 0 < 2 := by
  change (b.daemon (storedCount prev)).bootloopCount < 2
  exact bootloopCount_lt_of_applied rfl h

/-- The last `k` boots are behind the last one that reached the end, or they are all there are. -/
def Waited (boots : List Boot) (k : ℕ) : Prop :=
  ∃ old new, boots = old ++ new ∧ new.length = k ∧
    (old = [] ∨ ∃ old' p, old = old' ++ [p] ∧ .bootComplete ∈ bootTrace old' p)

theorem storedCount_waited {boots : List Boot} (h : ∀ b ∈ boots, b.Passes) :
    ∃ k, Waited boots k ∧ (storedCount boots).getD 0 = Int32.ofNat k := by
  induction boots using List.reverseRecOn with
  | nil => exact ⟨0, ⟨[], [], rfl, rfl, .inl rfl⟩, rfl⟩
  | append_singleton prev b ih =>
    obtain ⟨hprev, hb⟩ := forall_mem_append.mp h
    rw [storedCount_concat prev (hb b mem_cons_self)]
    by_cases hdone : .bootComplete ∈ bootTrace prev b
    · rw [if_pos hdone]
      exact ⟨0, ⟨prev ++ [b], [], by simp, rfl, .inr ⟨prev, b, rfl, hdone⟩⟩, rfl⟩
    · rw [if_neg hdone]
      obtain ⟨k, ⟨old, new, rfl, hk, hold⟩, hcount⟩ := ih hprev
      refine ⟨k + 1, ⟨old, new ++ [b], by simp, by simp [hk], hold⟩, ?_⟩
      rw [hcount]
      exact (Int32.ofNat_add k 1).symm

/-- Modules are applied in the first two boots, and behind one of two boots that reached the end. -/
theorem applied_after_bootComplete {boots : List Boot} (hlen : boots.length < 2 ^ 31)
    (hpass : ∀ b ∈ boots, b.Passes) {prev later : List Boot} {b : Boot}
    (hboots : boots = prev ++ b :: later) (happ : .postFsData false ∈ bootTrace prev b) :
    prev.length < 2 ∨ ∃ old p new, prev = old ++ p :: new ∧ new.length < 2 ∧
      .bootComplete ∈ bootTrace old p := by
  subst hboots
  obtain ⟨k, ⟨old, new, rfl, rfl, hold⟩, hcount⟩ :=
    storedCount_waited fun x hx => hpass x (mem_append_left _ hx)
  have hnew : new.length < 2 := by
    have hsize : new.length < 2 ^ 31 := by
      simp only [length_append] at hlen
      omega
    have hlt := count_lt_of_applied happ
    rw [hcount, Int32.lt_iff_toInt_lt, Int32.toInt_ofNat_of_lt hsize] at hlt
    exact Int.ofNat_lt.mp hlt
  rcases hold with rfl | ⟨old', p, rfl, hp⟩
  · exact .inl hnew
  · exact .inr ⟨old', p, new, by simp, hnew, hp⟩

/-- A boot that asks for all stages, or for the first one only. -/
def healthyBoot (complete : Bool) : Boot where
  zygiskConfig := 1
  reqs := (.postFsData, healthy) ::
    if complete then [(.lateStart, healthy), (.bootComplete, healthy)] else []

theorem healthyBoot_passes (complete : Bool) : (healthyBoot complete).Passes where
  runs := ⟨_, _, rfl, .inl rfl, rfl⟩
  writable q hq := by
    cases complete <;> simp [healthyBoot] at hq
    · rw [hq]
      rfl
    · rcases hq with rfl | rfl | rfl <;> rfl

theorem applied_after_one_failure :
    let prev := [healthyBoot true, healthyBoot false]
    .postFsData false ∈ bootTrace prev (healthyBoot true) ∧
      ∃ old p new, prev = old ++ p :: new ∧ new.length < 2 ∧ .bootComplete ∈ bootTrace old p := by
  intro prev
  have happ : .postFsData false ∈ bootTrace prev (healthyBoot true) := by decide
  have hpass : ∀ b ∈ prev ++ [healthyBoot true], b.Passes := by
    intro b hb
    simp only [prev, cons_append, nil_append, mem_cons, not_mem_nil,
      or_false] at hb
    rcases hb with rfl | rfl | rfl <;> exact healthyBoot_passes _
  rcases applied_after_bootComplete (by decide) hpass rfl happ with h | h
  · exact absurd h (by decide)
  · exact ⟨happ, h⟩

end Magisk.BootStages
