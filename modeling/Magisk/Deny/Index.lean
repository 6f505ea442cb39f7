import Magisk.Deny.List
import Magisk.Loops

namespace Magisk.Deny

open Option

variable {α : Type} {q : Engine α}

section Scan

variable {w : World} {users : List Int32} {pkg : Bytes}

/-- The scan takes the package for uninstalled. -/
def Gone (w : World) (users : List Int32) (pkg : Bytes) : Prop :=
  pkg ≠ isolatedMagic ∧ w.appData.getAppId pkg users = 0

instance : Decidable (Gone w users pkg) := inferInstanceAs (Decidable (_ ∧ _))

theorem updateAppId_pkgToProcs (d : DenyData) (appId : Int32) (pkg : Bytes) (remove : Bool) :
    (d.updateAppId appId pkg remove).pkgToProcs = d.pkgToProcs := by
  unfold DenyData.updateAppId
  split_ifs <;> rfl

theorem mem_updateAppId_add {d : DenyData} {appId id : Int32} {p : Bytes} :
    p ∈ (d.updateAppId appId pkg false).appIdToPkgs.find id ↔
      (0 < appId ∧ appId = id ∧ p = pkg) ∨ p ∈ d.appIdToPkgs.find id := by
  unfold DenyData.updateAppId
  by_cases h : appId ≤ 0
  · simp [h, Int32.not_lt.mpr h]
  · simp [h, SetMap.mem_add, Int32.not_le.mp h]

theorem mem_updateAppId_remove {d : DenyData} {appId id : Int32} {p : Bytes} :
    p ∈ (d.updateAppId appId pkg true).appIdToPkgs.find id ↔
      p ∈ d.appIdToPkgs.find id ∧ ¬ (0 < appId ∧ appId = id ∧ p = pkg) := by
  unfold DenyData.updateAppId
  by_cases h : appId ≤ 0
  · simp [h, Int32.not_lt.mpr h]
  · simp [h, SetMap.mem_remove, Int32.not_le.mp h]

theorem scanStep_pkgToProcs (s : DenyData × Db α) (p r : Bytes) :
    r ∈ (scanStep q w users s pkg).1.pkgToProcs.find p ↔
      r ∈ s.1.pkgToProcs.find p ∧ ¬ (p = pkg ∧ Gone w users p) := by
  simp only [scanStep, Gone]
  split_ifs with h1 h2
  · have : ¬ (p = pkg ∧ p ≠ isolatedMagic ∧ w.appData.getAppId p users = 0) := by
      rintro ⟨rfl, hp, -⟩
      exact hp h1
    simp only [this, not_false_eq_true, and_true]
  · rw [SetMap.mem_erase]
    refine and_congr_right fun _ => not_congr ?_
    constructor
    · rintro rfl
      exact ⟨rfl, h1, h2⟩
    · exact fun h => h.1.symm
  · rw [updateAppId_pkgToProcs]
    have : ¬ (p = pkg ∧ p ≠ isolatedMagic ∧ w.appData.getAppId p users = 0) := by
      rintro ⟨rfl, -, hp⟩
      exact h2 hp
    simp only [this, not_false_eq_true, and_true]

theorem scanStep_appIdToPkgs (s : DenyData × Db α) (p : Bytes) (id : Int32) :
    p ∈ (scanStep q w users s pkg).1.appIdToPkgs.find id ↔
      p ∈ s.1.appIdToPkgs.find id ∨
        p = pkg ∧ p ≠ isolatedMagic ∧ w.appData.getAppId p users = id ∧ 0 < id := by
  simp only [scanStep]
  split_ifs with h1 h2
  · have : ¬ (p = pkg ∧ p ≠ isolatedMagic ∧ w.appData.getAppId p users = id ∧ 0 < id) := by
      rintro ⟨rfl, hp, -⟩
      exact hp h1
    simp only [this, or_false]
  · have : ¬ (p = pkg ∧ p ≠ isolatedMagic ∧ w.appData.getAppId p users = id ∧ 0 < id) := by
      rintro ⟨rfl, -, hp, hid⟩
      rw [h2] at hp
      rw [← hp] at hid
      exact absurd hid (by decide)
    simp only [this, or_false]
  · rw [mem_updateAppId_add, or_comm]
    refine or_congr_right ?_
    constructor
    · rintro ⟨hpos, hid, rfl⟩
      exact ⟨rfl, h1, hid, hid ▸ hpos⟩
    · rintro ⟨rfl, -, hid, hpos⟩
      exact ⟨hid ▸ hpos, hid, rfl⟩

theorem foldl_scanStep_pkgToProcs (l : List Bytes) (s : DenyData × Db α) (p r : Bytes) :
    r ∈ (l.foldl (scanStep q w users) s).1.pkgToProcs.find p ↔
      r ∈ s.1.pkgToProcs.find p ∧ ¬ (p ∈ l ∧ Gone w users p) := by
  induction l generalizing s with
  | nil => simp
  | cons pkg l ih =>
    rw [List.foldl_cons, ih, scanStep_pkgToProcs, List.mem_cons]
    tauto

theorem foldl_scanStep_appIdToPkgs (l : List Bytes) (s : DenyData × Db α) (p : Bytes)
    (id : Int32) : p ∈ (l.foldl (scanStep q w users) s).1.appIdToPkgs.find id ↔
      p ∈ s.1.appIdToPkgs.find id ∨
        p ∈ l ∧ p ≠ isolatedMagic ∧ w.appData.getAppId p users = id ∧ 0 < id := by
  induction l generalizing s with
  | nil => simp
  | cons pkg l ih =>
    rw [List.foldl_cons, ih, scanStep_appIdToPkgs, List.mem_cons]
    tauto

variable (w) (d : DenyData) (db : Db α)

theorem scanDenyApps_pkgToProcs (p r : Bytes) :
    r ∈ (scanDenyApps q w d db).1.pkgToProcs.find p ↔
      r ∈ d.pkgToProcs.find p ∧ ¬ Gone w w.appData.collectUsers p := by
  unfold scanDenyApps
  rw [foldl_scanStep_pkgToProcs]
  refine and_congr_right fun hr => not_congr (and_iff_right ?_)
  exact SetMap.mem_keys.mpr ⟨r, hr⟩

theorem scanDenyApps_appIdToPkgs (p : Bytes) (id : Int32) :
    p ∈ (scanDenyApps q w d db).1.appIdToPkgs.find id ↔ p ∈ d.pkgToProcs.keys ∧
      p ≠ isolatedMagic ∧ w.appData.getAppId p w.appData.collectUsers = id ∧ 0 < id := by
  unfold scanDenyApps
  rw [foldl_scanStep_appIdToPkgs]
  simp

end Scan

namespace DenyData

/-- Every package of the index is a key of `pkg_to_procs`. -/
def Indexed (d : DenyData) : Prop :=
  ∀ id pkg, pkg ∈ d.appIdToPkgs.find id → (d.pkgToProcs.find pkg).Nonempty

def Positive (d : DenyData) : Prop := ∀ id pkg, pkg ∈ d.appIdToPkgs.find id → 0 < id

variable {d : DenyData} {w : World} {pkg proc : Bytes} {appId : Int32}

theorem scan_indexed (w : World) (d : DenyData) (db : Db α) :
    (scanDenyApps q w d db).1.Indexed := by
  intro id pkg hpkg
  obtain ⟨hkey, -, hid, hpos⟩ := (scanDenyApps_appIdToPkgs w d db pkg id).mp hpkg
  obtain ⟨proc, hproc⟩ := SetMap.mem_keys.mp hkey
  refine ⟨proc, (scanDenyApps_pkgToProcs w d db pkg proc).mpr ⟨hproc, ?_⟩⟩
  rintro ⟨-, hzero⟩
  rw [← hid, hzero] at hpos
  exact absurd hpos (by decide)

theorem scan_positive (w : World) (d : DenyData) (db : Db α) :
    (scanDenyApps q w d db).1.Positive :=
  fun id pkg hpkg => ((scanDenyApps_appIdToPkgs w d db pkg id).mp hpkg).2.2.2

theorem Indexed.added (h : d.Indexed) : (d.added appId pkg proc).Indexed := by
  intro id p hp
  unfold DenyData.added at hp ⊢
  rw [mem_updateAppId_add] at hp
  rw [updateAppId_pkgToProcs]
  rcases hp with ⟨-, -, rfl⟩ | hp
  · exact ⟨proc, SetMap.mem_add.mpr (Or.inl ⟨rfl, rfl⟩)⟩
  · obtain ⟨q, hq⟩ := h id p hp
    exact ⟨q, SetMap.mem_add.mpr (Or.inr hq)⟩

theorem Positive.added (h : d.Positive) : (d.added appId pkg proc).Positive := by
  intro id p hp
  rcases mem_updateAppId_add.mp hp with ⟨hpos, rfl, -⟩ | hp
  · exact hpos
  · exact h id p hp

theorem Positive.erased (h : d.Positive) : (d.erased appId pkg).Positive :=
  fun id p hp => h id p (mem_updateAppId_remove.mp hp).1

/-- Removing a package keeps the invariant exactly if the package is indexed under this app id
only. -/
theorem erased_indexed_iff (h : d.Indexed) (hpos : d.Positive) :
    (d.erased appId pkg).Indexed ↔ ∀ id, pkg ∈ d.appIdToPkgs.find id → id = appId := by
  have hfind : ∀ p q, q ∈ (d.erased appId pkg).pkgToProcs.find p ↔
      q ∈ d.pkgToProcs.find p ∧ pkg ≠ p := by
    intro p q
    simp only [DenyData.erased, updateAppId_pkgToProcs, SetMap.mem_erase]
  constructor
  · intro hi id hid
    by_contra hne
    have hkept : pkg ∈ (d.erased appId pkg).appIdToPkgs.find id :=
      mem_updateAppId_remove.mpr ⟨hid, fun h => hne h.2.1.symm⟩
    obtain ⟨q, hq⟩ := hi id pkg hkept
    exact ((hfind pkg q).mp hq).2 rfl
  · intro hid id p hp
    obtain ⟨hp, hkept⟩ := mem_updateAppId_remove.mp hp
    obtain ⟨q, hq⟩ := h id p hp
    refine ⟨q, (hfind p q).mpr ⟨hq, ?_⟩⟩
    rintro rfl
    have happ := hid id hp
    exact hkept ⟨happ ▸ hpos id pkg hp, happ.symm, rfl⟩

/-- The removal takes the package out of `pkg_to_procs`. -/
def Erases (d : DenyData) (pkg proc : Bytes) : Prop :=
  (d.pkgToProcs.find pkg).Nonempty ∧ (proc = [] ∨ d.pkgToProcs.find pkg = {proc})

theorem removeFrom_cases (w : World) (d : DenyData) (pkg proc : Bytes) :
    d.Erases pkg proc ∧
        DenyList.removeFrom w d pkg proc = some (d.erased (w.appData.appIdOf pkg) pkg) ∨
      ¬ d.Erases pkg proc ∧ (DenyList.removeFrom w d pkg proc = none ∨
        proc ∈ d.pkgToProcs.find pkg ∧ DenyList.removeFrom w d pkg proc =
          some { d with pkgToProcs := d.pkgToProcs.remove pkg proc }) := by
  unfold Erases
  simp only [DenyList.removeFrom, erased, Finset.nonempty_iff_ne_empty]
  split_ifs with h1 h2 h3 h4
  · exact Or.inr ⟨fun h => h.1 h1, Or.inl rfl⟩
  · exact Or.inl ⟨⟨h1, Or.inl h2⟩, rfl⟩
  · refine Or.inl ⟨⟨h1, Or.inr ?_⟩, rfl⟩
    exact (Finset.erase_eq_empty_iff _ _).mp h4 |>.resolve_left h1
  · refine Or.inr ⟨?_, Or.inr ⟨h3, rfl⟩⟩
    rintro ⟨-, h | h⟩
    · exact h2 h
    · exact h4 (by rw [h, Finset.erase_singleton])
  · refine Or.inr ⟨?_, Or.inl rfl⟩
    rintro ⟨-, h | h⟩
    · exact h2 h
    · exact h3 (by rw [h]; exact Finset.mem_singleton_self proc)

theorem exists_ne_of_not_erases (hmem : proc ∈ d.pkgToProcs.find pkg)
    (hmore : ¬ d.Erases pkg proc) : ∃ r ∈ d.pkgToProcs.find pkg, r ≠ proc := by
  by_contra hno
  simp only [not_exists, not_and, not_not] at hno
  exact hmore ⟨⟨proc, hmem⟩, Or.inr (Finset.eq_singleton_iff_unique_mem.mpr ⟨hmem, hno⟩)⟩

theorem Indexed.remove (h : d.Indexed) (hmem : proc ∈ d.pkgToProcs.find pkg)
    (hmore : ¬ d.Erases pkg proc) :
    Indexed { d with pkgToProcs := d.pkgToProcs.remove pkg proc } := by
  intro id p hp
  obtain ⟨q, hq⟩ := h id p hp
  by_cases hqp : pkg = p ∧ q = proc
  · obtain ⟨rfl, rfl⟩ := hqp
    obtain ⟨r, hr, hrq⟩ := exists_ne_of_not_erases hmem hmore
    exact ⟨r, SetMap.mem_remove.mpr ⟨hr, fun h => hrq h.2⟩⟩
  · exact ⟨q, SetMap.mem_remove.mpr ⟨hq, hqp⟩⟩

end DenyData

namespace DenyList

def Indexed (s : DenyList α) : Prop := ∀ d, s.data = some d → d.Indexed

def Positive (s : DenyList α) : Prop := ∀ d, s.data = some d → d.Positive

variable {s : DenyList α} {w : World} {d : DenyData}

theorem ensureData_spec (h : (s.ensureData q w).1 = some d) :
    s.data = some d ∨ ∃ d₀ db, d = (scanDenyApps q w d₀ db).1 := by
  unfold ensureData at h
  split at h
  · next heq => exact Or.inl (heq.trans h)
  · split at h
    · simp at h
    · split_ifs at h
      exact Or.inr ⟨_, _, (some.inj h).symm⟩

theorem Indexed.ensureData (hs : s.Indexed) (h : (s.ensureData q w).1 = some d) : d.Indexed := by
  rcases ensureData_spec h with h | ⟨d₀, db, rfl⟩
  · exact hs d h
  · exact DenyData.scan_indexed w d₀ db

theorem Positive.ensureData (hs : s.Positive) (h : (s.ensureData q w).1 = some d) : d.Positive := by
  rcases ensureData_spec h with h | ⟨d₀, db, rfl⟩
  · exact hs d h
  · exact DenyData.scan_positive w d₀ db

theorem rmList_data (pkg proc : Bytes) : (s.rmList q w pkg proc).2.data =
    (s.ensureData q w).1.map fun d => (removeFrom w d pkg proc).getD d := by
  simp only [rmList]
  rcases s.ensureData q w with ⟨_ | d, db⟩
  · rfl
  · cases hr : removeFrom w d pkg proc with
    | none => simp [hr]
    | some d' => simp [hr]

theorem scan_keeps (hi : s.Indexed) (hp : s.Positive) (w : World) :
    (s.scan q w).Indexed ∧ (s.scan q w).Positive := by
  unfold scan
  split
  · exact ⟨hi, hp⟩
  · next d _ =>
    constructor
    · intro d' hd'
      rw [← some.inj hd']
      exact DenyData.scan_indexed w d s.db
    · intro d' hd'
      rw [← some.inj hd']
      exact DenyData.scan_positive w d s.db

theorem ensured_keeps (hi : s.Indexed) (hp : s.Positive) (w : World) :
    (s.ensured q w).Indexed ∧ (s.ensured q w).Positive :=
  ⟨fun _ hd => hi.ensureData hd, fun _ hd => hp.ensureData hd⟩

theorem addList_keeps (hi : s.Indexed) (hp : s.Positive) (w : World) (pkg proc : Bytes) :
    (s.addList q w pkg proc).2.Indexed ∧ (s.addList q w pkg proc).2.Positive := by
  unfold Indexed Positive
  rcases s.addList_cases q w pkg proc with
    ⟨-, h⟩ | ⟨-, h⟩ | ⟨d, hd, ⟨-, h⟩ | ⟨-, h⟩ | ⟨-, -, -, h⟩⟩
  · rw [h]
    exact ⟨hi, hp⟩
  · rw [h]
    exact ⟨fun _ h => absurd h (by simp), fun _ h => absurd h (by simp)⟩
  · simp only [h, some.injEq, forall_eq']
    exact ⟨hi.ensureData hd, hp.ensureData hd⟩
  · simp only [h, some.injEq, forall_eq']
    exact ⟨hi.ensureData hd, hp.ensureData hd⟩
  · simp only [h, some.injEq, forall_eq']
    exact ⟨(hi.ensureData hd).added, (hp.ensureData hd).added⟩

theorem rmList_positive (hp : s.Positive) (w : World) (pkg proc : Bytes) :
    (s.rmList q w pkg proc).2.Positive := by
  intro d' hd'
  rw [rmList_data, map_eq_some_iff] at hd'
  obtain ⟨d, hd, rfl⟩ := hd'
  have hpos := hp.ensureData hd
  rcases d.removeFrom_cases w pkg proc with ⟨-, h⟩ | ⟨-, h | ⟨-, h⟩⟩
  · rw [h]
    exact hpos.erased
  · rw [h]
    exact hpos
  · rw [h]
    exact hpos

end DenyList

/-- The call is not the removal of a package that is indexed under another app id than the one it
has now. -/
def Current (q : Engine α) (s : DenyList α) (call : World × Request) : Prop :=
  match call.2 with
  | .rmList pkg proc => ∀ d, (s.ensureData q call.1).1 = some d → d.Erases pkg proc →
      ∀ id, pkg ∈ d.appIdToPkgs.find id → id = call.1.appData.appIdOf pkg
  | _ => True

theorem rmList_indexed_iff {s : DenyList α} (hi : s.Indexed) (hp : s.Positive) (w : World)
    (pkg proc : Bytes) :
    (s.rmList q w pkg proc).2.Indexed ↔ Current q s (w, .rmList pkg proc) := by
  unfold DenyList.Indexed Current
  simp only [DenyList.rmList_data]
  cases hd : (s.ensureData q w).1 with
  | none => simp
  | some d =>
    have hdi := hi.ensureData hd
    have hdp := hp.ensureData hd
    simp only [map_some, some.injEq, forall_eq']
    rcases d.removeFrom_cases w pkg proc with ⟨he, h⟩ | ⟨he, h | ⟨hmem, h⟩⟩
    · rw [h, getD_some, DenyData.erased_indexed_iff hdi hdp]
      simp only [he, true_imp_iff]
    · rw [h]
      exact iff_of_true hdi fun h => absurd h he
    · rw [h]
      exact iff_of_true (hdi.remove hmem he) fun h => absurd h he

theorem positive_step {s s' : DenyList α} {call : World × Request} (hi : s.Indexed)
    (hp : s.Positive) (h : step q s call = some s') : s'.Positive := by
  obtain ⟨w, request⟩ := call
  rw [← some.inj h]
  cases request with
  | addList pkg proc => exact (DenyList.addList_keeps hi hp w pkg proc).2
  | rmList pkg proc => exact DenyList.rmList_positive hp w pkg proc
  | scanDenyApps => exact (DenyList.scan_keeps hi hp w).2
  | lsList =>
    have he := DenyList.ensured_keeps (q := q) hi hp w
    exact (DenyList.scan_keeps he.1 he.2 w).2
  | isDenyTarget uid process => exact (DenyList.ensured_keeps hi hp w).2

theorem indexed_step {s s' : DenyList α} {call : World × Request} (hi : s.Indexed)
    (hp : s.Positive) (h : step q s call = some s') : s'.Indexed ↔ Current q s call := by
  obtain ⟨w, request⟩ := call
  rw [← some.inj h]
  cases request with
  | addList pkg proc => exact iff_of_true (DenyList.addList_keeps hi hp w pkg proc).1 trivial
  | rmList pkg proc => exact rmList_indexed_iff hi hp w pkg proc
  | scanDenyApps => exact iff_of_true (DenyList.scan_keeps hi hp w).1 trivial
  | lsList =>
    have he := DenyList.ensured_keeps (q := q) hi hp w
    exact iff_of_true (DenyList.scan_keeps he.1 he.2 w).1 trivial
  | isDenyTarget uid process => exact iff_of_true (DenyList.ensured_keeps hi hp w).1 trivial

/-- In every run that starts before the data is loaded the index names keys of `pkg_to_procs` only,
exactly if no package is removed while it is indexed under another app id than its own. -/
theorem indexed_iff (q : Engine α) (db : Db α) (calls : List (World × Request)) :
    Throughout (step q) DenyList.Indexed ⟨none, db⟩ calls ↔
      Along (step q) (Current q) ⟨none, db⟩ calls := by
  have hi : DenyList.Indexed ⟨none, db⟩ := fun _ h => absurd h (by simp)
  have hp : DenyList.Positive ⟨none, db⟩ := fun _ h => absurd h (by simp)
  exact throughout_iff_along (fun _ _ _ hp hi h => positive_step hi hp h)
    (fun _ _ _ hp hi h => indexed_step hi hp h) hp hi calls

/-- A package is added, installed again under another app id and removed. -/
def reinstallCalls : List (World × Request) :=
  [({ appData := installed 10010 }, .addList samplePkg []),
   ({ appData := installed 10020 }, .rmList samplePkg [])]

/-- The index still names it under its first app id. -/
theorem indexed_reinstall :
    ¬ Throughout (step denyEngine) DenyList.Indexed ⟨none, ⟨some [], ()⟩⟩ reinstallCalls := by
  intro h
  have hd : ((runAll (step denyEngine) ⟨none, ⟨some [], ()⟩⟩ reinstallCalls).bind
      DenyList.data).map (fun d =>
        decide (samplePkg ∈ d.appIdToPkgs.find 10010 ∧ d.pkgToProcs.find samplePkg = ∅)) =
      some true := by decide +kernel
  obtain ⟨d, hd, hstale⟩ := map_eq_some_iff.mp hd
  obtain ⟨s, hs, hd⟩ := bind_eq_some_iff.mp hd
  rw [decide_eq_true_eq] at hstale
  exact (h.runAll hs d hd 10010 samplePkg hstale.1).ne_empty hstale.2

/-- The lookup of `is_deny_target` finds an entry for every package of an indexed list. -/
theorem isDenyTarget_ne_none {d : DenyData} (h : d.Indexed) (uid : Int32) (process : Bytes) :
    isDenyTarget d uid process ≠ none := by
  unfold isDenyTarget
  dsimp only
  split_ifs with hiso hmissing
  · simp
  · obtain ⟨pkg, hpkg, hempty⟩ := hmissing
    exact absurd hempty (h _ pkg hpkg).ne_empty
  · simp

end Magisk.Deny
