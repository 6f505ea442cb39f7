import Magisk.Deny.Requests

namespace Magisk.Deny

open List

variable {α : Type} {q : Engine α} {w : World} {db : Db α} {pkg proc : Bytes}

def Held (q : Engine α) (w : World) (db : Db α) (pkg proc : Bytes) : Prop :=
  ∃ d, rebuild q w db = some d ∧ proc ∈ d.pkgToProcs.find pkg

/-- The list that is loaded has one pair more than before, and the rest of the database is the
same. -/
def Stores (q : Engine α) (w : World) (db db' : Db α) (pkg proc : Bytes) : Prop :=
  (∀ p r, Held q w db' p r ↔ Held q w db p r ∨ p = pkg ∧ r = proc) ∧ ¬ Held q w db pkg proc ∧
    db'.rest = db.rest

theorem held_iff (hw : w.selects) :
    Held q w db pkg proc ↔ (pkg, proc) ∈ rowsOf db ∧ ¬ w.appData.Misses pkg := by
  simp only [Held, rebuild, DenyList.ensureData, rowsOf]
  cases db.denylist with
  | none => simp
  | some rows =>
    have hprocs := (scanDenyApps_mirrors (q := q) w db rows).procs pkg proc
    simp [hw, hprocs]

/-- A byte that stands in no package name but may stand in the name of a process. -/
theorem not_mem_validPkg {c : UInt8} (hc : isAlnum c = false) (hu : c ≠ underscore) (hd : c ≠ dot)
    {valid : Bool} (h : validPkg valid pkg) : c ∉ pkg := by
  induction pkg generalizing valid with
  | nil => simp
  | cons b pkg ih =>
    rw [mem_cons, not_or]
    simp only [validPkg] at h
    refine ⟨?_, ?_⟩
    · rintro rfl
      simp [hc, hu, hd] at h
    · split_ifs at h
      · exact ih h
      · exact ih h

theorem plain_of_validate (h : validate pkg proc) : Plain pkg := by
  unfold validate at h
  split_ifs at h with hi
  · rw [hi]
    decide +kernel
  · have hpkg := (Bool.and_eq_true_iff.mp h).1
    exact ⟨not_mem_validPkg (by decide) (by decide) (by decide) hpkg,
      not_mem_validPkg (by decide) (by decide) (by decide) hpkg⟩

theorem mem_escape {s : Bytes} {c : UInt8} : c ∈ escape s ↔ c ∈ s := by
  rw [escape, mem_flatMap]
  constructor
  · rintro ⟨b, hb, hc⟩
    split_ifs at hc with hq
    · have hcb : c = b := by simpa [hq] using hc
      rwa [hcb]
    · rwa [mem_singleton.mp hc]
  · intro hc
    refine ⟨c, hc, ?_⟩
    split_ifs with hq
    · simp [hq]
    · exact mem_cons_self

theorem dbExec_insertSql_escape {r : Bytes} (hpkg : Plain pkg) (hr : 0 ∉ r)
    (hfits : (insertText pkg (escape r)).length < 4096)
    (hok : (w.dbExec q db (insertSql pkg (escape r))).1) :
    w.dbExec q db (insertSql pkg (escape r)) = db.insert pkg r := by
  have htext : insertSql pkg (escape r) = insertText pkg (escape r) :=
    take_of_length_le (Nat.le_of_lt_succ hfits)
  have hexec := q.exec_insert db pkg r hpkg.2 hr
  rw [escape_eq_self hpkg.1] at hexec
  unfold World.dbExec at hok ⊢
  split_ifs at hok ⊢
  rw [htext, hexec]

/-- The name of the process is a literal in which every quote is written twice, as when it has none,
and the text fits the buffer. An addition that succeeds is stored exactly if it has no quote. -/
theorem DenyList.addList_stores_iff (q : Engine α) (s : DenyList α) (w w' : World)
    (pkg proc : Bytes) (hok : (s.addList q w pkg proc).1 = .ok) (hw' : w'.selects)
    (hid : w'.appData.appIdOf pkg ≠ 0) (h0 : 0 ∉ procOf pkg proc)
    (hlit : ∃ r, procOf pkg proc = escape r)
    (hfits : (insertText pkg (procOf pkg proc)).length < 4096) :
    Stores q w' (s.ensureData q w).2 (s.addList q w pkg proc).2.db pkg (procOf pkg proc) ↔
      quote ∉ procOf pkg proc := by
  obtain ⟨r, hr⟩ := hlit
  rcases s.addList_cases q w pkg proc with
    ⟨-, h⟩ | ⟨-, h⟩ | ⟨d, -, ⟨-, h⟩ | ⟨-, h⟩ | ⟨hv, -, -, h⟩⟩
  · simp [h] at hok
  · simp [h] at hok
  · simp [h] at hok
  · simp [h] at hok
  rw [h, hr] at hok ⊢
  rw [hr] at h0 hfits
  have hpkg := plain_of_validate hv
  have hres : (w.dbExec q (s.ensureData q w).2 (insertSql pkg (escape r))).1 := by
    by_contra hres
    simp [hres] at hok
  have hexec := dbExec_insertSql_escape hpkg (fun h => h0 (mem_escape.mpr h)) hfits hres
  dsimp only at hok ⊢
  obtain ⟨hrows, hnew, hrest⟩ := rowsOf_insert (Prod.ext (hexec ▸ hres) rfl)
  rw [hexec]
  have hkeep : ¬ w'.appData.Misses pkg := not_misses_of_appIdOf hid
  constructor
  · rintro ⟨hheld, hnot, -⟩ hq
    have hnow := (held_iff hw').mp ((hheld _ _).mpr (Or.inr ⟨rfl, rfl⟩))
    rw [hrows, mem_append, mem_singleton, Prod.mk.injEq] at hnow
    rcases hnow.1 with hmem | ⟨-, heq⟩
    · exact hnot ((held_iff hw').mpr ⟨hmem, hkeep⟩)
    · -- the literal is longer than the string it stands for
      have hlt := length_lt_escape (mem_escape.mp hq)
      rw [heq] at hlt
      exact lt_irrefl _ hlt
  · intro hq
    rw [escape_eq_self fun h => hq (mem_escape.mpr h)]
    refine ⟨fun p t => ?_, fun h => hnew ((held_iff hw').mp h).1, hrest⟩
    rw [held_iff hw', held_iff hw', hrows, mem_append, mem_singleton, Prod.mk.injEq]
    constructor
    · rintro ⟨hmem | heq, hp⟩
      · exact Or.inl ⟨hmem, hp⟩
      · exact Or.inr heq
    · rintro (⟨hmem, hp⟩ | ⟨rfl, rfl⟩)
      · exact ⟨Or.inl hmem, hp⟩
      · exact ⟨Or.inr ⟨rfl, rfl⟩, hkeep⟩

/-- An app that is installed, added under its own name. -/
theorem DenyList.addList_stores_pkg :
    let w : World := { appData := installed 10010 }
    let s : DenyList Unit := ⟨some (load []), ⟨some [], ()⟩⟩
    Stores denyEngine w (s.ensureData denyEngine w).2 (s.addList denyEngine w samplePkg []).2.db
      samplePkg samplePkg :=
  (DenyList.addList_stores_iff denyEngine ⟨some (load []), ⟨some [], ()⟩⟩
    { appData := installed 10010 } { appData := installed 10010 } samplePkg [] (by decide +kernel)
    rfl (by decide +kernel) (by decide +kernel) ⟨samplePkg, by decide +kernel⟩
    (by decide +kernel)).mpr (by decide +kernel)

/-- Two quotes in the process of an isolated service are stored as one. -/
theorem DenyList.addList_stores_quotes :
    let w : World := { appData := installed 10010 }
    let s : DenyList Unit := ⟨some (load []), ⟨some [], ()⟩⟩
    let r := s.addList denyEngine w isolatedMagic (lit "a:''b")
    r.1 = .ok ∧ rowsOf r.2.db = [(isolatedMagic, lit "a:'b")] ∧
      ¬ Stores denyEngine w (s.ensureData denyEngine w).2 r.2.db isolatedMagic (lit "a:''b") := by
  refine ⟨by decide +kernel, by decide +kernel, fun h => ?_⟩
  have hheld := (held_iff rfl).mp ((h.1 _ _).mpr (Or.inr ⟨rfl, rfl⟩))
  exact absurd hheld.1 (by decide +kernel)

end Magisk.Deny
