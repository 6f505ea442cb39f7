import Magisk.Loops
import Magisk.Utf8

namespace Magisk.Module

/-- An operation in the directory of a module. -/
inductive FileOp where
  | openDir
  | openFile (path : Str)
  | unlink (path : Str)
  | removeAll
  | unlinkDir
  deriving DecidableEq, Repr

namespace File

def disable : Str := "disable".toList
def remove : Str := "remove".toList
def update : Str := "update".toList
def riru : Str := "riru".toList
def zygisk : Str := "zygisk".toList
def unloaded : Str := "zygisk/unloaded".toList

end File

/-- An entry of the module root, with the paths in it. `fails` tells which operations on it do not
succeed, and `fd` which descriptor an opened file gets. -/
structure ModuleDir where
  name : Bytes
  isDir : Bool
  files : List Str
  fails : FileOp → Bool
  fd : Str → ℕ

/-- The name is given by its bytes. -/
structure ModuleInfo where
  name : Bytes
  z32 : Option ℕ
  z64 : Option ℕ
  deriving DecidableEq, Repr

/-- What a call leaves of a module, what it adds to the list, and whether it succeeds. -/
structure Visit where
  dir : Option ModuleDir
  info : Option ModuleInfo
  ok : Bool

def ModuleDir.isModule (e : ModuleDir) : Bool := e.isDir ∧ e.name ≠ lit ".core"

/-- `Directory::read` leaves out the names that are not UTF-8. -/
def ModuleDir.isListed (e : ModuleDir) : Bool := isUtf8 e.name && e.isModule

def forEachModule (func : ModuleDir → Visit) : List ModuleDir → List ModuleDir × List ModuleInfo
  | [] => ([], [])
  | e :: es =>
    if e.isListed then
      let v := func e
      if v.ok then
        let r := forEachModule func es
        (v.dir.toList ++ r.1, v.info.toList ++ r.2)
      else (v.dir.toList ++ es, v.info.toList)
    else
      let r := forEachModule func es
      (e :: r.1, r.2)

def ModuleDir.create (e : ModuleDir) (path : Str) : ModuleDir :=
  if path ∈ e.files then e else { e with files := path :: e.files }

def disableModule (e : ModuleDir) : Visit :=
  if e.fails .openDir then ⟨some e, none, false⟩
  else if e.fails (.openFile File.disable) then ⟨some e, none, false⟩
  else ⟨some (e.create File.disable), none, true⟩

def disableModules (root : List ModuleDir) : List ModuleDir := (forEachModule disableModule root).1

/-- The libraries of a module for the architecture of the device. -/
structure Arch where
  z32 : Option Str
  z64 : Option Str

def arm64 : Arch := ⟨some "zygisk/armeabi-v7a.so".toList, some "zygisk/arm64-v8a.so".toList⟩

/-- `open_fd_safe`, with no descriptor when the file cannot be opened. -/
def ModuleDir.openFdSafe (e : ModuleDir) (path : Str) : Option ℕ :=
  if e.fails (.openFile path) ∨ path ∉ e.files then none else some (e.fd path)

/-- `unlink_at` whose result is not looked at. -/
def ModuleDir.tryUnlink (e : ModuleDir) (path : Str) : ModuleDir :=
  if e.fails (.unlink path) then e else { e with files := e.files.filter (· ≠ path) }

section Collect

variable (arch : Arch) (zygiskEnabled openZygisk : Bool)

/-- What is done with a module that is neither removed nor disabled. -/
def loadModule (e : ModuleDir) : ModuleDir × Option ModuleInfo :=
  let isZygisk := File.zygisk ∈ e.files
  if zygiskEnabled then
    -- Riru and its modules are not compatible with zygisk
    if e.name = lit "riru-core" ∨ File.riru ∈ e.files then (e, none)
    else if openZygisk ∧ isZygisk then
      let z32 := arch.z32.bind e.openFdSafe
      let z64 := arch.z64.bind e.openFdSafe
      (e.tryUnlink File.unloaded, some ⟨e.name, z32, z64⟩)
    else (e, some ⟨e.name, none, none⟩)
  -- Ignore zygisk modules when zygisk is not enabled
  else if isZygisk then (e, none)
  else (e, some ⟨e.name, none, none⟩)

def collectModule (e : ModuleDir) : Visit :=
  if e.fails .openDir then ⟨some e, none, false⟩
  else if File.remove ∈ e.files then
    if e.fails .removeAll then ⟨some e, none, false⟩
    else if e.fails .unlinkDir then ⟨some { e with files := [] }, none, false⟩
    else ⟨none, none, true⟩
  else
    let e := e.tryUnlink File.update
    if File.disable ∈ e.files then ⟨some e, none, true⟩
    else
      let r := loadModule arch zygiskEnabled openZygisk e
      ⟨some r.1, r.2, true⟩

/-- `convert_to_memfd`; after an error it is not tried again. -/
def convertToMemfd (memfd : ℕ → Option ℕ) (useMemfd : Bool) : Option ℕ → Bool × Option ℕ
  | none => (useMemfd, none)
  | some fd =>
    if useMemfd then
      match memfd fd with
      | some m => (true, some m)
      | none => (false, some fd)
    else (false, some fd)

def convertAll (memfd : ℕ → Option ℕ) : Bool → List ModuleInfo → List ModuleInfo
  | _, [] => []
  | useMemfd, m :: ms =>
    let (useMemfd, z32) := convertToMemfd memfd useMemfd m.z32
    let (useMemfd, z64) := convertToMemfd memfd useMemfd m.z64
    { m with z32, z64 } :: convertAll memfd useMemfd ms

def collectModules (memfd : ℕ → Option ℕ) (root : List ModuleDir) : List ModuleInfo :=
  let modules := (forEachModule (collectModule arch zygiskEnabled openZygisk) root).2
  if zygiskEnabled ∧ openZygisk then convertAll memfd true modules else modules

end Collect

/-- The loop goes on behind this entry. -/
def Passes (func : ModuleDir → Visit) (e : ModuleDir) : Prop := e.isListed → (func e).ok

variable {func : ModuleDir → Visit} {l : List ModuleDir} {d e : ModuleDir}

theorem mem_infos {m : ModuleInfo} :
    m ∈ (forEachModule func l).2 ↔
      ∃ e, Before (Passes func) l e ∧ e.isListed ∧ (func e).info = some m := by
  induction l with
  | nil => simp [forEachModule, not_before_nil]
  | cons a l ih =>
    simp only [before_cons, or_and_right, exists_or, exists_eq_left, and_assoc]
    rw [forEachModule]
    by_cases ha : a.isListed
    · by_cases hok : (func a).ok
      · have hp : Passes func a := fun _ => hok
        simp [ha, hok, ih, hp]
      · have hp : ¬ Passes func a := fun h => hok (h ha)
        simp [ha, hok, hp]
    · have hp : Passes func a := fun h => absurd h ha
      simp [ha, ih, hp]

/-- The loop calls the function on this entry. -/
def Visited (func : ModuleDir → Visit) (l : List ModuleDir) (e : ModuleDir) : Prop :=
  Before (Passes func) l e ∧ e.isListed

theorem mem_dirs (hn : l.Nodup) :
    d ∈ (forEachModule func l).1 ↔
      ∃ e ∈ l, Visited func l e ∧ (func e).dir = some d ∨ ¬ Visited func l e ∧ d = e := by
  induction l with
  | nil => simp [forEachModule]
  | cons a l ih =>
    rw [List.nodup_cons] at hn
    have hhead : Visited func (a :: l) a ↔ a.isListed := by
      rw [Visited, before_cons, and_iff_right (Or.inl rfl)]
    have htail {e : ModuleDir} (he : e ∈ l) :
        Visited func (a :: l) e ↔ Passes func a ∧ Visited func l e := by
      have hne : e ≠ a := fun h => hn.1 (h ▸ he)
      rw [Visited, Visited, before_cons, or_iff_right hne, and_assoc]
    -- behind an error everything stays
    have hrest : (∃ e ∈ l, Visited func (a :: l) e ∧ (func e).dir = some d ∨
        ¬ Visited func (a :: l) e ∧ d = e) ↔
        if (a.isListed → (func a).ok) then d ∈ (forEachModule func l).1 else d ∈ l := by
      split_ifs with hp
      · rw [ih hn.2]
        refine exists_congr fun e => and_congr_right fun he => ?_
        rw [htail he, and_iff_right (show Passes func a from hp)]
      · have hno {e : ModuleDir} (he : e ∈ l) : ¬ Visited func (a :: l) e := by
          rw [htail he]
          exact fun h => hp h.1
        constructor
        · rintro ⟨e, he, ⟨hv, -⟩ | ⟨-, rfl⟩⟩
          · exact absurd hv (hno he)
          · exact he
        · intro hd
          exact ⟨d, hd, Or.inr ⟨hno hd, rfl⟩⟩
    rw [List.exists_mem_cons_iff, hrest, hhead, forEachModule]
    by_cases ha : a.isListed
    · by_cases hok : (func a).ok
      · simp [ha, hok]
      · simp [ha, hok]
    · simp [ha]

/-- The module root as a directory listing: no name occurs twice. -/
structure ModuleRoot where
  entries : List ModuleDir
  nodup : (entries.map (·.name)).Nodup

theorem ModuleRoot.eq_of_name (root : ModuleRoot) {e e' : ModuleDir} (he : e ∈ root.entries)
    (he' : e' ∈ root.entries) (h : e.name = e'.name) : e = e' :=
  List.inj_on_of_nodup_map root.nodup he he' h

/-- No operation on this module fails. -/
def ModuleDir.Intact (e : ModuleDir) : Prop := ∀ op, e.fails op = false

def ModuleDir.Enabled (e : ModuleDir) : Prop :=
  File.remove ∉ e.files ∧ File.disable ∉ e.files

def ModuleDir.Compatible (zygiskEnabled : Bool) (e : ModuleDir) : Prop :=
  if zygiskEnabled then e.name ≠ lit "riru-core" ∧ File.riru ∉ e.files
  else File.zygisk ∉ e.files

/-- Both functions do their work on every module on which nothing fails. -/
structure Isolated (arch : Arch) (zygiskEnabled openZygisk : Bool) (memfd : ℕ → Option ℕ)
    (root : ModuleRoot) : Prop where
  disables : ∀ e ∈ root.entries, e.isModule → e.Intact →
    ∃ e' ∈ disableModules root.entries, e'.name = e.name ∧ File.disable ∈ e'.files
  collects : ∀ e ∈ root.entries, e.isModule → e.Intact → e.Enabled → e.Compatible zygiskEnabled →
    ∃ m ∈ collectModules arch zygiskEnabled openZygisk memfd root.entries, m.name = e.name

/-- `disable_modules` ends at this module with an error. -/
def ModuleDir.StopsDisable (e : ModuleDir) : Prop :=
  e.fails .openDir ∨ e.fails (.openFile File.disable)

/-- `collect_modules` ends at this module with an error. -/
def ModuleDir.StopsCollect (e : ModuleDir) : Prop :=
  e.fails .openDir ∨ File.remove ∈ e.files ∧ (e.fails .removeAll ∨ e.fails .unlinkDir)

theorem disableModule_ok : (disableModule e).ok ↔ ¬ e.StopsDisable := by
  unfold disableModule ModuleDir.StopsDisable
  split_ifs with h1 h2 <;> simp [*]

theorem disableModule_dir (h : (disableModule e).dir = some d) :
    d.name = e.name ∧ (File.disable ∈ d.files ↔ (disableModule e).ok ∨ File.disable ∈ e.files) := by
  unfold disableModule at h ⊢
  split_ifs at h ⊢ with h1 h2
  · cases h
    simp
  · cases h
    simp
  · obtain rfl := Option.some.inj h
    unfold ModuleDir.create
    split_ifs with hd
    · simp [hd]
    · simp

theorem ModuleDir.Intact.not_stopsDisable (h : e.Intact) : ¬ e.StopsDisable := by
  simp [StopsDisable, h _]

section Collect

variable {arch : Arch} {zygiskEnabled openZygisk : Bool} {e : ModuleDir}

theorem collectModule_ok :
    (collectModule arch zygiskEnabled openZygisk e).ok ↔ ¬ e.StopsCollect := by
  unfold collectModule ModuleDir.StopsCollect
  dsimp only
  split_ifs <;> simp [*]

theorem mem_tryUnlink {path p : Str} (h : p ≠ path) : p ∈ (e.tryUnlink path).files ↔ p ∈ e.files := by
  unfold ModuleDir.tryUnlink
  split_ifs
  · rfl
  · simp [h]

theorem tryUnlink_name (path : Str) : (e.tryUnlink path).name = e.name := by
  unfold ModuleDir.tryUnlink
  split_ifs <;> rfl

theorem compatible_tryUnlink :
    (e.tryUnlink File.update).Compatible zygiskEnabled ↔ e.Compatible zygiskEnabled := by
  unfold ModuleDir.Compatible
  rw [mem_tryUnlink (by decide), mem_tryUnlink (by decide), tryUnlink_name]

theorem loadModule_info {name : Bytes} :
    (∃ m, (loadModule arch zygiskEnabled openZygisk e).2 = some m ∧ m.name = name) ↔
      e.Compatible zygiskEnabled ∧ e.name = name := by
  unfold loadModule ModuleDir.Compatible
  cases zygiskEnabled with
  | true =>
    rw [if_pos rfl, if_pos rfl, ne_eq, ← not_or]
    split_ifs with h
    · simp only [h, not_true, false_and, exists_false]
    · simp [h]
    · simp [h]
  | false =>
    rw [if_neg Bool.false_ne_true, if_neg Bool.false_ne_true]
    split_ifs <;> simp [*]

theorem collectModule_info (ho : e.fails .openDir = false) {name : Bytes} :
    (∃ m, (collectModule arch zygiskEnabled openZygisk e).info = some m ∧ m.name = name) ↔
      e.Enabled ∧ e.Compatible zygiskEnabled ∧ e.name = name := by
  have hd : File.disable ∈ (e.tryUnlink File.update).files ↔ File.disable ∈ e.files :=
    mem_tryUnlink (by decide)
  have hl : (∃ m, (loadModule arch zygiskEnabled openZygisk (e.tryUnlink File.update)).2 = some m ∧
      m.name = name) ↔ e.Compatible zygiskEnabled ∧ e.name = name := by
    rw [loadModule_info, compatible_tryUnlink, tryUnlink_name]
  unfold collectModule ModuleDir.Enabled
  simp only [ho, hd, Bool.false_eq_true, if_false]
  by_cases h1 : File.remove ∈ e.files
  · simp only [h1, if_true, not_true, false_and, iff_false]
    split_ifs <;> simp
  · by_cases h2 : File.disable ∈ e.files
    · simp [h1, h2]
    · simpa [h1, h2] using hl

end Collect

theorem map_name_convertAll (memfd : ℕ → Option ℕ) (useMemfd : Bool) (ms : List ModuleInfo) :
    (convertAll memfd useMemfd ms).map (·.name) = ms.map (·.name) := by
  induction ms generalizing useMemfd with
  | nil => rfl
  | cons m ms ih => rw [convertAll, List.map_cons, List.map_cons, ih]

theorem exists_name_collectModules {arch : Arch} {zygiskEnabled openZygisk : Bool}
    {memfd : ℕ → Option ℕ} {name : Bytes} :
    (∃ m ∈ collectModules arch zygiskEnabled openZygisk memfd l, m.name = name) ↔
      ∃ m ∈ (forEachModule (collectModule arch zygiskEnabled openZygisk) l).2, m.name = name := by
  have hn : (collectModules arch zygiskEnabled openZygisk memfd l).map (·.name) =
      (forEachModule (collectModule arch zygiskEnabled openZygisk) l).2.map (·.name) := by
    unfold collectModules
    dsimp only
    split_ifs
    · exact map_name_convertAll memfd true _
    · rfl
  have hm : name ∈ (collectModules arch zygiskEnabled openZygisk memfd l).map (·.name) ↔
      name ∈ (forEachModule (collectModule arch zygiskEnabled openZygisk) l).2.map (·.name) := by
    rw [hn]
  simpa only [List.mem_map] using hm

section Iff

variable {arch : Arch} {zygiskEnabled openZygisk : Bool} {memfd : ℕ → Option ℕ} {root : ModuleRoot}
  {e : ModuleDir} (he : e ∈ root.entries) (hi : e.Intact)

include he hi

theorem disables_iff : (∃ e' ∈ disableModules root.entries, e'.name = e.name ∧
    File.disable ∈ e'.files) ↔ Visited disableModule root.entries e ∨ File.disable ∈ e.files := by
  have hn := root.nodup.of_map
  have hok : (disableModule e).ok := disableModule_ok.mpr hi.not_stopsDisable
  constructor
  · rintro ⟨e', he', hname, hd⟩
    obtain ⟨a, ha, ⟨hv, hdir⟩ | ⟨-, rfl⟩⟩ := (mem_dirs hn).mp he'
    · have hae : a = e := root.eq_of_name ha he ((disableModule_dir hdir).1.symm.trans hname)
      rw [hae] at hv
      exact Or.inl hv
    · rw [← root.eq_of_name ha he hname]
      exact Or.inr hd
  · intro h
    by_cases hv : Visited disableModule root.entries e
    · obtain ⟨d, hd⟩ : ∃ d, (disableModule e).dir = some d := by
        unfold disableModule
        split_ifs <;> exact ⟨_, rfl⟩
      obtain ⟨hname, hfile⟩ := disableModule_dir hd
      exact ⟨d, (mem_dirs hn).mpr ⟨e, he, Or.inl ⟨hv, hd⟩⟩, hname, hfile.mpr (Or.inl hok)⟩
    · exact ⟨e, (mem_dirs hn).mpr ⟨e, he, Or.inr ⟨hv, rfl⟩⟩, rfl, h.resolve_left hv⟩

theorem collects_iff (hen : e.Enabled) (hc : e.Compatible zygiskEnabled) :
    (∃ m ∈ collectModules arch zygiskEnabled openZygisk memfd root.entries, m.name = e.name) ↔
      Visited (collectModule arch zygiskEnabled openZygisk) root.entries e := by
  rw [exists_name_collectModules]
  constructor
  · rintro ⟨m, hmem, hname⟩
    obtain ⟨a, hb, ha, hinfo⟩ := mem_infos.mp hmem
    have ho : a.fails .openDir = false := by
      by_contra ho
      rw [Bool.not_eq_false] at ho
      simp [collectModule, ho] at hinfo
    have hae := ((collectModule_info ho).mp ⟨m, hinfo, hname⟩).2.2
    rw [← root.eq_of_name hb.mem he hae]
    exact ⟨hb, ha⟩
  · rintro ⟨hb, hl⟩
    obtain ⟨m, hinfo, hname⟩ : ∃ m, (collectModule arch zygiskEnabled openZygisk e).info = some m ∧
        m.name = e.name := (collectModule_info (hi .openDir)).mpr ⟨hen, hc, rfl⟩
    exact ⟨m, mem_infos.mpr ⟨e, hb, hl, hinfo⟩, hname⟩

omit hi in
/-- A module is not visited if its name is left out or an error comes before it. -/
theorem not_visited_iff {func : ModuleDir → Visit} {stops : ModuleDir → Prop}
    (hfunc : ∀ f, (func f).ok ↔ ¬ stops f) (hm : e.isModule) :
    ¬ Visited func root.entries e ↔ isUtf8 e.name = false ∨
      ∃ pre f post, root.entries = pre ++ f :: post ∧ (f.isListed ∧ stops f) ∧ e ∈ post := by
  have hstops (f : ModuleDir) : ¬ Passes func f ↔ f.isListed ∧ stops f := by
    rw [Passes, Classical.not_imp, hfunc, not_not]
  have hlisted : e.isListed ↔ isUtf8 e.name := by simp [ModuleDir.isListed, hm]
  rw [Visited, not_and_or, not_before_iff root.nodup.of_map he, hlisted, Bool.not_eq_true, or_comm]
  simp only [hstops]

end Iff

/-- A failure stays with its module exactly when every intact module has a name that is listed or
the file already, no module at which `disable_modules` ends is listed before an intact one without
the file, and none at which `collect_modules` ends before an intact one that is to be loaded. -/
theorem isolated_iff (arch : Arch) (zygiskEnabled openZygisk : Bool) (memfd : ℕ → Option ℕ)
    (root : ModuleRoot) :
    Isolated arch zygiskEnabled openZygisk memfd root ↔
      (∀ e ∈ root.entries, e.isModule → e.Intact → isUtf8 e.name = false →
        File.disable ∈ e.files) ∧
      (∀ pre f post, root.entries = pre ++ f :: post → f.isListed → f.StopsDisable →
        ∀ e ∈ post, e.isModule → e.Intact → File.disable ∈ e.files) ∧
      ∀ pre f post, root.entries = pre ++ f :: post → f.isListed → f.StopsCollect →
        ∀ e ∈ post, e.isModule → e.Intact → ¬ (e.Enabled ∧ e.Compatible zygiskEnabled) := by
  have hdis {e : ModuleDir} (he : e ∈ root.entries) (hm : e.isModule) :=
    not_visited_iff he (fun f => disableModule_ok (e := f)) hm
  have hcol {e : ModuleDir} (he : e ∈ root.entries) (hm : e.isModule) :=
    not_visited_iff he (fun f => @collectModule_ok arch zygiskEnabled openZygisk f) hm
  constructor
  · intro h
    refine ⟨fun e he hm hi hname => ?_, ?_, ?_⟩
    · exact ((disables_iff he hi).mp (h.disables e he hm hi)).resolve_left
        ((hdis he hm).mpr (Or.inl hname))
    · intro pre f post hsplit hf hstop e hpost hm hi
      have he : e ∈ root.entries := by simp [hsplit, hpost]
      exact ((disables_iff he hi).mp (h.disables e he hm hi)).resolve_left
        ((hdis he hm).mpr (Or.inr ⟨pre, f, post, hsplit, ⟨hf, hstop⟩, hpost⟩))
    · rintro pre f post hsplit hf hstop e hpost hm hi ⟨hen, hc⟩
      have he : e ∈ root.entries := by simp [hsplit, hpost]
      exact (hcol he hm).mpr (Or.inr ⟨pre, f, post, hsplit, ⟨hf, hstop⟩, hpost⟩)
        ((collects_iff he hi hen hc).mp (h.collects e he hm hi hen hc))
  · rintro ⟨hnames, hd, hc⟩
    refine ⟨fun e he hm hi => ?_, fun e he hm hi hen hcomp => ?_⟩
    · rw [disables_iff he hi, or_iff_not_imp_left, hdis he hm]
      rintro (hname | ⟨pre, f, post, hsplit, ⟨hf, hstop⟩, hpost⟩)
      · exact hnames e he hm hi hname
      · exact hd pre f post hsplit hf hstop e hpost hm hi
    · rw [collects_iff he hi hen hcomp]
      by_contra hv
      obtain hname | ⟨pre, f, post, hsplit, ⟨hf, hstop⟩, hpost⟩ := (hcol he hm).mp hv
      · exact hen.2 (hnames e he hm hi hname)
      · exact hc pre f post hsplit hf hstop e hpost hm hi ⟨hen, hcomp⟩

/-- A module on which the given operations fail. -/
def sampleModule (name : String) (fails : List FileOp) : ModuleDir where
  name := lit name
  isDir := true
  files := ["module.prop".toList]
  fails op := op ∈ fails
  fd _ := 3

def unopenedRoot : ModuleRoot where
  entries := [sampleModule "a" [.openDir], sampleModule "b" []]
  nodup := by decide

/-- The directory of the first of two modules cannot be opened: the second one is neither disabled
nor collected. -/
theorem isolated_unopened : ¬ Isolated arm64 false false (fun _ => none) unopenedRoot ∧
    (disableModules unopenedRoot.entries).map (·.files) =
        [["module.prop".toList], ["module.prop".toList]] ∧
      collectModules arm64 false false (fun _ => none) unopenedRoot.entries = [] := by
  refine ⟨fun h => ?_, by decide⟩
  have hb := h.disables (sampleModule "b" []) (by simp [unopenedRoot]) (by decide) fun op => by
    simp [sampleModule]
  exact absurd hb (by decide)

end Magisk.Module
