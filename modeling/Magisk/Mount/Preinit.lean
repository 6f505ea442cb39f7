import Magisk.Least
import Magisk.Mount.Info

namespace Magisk.Mount

open List

/-- The partitions, in the order of preference at the same file system. -/
inductive PartId where
  | data
  | cache
  | klogdump
  | metadata
  | persist
  deriving DecidableEq, Repr

instance : Fintype PartId where
  elems := {.data, .cache, .klogdump, .metadata, .persist}
  complete p := by cases p <;> decide

def PartId.rank : PartId → ℕ
  | data => 0
  | cache => 1
  | klogdump => 2
  | metadata => 3
  | persist => 4

def PartId.cmp (a b : PartId) : Ordering := compare a.rank b.rank

inductive EncryptType where
  | none
  | block
  | file
  | metadata
  deriving DecidableEq, Repr

/-- The kind of encryption, from `ro.crypto.state`, `ro.crypto.type` and
`ro.crypto.metadata.enabled`. -/
def encryptType (state type enabled : Str) : EncryptType :=
  if state ≠ "encrypted".toList then .none
  else if type = "block".toList then .block
  else if enabled = "true".toList then .metadata
  else .file

def ext4 : Str := "ext4".toList
def f2fs : Str := "f2fs".toList

/-- `Path::parent` has `by-name` or `block` as its last component. -/
def inDeviceDir (source : Str) : Bool :=
  components source ≠ [] ∧
    (components source).dropLast.getLast? ∈ [some "by-name".toList, some "block".toList]

/-- The device mapper takes its major number from the dynamic range. -/
def isDynamic (info : MountInfo Str) : Bool :=
  let maj := (major info.device).toNat
  (240 ≤ maj ∧ maj ≤ 254) ∧ ¬ "/vd".toList <:+: info.source ∧ ¬ "/by-name/".toList <:+: info.source

/-- The partition that is mounted at a target. Data is taken if it is not encrypted or encrypted
by file without metadata. -/
def partAt (encrypt : EncryptType) (target : Str) : Option PartId :=
  if target = "/persist".toList ∨ target = "/mnt/vendor/persist".toList then some .persist
  else if target = "/metadata".toList then some .metadata
  else if target = "/klogdump".toList then some .klogdump
  else if target = "/cache".toList then some .cache
  else if target = "/data".toList then
    if encrypt = .none ∨ encrypt = .file then some .data else none
  else none

def matchedPart (encrypt : EncryptType) (info : MountInfo Str) : Option PartId :=
  if info.root ≠ "/".toList ∨ info.source.head? ≠ some '/' ∨ "/dm-".toList <:+: info.source then none
  else if info.fsType ≠ ext4 ∧ info.fsType ≠ f2fs then none
  else if "rw".toList ∉ info.fsOption.splitOn ',' then none
  else if ¬ inDeviceDir info.source then none
  else if isDynamic info then none
  else partAt encrypt info.target

def matchedInfo (encrypt : EncryptType) (infos : List (MountInfo Str)) :
    List (PartId × MountInfo Str) :=
  infos.filterMap fun info => (matchedPart encrypt info).map fun p => (p, info)

/-- The comparator, on a partition and whether it is ext4. -/
def cmpKey (a b : PartId × Bool) : Ordering :=
  -- metadata is not affected by the kernel bug of f2fs
  if a.1 = .metadata ∧ b.2 ∨ b.1 = .metadata ∧ a.2 then a.1.cmp b.1
  else if a.2 ∧ ¬ b.2 then .lt
  else if ¬ a.2 ∧ b.2 then .gt
  else a.1.cmp b.1

def keyOf (c : PartId × MountInfo Str) : PartId × Bool := (c.1, c.2.fsType = ext4)

def compareInfo (a b : PartId × MountInfo Str) : Ordering := cmpKey (keyOf a) (keyOf b)

def preinitInfo (encrypt : EncryptType) (infos : List (MountInfo Str)) :
    Option (PartId × MountInfo Str) :=
  selectLeast compareInfo (matchedInfo encrypt infos)

/-- `Path::file_name`, which has none for a path that ends in `..`. -/
def fileName (s : Str) : Option Str := (components s).getLast?.filter (· ≠ "..".toList)

def findPreinitDevice (encrypt : EncryptType) (infos : List (MountInfo Str)) : Str :=
  match preinitInfo encrypt infos with
  | none => []
  | some c => (fileName c.2.source).getD []

/-- A partition that can be written to safely. -/
def PartId.safe (p : PartId) : Prop := p = .data ∨ p = .cache ∨ p = .klogdump

instance (p : PartId) : Decidable p.safe := inferInstanceAs (Decidable (_ ∨ _))

theorem cmpKey_swap : ∀ a b, cmpKey b a = (cmpKey a b).swap := by decide

theorem eq_of_cmpKey_eq : ∀ a b, cmpKey a b ≠ .gt → cmpKey b a ≠ .gt →
    a = b ∨ a.1 = .metadata ∧ b = (.metadata, !a.2) := by
  decide

/-- Transitivity fails only between metadata on f2fs, a safe partition on f2fs, and metadata or
persist on ext4. -/
theorem cmpKey_trans : ∀ a b c, cmpKey a b ≠ .gt → cmpKey b c ≠ .gt → cmpKey a c = .gt →
    (.metadata, false) ∈ [a, b, c] ∧ (∃ k ∈ [a, b, c], k.1.safe ∧ k.2 = false) ∧
      ∃ k ∈ [a, b, c], (k.1 = .metadata ∨ k.1 = .persist) ∧ k.2 := by
  decide

theorem cmpKey_circle : ∀ x y : PartId × Bool, x.1.safe → x.2 = false →
    y.1 = .metadata ∨ y.1 = .persist → y.2 →
    cmpKey (.metadata, false) y ≠ .gt ∧ cmpKey y x ≠ .gt ∧ cmpKey (.metadata, false) x = .gt := by
  decide

theorem cmpKey_metadata : ∀ (k : PartId × Bool) (b : Bool), ¬ k.1.safe →
    cmpKey k (.metadata, b) ≠ .lt := by
  decide

theorem cmpKey_safe : ∀ k : PartId × Bool, k.1.safe → k.2 →
    ∀ b, cmpKey (.metadata, b) k = .gt := by
  decide

section Choice

variable (encrypt : EncryptType) (infos : List (MountInfo Str))

/-- A candidate of this partition and file system is mounted. -/
def Mounted (p : PartId) (fsType : Str) : Prop :=
  ∃ c ∈ matchedInfo encrypt infos, c.1 = p ∧ c.2.fsType = fsType

/-- The comparator orders the candidates, and the choice is a least one whose partition and file
system do not depend on the order of the table. -/
structure WellChosen : Prop where
  preorder : PreorderOn compareInfo (matchedInfo encrypt infos)
  same : ∀ infos', infos'.Perm infos →
    (preinitInfo encrypt infos').map (fun c => (c.1, c.2.fsType)) =
      (preinitInfo encrypt infos).map fun c => (c.1, c.2.fsType)
  least : ∀ infos', infos'.Perm infos → ∀ c, preinitInfo encrypt infos' = some c →
    ∀ d ∈ matchedInfo encrypt infos, compareInfo c d ≠ .gt

variable {encrypt infos}

variable {c : PartId × MountInfo Str} {infos' : List (MountInfo Str)}

theorem mem_matchedInfo :
    c ∈ matchedInfo encrypt infos ↔ c.2 ∈ infos ∧ matchedPart encrypt c.2 = some c.1 := by
  simp only [matchedInfo, mem_filterMap, Option.map_eq_some_iff]
  constructor
  · rintro ⟨info, hi, p, hp, rfl⟩
    exact ⟨hi, hp⟩
  · rintro ⟨hi, hp⟩
    exact ⟨c.2, hi, c.1, hp, rfl⟩

theorem fsType_of_matchedPart {info : MountInfo Str} {p : PartId}
    (h : matchedPart encrypt info = some p) : info.fsType = ext4 ∨ info.fsType = f2fs := by
  unfold matchedPart at h
  split_ifs at h with h1 h2
  tauto

theorem fsType_eq_iff (h : c ∈ matchedInfo encrypt infos) (b : Bool) :
    c.2.fsType = (if b then ext4 else f2fs) ↔ (keyOf c).2 = b := by
  have hne : f2fs ≠ ext4 := by decide
  rcases fsType_of_matchedPart (mem_matchedInfo.mp h).2 with he | he
  · cases b <;> simp [keyOf, he, hne.symm]
  · cases b <;> simp [keyOf, he, hne]

theorem mounted_iff {p : PartId} (b : Bool) :
    Mounted encrypt infos p (if b then ext4 else f2fs) ↔
      ∃ c ∈ matchedInfo encrypt infos, keyOf c = (p, b) := by
  refine exists_congr fun c => and_congr_right fun hc => ?_
  rw [fsType_eq_iff hc, Prod.ext_iff]
  rfl

theorem matchedInfo_perm (h : infos'.Perm infos) :
    (matchedInfo encrypt infos').Perm (matchedInfo encrypt infos) := h.filterMap _

theorem exists_perm_preinitInfo (hc : c ∈ matchedInfo encrypt infos)
    (h : ∀ d ∈ matchedInfo encrypt infos, compareInfo d c ≠ .lt) :
    ∃ infos', infos'.Perm infos ∧ preinitInfo encrypt infos' = some c := by
  obtain ⟨hi, hp⟩ := mem_matchedInfo.mp hc
  obtain ⟨l₁, l₂, rfl⟩ := append_of_mem hi
  have hperm : (c.2 :: (l₁ ++ l₂)).Perm (l₁ ++ c.2 :: l₂) := perm_middle.symm
  refine ⟨c.2 :: (l₁ ++ l₂), hperm, ?_⟩
  have hm : matchedInfo encrypt (c.2 :: (l₁ ++ l₂)) = c :: matchedInfo encrypt (l₁ ++ l₂) := by
    simp [matchedInfo, hp]
  rw [preinitInfo, hm, selectLeast, leastFrom_eq_self]
  intro d hd
  apply h d
  rw [← (matchedInfo_perm hperm).mem_iff, hm]
  exact mem_cons_of_mem c hd

theorem preorderOn_iff : PreorderOn compareInfo (matchedInfo encrypt infos) ↔
    (Mounted encrypt infos .metadata f2fs → (∃ p, p.safe ∧ Mounted encrypt infos p f2fs) →
      ¬ Mounted encrypt infos .metadata ext4 ∧ ¬ Mounted encrypt infos .persist ext4) := by
  constructor
  · rintro h hm ⟨p, hp, hx⟩
    obtain ⟨m, hm, hmk⟩ := (mounted_iff false).mp hm
    obtain ⟨x, hx, hxk⟩ := (mounted_iff false).mp hx
    have hno {q : PartId} (hq : q = .metadata ∨ q = .persist) : ¬ Mounted encrypt infos q ext4 := by
      intro hy
      obtain ⟨y, hy, hyk⟩ := (mounted_iff true).mp hy
      have hc := cmpKey_circle (p, false) (q, true) hp rfl hq rfl
      have ht := h.trans m hm y hy x hx
      simp only [compareInfo, hmk, hxk, hyk] at ht
      exact ht hc.1 hc.2.1 hc.2.2
    exact ⟨hno (Or.inl rfl), hno (Or.inr rfl)⟩
  · intro h
    refine ⟨fun a _ b _ => cmpKey_swap _ _, ?_⟩
    intro a ha b hb c hc hab hbc hac
    obtain ⟨hm, ⟨x, hx, hxs, hxf⟩, y, hy, hyp, hye⟩ := cmpKey_trans _ _ _ hab hbc hac
    have hmem {k : PartId × Bool} (hk : k ∈ [keyOf a, keyOf b, keyOf c]) :
        ∃ d ∈ matchedInfo encrypt infos, keyOf d = k := by
      simp only [mem_cons, not_mem_nil, or_false] at hk
      rcases hk with rfl | rfl | rfl
      · exact ⟨a, ha, rfl⟩
      · exact ⟨b, hb, rfl⟩
      · exact ⟨c, hc, rfl⟩
    have hx' : Mounted encrypt infos x.1 f2fs :=
      (mounted_iff false).mpr (hxf ▸ hmem hx)
    obtain ⟨hme, hpe⟩ := h ((mounted_iff false).mpr (hmem hm)) ⟨x.1, hxs, hx'⟩
    have hy' : Mounted encrypt infos y.1 ext4 := (mounted_iff true).mpr (hye ▸ hmem hy)
    rcases hyp with hyp | hyp
    · exact hme (hyp ▸ hy')
    · exact hpe (hyp ▸ hy')

theorem kind_eq {c d : PartId × MountInfo Str} (hc : c ∈ matchedInfo encrypt infos)
    (hd : d ∈ matchedInfo encrypt infos) (h : keyOf c = keyOf d) :
    (c.1, c.2.fsType) = (d.1, d.2.fsType) := by
  have hp : (keyOf c).1 = (keyOf d).1 := congrArg Prod.fst h
  have hf := (fsType_eq_iff hc (keyOf c).2).mpr rfl
  have hf' := (fsType_eq_iff hd (keyOf c).2).mpr (congrArg Prod.snd h).symm
  rw [hf, hf']
  exact congrArg (·, _) hp

theorem mem_of_preinitInfo (hperm : infos'.Perm infos) (hc : preinitInfo encrypt infos' = some c) :
    c ∈ matchedInfo encrypt infos :=
  (matchedInfo_perm hperm).subset (selectLeast_eq_some hc)

theorem le_of_preinitInfo (h : PreorderOn compareInfo (matchedInfo encrypt infos))
    (hperm : infos'.Perm infos)
    (hc : preinitInfo encrypt infos' = some c) :
    ∀ d ∈ matchedInfo encrypt infos, compareInfo c d ≠ .gt := by
  have hp : (matchedInfo encrypt infos').Perm (matchedInfo encrypt infos) := matchedInfo_perm hperm
  intro d hd
  exact selectLeast_le (h.of_subset hp.subset) hc (hp.symm.subset hd)

theorem preinitInfo_eq_none_iff : preinitInfo encrypt infos = none ↔
    matchedInfo encrypt infos = [] := by
  unfold preinitInfo
  cases matchedInfo encrypt infos <;> simp [selectLeast]

/-- Two least candidates are of one kind, if metadata on both file systems leaves a better one. -/
theorem kind_eq_of_least (hboth : Mounted encrypt infos .metadata f2fs →
      Mounted encrypt infos .metadata ext4 → ∃ p, p.safe ∧ Mounted encrypt infos p ext4)
    {c d : PartId × MountInfo Str} (hc : c ∈ matchedInfo encrypt infos)
    (hd : d ∈ matchedInfo encrypt infos)
    (hcl : ∀ e ∈ matchedInfo encrypt infos, compareInfo c e ≠ .gt)
    (hdl : ∀ e ∈ matchedInfo encrypt infos, compareInfo d e ≠ .gt) :
    (c.1, c.2.fsType) = (d.1, d.2.fsType) := by
  rcases eq_of_cmpKey_eq _ _ (hcl d hd) (hdl c hc) with h | ⟨hm, hk⟩
  · exact kind_eq hc hd h
  · have hck : keyOf c = (.metadata, (keyOf c).2) := Prod.ext hm rfl
    have hmounted (b : Bool) : ∃ e ∈ matchedInfo encrypt infos, keyOf e = (.metadata, b) := by
      rcases Bool.eq_or_eq_not b (keyOf c).2 with rfl | rfl
      · exact ⟨c, hc, hck⟩
      · exact ⟨d, hd, hk⟩
    obtain ⟨p, hp, hs⟩ :=
      hboth ((mounted_iff false).mpr (hmounted _)) ((mounted_iff true).mpr (hmounted _))
    obtain ⟨e, he, hek⟩ := (mounted_iff true).mp hs
    have hgt : compareInfo c e = .gt := by
      rw [compareInfo, hek, hck]
      exact cmpKey_safe (p, true) hp rfl _
    exact absurd hgt (hcl e he)

/-- With metadata on both file systems and nothing better, the order of the table decides. -/
theorem exists_safe_of_same (hpre : PreorderOn compareInfo (matchedInfo encrypt infos))
    (hsame : ∀ infos', infos'.Perm infos →
      (preinitInfo encrypt infos').map (fun c => (c.1, c.2.fsType)) =
        (preinitInfo encrypt infos).map fun c => (c.1, c.2.fsType))
    (hf : Mounted encrypt infos .metadata f2fs) (he : Mounted encrypt infos .metadata ext4) :
    ∃ p, p.safe ∧ Mounted encrypt infos p ext4 := by
  by_contra hno
  have hchar : ∀ d ∈ matchedInfo encrypt infos, ¬ (keyOf d).1.safe := by
    intro d hd hs
    have hd' : Mounted encrypt infos d.1 (if (keyOf d).2 then ext4 else f2fs) :=
      (mounted_iff _).mpr ⟨d, hd, rfl⟩
    cases hb : (keyOf d).2 with
    | true =>
      rw [hb] at hd'
      exact hno ⟨d.1, hs, hd'⟩
    | false =>
      rw [hb] at hd'
      exact (preorderOn_iff.mp hpre hf ⟨d.1, hs, hd'⟩).1 he
  -- a metadata candidate at the head of the table is chosen
  have hfirst (b : Bool) (hb : Mounted encrypt infos .metadata (if b then ext4 else f2fs)) :
      (preinitInfo encrypt infos).map (fun c => (c.1, c.2.fsType)) =
        some (.metadata, if b then ext4 else f2fs) := by
    obtain ⟨c, hc, hk⟩ := (mounted_iff b).mp hb
    obtain ⟨infos', hperm, hc'⟩ := exists_perm_preinitInfo hc fun d hd => by
      rw [compareInfo, hk]
      exact cmpKey_metadata _ b (hchar d hd)
    have hp : (keyOf c).1 = .metadata := congrArg Prod.fst hk
    rw [← hsame infos' hperm, hc', Option.map_some, (fsType_eq_iff hc b).mpr (congrArg Prod.snd hk)]
    exact congrArg (fun p => some (p, _)) hp
  have h := (hfirst false hf).symm.trans (hfirst true he)
  exact absurd h (by decide)

end Choice

/-- The choice is right exactly when, with metadata on f2fs mounted, no safe partition on f2fs
stands beside metadata or persist on ext4, and metadata on ext4 as well comes with a safe
partition on ext4. -/
theorem wellChosen_iff (encrypt : EncryptType) (infos : List (MountInfo Str)) :
    WellChosen encrypt infos ↔
      (Mounted encrypt infos .metadata f2fs →
        ((∃ p, p.safe ∧ Mounted encrypt infos p f2fs) →
          ¬ Mounted encrypt infos .metadata ext4 ∧ ¬ Mounted encrypt infos .persist ext4) ∧
        (Mounted encrypt infos .metadata ext4 → ∃ p, p.safe ∧ Mounted encrypt infos p ext4)) := by
  constructor
  · intro h hf
    exact ⟨preorderOn_iff.mp h.preorder hf, exists_safe_of_same h.preorder h.same hf⟩
  · intro h
    have hpre : PreorderOn compareInfo (matchedInfo encrypt infos) :=
      preorderOn_iff.mpr fun hf => (h hf).1
    refine ⟨hpre, ?_, fun infos' hperm c hc => le_of_preinitInfo hpre hperm hc⟩
    intro infos' hperm
    cases hc : preinitInfo encrypt infos' with
    | none =>
      have hnil := preinitInfo_eq_none_iff.mp hc
      have hp : (matchedInfo encrypt infos').Perm (matchedInfo encrypt infos) :=
        matchedInfo_perm hperm
      rw [hnil] at hp
      rw [preinitInfo_eq_none_iff.mpr hp.nil_eq.symm]
    | some c =>
      cases hd : preinitInfo encrypt infos with
      | none =>
        have hm := mem_of_preinitInfo hperm hc
        rw [preinitInfo_eq_none_iff.mp hd] at hm
        cases hm
      | some d =>
        refine congrArg some (kind_eq_of_least (fun hf => (h hf).2) (mem_of_preinitInfo hperm hc)
          (mem_of_preinitInfo (List.Perm.refl _) hd) (le_of_preinitInfo hpre hperm hc)
          (le_of_preinitInfo hpre (List.Perm.refl _) hd))

/-- A partition mounted read-write from a block device. -/
def blockMount (target fsType source : String) : MountInfo Str where
  id := 40
  parent := 1
  device := makedev 8 2
  root := "/".toList
  target := target.toList
  vfsOption := "rw".toList
  shared := 0
  master := 0
  propagationFrom := 0
  unbindable := false
  fsType := fsType.toList
  source := source.toList
  fsOption := "rw".toList

def metadataF2fs : MountInfo Str := blockMount "/metadata" "f2fs" "/dev/block/sda2"
def persistExt4 : MountInfo Str := blockMount "/persist" "ext4" "/dev/block/sda3"
def dataF2fs : MountInfo Str := blockMount "/data" "f2fs" "/dev/block/sda4"

/-- Each of three partitions is chosen in some order, and each comes after another one. -/
theorem preinitInfo_circle : ¬ WellChosen .none [metadataF2fs, dataF2fs, persistExt4] ∧
    findPreinitDevice .none [metadataF2fs, dataF2fs, persistExt4] = "sda3".toList ∧
      findPreinitDevice .none [dataF2fs, persistExt4, metadataF2fs] = "sda2".toList ∧
      findPreinitDevice .none [persistExt4, metadataF2fs, dataF2fs] = "sda4".toList ∧
      compareInfo (.persist, persistExt4) (.metadata, metadataF2fs) = .gt ∧
      compareInfo (.metadata, metadataF2fs) (.data, dataF2fs) = .gt ∧
      compareInfo (.data, dataF2fs) (.persist, persistExt4) = .gt := by
  refine ⟨fun h => ?_, by decide⟩
  exact h.least _ (List.Perm.refl _) (.persist, persistExt4) (by decide) (.metadata, metadataF2fs)
    (by decide) (by decide)

end Magisk.Mount
