import Magisk.Sepolicy.Rules

namespace Magisk.Sepolicy

open List

structure Xperm where
  low : UInt16
  high : UInt16
  reset : Bool
  deriving DecidableEq, Repr

def ioctlDriver (x : UInt16) : ℕ := x.toNat >>> 8 &&& 0xff
def ioctlFunc (x : UInt16) : ℕ := x.toNat &&& 0xff

/-- `for (int i = lo; i <= hi; ++i)` with `xperm_set` or `xperm_clear`. -/
def xpermLoop (v : Bool) (lo hi : ℕ) (perms : UInt8 → Bool) : UInt8 → Bool :=
  (List.range' lo (hi + 1 - lo)).foldl (fun perms i => Function.update perms (UInt8.ofNat i) v) perms

def newDriverNode : Datum := ⟨0, some ⟨.ioctlDriver, 0, fun _ => false⟩⟩
def newFuncNode (driver : UInt8) : Datum := ⟨0, some ⟨.ioctlFunction, driver, fun _ => false⟩⟩

def Datum.mapPerms (f : (UInt8 → Bool) → UInt8 → Bool) (d : Datum) : Datum :=
  { d with xperms := d.xperms.map fun x => { x with perms := f x.perms } }

def inList (i : ℕ) (nodes : List Datum) : Bool := nodes.any fun d => d.slot = some i

/-- A change to the node in `node_list[i]`. -/
def onSlot (i : ℕ) (f : (UInt8 → Bool) → UInt8 → Bool) (nodes : List Datum) : List Datum :=
  nodes.map fun d => if d.slot = some i then d.mapPerms f else d

/-- `node_list[i]`, inserted when there is none. -/
def ensure (i : ℕ) (node : Datum) (nodes : List Datum) : List Datum :=
  if inList i nodes then nodes else node :: nodes

/-- The nodes of a key after the reset: the function nodes are removed, and the driver node is
cleared and then filled. -/
def resetNodes (nodes : List Datum) : List Datum :=
  let nodes := nodes.filter fun d => !d.slot.any (· < 256)
  let nodes := onSlot 256 (fun _ _ => false) nodes
  onSlot 256 (fun _ _ => true) (ensure 256 newDriverNode nodes)

/-- The nodes of a key after `add_xperm_rule`; `node_list[256]` is the driver node. -/
def addXpermNodes (p : Xperm) (nodes : List Datum) : List Datum :=
  let driver := UInt8.ofNat (ioctlDriver p.low)
  if !p.reset then
    if ioctlDriver p.low ≠ ioctlDriver p.high then
      onSlot 256 (xpermLoop true (ioctlDriver p.low) (ioctlDriver p.high))
        (ensure 256 newDriverNode nodes)
    else
      onSlot driver.toNat (xpermLoop true (ioctlFunc p.low) (ioctlFunc p.high))
        (ensure driver.toNat (newFuncNode driver) nodes)
  else
    let nodes := resetNodes nodes
    if ioctlDriver p.low ≠ ioctlDriver p.high then
      onSlot 256 (xpermLoop false (ioctlDriver p.low) (ioctlDriver p.high)) nodes
    else
      -- fill the func perms
      let nodes := ensure driver.toNat ((newFuncNode driver).mapPerms fun _ _ => true) nodes
      let nodes := onSlot 256 (fun perms => Function.update perms driver false) nodes
      onSlot driver.toNat (xpermLoop false (ioctlFunc p.low) (ioctlFunc p.high)) nodes

theorem slot_mapPerms (f : (UInt8 → Bool) → UInt8 → Bool) (d : Datum) :
    (d.mapPerms f).slot = d.slot := by
  obtain ⟨data, _ | x⟩ := d <;> rfl

theorem slot_newDriverNode : newDriverNode.slot = some 256 := rfl

theorem slot_newFuncNode (driver : UInt8) : (newFuncNode driver).slot = some driver.toNat := rfl

theorem slots_onSlot (i : ℕ) (f : (UInt8 → Bool) → UInt8 → Bool) (nodes : List Datum) :
    (onSlot i f nodes).filterMap Datum.slot = nodes.filterMap Datum.slot := by
  rw [onSlot, filterMap_map]
  congr 1
  funext d
  simp only [Function.comp_apply]
  split_ifs
  · exact slot_mapPerms f d
  · rfl

variable {i hi : ℕ} {node : Datum} {p : Xperm} (x : UInt16) (nodes : List Datum)

theorem nodup_ensure {nodes : List Datum} (hi : node.slot = some i)
    (h : (nodes.filterMap Datum.slot).Nodup) :
    ((ensure i node nodes).filterMap Datum.slot).Nodup := by
  unfold ensure
  split_ifs with hl
  · exact h
  · rw [filterMap_cons_some hi, nodup_cons]
    refine ⟨fun hm => hl ?_, h⟩
    obtain ⟨d, hd, hs⟩ := mem_filterMap.mp hm
    exact List.any_eq_true.mpr ⟨d, hd, decide_eq_true hs⟩

theorem nodup_resetNodes {nodes : List Datum} (h : (nodes.filterMap Datum.slot).Nodup) :
    ((resetNodes nodes).filterMap Datum.slot).Nodup := by
  have hf : ((nodes.filter fun d => !d.slot.any (· < 256)).filterMap Datum.slot).Nodup :=
    h.sublist (List.Sublist.filterMap _ filter_sublist)
  rw [resetNodes, slots_onSlot]
  apply nodup_ensure rfl
  rwa [slots_onSlot]

theorem nodup_addXpermNodes (p : Xperm) {nodes : List Datum}
    (h : (nodes.filterMap Datum.slot).Nodup) :
    ((addXpermNodes p nodes).filterMap Datum.slot).Nodup := by
  unfold addXpermNodes
  split_ifs
  · rw [slots_onSlot]
    exact nodup_ensure rfl h
  · rw [slots_onSlot]
    exact nodup_ensure (slot_newFuncNode _) h
  · rw [slots_onSlot]
    exact nodup_resetNodes h
  · rw [slots_onSlot, slots_onSlot]
    exact nodup_ensure ((slot_mapPerms _ _).trans (slot_newFuncNode _)) (nodup_resetNodes h)

inductive XpermEffect where
  | allowed
  | auditallow
  | dontaudit
  deriving DecidableEq, Repr

def XpermEffect.specified : XpermEffect → Specified
  | allowed => .xpermsAllowed
  | auditallow => .xpermsAuditallow
  | dontaudit => .xpermsDontaudit

def xpermKey (src tgt : TypeDatum) (cls : ClassDatum) (effect : XpermEffect) : Key :=
  ⟨src.key, tgt.key, cls.key, effect.specified⟩

theorem addXpermNodes_ok (src tgt : TypeDatum) (cls : ClassDatum) (effect : XpermEffect)
    (p : Xperm) {nodes : List Datum} (h : NodesOk (xpermKey src tgt cls effect) nodes) :
    NodesOk (xpermKey src tgt cls effect) (addXpermNodes p nodes) := by
  refine ⟨fun ha => ?_, fun hx => nodup_addXpermNodes p (h.2 hx)⟩
  cases effect <;> exact absurd ha Bool.false_ne_true

def xpermsIoctlVersion : ℕ := 30

section AddXpermRule

variable (db : Policydb) (p : Xperm) (effect : XpermEffect)

def addXpermKey (src tgt : TypeDatum) (h : Avtab) (cls : ClassDatum) : Avtab :=
  h.update (xpermKey src tgt cls effect)
    (addXpermNodes p (h.search (xpermKey src tgt cls effect)))
    (addXpermNodes_ok src tgt cls effect p (h.ok _))

def addXpermCls (src : TypeDatum) (cls : Option ClassDatum) (h : Avtab) (tgt : TypeDatum) : Avtab :=
  match cls with
  | none => (db.classes.map Prod.snd).foldl (addXpermKey p effect src tgt) h
  | some cls => addXpermKey p effect src tgt h cls

def addXpermTgt (tgt : Option TypeDatum) (cls : Option ClassDatum) (h : Avtab) (src : TypeDatum) :
    Avtab :=
  match tgt with
  | none => db.attrs.foldl (addXpermCls db p effect src cls) h
  | some tgt => addXpermCls db p effect src cls h tgt

/-- `add_xperm_rule`, with null pointers for what matches all. -/
def addXpermRule (src tgt : Option TypeDatum) (cls : Option ClassDatum) (h : Avtab) : Avtab :=
  if db.policyvers < xpermsIoctlVersion then h
  else
    match src with
    | none => db.attrs.foldl (addXpermTgt db p effect tgt cls) h
    | some src => addXpermTgt db p effect tgt cls h src

end AddXpermRule

/-- The checks of `add_xperm_rule` on names. -/
def resolveXperm (db : Policydb) (s t c : Str) :
    Option (Option TypeDatum × Option TypeDatum × Option ClassDatum) := do
  let src ← findOrAll db.types s
  let tgt ← findOrAll db.types t
  let cls ← findOrAll db.classes c
  return (src, tgt, cls)

/-- `add_xperm_rule` on names, which warns and does nothing when one of them does not exist. -/
def addXpermNames (effect : XpermEffect) (db : Policydb) (n : Str × Str × Str × Xperm) : Policydb :=
  match resolveXperm db n.1 n.2.1 n.2.2.1 with
  | none => db
  | some (src, tgt, cls) =>
    { db with teAvtab := addXpermRule db n.2.2.2 effect src tgt cls db.teAvtab }

/-- `expand` over the three vectors of names and the extended permissions. -/
def expandXperm (effect : XpermEffect) (db : Policydb) (src tgt cls : List Str)
    (xperm : List Xperm) : Policydb :=
  ((expandVec src).flatMap fun s => (expandVec tgt).flatMap fun t =>
    (expandVec cls).flatMap fun c => xperm.map fun x => (s, t, c, x)).foldl
      (addXpermNames effect) db

def allowxperm := expandXperm .allowed
def auditallowxperm := expandXperm .auditallow
def dontauditxperm := expandXperm .dontaudit

def Datum.bits (d : Datum) : UInt8 → Bool :=
  match d.xperms with
  | some x => x.perms
  | none => fun _ => false

/-- A node in `node_list[i]` has the bit. -/
def SlotBit (nodes : List Datum) (i : ℕ) (b : UInt8) : Prop :=
  ∃ d ∈ nodes, d.slot = some i ∧ d.bits b

/-- The driver node has the bit of the code's driver, or the function node of the driver has
the bit of its function. -/
def Permitted (nodes : List Datum) (code : UInt16) : Prop :=
  SlotBit nodes 256 (UInt8.ofNat (ioctlDriver code)) ∨
    SlotBit nodes (ioctlDriver code) (UInt8.ofNat (ioctlFunc code))

/-- The codes that a rule is about as the table can say it: when the drivers differ, all codes
of the drivers. -/
def Xperm.Rounded (p : Xperm) (code : UInt16) : Prop :=
  if ioctlDriver p.low = ioctlDriver p.high then p.low ≤ code ∧ code ≤ p.high
  else ioctlDriver p.low ≤ ioctlDriver code ∧ ioctlDriver code ≤ ioctlDriver p.high

theorem ioctlDriver_eq : ioctlDriver x = x.toNat / 256 := by
  have h := x.toNat_lt
  rw [ioctlDriver, Nat.shiftRight_eq_div_pow, show (0xff : ℕ) = 2 ^ 8 - 1 by rfl,
    Nat.and_two_pow_sub_one_eq_mod]
  omega

theorem ioctlFunc_eq : ioctlFunc x = x.toNat % 256 := by
  rw [ioctlFunc, show (0xff : ℕ) = 2 ^ 8 - 1 by rfl, Nat.and_two_pow_sub_one_eq_mod]

theorem ioctlDriver_lt : ioctlDriver x < 256 := by
  have h := x.toNat_lt
  rw [ioctlDriver_eq]
  omega

theorem ioctlFunc_lt : ioctlFunc x < 256 := by
  rw [ioctlFunc_eq]
  omega

theorem mem_range_iff (h : ioctlDriver p.low = ioctlDriver p.high) (code : UInt16) :
    (p.low ≤ code ∧ code ≤ p.high) ↔ ioctlDriver code = ioctlDriver p.low ∧
      ioctlFunc p.low ≤ ioctlFunc code ∧ ioctlFunc code ≤ ioctlFunc p.high := by
  simp only [ioctlDriver_eq, ioctlFunc_eq, UInt16.le_iff_toNat_le] at h ⊢
  omega

theorem foldl_update (v : Bool) (l : List ℕ) (perms : UInt8 → Bool) (b : UInt8) :
    l.foldl (fun perms i => Function.update perms (UInt8.ofNat i) v) perms b =
      if b ∈ l.map UInt8.ofNat then v else perms b := by
  induction l generalizing perms with
  | nil => rfl
  | cons i l ih =>
    rw [foldl_cons, ih, map_cons, Function.update_apply]
    by_cases hb : b = UInt8.ofNat i
    · simp [hb]
    · simp [hb]

theorem xpermLoop_apply (v : Bool) (lo : ℕ) (hhi : hi < 256) (perms : UInt8 → Bool)
    (b : UInt8) : xpermLoop v lo hi perms b =
      if lo ≤ b.toNat ∧ b.toNat ≤ hi then v else perms b := by
  have hb : b ∈ (List.range' lo (hi + 1 - lo)).map UInt8.ofNat ↔ lo ≤ b.toNat ∧ b.toNat ≤ hi := by
    rw [List.mem_map]
    constructor
    · rintro ⟨i, hi', rfl⟩
      rw [mem_range'_1] at hi'
      have : (UInt8.ofNat i).toNat = i := UInt8.toNat_ofNat_of_lt' (show i < 256 by omega)
      omega
    · intro h
      exact ⟨b.toNat, mem_range'_1.mpr (by omega), UInt8.ofNat_toNat⟩
  rw [xpermLoop, foldl_update]
  simp only [hb]

theorem bits_mapPerms (f : (UInt8 → Bool) → UInt8 → Bool) {d : Datum}
    (h : d.slot = some i) : (d.mapPerms f).bits = f d.bits := by
  obtain ⟨data, _ | x⟩ := d
  · cases h
  · rfl

theorem inList_iff {nodes : List Datum} : inList i nodes ↔ ∃ d ∈ nodes, d.slot = some i := by
  simp [inList]

theorem slotBit_onSlot_self (i : ℕ) (f : (UInt8 → Bool) → UInt8 → Bool) (nodes : List Datum)
    (b : UInt8) :
    SlotBit (onSlot i f nodes) i b ↔ ∃ d ∈ nodes, d.slot = some i ∧ f d.bits b := by
  constructor
  · rintro ⟨e, he, hs, hb⟩
    obtain ⟨d, hd, rfl⟩ := List.mem_map.mp he
    split_ifs at hs hb with h
    · exact ⟨d, hd, h, bits_mapPerms f h ▸ hb⟩
    · exact absurd hs h
  · rintro ⟨d, hd, hs, hb⟩
    refine ⟨d.mapPerms f, List.mem_map.mpr ⟨d, hd, if_pos hs⟩, (slot_mapPerms f d).trans hs, ?_⟩
    rwa [bits_mapPerms f hs]

theorem slotBit_onSlot_of_ne {i j : ℕ} (h : j ≠ i) (f : (UInt8 → Bool) → UInt8 → Bool)
    (nodes : List Datum) (b : UInt8) : SlotBit (onSlot i f nodes) j b ↔ SlotBit nodes j b := by
  have hne : ∀ d : Datum, d.slot = some j → d.slot ≠ some i := by
    intro d hd hi
    exact h (Option.some.inj (hd.symm.trans hi))
  constructor
  · rintro ⟨e, he, hs, hb⟩
    obtain ⟨d, hd, rfl⟩ := List.mem_map.mp he
    split_ifs at hs hb with hi
    · rw [slot_mapPerms] at hs
      exact absurd hi (hne d hs)
    · exact ⟨d, hd, hs, hb⟩
  · rintro ⟨d, hd, hs, hb⟩
    exact ⟨d, List.mem_map.mpr ⟨d, hd, if_neg (hne d hs)⟩, hs, hb⟩

theorem inList_ensure (hi : node.slot = some i) (nodes : List Datum) :
    ∃ d ∈ ensure i node nodes, d.slot = some i := by
  unfold ensure
  split_ifs with h
  · exact inList_iff.mp h
  · exact ⟨node, by simp, hi⟩

theorem slotBit_ensure {i j : ℕ} (hn : node.slot = some j → ∀ b, node.bits b = false)
    (nodes : List Datum) (b : UInt8) : SlotBit (ensure i node nodes) j b ↔ SlotBit nodes j b := by
  unfold ensure SlotBit
  split_ifs
  · rfl
  · simp only [mem_cons, exists_eq_or_imp, or_iff_right_iff_imp]
    rintro ⟨hs, hb⟩
    rw [hn hs b] at hb
    cases hb

theorem slotBit_setLoop {nodes : List Datum} (h : ∃ d ∈ nodes, d.slot = some i) (lo : ℕ)
    (hhi : hi < 256) (b : UInt8) :
    SlotBit (onSlot i (xpermLoop true lo hi) nodes) i b ↔
      SlotBit nodes i b ∨ (lo ≤ b.toNat ∧ b.toNat ≤ hi) := by
  rw [slotBit_onSlot_self]
  simp only [xpermLoop_apply true lo hhi]
  by_cases hr : lo ≤ b.toNat ∧ b.toNat ≤ hi
  · simp only [hr, and_self, if_true, and_true, or_true, iff_true]
    exact h
  · simp only [hr, if_false, or_false]
    rfl

theorem slotBit_clearLoop (i : ℕ) (nodes : List Datum) (lo : ℕ) (hhi : hi < 256) (b : UInt8) :
    SlotBit (onSlot i (xpermLoop false lo hi) nodes) i b ↔
      SlotBit nodes i b ∧ ¬ (lo ≤ b.toNat ∧ b.toNat ≤ hi) := by
  rw [slotBit_onSlot_self]
  simp only [xpermLoop_apply false lo hhi]
  by_cases hr : lo ≤ b.toNat ∧ b.toNat ≤ hi
  · simp [hr]
  · simp only [hr, if_false, not_false_eq_true, and_true]
    rfl

theorem slotBit_clearBit (i : ℕ) (nodes : List Datum) (a b : UInt8) :
    SlotBit (onSlot i (fun perms => Function.update perms a false) nodes) i b ↔
      SlotBit nodes i b ∧ b ≠ a := by
  rw [slotBit_onSlot_self]
  by_cases hb : b = a
  · simp [hb]
  · simp only [Function.update_apply, hb, if_false, ne_eq, not_false_eq_true, and_true]
    rfl

theorem toNat_driver : (UInt8.ofNat (ioctlDriver x)).toNat = ioctlDriver x :=
  UInt8.toNat_ofNat_of_lt' (ioctlDriver_lt x)

theorem toNat_func : (UInt8.ofNat (ioctlFunc x)).toNat = ioctlFunc x :=
  UInt8.toNat_ofNat_of_lt' (ioctlFunc_lt x)

theorem permitted_add (hp : p.reset = false) (nodes : List Datum) (code : UInt16) :
    Permitted (addXpermNodes p nodes) code ↔ Permitted nodes code ∨ p.Rounded code := by
  have hc : ioctlDriver code ≠ 256 := (ioctlDriver_lt code).ne
  unfold addXpermNodes Permitted Xperm.Rounded
  simp only [hp, Bool.not_false, if_true]
  by_cases hd : ioctlDriver p.low = ioctlDriver p.high
  · rw [if_neg (not_not.mpr hd), if_pos hd, mem_range_iff hd, toNat_driver]
    rw [slotBit_onSlot_of_ne (ioctlDriver_lt p.low).ne',
      slotBit_ensure (by simp [newFuncNode, Datum.bits])]
    by_cases hcode : ioctlDriver code = ioctlDriver p.low
    · have he := inList_ensure (slot_newFuncNode (UInt8.ofNat (ioctlDriver p.low))) nodes
      rw [toNat_driver] at he
      rw [hcode, slotBit_setLoop he _ (ioctlFunc_lt p.high), toNat_func,
        slotBit_ensure (by simp [newFuncNode, Datum.bits])]
      tauto
    · rw [slotBit_onSlot_of_ne hcode, slotBit_ensure (by simp [newFuncNode, Datum.bits])]
      tauto
  · rw [if_pos hd, if_neg hd, slotBit_onSlot_of_ne hc,
      slotBit_setLoop (inList_ensure rfl nodes) _ (ioctlDriver_lt p.high), toNat_driver,
      slotBit_ensure (by simp [newDriverNode, Datum.bits]),
      slotBit_ensure (by simp [newDriverNode, Datum.bits])]
    tauto

theorem slotBit_resetNodes (b : UInt8) : SlotBit (resetNodes nodes) 256 b := by
  rw [resetNodes, slotBit_onSlot_self]
  obtain ⟨d, hd, hs⟩ := inList_ensure slot_newDriverNode
    (onSlot 256 (fun _ _ => false) (nodes.filter fun d => !d.slot.any (· < 256)))
  exact ⟨d, hd, hs, rfl⟩

theorem slot_resetNodes {nodes : List Datum} {d : Datum} (hd : d ∈ resetNodes nodes)
    (hs : d.slot = some i) : 256 ≤ i := by
  have hf : ∀ e ∈ nodes.filter fun d => !d.slot.any (· < 256), e.slot = some i → 256 ≤ i := by
    intro e he hi
    have h := (mem_filter.mp he).2
    rw [hi, Option.any_some, Bool.not_eq_true', decide_eq_false_iff_not] at h
    omega
  have hm : i ∈ (resetNodes nodes).filterMap Datum.slot := mem_filterMap.mpr ⟨d, hd, hs⟩
  rw [resetNodes, slots_onSlot, ensure] at hm
  split_ifs at hm
  · rw [slots_onSlot] at hm
    obtain ⟨e, he, hi⟩ := mem_filterMap.mp hm
    exact hf e he hi
  · rw [filterMap_cons_some slot_newDriverNode, slots_onSlot, mem_cons] at hm
    rcases hm with rfl | hm
    · exact le_rfl
    · obtain ⟨e, he, hi⟩ := mem_filterMap.mp hm
      exact hf e he hi

theorem not_slotBit_resetNodes (hi : i < 256) (b : UInt8) :
    ¬ SlotBit (resetNodes nodes) i b := fun ⟨_, hd, hs, _⟩ =>
  absurd (slot_resetNodes hd hs) (by omega)

theorem slotBit_ensure_full (driver b : UInt8) :
    SlotBit (ensure driver.toNat ((newFuncNode driver).mapPerms fun _ _ => true)
      (resetNodes nodes)) driver.toNat b := by
  have hl : ¬ inList driver.toNat (resetNodes nodes) := by
    rw [inList_iff]
    rintro ⟨d, hd, hs⟩
    have := slot_resetNodes hd hs
    have := driver.toNat_lt
    omega
  rw [ensure, if_neg hl]
  exact ⟨_, mem_cons_self, (slot_mapPerms _ _).trans (slot_newFuncNode driver), rfl⟩

theorem permitted_reset (hp : p.reset) (nodes : List Datum) (code : UInt16) :
    Permitted (addXpermNodes p nodes) code ↔ ¬ p.Rounded code := by
  have hc : ioctlDriver code ≠ 256 := (ioctlDriver_lt code).ne
  have hlow : 256 ≠ ioctlDriver p.low := (ioctlDriver_lt p.low).ne'
  have hdrv := slotBit_resetNodes nodes
  have hfun := not_slotBit_resetNodes nodes (ioctlDriver_lt code)
  unfold addXpermNodes Permitted Xperm.Rounded
  simp only [hp, Bool.not_true, Bool.false_eq_true, if_false]
  by_cases hd : ioctlDriver p.low = ioctlDriver p.high
  · have hfull := slotBit_ensure_full nodes (UInt8.ofNat (ioctlDriver p.low))
    have hslot : ((newFuncNode (UInt8.ofNat (ioctlDriver p.low))).mapPerms fun _ _ => true).slot =
        some (ioctlDriver p.low) := by
      rw [slot_mapPerms, slot_newFuncNode, toNat_driver]
    have hne : ∀ {i}, i ≠ ioctlDriver p.low → ((newFuncNode (UInt8.ofNat
        (ioctlDriver p.low))).mapPerms fun _ _ => true).slot = some i → False := fun hi h =>
      hi (Option.some.inj (h.symm.trans hslot))
    rw [toNat_driver] at hfull
    rw [if_neg (not_not.mpr hd), if_pos hd, mem_range_iff hd, toNat_driver,
      slotBit_onSlot_of_ne hlow, slotBit_clearBit, slotBit_ensure fun h => (hne hlow h).elim]
    simp only [hdrv, true_and]
    by_cases hcode : ioctlDriver code = ioctlDriver p.low
    · rw [hcode, slotBit_clearLoop _ _ _ (ioctlFunc_lt p.high), slotBit_onSlot_of_ne hlow.symm,
        toNat_func]
      simp [hfull]
    · have hb : UInt8.ofNat (ioctlDriver code) ≠ UInt8.ofNat (ioctlDriver p.low) := by
        intro h
        have := congrArg UInt8.toNat h
        rw [toNat_driver, toNat_driver] at this
        exact hcode this
      simp [hb, hcode]
  · rw [if_pos hd, if_neg hd, slotBit_onSlot_of_ne hc, slotBit_clearLoop _ _ _ (ioctlDriver_lt p.high),
      toNat_driver]
    simp only [hdrv, hfun, true_and, or_false]

theorem addXpermRule_concrete {db : Policydb} (hv : xpermsIoctlVersion ≤ db.policyvers) (p : Xperm)
    (effect : XpermEffect) (src tgt : TypeDatum) (cls : ClassDatum) (h : Avtab) :
    addXpermRule db p effect (some src) (some tgt) (some cls) h =
      addXpermKey p effect src tgt h cls := by
  rw [addXpermRule, if_neg (not_lt.mpr hv)]
  rfl

theorem search_addXpermKey (p : Xperm) (effect : XpermEffect) (src tgt : TypeDatum)
    (cls : ClassDatum) (h : Avtab) :
    (addXpermKey p effect src tgt h cls).search (xpermKey src tgt cls effect) =
      addXpermNodes p (h.search (xpermKey src tgt cls effect)) := by
  rw [addXpermKey, Avtab.search_update, if_pos rfl]

theorem rounded_of_mem {code : UInt16} (h : p.low ≤ code ∧ code ≤ p.high) : p.Rounded code := by
  unfold Xperm.Rounded
  split_ifs with hd
  · exact h
  · simp only [ioctlDriver_eq, UInt16.le_iff_toNat_le] at h ⊢
    omega

/-- A rule adds exactly the codes from `low` to `high` when they are of one driver, or when the
other codes of the drivers are permitted already. -/
theorem addXpermRule_range_iff {db : Policydb} (hv : xpermsIoctlVersion ≤ db.policyvers)
    (src tgt : TypeDatum) (cls : ClassDatum) (effect : XpermEffect) {p : Xperm}
    (hp : p.reset = false) :
    (∀ code, Permitted ((addXpermRule db p effect (some src) (some tgt) (some cls)
        db.teAvtab).search (xpermKey src tgt cls effect)) code ↔
      Permitted (db.teAvtab.search (xpermKey src tgt cls effect)) code ∨
        (p.low ≤ code ∧ code ≤ p.high)) ↔
    ioctlDriver p.low = ioctlDriver p.high ∨
      ∀ code, ioctlDriver p.low ≤ ioctlDriver code → ioctlDriver code ≤ ioctlDriver p.high →
        ¬ (p.low ≤ code ∧ code ≤ p.high) →
          Permitted (db.teAvtab.search (xpermKey src tgt cls effect)) code := by
  rw [addXpermRule_concrete hv, search_addXpermKey]
  simp only [permitted_add hp]
  by_cases hd : ioctlDriver p.low = ioctlDriver p.high
  · simp [Xperm.Rounded, hd]
  · have hr : ∀ code, p.Rounded code ↔
        ioctlDriver p.low ≤ ioctlDriver code ∧ ioctlDriver code ≤ ioctlDriver p.high := by
      intro code
      rw [Xperm.Rounded, if_neg hd]
    simp only [hd, false_or]
    constructor
    · intro h code h1 h2 hout
      exact ((h code).mp (.inr ((hr code).mpr ⟨h1, h2⟩))).resolve_right hout
    · intro h code
      refine ⟨?_, Or.imp_right rounded_of_mem⟩
      rintro (hc | hc)
      · exact .inl hc
      · obtain ⟨h1, h2⟩ := (hr code).mp hc
        by_cases hin : p.low ≤ code ∧ code ≤ p.high
        · exact .inr hin
        · exact .inl (h code h1 h2 hin)

theorem addXpermRule_range_socket :
    Permitted ((addXpermRule smallPolicy ⟨0x8910, 0x8926, false⟩ .allowed (some ⟨1, .type⟩)
        (some ⟨2, .type⟩) (some dirClass) smallPolicy.teAvtab).search
        (xpermKey ⟨1, .type⟩ ⟨2, .type⟩ dirClass .allowed)) 0x8915 ↔
      Permitted (smallPolicy.teAvtab.search (xpermKey ⟨1, .type⟩ ⟨2, .type⟩ dirClass .allowed))
          0x8915 ∨ (0x8910 ≤ (0x8915 : UInt16) ∧ (0x8915 : UInt16) ≤ 0x8926) :=
  (addXpermRule_range_iff (by decide) ⟨1, .type⟩ ⟨2, .type⟩ dirClass .allowed rfl).mpr
    (.inl (by decide)) 0x8915

/-- A range over two drivers also permits what comes before it in its first driver. -/
theorem addXpermRule_range_drivers :
    ¬ Permitted (smallPolicy.teAvtab.search (xpermKey ⟨1, .type⟩ ⟨2, .type⟩ dirClass .allowed))
        0x8900 ∧
      ¬ (0x8910 ≤ (0x8900 : UInt16)) ∧
      Permitted ((addXpermRule smallPolicy ⟨0x8910, 0x8a01, false⟩ .allowed (some ⟨1, .type⟩)
        (some ⟨2, .type⟩) (some dirClass) smallPolicy.teAvtab).search
        (xpermKey ⟨1, .type⟩ ⟨2, .type⟩ dirClass .allowed)) 0x8900 := by
  refine ⟨?_, by decide, ?_⟩
  · rintro (⟨d, hd, -⟩ | ⟨d, hd, -⟩) <;> exact absurd hd not_mem_nil
  · rw [addXpermRule_concrete (by decide), search_addXpermKey, permitted_add rfl]
    exact .inr (by unfold Xperm.Rounded; decide)

end Magisk.Sepolicy
