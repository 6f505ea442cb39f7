import Magisk.Sepolicy.Facts

namespace Magisk.Sepolicy

open List Option

theorem toValue_toNat (x : ExtendedPerms) {i : ℕ} (hi : i < 256) :
    (x.toValue i).toNat =
      if x.specified = .ioctlFunction then x.driver.toNat * 256 + i else i * 256 := by
  have hd := x.driver.toNat_lt
  have hor : x.driver.toNat <<< 8 ||| i = x.driver.toNat * 256 + i := by
    rw [← Nat.shiftLeft_add_eq_or_of_lt (show i < 2 ^ 8 by omega), Nat.shiftLeft_eq]
  unfold ExtendedPerms.toValue
  split_ifs
  · rw [hor, UInt16.toNat_ofNat_of_lt' (show _ < 65536 by omega)]
  · rw [Nat.shiftLeft_eq, UInt16.toNat_ofNat_of_lt' (show _ < 65536 by omega)]

theorem item_xperm (x : ExtendedPerms) (r : ℕ × ℕ) : (x.item r).element.xperm false =
    ⟨readValue (hex04 (x.toValue r.1)), readValue (hex04 (x.toValue r.2)), false⟩ := by
  unfold ExtendedPerms.item
  dsimp only
  split_ifs with h
  · rw [← h]
    rfl
  · rfl

/-- The codes of a key as the lines of its nodes are read. -/
def RereadCode (nodes : List Datum) (code : UInt16) : Prop :=
  ∃ d ∈ nodes, d.slot.isSome ∧ ∃ x ∈ d.xperms, ∃ r ∈ xpermRanges x.perms,
    ((x.item r).element.xperm false).Rounded code

theorem slot_eq_some {d : Datum} {i : ℕ} : d.slot = some i ↔ ∃ x ∈ d.xperms,
    x.specified = .ioctlFunction ∧ i = x.driver.toNat ∨ x.specified = .ioctlDriver ∧ i = 256 := by
  obtain ⟨data, _ | ⟨kind, driver, perms⟩⟩ := d
  · simp [Datum.slot]
  · cases kind <;> simp [Datum.slot, eq_comm]

section Codes

variable {nodes : List Datum}

theorem permitted_toValue {d : Datum} {x : ExtendedPerms} (hd : d ∈ nodes) (hs : d.slot.isSome)
    (hx : x ∈ d.xperms) {i : ℕ} (hi : i < 256) (hb : x.perms (UInt8.ofNat i)) :
    Permitted nodes (x.toValue i) := by
  have hv := toValue_toNat x hi
  have hbits : d.bits = x.perms := by
    rw [Datum.bits, mem_def.mp hx]
  obtain ⟨n, hn⟩ := isSome_iff_exists.mp hs
  obtain ⟨x', hx', hkind⟩ := slot_eq_some.mp hn
  obtain rfl := mem_unique hx hx'
  rcases hkind with ⟨hk, rfl⟩ | ⟨hk, rfl⟩
  · rw [if_pos hk] at hv
    have hdrv : ioctlDriver (x.toValue i) = x.driver.toNat := by
      rw [ioctlDriver_eq]
      omega
    have hfun : ioctlFunc (x.toValue i) = i := by
      rw [ioctlFunc_eq]
      omega
    refine .inr ⟨d, hd, hdrv ▸ hn, ?_⟩
    rw [hbits, hfun]
    exact hb
  · rw [if_neg (by simp [hk])] at hv
    have hdrv : ioctlDriver (x.toValue i) = i := by
      rw [ioctlDriver_eq]
      omega
    refine .inl ⟨d, hd, hn, ?_⟩
    rw [hbits, hdrv]
    exact hb

theorem exists_of_permitted {code : UInt16} (h : Permitted nodes code) :
    ∃ d ∈ nodes, d.slot.isSome ∧ ∃ x ∈ d.xperms,
      x.specified = .ioctlDriver ∧ x.perms (UInt8.ofNat (ioctlDriver code)) ∨
      x.specified = .ioctlFunction ∧ x.driver.toNat = ioctlDriver code ∧
        x.perms (UInt8.ofNat (ioctlFunc code)) := by
  have hlt := ioctlDriver_lt code
  rcases h with ⟨d, hd, hs, hb⟩ | ⟨d, hd, hs, hb⟩
  · obtain ⟨x, hx, ⟨-, hi⟩ | ⟨hk, -⟩⟩ := slot_eq_some.mp hs
    · have := x.driver.toNat_lt
      omega
    · rw [Datum.bits, mem_def.mp hx] at hb
      exact ⟨d, hd, by rw [hs]; rfl, x, hx, .inl ⟨hk, hb⟩⟩
  · obtain ⟨x, hx, ⟨hk, hi⟩ | ⟨-, hi⟩⟩ := slot_eq_some.mp hs
    · rw [Datum.bits, mem_def.mp hx] at hb
      exact ⟨d, hd, by rw [hs]; rfl, x, hx, .inr ⟨hk, hi.symm, hb⟩⟩
    · omega

section Digits

variable (h : ∀ code, Permitted nodes code → code ≤ 9) {d : Datum} {x : ExtendedPerms}
  (hd : d ∈ nodes) (hs : d.slot.isSome) (hx : x ∈ d.xperms)
include h hd hs hx

theorem digits_of_permitted_le {i : ℕ} (hi : i < 256) (hb : x.perms (UInt8.ofNat i)) :
    x.specified = .ioctlFunction ∧ x.driver.toNat = 0 ∧ i ≤ 9 := by
  have hle := h _ (permitted_toValue hd hs hx hi hb)
  have hv := toValue_toNat x hi
  rw [UInt16.le_iff_toNat_le, hv] at hle
  have h9 : (9 : UInt16).toNat = 9 := rfl
  obtain ⟨n, hn⟩ := isSome_iff_exists.mp hs
  obtain ⟨x', hx', hkind⟩ := slot_eq_some.mp hn
  obtain rfl := mem_unique hx hx'
  rcases hkind with ⟨hk, rfl⟩ | ⟨hk, rfl⟩
  · rw [if_pos hk] at hle
    exact ⟨hk, by omega, by omega⟩
  · -- the bit of a driver stands for all of its codes
    have hlast : (UInt16.ofNat (i * 256 + 255)).toNat = i * 256 + 255 :=
      UInt16.toNat_ofNat_of_lt' (show _ < 65536 by omega)
    have hdrv : ioctlDriver (UInt16.ofNat (i * 256 + 255)) = i := by
      rw [ioctlDriver_eq]
      omega
    have hperm : Permitted nodes (UInt16.ofNat (i * 256 + 255)) := by
      refine .inl ⟨d, hd, hn, ?_⟩
      rw [Datum.bits, mem_def.mp hx, hdrv]
      exact hb
    have hle' := h _ hperm
    rw [UInt16.le_iff_toNat_le] at hle'
    omega

theorem rounded_item_iff {r : ℕ × ℕ} (hr : r ∈ xpermRanges x.perms) (code : UInt16) :
    ((x.item r).element.xperm false).Rounded code ↔ r.1 ≤ code.toNat ∧ code.toNat ≤ r.2 := by
  obtain ⟨hle, hlt, hset⟩ := xpermRanges_sound hr
  obtain ⟨hk, hdrv, h9⟩ := digits_of_permitted_le h hd hs hx hlt (hset r.2 hle le_rfl)
  have hread : ∀ i ≤ r.2, (readValue (hex04 (x.toValue i))).toNat = i := by
    intro i hi
    have hv := toValue_toNat x (show i < 256 by omega)
    rw [if_pos hk, hdrv, Nat.zero_mul, Nat.zero_add] at hv
    rw [(readValue_hex04 _).2.1.mpr (by omega), hv]
  have hlow := hread r.1 hle
  have hhigh := hread r.2 le_rfl
  rw [item_xperm, Xperm.Rounded]
  dsimp only
  rw [if_pos (by rw [ioctlDriver_eq, ioctlDriver_eq]; omega), UInt16.le_iff_toNat_le,
    UInt16.le_iff_toNat_le, hlow, hhigh]

end Digits

theorem rereadCode_iff_permitted (h : ∀ code, Permitted nodes code → code ≤ 9) (code : UInt16) :
    RereadCode nodes code ↔ Permitted nodes code := by
  constructor
  · rintro ⟨d, hd, hs, x, hx, r, hr, hround⟩
    obtain ⟨hle, hlt, hset⟩ := xpermRanges_sound hr
    obtain ⟨hlow, hhigh⟩ := (rounded_item_iff h hd hs hx hr code).mp hround
    have hb := hset code.toNat hlow hhigh
    have hi : code.toNat < 256 := by omega
    obtain ⟨hk, hdrv, -⟩ := digits_of_permitted_le h hd hs hx hi hb
    have hv := toValue_toNat x hi
    rw [if_pos hk, hdrv, Nat.zero_mul, Nat.zero_add] at hv
    exact UInt16.toNat_inj.mp hv ▸ permitted_toValue hd hs hx hi hb
  · intro hc
    have h9 := UInt16.le_iff_toNat_le.mp (h code hc)
    have h9' : (9 : UInt16).toNat = 9 := rfl
    have hfun : ioctlFunc code = code.toNat := by
      rw [ioctlFunc_eq]
      omega
    obtain ⟨d, hd, hs, x, hx, ⟨hk, hb⟩ | ⟨-, -, hb⟩⟩ := exists_of_permitted hc
    · have hfunc := (digits_of_permitted_le h hd hs hx (ioctlDriver_lt code) hb).1
      rw [hk] at hfunc
      cases hfunc
    · obtain ⟨r, hr, hmem⟩ := xpermRanges_complete hb
      rw [toNat_func, hfun] at hmem
      exact ⟨d, hd, hs, x, hx, r, hr, (rounded_item_iff h hd hs hx hr code).mpr hmem⟩

theorem le_nine_of_rereadCode (h : ∀ code, Permitted nodes code → RereadCode nodes code)
    (code : UInt16) (hc : Permitted nodes code) : code ≤ 9 := by
  obtain ⟨m, hm, hmax⟩ := Set.exists_max_image {c | Permitted nodes c} UInt16.toNat
    (Set.toFinite _) ⟨code, hc⟩
  have hle := hmax code hc
  obtain ⟨d, hd, hs, x, hx, r, hr, hround⟩ := h m hm
  obtain ⟨hlow, hlt, hset⟩ := xpermRanges_sound hr
  -- the end of the range that covers the greatest code is a code itself
  have hend := hmax _ (permitted_toValue hd hs hx hlt (hset r.2 hlow le_rfl))
  obtain ⟨hread, hread9, hdriver⟩ := readValue_hex04 (x.toValue r.2)
  have h9 : (9 : UInt16).toNat = 9 := rfl
  rw [item_xperm, Xperm.Rounded] at hround
  dsimp only at hround
  rw [UInt16.le_iff_toNat_le]
  split_ifs at hround with hdrv
  · have hm2 := UInt16.le_iff_toNat_le.mp hround.2
    omega
  · rw [ioctlDriver_eq, ioctlDriver_eq] at hdrv hround
    simp only [ioctlDriver_eq] at hround
    omega

end Codes

/-- A name that is read as one name, and in full. -/
def Readable (name : Bytes) : Prop :=
  '-' ∉ nameText name ∧ nameText name ∉ keywords.map Prod.fst ∧ name.length ≤ 255

instance (name : Bytes) : Decidable (Readable name) := inferInstanceAs (Decidable (_ ∧ _))

theorem readable_iff {name : Bytes} (h : isIdentifier name) :
    Readable name ↔ IsName (nameText name) ∧ name.length ≤ 255 := by
  rw [isName_nameText_iff h, Readable, and_assoc]

def NamedPolicy.KeyReadable (p : NamedPolicy) (s t c : UInt16) : Prop :=
  (∃ src ∈ p.typeName s, Readable src) ∧ (∃ tgt ∈ p.typeName t, Readable tgt) ∧
    ∃ cls ∈ p.classOf c, Readable cls.1

/-- A permission has a name, a code needs none. -/
def Fact.Named (p : NamedPolicy) : Fact → Prop
  | .perm _ _ c _ bit => ∃ cls ∈ p.classOf c, (cls.2.permName bit).isSome
  | .code .. => True

/-- What can be printed and read again into a policy of version `vers`. -/
def Fact.Readable (p : NamedPolicy) (vers : ℕ) : Fact → Prop
  | .perm s t c _ bit => p.KeyReadable s t c ∧
      ∃ cls ∈ p.classOf c, ∃ name ∈ cls.2.permName bit, Sepolicy.Readable name
  | .code s t c _ x => p.KeyReadable s t c ∧ xpermsIoctlVersion ≤ vers ∧ x ≤ 9

/-- A policy with the same symbols and no rules. -/
def NamedPolicy.target (p : NamedPolicy) (vers : ℕ) : Policydb :=
  { p.toPolicydb with policyvers := vers, teAvtab := Avtab.empty }

/-- The policy after `load_rules` of what `print_rules` prints. -/
def reload (other : OtherMethod → Policydb → Policydb) (p : NamedPolicy) (vers : ℕ) : Policydb :=
  loadRules other (p.target vers) (printRules p)

/-- The table says the same about named permissions and about codes. -/
def SameRules (p : NamedPolicy) (h : Avtab) : Prop :=
  ∀ f : Fact, f.Named p → (h.Has f ↔ p.teAvtab.Has f)

theorem printed_effect (effect : Effect) : effect.specified.printed = .av effect := by
  cases effect <;> rfl

theorem printed_xpermEffect (effect : XpermEffect) : effect.specified.printed = .xperms effect := by
  cases effect <;> rfl

theorem isRule_iff {node : Key × Datum} : isRule node ↔
    (∃ effect : Effect, node.1.specified = effect.specified) ∨
      ∃ effect : XpermEffect, node.1.specified = effect.specified ∧ node.2.slot.isSome := by
  constructor
  · intro h
    unfold isRule at h
    cases hk : node.1.specified <;> simp only [hk, Specified.printed, Bool.false_eq_true] at h
    case allowed => exact .inl ⟨.allowed, rfl⟩
    case auditallow => exact .inl ⟨.auditallow, rfl⟩
    case auditdeny => exact .inl ⟨.auditdeny, rfl⟩
    case xpermsAllowed => exact .inr ⟨.allowed, rfl, h⟩
    case xpermsAuditallow => exact .inr ⟨.auditallow, rfl, h⟩
    case xpermsDontaudit => exact .inr ⟨.dontaudit, rfl, h⟩
  · rintro (⟨effect, h⟩ | ⟨effect, h, hs⟩)
    · simp only [isRule, h, printed_effect]
    · simp only [isRule, h, printed_xpermEffect, hs]

section Nodes

variable (p : NamedPolicy) {key : Key} {d : Datum} {words : List Str}

variable {effect : Effect} {v : UInt16} {name : Bytes} {c : ClassDatum}

theorem printAvtab_av (hk : key.specified = effect.specified) :
    printAvtab p (key, d) = some words ↔ ∃ src tgt cls c, p.typeName key.sourceType = some src ∧
      p.typeName key.targetType = some tgt ∧ p.classOf key.targetClass = some (cls, c) ∧
      printedPerms c effect d.data ≠ [] ∧
      words = avWords effect src tgt cls (printedPerms c effect d.data) := by
  simp only [printAvtab, hk, printed_effect, bind_eq_bind, bind_eq_some_iff,
    ite_none_left_eq_some, some.injEq, Prod.exists]
  constructor
  · rintro ⟨src, hs, tgt, ht, cls, c, hc, h0, rfl⟩
    exact ⟨src, tgt, cls, c, hs, ht, hc, h0, rfl⟩
  · rintro ⟨src, tgt, cls, c, hs, ht, hc, h0, rfl⟩
    exact ⟨src, hs, tgt, ht, cls, c, hc, h0, rfl⟩

theorem printAvtab_xperms {effect : XpermEffect} (hk : key.specified = effect.specified) :
    printAvtab p (key, d) = some words ↔ ∃ src tgt cls c x, p.typeName key.sourceType = some src ∧
      p.typeName key.targetType = some tgt ∧ p.classOf key.targetClass = some (cls, c) ∧
      d.xperms = some x ∧ xpermRanges x.perms ≠ [] ∧
      words = xpermWords effect src tgt cls ((xpermRanges x.perms).map x.item) := by
  simp only [printAvtab, hk, printed_xpermEffect, bind_eq_bind, bind_eq_some_iff,
    ite_none_left_eq_some, some.injEq, Prod.exists]
  constructor
  · rintro ⟨src, hs, tgt, ht, cls, c, hc, x, hx, h0, rfl⟩
    exact ⟨src, tgt, cls, c, x, hs, ht, hc, hx, h0, rfl⟩
  · rintro ⟨src, tgt, cls, c, x, hs, ht, hc, hx, h0, rfl⟩
    exact ⟨src, hs, tgt, ht, cls, c, hc, x, hx, h0, rfl⟩

variable {p}

theorem mem_classes_of_classOf {cls : Bytes × ClassDatum}
    (h : p.classOf v = some cls) : cls ∈ p.classes ∧ cls.2.key = v := by
  refine ⟨mem_of_find?_eq_some h, ?_⟩
  have hv := find?_some h
  rw [decide_eq_true_eq] at hv
  exact hv

theorem mem_types_of_typeName (h : p.typeName v = some name) :
    ∃ t, (name, t) ∈ p.types ∧ t.key = v := by
  obtain ⟨t, ht, hv⟩ := p.typeName_mem h
  exact ⟨t, ht, by rw [TypeDatum.key, hv, UInt16.ofNat_toNat]⟩

theorem mem_perms_of_permName {i : ℕ}
    (h : c.permName i = some name) : ∃ perm, (name, perm) ∈ c.perms ∧ perm.bit.val = i := by
  obtain ⟨⟨name', perm⟩, hf, rfl⟩ := map_eq_some_iff.mp h
  refine ⟨perm, mem_reverse.mp (mem_of_find?_eq_some hf), ?_⟩
  have hbit := find?_some hf
  rwa [decide_eq_true_eq] at hbit

theorem mem_printedPerms {data : BitVec 32} :
    name ∈ printedPerms c effect data ↔
      ∃ bit : Fin 32, effect.has data bit ∧ c.permName bit = some name := by
  have hbit : ∀ i < 32, ((effect.printedData data).getLsbD i ↔ effect.has data i) := by
    intro i hi
    cases effect <;> simp [Effect.printedData, Effect.has, hi]
  simp only [printedPerms, mem_filterMap, mem_range, ite_none_right_eq_some]
  constructor
  · rintro ⟨i, hi, hb, hname⟩
    exact ⟨⟨i, hi⟩, (hbit i hi).mp hb, hname⟩
  · rintro ⟨bit, hb, hname⟩
    exact ⟨bit, bit.isLt, (hbit bit bit.isLt).mpr hb, hname⟩

end Nodes

/-- All permissions of the line are read as names. -/
def LineNames (p : NamedPolicy) (effect : Effect) (c : UInt16) (data : BitVec 32) : Prop :=
  ∀ bit : Fin 32, effect.has data bit → ∀ cls ∈ p.classOf c, ∀ name ∈ cls.2.permName bit,
    IsName (nameText name)

/-- What the line of a node adds to a policy of version `vers`. -/
def NodeAdds (p : NamedPolicy) (vers : ℕ) (node : Key × Datum) : Fact → Prop
  | .perm s t c effect bit => node.1 = ⟨s, t, c, effect.specified⟩ ∧ effect.has node.2.data bit ∧
      (Fact.perm s t c effect bit).Readable p vers ∧ LineNames p effect c node.2.data
  | .code s t c effect code => node.1 = ⟨s, t, c, effect.specified⟩ ∧ p.KeyReadable s t c ∧
      xpermsIoctlVersion ≤ vers ∧ ∃ x ∈ node.2.xperms, ∃ r ∈ xpermRanges x.perms,
        ((x.item r).element.xperm false).Rounded code

section NodeAdds

variable {p : NamedPolicy}

theorem keyReadable_iff {s t c : UInt16} {src tgt : Bytes} {cls : Bytes × ClassDatum}
    (hs : p.typeName s = some src) (ht : p.typeName t = some tgt) (hc : p.classOf c = some cls) :
    p.KeyReadable s t c ↔ (∀ n ∈ [src, tgt, cls.1], IsName (nameText n)) ∧
      ∀ n ∈ [src, tgt, cls.1], n.length ≤ 255 := by
  obtain ⟨_, hsm, -⟩ := mem_types_of_typeName hs
  obtain ⟨_, htm, -⟩ := mem_types_of_typeName ht
  have hcm := (mem_classes_of_classOf hc).1
  have hrs := readable_iff (p.types_symbols.ident _ hsm)
  have hrt := readable_iff (p.types_symbols.ident _ htm)
  have hrc := readable_iff (p.classes_symbols.ident _ hcm)
  simp only [NamedPolicy.KeyReadable, hs, ht, hc, mem_def, some.injEq, exists_eq_left',
    hrs, hrt, hrc, forall_mem_cons, not_mem_nil, false_implies, implies_true, and_true]
  tauto

variable {key : Key} {d : Datum} {words : List Str} (other : OtherMethod → Policydb → Policydb)
  (vers : ℕ)

theorem adds_avNode {effect : Effect} (hk : key.specified = effect.specified)
    (h : printAvtab p (key, d) = some words) :
    Adds other (p.target vers) (printLine words) (NodeAdds p vers (key, d)) := by
  obtain ⟨src, tgt, cls, c, hs, ht, hc, h0, rfl⟩ := (printAvtab_av p hk).mp h
  obtain ⟨s, hsm, hsk⟩ := mem_types_of_typeName hs
  obtain ⟨t, htm, htk⟩ := mem_types_of_typeName ht
  obtain ⟨hcm, hck⟩ := mem_classes_of_classOf hc
  have hsym := p.perms_symbols _ hcm
  have hmem : ∀ name ∈ printedPerms c effect d.data, ∃ perm, (name, perm) ∈ c.perms := by
    intro name hn
    obtain ⟨bit, -, hname⟩ := mem_printedPerms.mp hn
    obtain ⟨perm, hm, -⟩ := mem_perms_of_permName hname
    exact ⟨perm, hm⟩
  have htypes : Symbols (p.target vers).types := p.types_symbols
  have hclasses : Symbols (p.target vers).classes := p.classes_symbols
  have hadds : Adds other (p.target vers) (printLine (avWords effect src tgt cls _)) _ :=
    adds_avWords htypes hclasses hsm htm hcm hsym h0 hmem effect
  have hkey := keyReadable_iff hs ht hc
  refine hadds.congr fun f => ?_
  constructor
  · rintro ⟨hnames, hlen, name, hn, perm, hm, hl, rfl⟩
    rw [hsk, htk, hck]
    obtain ⟨bit, hb, hname⟩ := mem_printedPerms.mp hn
    obtain ⟨perm', hm', hbit⟩ := mem_perms_of_permName hname
    have heq : (name, perm) = (name, perm') :=
      inj_on_of_nodup_map hsym.distinct hm hm' rfl
    obtain ⟨-, rfl⟩ := Prod.mk.inj heq
    obtain rfl : perm.bit = bit := Fin.ext hbit
    simp only [forall_mem_cons] at hnames
    obtain ⟨hns, hnt, hnc, hnp⟩ := hnames
    refine ⟨by rw [← hk], hb, ⟨hkey.mpr ⟨?_, hlen⟩, (cls, c), hc, name, hname, ?_⟩, ?_⟩
    · simp [hns, hnt, hnc]
    · exact (readable_iff (hsym.ident _ hm)).mpr ⟨hnp name hn, hl⟩
    · intro bit' hb' cls' hcls' name' hname'
      obtain rfl := some.inj (hc.symm.trans hcls')
      exact hnp name' (mem_printedPerms.mpr ⟨bit', hb', hname'⟩)
  · cases f with
    | code s' t' c' e code =>
      rintro ⟨rfl, -⟩
      exact absurd hk.symm (effect.specified_ne e)
    | perm s' t' c' e bit =>
      rintro ⟨rfl, hb, ⟨hkr, cls', hcls', name, hname, hread⟩, hline⟩
      obtain rfl := Effect.specified_injective hk
      obtain rfl := some.inj (hc.symm.trans hcls')
      obtain ⟨perm, hm, hbit⟩ := mem_perms_of_permName hname
      obtain ⟨hn3, hlen⟩ := hkey.mp hkr
      refine ⟨?_, hlen, name, mem_printedPerms.mpr ⟨bit, hb, hname⟩, perm, hm, hread.2.2, ?_⟩
      · simp only [forall_mem_cons, not_mem_nil, false_implies, implies_true,
          and_true] at hn3 ⊢
        refine ⟨hn3.1, hn3.2.1, hn3.2.2, fun n hn => ?_⟩
        obtain ⟨bit', hb', hname'⟩ := mem_printedPerms.mp hn
        exact hline bit' hb' _ hc n hname'
      · rw [hsk, htk, hck, Fin.ext hbit]

theorem adds_xpermNode {effect : XpermEffect} (hk : key.specified = effect.specified)
    (h : printAvtab p (key, d) = some words) :
    Adds other (p.target vers) (printLine words) (NodeAdds p vers (key, d)) := by
  obtain ⟨src, tgt, cls, c, x, hs, ht, hc, hx, h0, rfl⟩ := (printAvtab_xperms p hk).mp h
  obtain ⟨s, hsm, hsk⟩ := mem_types_of_typeName hs
  obtain ⟨t, htm, htk⟩ := mem_types_of_typeName ht
  obtain ⟨hcm, hck⟩ := mem_classes_of_classOf hc
  have hitems : ∀ i ∈ (xpermRanges x.perms).map x.item, ∀ v ∈ i.values, IsDigits v := by
    intro i hi
    obtain ⟨r, -, rfl⟩ := List.mem_map.mp hi
    exact isDigits_item x r
  have hne : (xpermRanges x.perms).map x.item ≠ [] := by simpa using h0
  have htypes : Symbols (p.target vers).types := p.types_symbols
  have hclasses : Symbols (p.target vers).classes := p.classes_symbols
  have hadds : Adds other (p.target vers) (printLine (xpermWords effect src tgt cls _)) _ :=
    adds_xpermWords htypes hclasses hsm htm hcm effect hne hitems
  have hkey := keyReadable_iff hs ht hc
  refine hadds.congr fun f => ?_
  constructor
  · rintro ⟨hnames, ⟨hlen, hv⟩, i, hi, code, hround, rfl⟩
    obtain ⟨r, hr, rfl⟩ := List.mem_map.mp hi
    rw [hsk, htk, hck]
    exact ⟨by rw [← hk], hkey.mpr ⟨hnames, hlen⟩, hv, x, hx, r, hr, hround⟩
  · cases f with
    | perm s' t' c' e bit =>
      rintro ⟨rfl, -⟩
      exact absurd hk (e.specified_ne effect)
    | code s' t' c' e code =>
      rintro ⟨rfl, hkr, hv, x', hx', r, hr, hround⟩
      obtain rfl := XpermEffect.specified_injective hk
      obtain rfl := some.inj (hx.symm.trans hx')
      obtain ⟨hnames, hlen⟩ := hkey.mp hkr
      refine ⟨hnames, ⟨hlen, hv⟩, x.item r, List.mem_map_of_mem hr, code, hround, ?_⟩
      rw [hsk, htk, hck]

theorem adds_node {node : Key × Datum}
    (hr : isRule node) (h : printAvtab p node = some words) :
    Adds other (p.target vers) (printLine words) (NodeAdds p vers node) := by
  rcases isRule_iff.mp hr with ⟨effect, hk⟩ | ⟨effect, hk, -⟩
  · exact adds_avNode other vers hk h
  · exact adds_xpermNode other vers hk h

theorem unspaced_ruleLines : ∀ words ∈ ruleLines p, Unspaced words := by
  intro words hw
  obtain ⟨⟨key, d⟩, hn, h⟩ := mem_filterMap.mp hw
  have htype : ∀ {v name}, p.typeName v = some name → isIdentifier name := by
    intro v name hv
    obtain ⟨t, ht, -⟩ := mem_types_of_typeName hv
    exact p.types_symbols.ident _ ht
  have hclass : ∀ {v cls}, p.classOf v = some cls → isIdentifier cls.1 := fun hv =>
    p.classes_symbols.ident _ (mem_classes_of_classOf hv).1
  rcases isRule_iff.mp (mem_filter.mp hn).2 with ⟨effect, hk⟩ | ⟨effect, hk, -⟩
  · obtain ⟨src, tgt, cls, c, hs, ht, hc, -, rfl⟩ := (printAvtab_av p hk).mp h
    apply unspaced_avWords effect
    simp only [forall_mem_cons]
    refine ⟨htype hs, htype ht, hclass hc, fun name hname => ?_⟩
    obtain ⟨bit, -, hbit⟩ := mem_printedPerms.mp hname
    obtain ⟨perm, hm, -⟩ := mem_perms_of_permName hbit
    exact (p.perms_symbols _ (mem_classes_of_classOf hc).1).ident _ hm
  · obtain ⟨src, tgt, cls, c, x, hs, ht, hc, -, -, rfl⟩ := (printAvtab_xperms p hk).mp h
    apply unspaced_xpermWords effect
    · simp only [forall_mem_cons]
      exact ⟨htype hs, htype ht, hclass hc, fun n hn => nomatch hn⟩
    · intro i hi
      obtain ⟨r, -, rfl⟩ := List.mem_map.mp hi
      exact isDigits_item x r

theorem has_reload (f : Fact) :
    (reload other p vers).teAvtab.Has f ↔ ∃ node ∈ p.teAvtab.table.nodes, isRule node ∧
      (printAvtab p node).isSome ∧ NodeAdds p vers node f := by
  have hadds : ∀ node ∈ p.teAvtab.table.nodes.filter isRule, ∀ words,
      printAvtab p node = some words →
        Adds other (p.target vers) (printLine words) (NodeAdds p vers node) :=
    fun node hn words h => adds_node other vers (mem_filter.mp hn).2 h
  obtain ⟨t, he, hf⟩ := adds_filterMap hadds Avtab.empty
  have hload : reload other p vers = { p.target vers with teAvtab := t } := by
    rw [← he, reload, loadRules, printRules, linesFrom_printLines unspaced_ruleLines]
    rfl
  rw [hload]
  simp only [hf, not_has_empty, false_or, mem_filter, and_assoc]

theorem mem_search {h : Avtab} : d ∈ h.search key ↔ (key, d) ∈ h.table.nodes := by
  simp [Avtab.search, MultiMap.find]

theorem vector_of_mem {h : Avtab} (hk : key.specified.isAv)
    (hd : (key, d) ∈ h.table.nodes) : h.vector key = d.data := by
  have hlen := (h.ok key).1 hk
  have hmem := mem_search.mpr hd
  change (h.search key).length ≤ 1 at hlen
  rw [Avtab.vector]
  cases hl : h.search key with
  | nil => simp [hl] at hmem
  | cons e rest =>
    rw [hl, length_cons] at hlen
    obtain rfl : rest = [] := eq_nil_of_length_eq_zero (by omega)
    rw [hl, mem_singleton] at hmem
    rw [hmem, dataOf]

theorem isAv_effect (effect : Effect) : effect.specified.isAv := by
  cases effect <;> rfl

theorem has_reload_perm (s t c : UInt16) (effect : Effect) (bit : Fin 32) :
    (reload other p vers).teAvtab.Has (.perm s t c effect bit) ↔
      p.teAvtab.Has (.perm s t c effect bit) ∧ (Fact.perm s t c effect bit).Readable p vers ∧
        LineNames p effect c (p.teAvtab.vector ⟨s, t, c, effect.specified⟩) := by
  rw [has_reload]
  constructor
  · rintro ⟨⟨key, d⟩, hn, -, -, rfl, hb, hread, hline⟩
    have hv := vector_of_mem (isAv_effect effect) hn
    rw [← hv] at hb hline
    exact ⟨hb, hread, hline⟩
  · rintro ⟨hb, hread, hline⟩
    have hread' := hread
    obtain ⟨⟨⟨src, hs, -⟩, ⟨tgt, ht, -⟩, -⟩, ⟨cls, clz⟩, hc, name, hname, -⟩ := hread'
    -- without a node the vector would have no bit
    cases hl : p.teAvtab.search ⟨s, t, c, effect.specified⟩ with
    | nil =>
      rw [Avtab.Has, Avtab.vector, hl] at hb
      exact absurd hb (effect.has_initialData bit.isLt)
    | cons d rest =>
      have hn : (⟨s, t, c, effect.specified⟩, d) ∈ p.teAvtab.table.nodes :=
        mem_search.mp (by rw [hl]; exact mem_cons_self)
      have hv := vector_of_mem (isAv_effect effect) hn
      rw [Avtab.Has, hv] at hb
      rw [hv] at hline
      have h0 : printedPerms clz effect d.data ≠ [] :=
        ne_nil_of_mem (mem_printedPerms.mpr ⟨bit, hb, hname⟩)
      refine ⟨_, hn, isRule_iff.mpr (.inl ⟨effect, rfl⟩), ?_, rfl, hb, hread, hline⟩
      rw [isSome_iff_exists]
      exact ⟨_, (printAvtab_av p rfl).mpr ⟨src, tgt, cls, clz, hs, ht, hc, h0, rfl⟩⟩

theorem has_reload_code (s t c : UInt16) (effect : XpermEffect) (code : UInt16) :
    (reload other p vers).teAvtab.Has (.code s t c effect code) ↔
      p.KeyReadable s t c ∧ xpermsIoctlVersion ≤ vers ∧
        RereadCode (p.teAvtab.search ⟨s, t, c, effect.specified⟩) code := by
  rw [has_reload]
  constructor
  · rintro ⟨⟨key, d⟩, hn, hr, -, rfl, hkey, hv, x, hx, r, hrange, hround⟩
    have hslot : d.slot.isSome := by
      rcases isRule_iff.mp hr with ⟨e, he⟩ | ⟨e, -, hs⟩
      · exact absurd he.symm (e.specified_ne effect)
      · exact hs
    exact ⟨hkey, hv, d, mem_search.mpr hn, hslot, x, hx, r, hrange, hround⟩
  · rintro ⟨hkey, hv, d, hd, hslot, x, hx, r, hrange, hround⟩
    have hkey' := hkey
    obtain ⟨⟨src, hs, -⟩, ⟨tgt, ht, -⟩, ⟨cls, clz⟩, hc, -⟩ := hkey'
    refine ⟨_, mem_search.mp hd, isRule_iff.mpr (.inr ⟨effect, rfl, hslot⟩), ?_, rfl, hkey, hv, x, hx,
      r, hrange, hround⟩
    rw [isSome_iff_exists]
    exact ⟨_, (printAvtab_xperms p rfl).mpr
      ⟨src, tgt, cls, clz, x, hs, ht, hc, hx, ne_nil_of_mem hrange, rfl⟩⟩

end NodeAdds

/-- The rules are the same after they were printed and loaded exactly when every granted, audited
or silenced permission has readable names, and every code is a single decimal digit under a key
with readable names. -/
theorem sameRules_reload_iff (other : OtherMethod → Policydb → Policydb) (p : NamedPolicy)
    (vers : ℕ) :
    SameRules p (reload other p vers).teAvtab ↔
      ∀ f : Fact, f.Named p → p.teAvtab.Has f → f.Readable p vers := by
  constructor
  · intro h f hnamed hhas
    cases f with
    | perm s t c effect bit =>
      have hf := (h _ hnamed).mpr hhas
      exact ((has_reload_perm other vers s t c effect bit).mp hf).2.1
    | code s t c effect code =>
      have hcode := fun code' (hc : Permitted _ code') => (has_reload_code other vers s t c effect
        code').mp ((h (.code s t c effect code') trivial).mpr hc)
      obtain ⟨hkey, hv, -⟩ := hcode code hhas
      exact ⟨hkey, hv, le_nine_of_rereadCode (fun code' hc => (hcode code' hc).2.2) code hhas⟩
  · intro h f hnamed
    cases f with
    | perm s t c effect bit =>
      rw [has_reload_perm]
      refine ⟨fun hf => hf.1, fun hf => ⟨hf, h _ hnamed hf, ?_⟩⟩
      intro bit' hb' cls hcls name hname
      have hnamed' : (Fact.perm s t c effect bit').Named p :=
        ⟨cls, hcls, isSome_iff_exists.mpr ⟨name, hname⟩⟩
      obtain ⟨-, cls', hcls', name', hname', hread⟩ := h _ hnamed' hb'
      obtain rfl := mem_unique hcls hcls'
      obtain rfl := mem_unique hname hname'
      obtain ⟨perm, hm, -⟩ := mem_perms_of_permName hname
      have hid := (p.perms_symbols _ (mem_classes_of_classOf hcls).1).ident _ hm
      exact ((readable_iff hid).mp hread).1
    | code s t c effect code =>
      rw [has_reload_code]
      have hle : ∀ code', Permitted (p.teAvtab.search ⟨s, t, c, effect.specified⟩) code' →
          code' ≤ 9 := fun code' hc => (h (.code s t c effect code') trivial hc).2.2
      rw [rereadCode_iff_permitted hle]
      constructor
      · exact fun hf => hf.2.2
      · intro hf
        obtain ⟨hkey, hv, -⟩ := h (.code s t c effect code) trivial hf
        exact ⟨hkey, hv, hf⟩

def socketPolicy : NamedPolicy where
  toPolicydb := { smallPolicy with
    teAvtab := addXpermKey ⟨0x8910, 0x8910, false⟩ .allowed ⟨1, .type⟩ ⟨2, .type⟩ Avtab.empty dirClass }
  typeName v := (smallPolicy.types.find? fun e => e.2.value = v.toNat).map Prod.fst
  typeName_mem := by
    intro v name h
    obtain ⟨e, he, rfl⟩ := map_eq_some_iff.mp h
    have hv := find?_some he
    exact ⟨e.2, mem_of_find?_eq_some he, of_decide_eq_true hv⟩
  types_symbols := ⟨by decide +kernel, by decide +kernel⟩
  classes_symbols := ⟨by decide +kernel, by decide +kernel⟩
  perms_symbols := by
    intro e he
    obtain rfl := mem_singleton.mp he
    exact ⟨by decide +kernel, by decide +kernel⟩

theorem permitted_socketPolicy (code : UInt16) :
    Permitted (socketPolicy.teAvtab.search ⟨1, 2, 1, .xpermsAllowed⟩) code ↔ code = 0x8910 := by
  have hempty : ¬ Permitted (Avtab.empty.search (xpermKey ⟨1, .type⟩ ⟨2, .type⟩ dirClass .allowed))
      code := not_has_empty (.code 1 2 1 .allowed code)
  have hp := permitted_add (p := ⟨0x8910, 0x8910, false⟩) rfl
    (Avtab.empty.search (xpermKey ⟨1, .type⟩ ⟨2, .type⟩ dirClass .allowed)) code
  refine hp.trans ?_
  rw [or_iff_right hempty, Xperm.Rounded, if_pos rfl]
  exact ⟨fun h => UInt16.le_antisymm h.2 h.1, fun h => h ▸ ⟨UInt16.le_refl _, UInt16.le_refl _⟩⟩

set_option maxRecDepth 10000 in
/-- The code is printed in hexadecimal digits, and not read as such. -/
theorem sameRules_reload_socket :
    printRules socketPolicy =
        "allowxperm init file dir ioctl \x7b 0x8910 \x7d\n".toList ∧
      socketPolicy.teAvtab.Has (.code 1 2 1 .allowed 0x8910) ∧
      ¬ (reload (fun _ db => db) socketPolicy 30).teAvtab.Has (.code 1 2 1 .allowed 0x8910) := by
  refine ⟨by decide +kernel, (permitted_socketPolicy _).mpr rfl, fun h => ?_⟩
  have hread := ((has_reload_code _ _ _ _ _ _ _).mp h).2.2
  have hle : (0x8910 : UInt16) ≤ 9 := by
    apply le_nine_of_rereadCode _ _ ((permitted_socketPolicy _).mpr rfl)
    intro code hc
    rw [(permitted_socketPolicy code).mp hc]
    exact hread
  exact absurd hle (by decide)

end Magisk.Sepolicy
