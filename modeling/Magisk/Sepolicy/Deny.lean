import Magisk.Sepolicy.Rules

namespace Magisk.Sepolicy

open List

/-- An allow entry for the two types contains the permission. -/
def Grants (db : Policydb) (x y : UInt16) (c : ClassDatum) (p : PermDatum) : Prop :=
  ∃ d ∈ db.teAvtab.search ⟨x, y, c.key, .allowed⟩, d.data.getLsbD p.bit

/-- The pair is allowed the permission, by itself or through attributes. -/
def Allowed (db : Policydb) (s t : TypeDatum) (c : ClassDatum) (p : PermDatum) : Prop :=
  ∃ x ∈ attrsOf db s, ∃ y ∈ attrsOf db t, Grants db x y c p

instance (db : Policydb) (x y : UInt16) (c : ClassDatum) (p : PermDatum) :
    Decidable (Grants db x y c p) :=
  inferInstanceAs (Decidable (∃ d ∈ db.teAvtab.search ⟨x, y, c.key, .allowed⟩, _))

instance (db : Policydb) (s t : TypeDatum) (c : ClassDatum) (p : PermDatum) :
    Decidable (Allowed db s t c p) :=
  inferInstanceAs (Decidable (∃ x ∈ attrsOf db s, ∃ y ∈ attrsOf db t, Grants db x y c p))

theorem grants_iff (db : Policydb) (x y : UInt16) (c : ClassDatum) (p : PermDatum) :
    Grants db x y c p ↔ (db.teAvtab.vector ⟨x, y, c.key, .allowed⟩).getLsbD p.bit := by
  have hl := (db.teAvtab.ok ⟨x, y, c.key, .allowed⟩).1 rfl
  change (db.teAvtab.search ⟨x, y, c.key, .allowed⟩).length ≤ 1 at hl
  unfold Grants Avtab.vector
  cases hn : db.teAvtab.search ⟨x, y, c.key, .allowed⟩ with
  | nil => simp [dataOf, initialData]
  | cons d rest =>
    rw [hn, length_cons] at hl
    obtain rfl : rest = [] := eq_nil_of_length_eq_zero (by omega)
    simp [dataOf]

/-- The entries that one side of a deny goes through: a name stands for its own type, the
match-all operator for every type of the policy. -/
def Visited (db : Policydb) (side : Option Str) (t : TypeDatum) (x : UInt16) : Prop :=
  match side with
  | some _ => x = t.key
  | none => x ∈ db.types.map fun n => n.2.key

instance (db : Policydb) (side : Option Str) (t : TypeDatum) (x : UInt16) :
    Decidable (Visited db side t x) :=
  match side with
  | some _ => inferInstanceAs (Decidable (x = t.key))
  | none => inferInstanceAs (Decidable (x ∈ db.types.map fun n => n.2.key))

section

variable {db : Policydb} {s t : TypeDatum} {cls : ClassDatum} {perm : PermDatum}
  {src tgt : Option Str} {c p : Str}

theorem findOrAll_side {t : TypeDatum} {side : Option Str}
    (h : ∀ n ∈ side, n ≠ [] ∧ hashtabFind db.types n = some t) :
    findOrAll db.types (side.getD []) = some (side.map fun _ => t) := by
  cases side with
  | none => rfl
  | some n =>
    obtain ⟨h0, hf⟩ := h n rfl
    simp [findOrAll, h0, hf]

theorem mem_orAll_side {x : UInt16} {t : TypeDatum} {side : Option Str} :
    x ∈ (orAll (db.types.map Prod.snd) (side.map fun _ => t)).map TypeDatum.key ↔
      Visited db side t x := by
  cases side with
  | none => simp [orAll, Visited]
  | some n => simp [orAll, Visited]

theorem deny_eq (hs : ∀ n ∈ src, n ≠ [] ∧ hashtabFind db.types n = some s)
    (ht : ∀ n ∈ tgt, n ≠ [] ∧ hashtabFind db.types n = some t)
    (hc : c ≠ [] ∧ hashtabFind db.classes c = some cls)
    (hp : p ≠ [] ∧ findPerm cls p = some perm) :
    deny db src.toList tgt.toList [c] [p] = { db with
      teAvtab := editAll (some perm.bit) .allowed true
        (callTuples db (db.types.map Prod.snd)
          ⟨src.map fun _ => s, tgt.map fun _ => t, some cls, some perm.bit⟩) db.teAvtab } := by
  have hr : resolve db ⟨src.getD [], tgt.getD [], c, p⟩ =
      some ⟨src.map fun _ => s, tgt.map fun _ => t, some cls, some perm.bit⟩ := by
    have hcls : findOrAll db.classes c = some (some cls) := by simp [findOrAll, hc.1, hc.2]
    simp [resolve, findOrAll_side hs, findOrAll_side ht, hcls, hp.1, hp.2]
  have hn : expandNames src.toList tgt.toList [c] [p] = [⟨src.getD [], tgt.getD [], c, p⟩] := by
    cases src <;> cases tgt <;> rfl
  unfold deny expandRule
  rw [hn, foldl_cons, foldl_nil, addRuleNames, onNames, hr]
  simp only [addRule_eq .allowed true db
    ⟨src.map fun _ => s, tgt.map fun _ => t, some cls, some perm.bit⟩]
  rfl

theorem mem_callTuples_side {x y : UInt16} :
    (⟨x, y, cls.key, .allowed⟩ : Key) ∈ (callTuples db (db.types.map Prod.snd)
        ⟨src.map fun _ => s, tgt.map fun _ => t, some cls, some perm.bit⟩).map
        (fun n => ruleKey n.1 n.2.1 n.2.2 .allowed) ↔
      Visited db src s x ∧ Visited db tgt t y := by
  rw [← mem_orAll_side, ← mem_orAll_side]
  simp only [callTuples, orAll, map_flatMap, map_cons, map_nil, mem_flatMap,
    mem_singleton, ruleKey, Key.mk.injEq, Effect.specified, and_true, List.mem_map]
  constructor
  · rintro ⟨a, ha, b, hb, rfl, rfl⟩
    exact ⟨⟨a, ha, rfl⟩, b, hb, rfl⟩
  · rintro ⟨⟨a, ha, rfl⟩, b, hb, rfl⟩
    exact ⟨a, ha, b, hb, rfl, rfl⟩

/-- The entries that still grant the permission are those that the deny does not go through. -/
theorem grants_deny (hs : ∀ n ∈ src, n ≠ [] ∧ hashtabFind db.types n = some s)
    (ht : ∀ n ∈ tgt, n ≠ [] ∧ hashtabFind db.types n = some t)
    (hc : c ≠ [] ∧ hashtabFind db.classes c = some cls)
    (hp : p ≠ [] ∧ findPerm cls p = some perm) (x y : UInt16) :
    Grants (deny db src.toList tgt.toList [c] [p]) x y cls perm ↔
      Grants db x y cls perm ∧ ¬ (Visited db src s x ∧ Visited db tgt t y) := by
  rw [deny_eq hs ht hc hp, grants_iff, grants_iff, vector_editAll]
  split_ifs with hk
  · have hv := mem_callTuples_side.mp hk
    have hb : (editData (some perm.bit) true
        (db.teAvtab.vector ⟨x, y, cls.key, .allowed⟩)).getLsbD perm.bit = false := by
      simp [editData]
    exact iff_of_false (by rw [hb]; decide) fun h => h.2 hv
  · have hv := mt mem_callTuples_side.mpr hk
    exact (and_iff_left hv).symm

/-- After a deny the pair is not allowed the permission exactly when every entry that granted
it is one that the deny goes through. -/
theorem deny_iff (hs : ∀ n ∈ src, n ≠ [] ∧ hashtabFind db.types n = some s)
    (ht : ∀ n ∈ tgt, n ≠ [] ∧ hashtabFind db.types n = some t)
    (hc : c ≠ [] ∧ hashtabFind db.classes c = some cls)
    (hp : p ≠ [] ∧ findPerm cls p = some perm) :
    ¬ Allowed (deny db src.toList tgt.toList [c] [p]) s t cls perm ↔
      ∀ x ∈ attrsOf db s, ∀ y ∈ attrsOf db t, Grants db x y cls perm →
        Visited db src s x ∧ Visited db tgt t y := by
  have ha : ∀ u, attrsOf (deny db src.toList tgt.toList [c] [p]) u = attrsOf db u := by
    rw [deny_eq hs ht hc hp]
    intro u
    rfl
  simp only [Allowed, ha, grants_deny hs ht hc hp, not_exists, not_and, Classical.not_imp,
    not_not]

end

/-- Every domain may search. -/
def domainPolicy : Policydb :=
  allow smallPolicy ["domain".toList] ["file".toList] ["dir".toList] ["search".toList]

theorem deny_all_domain : ¬ Allowed
    (deny domainPolicy (none : Option Str).toList (some "file".toList).toList ["dir".toList]
      ["search".toList]) ⟨1, .type⟩ ⟨2, .type⟩ dirClass ⟨0⟩ := by
  apply (deny_iff (by simp) (by decide) (by decide) (by decide)).mpr
  intro x hx y hy hg
  have hx : x ∈ [1, 1, 3] := hx
  have hy : y ∈ [2, 2] := hy
  simp only [mem_cons, not_mem_nil, or_false, or_self, or_self_left] at hx hy
  subst hy
  rcases hx with rfl | rfl
  · exact ⟨by decide, rfl⟩
  · exact ⟨by decide, rfl⟩

/-- A deny for `init` leaves what `init` may do as a `domain`. -/
theorem deny_init_domain : Allowed
    (deny domainPolicy ["init".toList] ["file".toList] ["dir".toList] ["search".toList])
      ⟨1, .type⟩ ⟨2, .type⟩ dirClass ⟨0⟩ := by
  decide

end Magisk.Sepolicy
