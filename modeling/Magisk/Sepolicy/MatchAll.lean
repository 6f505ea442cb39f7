import Magisk.Sepolicy.Rules

namespace Magisk.Sepolicy

open List

def Effect.statement : Effect → Policydb → List Str → List Str → List Str → List Str → Policydb
  | allowed => allow
  | auditallow => Sepolicy.auditallow
  | auditdeny => dontaudit

/-- The call for each type of the policy in place of the match-all operator. -/
def addRuleEach (db : Policydb) (effect : Effect) (invert : Bool) (call : Call) (h : Avtab) :
    Avtab :=
  (orAll (db.types.map Prod.snd) call.src).foldl (fun h s =>
    (orAll (db.types.map Prod.snd) call.tgt).foldl (fun h t =>
      addRule db call.perm effect invert (some s) (some t) call.cls h) h) h

/-- The statement applied to every type individually. -/
def Effect.statementEach (effect : Effect) (db : Policydb) (src tgt cls perm : List Str) :
    Policydb :=
  (expandNames src tgt cls perm).foldl
    (onNames fun db => addRuleEach db effect (effect = .auditdeny)) db

def calls (db : Policydb) (src tgt cls perm : List Str) : List Call :=
  (expandNames src tgt cls perm).filterMap (resolve db)

/-- The calls one after the other, when the match-all operator stands for the types `all`. -/
def runCalls (db : Policydb) (all : List TypeDatum) (effect : Effect) (l : List Call) (h : Avtab) :
    Avtab :=
  l.foldl (fun h call =>
    editAll call.perm effect (effect = .auditdeny) (callTuples db all call) h) h

variable {b : ℕ} {call : Call} (db : Policydb) (effect : Effect)

theorem addRuleEach_eq (invert : Bool) (call : Call) (h : Avtab) :
    addRuleEach db effect invert call h =
      editAll call.perm effect invert (callTuples db (db.types.map Prod.snd) call) h := by
  have hr := fun s t h => addRule_eq effect invert db ⟨some s, some t, call.cls, call.perm⟩ h
  simp only [addRuleEach, hr, editAll, callTuples, orAll, flatMap_cons, flatMap_nil,
    append_nil, foldl_map, foldl_flatMap]

theorem statement_eq (db : Policydb) (src tgt cls perm : List Str) :
    effect.statement db src tgt cls perm =
      { db with teAvtab := runCalls db db.attrs effect (calls db src tgt cls perm) db.teAvtab } := by
  have hs : effect.statement = expandRule effect (effect = .auditdeny) := by cases effect <;> rfl
  have hm : matchAll db effect (effect = .auditdeny) = db.attrs := by cases effect <;> rfl
  rw [hs, expandRule, addRuleNames, foldl_onNames fun _ _ => rfl]
  simp only [addRule_eq, hm]
  rfl

theorem statementEach_eq (db : Policydb) (src tgt cls perm : List Str) :
    effect.statementEach db src tgt cls perm = { db with
      teAvtab :=
        runCalls db (db.types.map Prod.snd) effect (calls db src tgt cls perm) db.teAvtab } := by
  rw [Effect.statementEach, foldl_onNames fun _ _ => rfl]
  simp only [addRuleEach_eq]
  rfl

/-- How the entries for a type and its attributes combine. -/
def Effect.combine (effect : Effect) (v w : BitVec 32) : BitVec 32 :=
  if effect = .auditdeny then v &&& w else v ||| w

/-- The access vector of a pair of types: the union over the entries of both types and their
attributes, for `dontaudit` the intersection. -/
def effective (db : Policydb) (effect : Effect) (s t : TypeDatum) (c : UInt16) : BitVec 32 :=
  ((attrsOf db s).flatMap fun x => (attrsOf db t).map fun y =>
    db.teAvtab.vector ⟨x, y, c, effect.specified⟩).foldr effect.combine
      (initialData effect.specified)

/-- The bit is set by a rule of this effect: for `dontaudit` it is cleared. -/
def Effect.has (effect : Effect) (v : BitVec 32) (b : ℕ) : Prop :=
  v.getLsbD b = !decide (effect = .auditdeny)

theorem Effect.has_combine (v w : BitVec 32) (b : ℕ) :
    effect.has (effect.combine v w) b ↔ effect.has v b ∨ effect.has w b := by
  cases effect <;> simp [Effect.has, Effect.combine]
  cases v.getLsbD b <;> simp

theorem Effect.has_initialData (hb : b < 32) : ¬ effect.has (initialData effect.specified) b := by
  have h1 : (BitVec.allOnes 32).getLsbD b :=
    (BitVec.getLsbD_allOnes).trans (decide_eq_true hb)
  have h0 : (0 : BitVec 32).getLsbD b = false := BitVec.getLsbD_zero
  cases effect with
  | auditdeny =>
    intro h
    exact absurd (h1.symm.trans h) (by decide)
  | _ =>
    intro h
    exact absurd (h0.symm.trans h) (by decide)

theorem Effect.has_editData (perm : Option (Fin 32)) (v : BitVec 32) (hb : b < 32) :
    effect.has (editData perm (effect = .auditdeny) v) b ↔
      effect.has v b ∨ hasBit perm b := by
  unfold Effect.has
  rw [editData_getLsbD perm _ v hb]
  cases hasBit perm b <;> simp

theorem Effect.ext_has {v w : BitVec 32}
    (h : ∀ b < 32, effect.has v b ↔ effect.has w b) : v = w := by
  apply BitVec.eq_of_getLsbD_eq
  intro b hb
  have hb := h b hb
  unfold Effect.has at hb
  revert hb
  cases v.getLsbD b <;> cases w.getLsbD b <;> cases effect <;> simp

theorem has_effective (s t : TypeDatum) (c : UInt16) (hb : b < 32) :
    effect.has (effective db effect s t c) b ↔ ∃ x ∈ attrsOf db s, ∃ y ∈ attrsOf db t,
      effect.has (db.teAvtab.vector ⟨x, y, c, effect.specified⟩) b := by
  have hf : ∀ l : List (BitVec 32),
      effect.has (l.foldr effect.combine (initialData effect.specified)) b ↔
        ∃ v ∈ l, effect.has v b := by
    intro l
    induction l with
    | nil => simp [effect.has_initialData hb]
    | cons v l ih => simp [effect.has_combine, ih]
  simp [effective, hf]

/-- The call has an entry for a type or attribute of both sides. -/
def Touches (db : Policydb) (all : List TypeDatum) (call : Call) (s t : TypeDatum) (c : UInt16) :
    Prop :=
  (∃ x ∈ orAll all call.src, x.key ∈ attrsOf db s) ∧
    (∃ y ∈ orAll all call.tgt, y.key ∈ attrsOf db t) ∧
      ∃ k ∈ orAll (db.classes.map Prod.snd) call.cls, k.key = c

theorem mem_callTuples {db : Policydb} {all : List TypeDatum} {effect : Effect} {x y c : UInt16} :
    (⟨x, y, c, effect.specified⟩ : Key) ∈
        (callTuples db all call).map (fun n => ruleKey n.1 n.2.1 n.2.2 effect) ↔
      (∃ s ∈ orAll all call.src, s.key = x) ∧ (∃ t ∈ orAll all call.tgt, t.key = y) ∧
        ∃ k ∈ orAll (db.classes.map Prod.snd) call.cls, k.key = c := by
  simp only [callTuples, map_flatMap, List.map_map, mem_flatMap, List.mem_map,
    Function.comp_apply, ruleKey, Key.mk.injEq, and_true]
  constructor
  · rintro ⟨s, hs, t, ht, k, hk, rfl, rfl, rfl⟩
    exact ⟨⟨s, hs, rfl⟩, ⟨t, ht, rfl⟩, k, hk, rfl⟩
  · rintro ⟨⟨s, hs, rfl⟩, ⟨t, ht, rfl⟩, k, hk, rfl⟩
    exact ⟨s, hs, t, ht, k, hk, rfl, rfl, rfl⟩

theorem has_runCalls (all : List TypeDatum) (effect : Effect) (l : List Call)
    (h : Avtab) (x y c : UInt16) (hb : b < 32) :
    effect.has ((runCalls db all effect l h).vector ⟨x, y, c, effect.specified⟩) b ↔
      effect.has (h.vector ⟨x, y, c, effect.specified⟩) b ∨
        ∃ call ∈ l, hasBit call.perm b ∧ (⟨x, y, c, effect.specified⟩ : Key) ∈
          (callTuples db all call).map (fun n => ruleKey n.1 n.2.1 n.2.2 effect) := by
  induction l generalizing h with
  | nil => simp [runCalls]
  | cons call l ih =>
    rw [runCalls, foldl_cons]
    change effect.has ((runCalls db all effect l _).vector _) b ↔ _
    rw [ih, vector_editAll]
    simp only [mem_cons, exists_eq_or_imp]
    split_ifs with hk
    · simp only [effect.has_editData _ _ hb, hk, and_true, or_assoc]
    · simp only [hk, and_false, false_or]

theorem has_effective_runCalls (all : List TypeDatum) (effect : Effect)
    (l : List Call) (s t : TypeDatum) (c : UInt16) (hb : b < 32) :
    effect.has (effective { db with teAvtab := runCalls db all effect l db.teAvtab } effect s t c) b
      ↔ effect.has (effective db effect s t c) b ∨
        ∃ call ∈ l, hasBit call.perm b ∧ Touches db all call s t c := by
  rw [has_effective _ _ _ _ _ hb, has_effective _ _ _ _ _ hb]
  change (∃ x ∈ attrsOf db s, ∃ y ∈ attrsOf db t, effect.has ((runCalls db all effect l
    db.teAvtab).vector ⟨x, y, c, effect.specified⟩) b) ↔ _
  simp only [has_runCalls db all effect l db.teAvtab _ _ _ hb, mem_callTuples, Touches]
  constructor
  · rintro ⟨x, hx, y, hy, h | ⟨call, hc, hp, ⟨a, ha, rfl⟩, ⟨d, hd, rfl⟩, hk⟩⟩
    · exact .inl ⟨x, hx, y, hy, h⟩
    · exact .inr ⟨call, hc, hp, ⟨a, ha, hx⟩, ⟨d, hd, hy⟩, hk⟩
  · rintro (⟨x, hx, y, hy, h⟩ | ⟨call, hc, hp, ⟨a, ha, hx⟩, ⟨d, hd, hy⟩, hk⟩)
    · exact ⟨x, hx, y, hy, .inl h⟩
    · exact ⟨_, hx, _, hy, .inr ⟨call, hc, hp, ⟨a, ha, rfl⟩, ⟨d, hd, rfl⟩, hk⟩⟩

/-- The call is about the pair: a name stands for the type or one of its attributes. -/
def Reaches (db : Policydb) (call : Call) (s t : TypeDatum) (c : UInt16) : Prop :=
  (∀ x ∈ call.src, x.key ∈ attrsOf db s) ∧ (∀ y ∈ call.tgt, y.key ∈ attrsOf db t) ∧
    ∃ k ∈ orAll (db.classes.map Prod.snd) call.cls, k.key = c

/-- The type has an attribute that the policy knows. -/
def HasAttr (db : Policydb) (t : TypeDatum) : Prop := ∃ a ∈ db.attrs, a.key ∈ attrsOf db t

/-- The call is about the pair, and where it matches all the type has an attribute. -/
def Covers (db : Policydb) (call : Call) (s t : TypeDatum) (c : UInt16) : Prop :=
  Reaches db call s t c ∧ (call.src = none → HasAttr db s) ∧ (call.tgt = none → HasAttr db t)

/-- Every permission that the calls give a pair of types is covered, or the pair has it already. -/
def Covered (db : Policydb) (effect : Effect) (l : List Call) : Prop :=
  ∀ s ∈ db.types, ∀ t ∈ db.types, ∀ c, ∀ b < 32, ∀ call ∈ l,
    Reaches db call s.2 t.2 c → hasBit call.perm b →
      effect.has (effective db effect s.2 t.2 c) b ∨
        ∃ call' ∈ l, hasBit call'.perm b ∧ Covers db call' s.2 t.2 c

theorem exists_orAll {all : List TypeDatum} {side : Option TypeDatum} {P : TypeDatum → Prop} :
    (∃ x ∈ orAll all side, P x) ↔ (∀ x ∈ side, P x) ∧ (side = none → ∃ x ∈ all, P x) := by
  cases side <;> simp [orAll]

theorem touches_attrs {db : Policydb} {s t : TypeDatum} {c : UInt16} :
    Touches db db.attrs call s t c ↔ Covers db call s t c := by
  unfold Touches Covers Reaches HasAttr
  rw [exists_orAll, exists_orAll]
  tauto

theorem touches_types {db : Policydb} {s t : Bytes × TypeDatum} {c : UInt16}
    (hs : s ∈ db.types) (ht : t ∈ db.types) :
    Touches db (db.types.map Prod.snd) call s.2 t.2 c ↔ Reaches db call s.2 t.2 c := by
  have h : ∀ u ∈ db.types, ∃ x ∈ db.types.map Prod.snd, x.key ∈ attrsOf db u.2 := fun u hu =>
    ⟨u.2, List.mem_map_of_mem hu, key_mem_attrsOf db u.2⟩
  unfold Touches Reaches
  rw [exists_orAll, exists_orAll]
  tauto

/-- A statement with the match-all operator gives every pair of types what the statement for
each type gives it, exactly when its permissions are covered. -/
theorem statement_matchAll_iff (effect : Effect) (db : Policydb) (src tgt cls perm : List Str) :
    (∀ s ∈ db.types, ∀ t ∈ db.types, ∀ c,
      effective (effect.statement db src tgt cls perm) effect s.2 t.2 c =
        effective (effect.statementEach db src tgt cls perm) effect s.2 t.2 c) ↔
      Covered db effect (calls db src tgt cls perm) := by
  rw [statement_eq, statementEach_eq]
  constructor
  · intro h s hs t ht c b hb call hcall hr hp
    have he := has_effective_runCalls db (db.types.map Prod.snd) effect (calls db src tgt cls perm)
      s.2 t.2 c hb
    rw [← h s hs t ht c, has_effective_runCalls _ _ _ _ _ _ _ hb] at he
    simp only [touches_attrs, touches_types hs ht] at he
    exact he.mpr (.inr ⟨call, hcall, hp, hr⟩)
  · intro h s hs t ht c
    apply effect.ext_has
    intro b hb
    rw [has_effective_runCalls _ _ _ _ _ _ _ hb, has_effective_runCalls _ _ _ _ _ _ _ hb]
    simp only [touches_attrs, touches_types hs ht]
    constructor
    · exact Or.imp_right fun ⟨call, hc, hp, hk⟩ => ⟨call, hc, hp, hk.1⟩
    · rintro (h0 | ⟨call, hc, hp, hr⟩)
      · exact .inl h0
      · exact h s hs t ht c b hb call hc hr hp

/-- `file` has no attribute, so a rule for all sources does not reach it. -/
theorem statement_matchAll_file :
    (effective (Effect.allowed.statement smallPolicy [] ["file".toList] ["dir".toList]
        ["search".toList]) .allowed ⟨2, .type⟩ ⟨2, .type⟩ 1).getLsbD 0 = false ∧
      (effective (Effect.allowed.statementEach smallPolicy [] ["file".toList] ["dir".toList]
        ["search".toList]) .allowed ⟨2, .type⟩ ⟨2, .type⟩ 1).getLsbD 0 := by
  decide

end Magisk.Sepolicy
