import Magisk.Bytes
import Magisk.Sepolicy.Avtab

namespace Magisk.Sepolicy

open List

inductive Flavor where
  | type
  | attrib
  | alias
  deriving DecidableEq, Repr

structure TypeDatum where
  value : ℕ
  flavor : Flavor
  deriving DecidableEq, Repr

/-- `bit` is `s.value - 1`, which is below 32 in every access vector. -/
structure PermDatum where
  bit : Fin 32
  deriving DecidableEq, Repr

/-- `class_read` takes no value above `UINT16_MAX`. -/
structure ClassDatum where
  value : UInt16
  permissions : List (Bytes × PermDatum)
  comdatum : Option (List (Bytes × PermDatum))
  deriving DecidableEq, Repr

/-- The symbol tables hold C strings, in the order in which they are iterated.
`typeAttrMap` holds for each type the bits of its own and its attributes' values. -/
structure Policydb where
  policyvers : ℕ
  types : List (Bytes × TypeDatum)
  classes : List (Bytes × ClassDatum)
  typeAttrMap : List (List ℕ)
  teAvtab : Avtab

/-- Keys have 16 bits for the value of a type or class. -/
def TypeDatum.key (t : TypeDatum) : UInt16 := UInt16.ofNat t.value
def ClassDatum.key (c : ClassDatum) : UInt16 := c.value

/-- The key is copied to an array of 256 characters. -/
def hashtabFind {α : Type} (table : List (Bytes × α)) (key : Str) : Option α :=
  table.lookup (((asBytes key).take 255).takeWhile (· ≠ 0))

inductive Effect where
  | allowed
  | auditallow
  | auditdeny
  deriving DecidableEq, Repr

def Effect.specified : Effect → Specified
  | allowed => .allowed
  | auditallow => .auditallow
  | auditdeny => .auditdeny

/-- Invert is adding rules for auditdeny; in other cases, invert is removing rules -/
def stripAv (effect : Effect) (invert : Bool) : Bool := (effect = .auditdeny) == !invert

def ruleKey (src tgt : TypeDatum) (cls : ClassDatum) (effect : Effect) : Key :=
  ⟨src.key, tgt.key, cls.key, effect.specified⟩

theorem ruleKey_isAv (src tgt : TypeDatum) (cls : ClassDatum) (effect : Effect) :
    (ruleKey src tgt cls effect).specified.isAv := by
  cases effect <;> rfl

/-- The types with flavor `TYPE_ATTRIB`, as `for_each_attr` visits them. -/
def Policydb.attrs (db : Policydb) : List TypeDatum :=
  (db.types.map Prod.snd).filter fun t => t.flavor = .attrib

section AddRule

variable (db : Policydb) (perm : Option (Fin 32)) (effect : Effect) (invert : Bool)

/-- What the match-all operator goes through. -/
def matchAll : List TypeDatum :=
  if stripAv effect invert then
    -- Stripping av, have to go through all types for correct results
    db.types.map Prod.snd
  else
    -- If we are not stripping av, go through all attributes instead of types for optimization
    db.attrs

def addRuleKey (src tgt : TypeDatum) (h : Avtab) (cls : ClassDatum) : Avtab :=
  h.edit (ruleKey src tgt cls effect) (ruleKey_isAv src tgt cls effect) perm invert

def addRuleCls (src : TypeDatum) (cls : Option ClassDatum) (h : Avtab) (tgt : TypeDatum) : Avtab :=
  match cls with
  | none => (db.classes.map Prod.snd).foldl (addRuleKey perm effect invert src tgt) h
  | some cls => addRuleKey perm effect invert src tgt h cls

def addRuleTgt (tgt : Option TypeDatum) (cls : Option ClassDatum) (h : Avtab) (src : TypeDatum) :
    Avtab :=
  match tgt with
  | none => (matchAll db effect invert).foldl (addRuleCls db perm effect invert src cls) h
  | some tgt => addRuleCls db perm effect invert src cls h tgt

/-- `add_rule`, with null pointers for what matches all. -/
def addRule (src tgt : Option TypeDatum) (cls : Option ClassDatum) (h : Avtab) : Avtab :=
  match src with
  | none => (matchAll db effect invert).foldl (addRuleTgt db perm effect invert tgt cls) h
  | some src => addRuleTgt db perm effect invert tgt cls h src

end AddRule

/-- The arguments of `add_rule` that a tuple of names stands for. -/
structure Call where
  src : Option TypeDatum
  tgt : Option TypeDatum
  cls : Option ClassDatum
  perm : Option (Fin 32)
  deriving DecidableEq, Repr

/-- The empty name matches all; `none` when another name does not exist. -/
def findOrAll {α : Type} (table : List (Bytes × α)) (name : Str) : Option (Option α) :=
  if name = [] then some none else (hashtabFind table name).map some

/-- A permission of the class itself or of the common it inherits. -/
def findPerm (cls : ClassDatum) (p : Str) : Option PermDatum :=
  match hashtabFind cls.permissions p with
  | some perm => some perm
  | none => cls.comdatum.bind fun permissions => hashtabFind permissions p

structure Names where
  src : Str
  tgt : Str
  cls : Str
  perm : Str

/-- The checks of `add_rule` on names. A permission needs a class. -/
def resolve (db : Policydb) (n : Names) : Option Call := do
  let src ← findOrAll db.types n.src
  let tgt ← findOrAll db.types n.tgt
  let cls ← findOrAll db.classes n.cls
  if n.perm = [] then return ⟨src, tgt, cls, none⟩
  else
    let perm ← findPerm (← cls) n.perm
    return ⟨src, tgt, cls, some perm.bit⟩

/-- A rule on names, which warns and does nothing when one of them does not exist. -/
def onNames (rule : Policydb → Call → Avtab → Avtab) (db : Policydb) (n : Names) : Policydb :=
  match resolve db n with
  | none => db
  | some call => { db with teAvtab := rule db call db.teAvtab }

def addRuleNames (effect : Effect) (invert : Bool) : Policydb → Names → Policydb :=
  onNames fun db call => addRule db call.perm effect invert call.src call.tgt call.cls

/-- `expand` on a vector of names: an empty vector stands for the empty name. -/
def expandVec (v : List Str) : List Str := if v = [] then [[]] else v

/-- The tuples of names that `expand` goes through. -/
def expandNames (src tgt cls perm : List Str) : List Names :=
  (expandVec src).flatMap fun s => (expandVec tgt).flatMap fun t =>
    (expandVec cls).flatMap fun c => (expandVec perm).map fun p => ⟨s, t, c, p⟩

def expandRule (effect : Effect) (invert : Bool) (db : Policydb) (src tgt cls perm : List Str) :
    Policydb :=
  (expandNames src tgt cls perm).foldl (addRuleNames effect invert) db

def allow := expandRule .allowed false
def deny := expandRule .allowed true
def auditallow := expandRule .auditallow false
def dontaudit := expandRule .auditdeny true

theorem foldl_onNames {rule : Policydb → Call → Avtab → Avtab}
    (hr : ∀ db h, rule { db with teAvtab := h } = rule db) (db : Policydb) (names : List Names) :
    names.foldl (onNames rule) db = { db with
      teAvtab := (names.filterMap (resolve db)).foldl (fun h call => rule db call h) db.teAvtab } := by
  induction names generalizing db with
  | nil => rfl
  | cons n names ih =>
    rw [foldl_cons, ih]
    cases hn : resolve db n with
    | none =>
      have ho : onNames rule db n = db := by simp only [onNames, hn]
      rw [ho, filterMap_cons_none hn]
    | some call =>
      have ho : onNames rule db n = { db with teAvtab := rule db call db.teAvtab } := by
        simp only [onNames, hn]
      have hrule := hr db (rule db call db.teAvtab)
      rw [ho, filterMap_cons_some hn, foldl_cons, hrule]
      rfl

theorem editData_editData (perm : Option (Fin 32)) (invert : Bool) (data : BitVec 32) :
    editData perm invert (editData perm invert data) = editData perm invert data := by
  cases invert <;> cases perm <;> simp [editData, BitVec.or_assoc, BitVec.and_assoc]

/-- The datum, or all that stand for it. -/
def orAll {α : Type} (all : List α) : Option α → List α
  | none => all
  | some a => [a]

/-- What a call goes through, when the match-all operator stands for the types `all`. -/
def callTuples (db : Policydb) (all : List TypeDatum) (call : Call) :
    List (TypeDatum × TypeDatum × ClassDatum) :=
  (orAll all call.src).flatMap fun s => (orAll all call.tgt).flatMap fun t =>
    (orAll (db.classes.map Prod.snd) call.cls).map fun c => (s, t, c)

section

variable (perm : Option (Fin 32)) (effect : Effect) (invert : Bool)

/-- The edits of a call, one after the other. -/
def editAll (l : List (TypeDatum × TypeDatum × ClassDatum)) (h : Avtab) : Avtab :=
  l.foldl (fun h n => addRuleKey perm effect invert n.1 n.2.1 h n.2.2) h

theorem addRule_eq (db : Policydb) (call : Call) (h : Avtab) :
    addRule db call.perm effect invert call.src call.tgt call.cls h =
      editAll call.perm effect invert (callTuples db (matchAll db effect invert) call) h := by
  obtain ⟨src, tgt, cls, perm⟩ := call
  unfold addRule addRuleTgt addRuleCls editAll callTuples
  cases src <;> cases tgt <;> cases cls <;>
    simp [orAll, foldl_flatMap, foldl_map]

theorem vector_editAll (l : List (TypeDatum × TypeDatum × ClassDatum)) (h : Avtab) (a : Key) :
    (editAll perm effect invert l h).vector a =
      if a ∈ l.map (fun n => ruleKey n.1 n.2.1 n.2.2 effect) then
        editData perm invert (h.vector a)
      else h.vector a := by
  induction l generalizing h with
  | nil => rfl
  | cons n l ih =>
    have hv : (addRuleKey perm effect invert n.1 n.2.1 h n.2.2).vector a =
        if a = ruleKey n.1 n.2.1 n.2.2 effect then editData perm invert (h.vector a)
        else h.vector a := by
      rw [addRuleKey, Avtab.vector_edit]
      split_ifs with ha
      · rw [ha]
      · rfl
    rw [editAll, foldl_cons]
    change (editAll perm effect invert l _).vector a = _
    rw [ih, hv, map_cons]
    by_cases ha : a = ruleKey n.1 n.2.1 n.2.2 effect
    · rw [if_pos ha, editData_editData, ite_self, if_pos (mem_cons.mpr (.inl ha))]
    · simp only [mem_cons, ha, false_or, if_false]

end

/-- The keys of a type itself and of its attributes. -/
def attrsOf (db : Policydb) (t : TypeDatum) : List UInt16 :=
  t.key :: (db.typeAttrMap.getD (t.value - 1) []).map fun bit => UInt16.ofNat (bit + 1)

theorem key_mem_attrsOf (db : Policydb) (t : TypeDatum) : t.key ∈ attrsOf db t :=
  mem_cons_self

def dirClass : ClassDatum := ⟨1, [(lit "search", ⟨0⟩), (lit "open", ⟨1⟩)], none⟩

/-- Two types, of which the first has the attribute `domain`, and one class. -/
def smallPolicy : Policydb where
  policyvers := 30
  types := [(lit "init", ⟨1, .type⟩), (lit "file", ⟨2, .type⟩), (lit "domain", ⟨3, .attrib⟩)]
  classes := [(lit "dir", dirClass)]
  typeAttrMap := [[0, 2], [1], [2]]
  teAvtab := Avtab.empty

end Magisk.Sepolicy
