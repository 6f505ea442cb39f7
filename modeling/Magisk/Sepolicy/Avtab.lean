import Magisk.MultiMap

namespace Magisk.Sepolicy

/-- `avtab_key::specified` -/
inductive Specified where
  | allowed
  | auditallow
  | auditdeny
  | neverallow
  | transition
  | member
  | change
  | xpermsAllowed
  | xpermsAuditallow
  | xpermsDontaudit
  | xpermsNeverallow
  deriving DecidableEq, Repr

def Specified.isAv : Specified → Bool
  | allowed | auditallow | auditdeny => true
  | _ => false

def Specified.isXperms : Specified → Bool
  | xpermsAllowed | xpermsAuditallow | xpermsDontaudit => true
  | _ => false

structure Key where
  sourceType : UInt16
  targetType : UInt16
  targetClass : UInt16
  specified : Specified
  deriving DecidableEq, Repr

inductive XpermsKind where
  | ioctlFunction
  | ioctlDriver
  | nlmsg
  deriving DecidableEq, Repr

/-- `avtab_extended_perms`, with the bitmap of 256 bits as a function. -/
structure ExtendedPerms where
  specified : XpermsKind
  driver : UInt8
  perms : UInt8 → Bool

structure Datum where
  data : BitVec 32
  xperms : Option ExtendedPerms

/-- The index of a node in the `node_list` of `add_xperm_rule`. -/
def Datum.slot (d : Datum) : Option ℕ :=
  d.xperms.bind fun x =>
    match x.specified with
    | .ioctlFunction => some x.driver.toNat
    | .ioctlDriver => some 256
    | .nlmsg => none

/-- The nodes that may stand under a key. -/
def NodesOk (key : Key) (nodes : List Datum) : Prop :=
  (key.specified.isAv → nodes.length ≤ 1) ∧
    (key.specified.isXperms → (nodes.filterMap Datum.slot).Nodup)

structure Avtab where
  table : MultiMap Key Datum
  nel : ℕ
  ok : ∀ key, NodesOk key (table.find key)

namespace Avtab

/-- `avtab_search_node` and what `avtab_search_node_next` finds after it. -/
def search (h : Avtab) (key : Key) : List Datum := h.table.find key

/-- The table after nodes under `key` were inserted, removed or changed. -/
def update (h : Avtab) (key : Key) (nodes : List Datum) (ok : NodesOk key nodes) : Avtab where
  table := h.table.set key nodes
  nel := h.nel + nodes.length - (h.search key).length
  ok a := by
    rw [MultiMap.find_set]
    split_ifs with ha
    · exact ha ▸ ok
    · exact h.ok a

@[simp] theorem search_update (h : Avtab) (key a : Key) (nodes : List Datum)
    (ok : NodesOk key nodes) :
    (h.update key nodes ok).search a = if a = key then nodes else h.search a :=
  MultiMap.find_set _ _ _ _

def empty : Avtab where
  table := ⟨[]⟩
  nel := 0
  ok _ := ⟨fun _ => Nat.zero_le 1, fun _ => List.nodup_nil⟩

end Avtab

/-- The data of a key without a node. `AUDITDENY` is `&=` assigned, versus `|=` for others. -/
def initialData (specified : Specified) : BitVec 32 :=
  if specified = .auditdeny then BitVec.allOnes 32 else 0

def isRedundant (key : Key) (node : Datum) : Bool := node.data = initialData key.specified

/-- `get_avtab_node` for an access vector key: the node, inserted when there is none, and
the nodes behind it. -/
def getAvtabNode (key : Key) : List Datum → Datum × List Datum
  | node :: rest => (node, rest)
  | [] => (⟨initialData key.specified, none⟩, [])

/-- The access vector with one permission, or all of them, set or cleared. -/
def editData (perm : Option (Fin 32)) (invert : Bool) (data : BitVec 32) : BitVec 32 :=
  match invert, perm with
  | true, some p => data &&& ~~~BitVec.twoPow 32 p
  | true, none => 0
  | false, some p => data ||| BitVec.twoPow 32 p
  | false, none => BitVec.allOnes 32

/-- The permission, or all of them, has the bit. -/
def hasBit (perm : Option (Fin 32)) (b : ℕ) : Bool := perm.all fun p => p.val = b

variable {nodes : List Datum} (key : Key) (perm : Option (Fin 32)) (invert : Bool)

theorem editData_getLsbD (data : BitVec 32) {b : ℕ} (hb : b < 32) :
    (editData perm invert data).getLsbD b = if hasBit perm b then !invert else data.getLsbD b := by
  cases perm with
  | none =>
    cases invert with
    | false => exact (BitVec.getLsbD_allOnes).trans (decide_eq_true hb)
    | true => exact BitVec.getLsbD_zero
  | some p =>
    have hp : (BitVec.twoPow 32 p).getLsbD b = decide (p.val = b) := by
      rw [BitVec.getLsbD_twoPow]
      by_cases h : p.val = b <;> simp [h, hb]
    cases invert with
    | false =>
      simp only [editData, BitVec.getLsbD_or, hp, hasBit, Option.all_some]
      by_cases h : p.val = b <;> simp [h]
    | true =>
      simp only [editData, BitVec.getLsbD_and, BitVec.getLsbD_not, hp, hasBit, Option.all_some]
      by_cases h : p.val = b <;> simp [h, hb]

/-- The nodes of a key after `add_rule` edited it. -/
def editNodes (key : Key) (perm : Option (Fin 32)) (invert : Bool) (nodes : List Datum) :
    List Datum :=
  match getAvtabNode key nodes with
  | (node, rest) =>
    let node := { node with data := editData perm invert node.data }
    if isRedundant key node then rest else node :: rest

/-- The data that a list of nodes stands for. -/
def dataOf (key : Key) : List Datum → BitVec 32
  | node :: _ => node.data
  | [] => initialData key.specified

theorem dataOf_redundant (node : Datum) :
    dataOf key (if isRedundant key node then [] else [node]) = node.data := by
  split_ifs with h
  · exact (of_decide_eq_true h).symm
  · rfl

theorem editNodes_spec (h : nodes.length ≤ 1) :
    (editNodes key perm invert nodes).length ≤ 1 ∧
      dataOf key (editNodes key perm invert nodes) =
        editData perm invert (dataOf key nodes) := by
  have hs : ∃ node : Datum, editNodes key perm invert nodes =
      (if isRedundant key node then [] else [node]) ∧
      node.data = editData perm invert (dataOf key nodes) := by
    cases nodes with
    | nil => exact ⟨_, rfl, rfl⟩
    | cons node rest =>
      rw [List.length_cons] at h
      obtain rfl : rest = [] := List.eq_nil_of_length_eq_zero (by omega)
      exact ⟨_, rfl, rfl⟩
  obtain ⟨node, hn, hd⟩ := hs
  rw [hn, dataOf_redundant, hd]
  refine ⟨?_, rfl⟩
  split_ifs <;> simp

theorem editNodes_ok {key : Key} (hav : key.specified.isAv) (h : NodesOk key nodes) :
    NodesOk key (editNodes key perm invert nodes) := by
  refine ⟨fun _ => (editNodes_spec key perm invert (h.1 hav)).1, fun hx => ?_⟩
  revert hav hx
  cases key.specified <;> simp [Specified.isAv, Specified.isXperms]

namespace Avtab

/-- The edit that `add_rule` makes under one access vector key. -/
def edit (h : Avtab) (key : Key) (hav : key.specified.isAv) (perm : Option (Fin 32))
    (invert : Bool) : Avtab :=
  h.update key (editNodes key perm invert (h.search key)) (editNodes_ok perm invert hav (h.ok key))

/-- The access vector that the table holds for a key. -/
def vector (h : Avtab) (key : Key) : BitVec 32 := dataOf key (h.search key)

theorem vector_edit (h : Avtab) (key : Key) (hav : key.specified.isAv) (perm : Option (Fin 32))
    (invert : Bool) (a : Key) :
    (h.edit key hav perm invert).vector a =
      if a = key then editData perm invert (h.vector key) else h.vector a := by
  simp only [vector, edit, search_update]
  split_ifs with ha
  · subst ha
    exact (editNodes_spec a perm invert ((h.ok a).1 hav)).2
  · rfl

end Avtab

end Magisk.Sepolicy
