import Magisk.HashTable
import Magisk.Sepolicy.Rules

namespace Magisk.Sepolicy

open List

def avtabMix (hash input : UInt32) : UInt32 :=
  let v := input * 0xcc9e2d51
  let v := (v <<< 15) ||| (v >>> 17)
  let v := v * 0x1b873593
  let hash := hash ^^^ v
  let hash := (hash <<< 13) ||| (hash >>> 19)
  hash * 5 + 0xe6546b64

def avtabHash (mask : UInt32) (key : Key) : ℕ :=
  let hash := avtabMix 0 key.targetClass.toUInt32
  let hash := avtabMix hash key.targetType.toUInt32
  let hash := avtabMix hash key.sourceType.toUInt32
  let hash := hash ^^^ (hash >>> 16)
  let hash := hash * 0x85ebca6b
  let hash := hash ^^^ (hash >>> 13)
  let hash := hash * 0xc2b2ae35
  let hash := hash ^^^ (hash >>> 16)
  (hash &&& mask).toNat

/-- The comparisons that end a search. -/
def Key.Before (a b : Key) : Prop :=
  a.sourceType < b.sourceType ∨
    (a.sourceType = b.sourceType ∧ a.targetType < b.targetType) ∨
    (a.sourceType = b.sourceType ∧ a.targetType = b.targetType ∧ a.targetClass < b.targetClass)

instance : DecidableRel Key.Before := fun a b => by
  unfold Key.Before
  infer_instance

theorem Key.before_iff (a b : Key) : a.Before b ↔
    a.sourceType.toNat * 2 ^ 32 + a.targetType.toNat * 2 ^ 16 + a.targetClass.toNat <
      b.sourceType.toNat * 2 ^ 32 + b.targetType.toNat * 2 ^ 16 + b.targetClass.toNat := by
  have := a.targetType.toNat_lt
  have := b.targetType.toNat_lt
  have := a.targetClass.toNat_lt
  have := b.targetClass.toNat_lt
  simp only [Key.Before, UInt16.lt_iff_toNat_lt, ← UInt16.toNat_inj]
  omega

instance : IsStrictOrder Key Key.Before where
  irrefl a h := by
    rw [Key.before_iff] at h
    exact lt_irrefl _ h
  trans a b c hab hbc := by
    rw [Key.before_iff] at *
    exact hab.trans hbc

/-- `nel` counts the nodes with 32 bits. -/
structure HashAvtab where
  mask : UInt32
  table : HashTable Key Datum (avtabHash mask) Key.Before
  nel : UInt32
  nel_eq : nel = UInt32.ofNat table.nodes.length

namespace HashAvtab

/-- The chain in which a key is searched and inserted. -/
def chain (h : HashAvtab) (key : Key) : List (Key × Datum) := h.table.chain key

def find (h : HashAvtab) (key : Key) : List Datum := h.table.find key

def nodes (h : HashAvtab) : List (Key × Datum) := h.table.nodes

variable (h : HashAvtab) (key : Key)

theorem sorted_chain : ChainSorted Key.Before (h.chain key) :=
  h.table.sorted_chain key

theorem hash_of_keys {key : Key} {c : List (Key × Datum)}
    (hc : ∀ k ∈ c.map Prod.fst, k ∈ (h.chain key).map Prod.fst ∨ k = key) :
    ∀ n ∈ c, avtabHash h.mask n.1 = avtabHash h.mask key := by
  intro n hn
  rcases hc n.1 (List.mem_map_of_mem hn) with hk | hk
  · obtain ⟨m, hm, hk⟩ := List.mem_map.mp hk
    rw [← hk]
    exact h.table.hash_of_mem_chain hm
  · rw [hk]

/-- The table after nodes in the chain of `key` were inserted, removed or changed. -/
def setChain (h : HashAvtab) (key : Key) (c : List (Key × Datum)) (nel : UInt32)
    (hc : ∀ k ∈ c.map Prod.fst, k ∈ (h.chain key).map Prod.fst ∨ k = key)
    (hs : ChainSorted Key.Before c)
    (hnel : nel + UInt32.ofNat (h.chain key).length = h.nel + UInt32.ofNat c.length) :
    HashAvtab where
  mask := h.mask
  table := h.table.setChain key c (h.hash_of_keys hc) hs
  nel := nel
  nel_eq := by
    have hlen := h.table.length_nodes_setChain key c (h.hash_of_keys hc) hs
    apply add_right_cancel (b := UInt32.ofNat (h.chain key).length)
    rw [hnel, h.nel_eq, ← UInt32.ofNat_add, ← UInt32.ofNat_add]
    exact congrArg UInt32.ofNat hlen.symm

def searchNode (h : HashAvtab) (key : Key) : Option ℕ :=
  chainSearch Key.Before key (h.chain key)

def insertNonunique (h : HashAvtab) (key : Key) (datum : Datum) : HashAvtab :=
  h.setChain key (chainInsert Key.Before key datum (h.chain key)) (h.nel + 1)
    (fun k hk => by
      obtain ⟨n, hn, rfl⟩ := List.mem_map.mp hk
      rcases mem_append.mp hn with hn | hn
      · exact .inl (List.mem_map_of_mem (mem_of_mem_take hn))
      · rcases mem_cons.mp hn with rfl | hn
        · exact .inr rfl
        · exact .inl (List.mem_map_of_mem (mem_of_mem_drop hn)))
    (chainSorted_insert key datum (h.sorted_chain key))
    (by
      rw [length_chainInsert, UInt32.ofNat_add, add_assoc, add_comm 1]
      rfl)

/-- The assignment to the data of a node. -/
def setData (f : BitVec 32 → BitVec 32) (n : Key × Datum) : Key × Datum :=
  (n.1, { n.2 with data := f n.2.data })

theorem map_fst_modify (c : List (Key × Datum)) (i : ℕ) (f : BitVec 32 → BitVec 32) :
    (c.modify i (setData f)).map Prod.fst = c.map Prod.fst := by
  induction c generalizing i with
  | nil => simp
  | cons n c ih =>
    cases i with
    | zero => rfl
    | succ i => simp [ih]

/-- The table with other data in the node at a position. -/
def modifyNode (h : HashAvtab) (key : Key) (i : ℕ) (f : BitVec 32 → BitVec 32) : HashAvtab :=
  h.setChain key ((h.chain key).modify i (setData f)) h.nel
    (fun k hk => .inl (map_fst_modify _ _ _ ▸ hk))
    (by
      rw [chainSorted_iff, map_fst_modify, ← chainSorted_iff]
      exact h.sorted_chain key)
    (by rw [length_modify])

def removeNode (h : HashAvtab) (key : Key) (i : ℕ) : HashAvtab :=
  if hi : i < (h.chain key).length then
    h.setChain key ((h.chain key).eraseIdx i) (h.nel - 1)
      (fun k hk => by
        obtain ⟨n, hn, rfl⟩ := List.mem_map.mp hk
        exact .inl (List.mem_map_of_mem (mem_of_mem_eraseIdx hn)))
      ((h.sorted_chain key).eraseIdx i)
      (by
        have hlen : (h.chain key).length = ((h.chain key).eraseIdx i).length + 1 := by
          rw [length_eraseIdx_of_lt hi]
          omega
        have hone : UInt32.ofNat 1 = 1 := rfl
        rw [hlen, UInt32.ofNat_add, hone, add_comm _ 1, ← add_assoc, sub_add_cancel])
  else h

/-- `get_avtab_node` without extended permissions. -/
def getNode (h : HashAvtab) (key : Key) : HashAvtab × ℕ :=
  match h.searchNode key with
  | some i => (h, i)
  | none =>
    (h.insertNonunique key ⟨initialData key.specified, none⟩,
      chainPos Key.Before key (h.chain key))

/-- The edit that `add_rule` makes under one access vector key. -/
def edit (h : HashAvtab) (key : Key) (perm : Option (Fin 32)) (invert : Bool) : HashAvtab :=
  let (h, i) := h.getNode key
  let h := h.modifyNode key i (editData perm invert)
  if ((h.chain key)[i]?).any fun n => isRedundant key n.2 then h.removeNode key i else h

/-- The data of the nodes of a chain with a key. -/
def valuesOf (key : Key) (c : List (Key × Datum)) : List Datum :=
  (c.filter fun n => n.1 = key).map Prod.snd

theorem valuesOf_append (c c' : List (Key × Datum)) :
    valuesOf key (c ++ c') = valuesOf key c ++ valuesOf key c' := by
  simp [valuesOf]

theorem valuesOf_cons (n : Key × Datum) (c : List (Key × Datum)) :
    valuesOf key (n :: c) = if n.1 = key then n.2 :: valuesOf key c else valuesOf key c := by
  unfold valuesOf
  split_ifs with hn <;> simp [hn]

theorem valuesOf_eq_nil {key : Key} {c : List (Key × Datum)} (h : ∀ n ∈ c, n.1 ≠ key) :
    valuesOf key c = [] := by
  rw [valuesOf, map_eq_nil_iff, filter_eq_nil_iff]
  intro n hn
  simpa using h n hn

theorem find_eq : h.find key = valuesOf key (h.chain key) :=
  h.table.find_eq_chain key

section SetChain

variable (h : HashAvtab) (key : Key) (c : List (Key × Datum)) (nel : UInt32)
  (hc : ∀ k ∈ c.map Prod.fst, k ∈ (h.chain key).map Prod.fst ∨ k = key)
  (hs : ChainSorted Key.Before c)
  (hnel : nel + UInt32.ofNat (h.chain key).length = h.nel + UInt32.ofNat c.length)

theorem chain_setChain : (h.setChain key c nel hc hs hnel).chain key = c :=
  (h.table.chain_setChain key key c (h.hash_of_keys hc) hs).trans (if_pos rfl)

theorem find_setChain (hne : ∀ a, a ≠ key → valuesOf a c = valuesOf a (h.chain key)) (a : Key) :
    (h.setChain key c nel hc hs hnel).find a = if a = key then valuesOf key c else h.find a :=
  h.table.find_setChain key a c (h.hash_of_keys hc) hs hne

end SetChain

theorem chain_insertNonunique (datum : Datum) :
    (h.insertNonunique key datum).chain key =
      chainInsert Key.Before key datum (h.chain key) := by
  rw [insertNonunique, chain_setChain]

theorem chain_modifyNode (i : ℕ) (f : BitVec 32 → BitVec 32) :
    (h.modifyNode key i f).chain key = (h.chain key).modify i (setData f) := by
  rw [modifyNode, chain_setChain]

section Edit

variable {h : HashAvtab} {key : Key} {v : Datum} {c c' : List (Key × Datum)}

/-- The chain of a key, split at its first node. -/
def SplitAt (chain : List (Key × Datum)) (key : Key) (c : List (Key × Datum)) (v : Datum)
    (c' : List (Key × Datum)) : Prop :=
  chain = c ++ (key, v) :: c' ∧ ∀ n ∈ c, n.1 ≠ key

theorem SplitAt.find (hsplit : SplitAt (h.chain key) key c v c') :
    h.find key = v :: valuesOf key c' := by
  rw [find_eq, hsplit.1, valuesOf_append, valuesOf_eq_nil hsplit.2, valuesOf_cons, if_pos rfl,
    nil_append]

theorem valuesOf_of_ne {a : Key} (ha : a ≠ key) (v : Datum) (c : List (Key × Datum)) :
    valuesOf a ((key, v) :: c) = valuesOf a c := by
  rw [valuesOf_cons, if_neg (Ne.symm ha)]

theorem modifyNode_spec (hsplit : SplitAt (h.chain key) key c v c') (f : BitVec 32 → BitVec 32) :
    SplitAt ((h.modifyNode key c.length f).chain key) key c { v with data := f v.data } c' ∧
      ∀ a, a ≠ key → (h.modifyNode key c.length f).find a = h.find a := by
  obtain ⟨hchain, hc⟩ := hsplit
  have hmod : (h.chain key).modify c.length (setData f) =
      c ++ (key, { v with data := f v.data }) :: c' := by
    rw [hchain]
    clear hchain hc
    induction c with
    | nil => rfl
    | cons n c ih => simp [ih]
  have hne : ∀ a, a ≠ key → valuesOf a ((h.chain key).modify c.length (setData f)) =
      valuesOf a (h.chain key) := by
    intro a ha
    rw [hmod, hchain, valuesOf_append, valuesOf_append, valuesOf_of_ne ha, valuesOf_of_ne ha]
  refine ⟨⟨(chain_modifyNode ..).trans hmod, hc⟩, ?_⟩
  intro a ha
  rw [modifyNode, find_setChain _ _ _ _ _ _ _ hne, if_neg ha]

theorem find_removeNode (hsplit : SplitAt (h.chain key) key c v c') (a : Key) :
    (h.removeNode key c.length).find a = if a = key then valuesOf key c' else h.find a := by
  obtain ⟨hchain, hc⟩ := hsplit
  have hlt : c.length < (h.chain key).length := by simp [hchain]
  have herase : (h.chain key).eraseIdx c.length = c ++ c' := by
    rw [hchain, eraseIdx_append_of_length_le (le_refl _), Nat.sub_self]
    rfl
  have hne : ∀ a, a ≠ key → valuesOf a ((h.chain key).eraseIdx c.length) =
      valuesOf a (h.chain key) := by
    intro a ha
    rw [herase, hchain, valuesOf_append, valuesOf_append, valuesOf_of_ne ha]
  rw [removeNode, dif_pos hlt, find_setChain _ _ _ _ _ _ _ hne, herase, valuesOf_append,
    valuesOf_eq_nil hc, nil_append]

theorem getNode_spec (h : HashAvtab) (key : Key) :
    ∃ c v c', SplitAt ((h.getNode key).1.chain key) key c v c' ∧ (h.getNode key).2 = c.length ∧
      getAvtabNode key (h.find key) = (v, valuesOf key c') ∧
      ∀ a, a ≠ key → (h.getNode key).1.find a = h.find a := by
  unfold getNode searchNode
  cases hsearch : chainSearch Key.Before key (h.chain key) with
  | some i =>
    obtain ⟨c, v, c', hchain, rfl, hc⟩ := chainSearch_eq_some hsearch
    have hsplit : SplitAt (h.chain key) key c v c' := ⟨hchain, hc⟩
    refine ⟨c, v, c', hsplit, rfl, ?_, fun a _ => rfl⟩
    rw [hsplit.find, getAvtabNode]
  | none =>
    have hall : ∀ n ∈ h.chain key, n.1 ≠ key :=
      chainSearch_eq_none (h.sorted_chain key) hsearch
    set p := chainPos Key.Before key (h.chain key) with hp
    have hle : p ≤ (h.chain key).length := chainPos_le key (h.chain key)
    have hnil : h.find key = [] := by rw [find_eq, valuesOf_eq_nil hall]
    have htake : ∀ n ∈ (h.chain key).take p, n.1 ≠ key :=
      fun n hn => hall n (mem_of_mem_take hn)
    have hdrop : ∀ n ∈ (h.chain key).drop p, n.1 ≠ key :=
      fun n hn => hall n (mem_of_mem_drop hn)
    refine ⟨(h.chain key).take p, ⟨initialData key.specified, none⟩, (h.chain key).drop p,
      ⟨chain_insertNonunique .., htake⟩, ?_, ?_, ?_⟩
    · rw [length_take, Nat.min_eq_left hle]
    · rw [hnil, valuesOf_eq_nil hdrop, getAvtabNode]
    · intro a ha
      rw [insertNonunique, find_setChain, if_neg ha]
      intro a ha
      rw [chainInsert, valuesOf_append, valuesOf_of_ne ha, ← valuesOf_append,
        take_append_drop]

theorem find_edit (h : HashAvtab) (key : Key) (perm : Option (Fin 32)) (invert : Bool) (a : Key) :
    (h.edit key perm invert).find a =
      if a = key then editNodes key perm invert (h.find key) else h.find a := by
  obtain ⟨c, v, c', hsplit, hi, hget, hother⟩ := getNode_spec h key
  obtain ⟨hsplit', hother'⟩ := modifyNode_spec hsplit (editData perm invert)
  have hnode : ((((h.getNode key).1.modifyNode key c.length (editData perm invert)).chain key)[
      c.length]?) = some (key, { v with data := editData perm invert v.data }) := by
    rw [hsplit'.1]
    simp
  unfold edit editNodes
  simp only [hi, hget, hnode, Option.any_some]
  split_ifs with hr ha ha
  · rw [find_removeNode hsplit', if_pos ha]
  · rw [find_removeNode hsplit', if_neg ha, hother' a ha, hother a ha]
  · rw [ha, hsplit'.find]
  · rw [hother' a ha, hother a ha]

end Edit

/-- The buckets hold what the table has that the rules are stated with. -/
def Refines (h : HashAvtab) (t : Avtab) : Prop := ∀ key, h.find key = t.search key

theorem Refines.edit {h : HashAvtab} {t : Avtab} (hr : h.Refines t) {key : Key}
    (hav : key.specified.isAv) (perm : Option (Fin 32)) (invert : Bool) :
    (h.edit key perm invert).Refines (t.edit key hav perm invert) := by
  intro a
  rw [find_edit, Avtab.edit, Avtab.search_update, hr, hr]

/-- The access vector that the nodes of a key stand for. -/
def vector (h : HashAvtab) (key : Key) : BitVec 32 := dataOf key (h.find key)

/-- One node at most for an access vector key, and none that says nothing. -/
def Ok (h : HashAvtab) : Prop :=
  (∀ key, key.specified.isAv → (h.find key).length ≤ 1) ∧
    ∀ n ∈ h.nodes, n.1.specified.isAv → ¬ isRedundant n.1 n.2

theorem mem_nodes {h : HashAvtab} {n : Key × Datum} : n ∈ h.nodes ↔ n.2 ∈ h.find n.1 := by
  constructor
  · intro hn
    exact List.mem_map.mpr ⟨n, mem_filter.mpr ⟨hn, by simp⟩, rfl⟩
  · intro hn
    obtain ⟨m, hm, hd⟩ := List.mem_map.mp hn
    obtain ⟨hm, hk⟩ := mem_filter.mp hm
    rwa [← Prod.ext (of_decide_eq_true hk) hd]

theorem vector_edit {h : HashAvtab} (hok : h.Ok) {key : Key} (hav : key.specified.isAv)
    (perm : Option (Fin 32)) (invert : Bool) (a : Key) :
    (h.edit key perm invert).vector a =
      if a = key then editData perm invert (h.vector key) else h.vector a := by
  rw [vector, find_edit]
  split_ifs with ha
  · rw [ha]
    exact (editNodes_spec key perm invert (hok.1 key hav)).2
  · rfl

theorem not_isRedundant_of_mem_editNodes {key : Key} {perm : Option (Fin 32)} {invert : Bool}
    {nodes : List Datum} (h : nodes.length ≤ 1) {d : Datum}
    (hd : d ∈ editNodes key perm invert nodes) : ¬ isRedundant key d := by
  have hrest : (getAvtabNode key nodes).2 = [] := by
    cases nodes with
    | nil => rfl
    | cons node rest =>
      rw [length_cons] at h
      have hlen : rest.length = 0 := by omega
      exact eq_nil_of_length_eq_zero hlen
  unfold editNodes at hd
  dsimp only at hd
  rw [hrest] at hd
  split_ifs at hd with hr
  · cases hd
  · rwa [mem_singleton.mp hd]

theorem Ok.edit {h : HashAvtab} (hok : h.Ok) {key : Key} (hav : key.specified.isAv)
    (perm : Option (Fin 32)) (invert : Bool) : (h.edit key perm invert).Ok := by
  constructor
  · intro a ha
    rw [find_edit]
    split_ifs with hk
    · exact (editNodes_spec key perm invert (hok.1 key hav)).1
    · exact hok.1 a ha
  · intro n hn ha
    rw [mem_nodes, find_edit] at hn
    split_ifs at hn with hk
    · rw [hk]
      exact not_isRedundant_of_mem_editNodes (hok.1 key hav) hn
    · exact hok.2 n (mem_nodes.mpr hn) ha

end HashAvtab

/-- A call of `add_rule` on a source, a target and a class. -/
structure RuleCall where
  src : TypeDatum
  tgt : TypeDatum
  cls : ClassDatum
  perm : Option (Fin 32)
  effect : Effect
  invert : Bool

def RuleCall.key (r : RuleCall) : Key := ruleKey r.src r.tgt r.cls r.effect

def HashAvtab.addRule (h : HashAvtab) (r : RuleCall) : HashAvtab := h.edit r.key r.perm r.invert

/-- A map from keys to vectors with the named bits of one key set or cleared. -/
def setBits (m : Key → Fin 32 → Bool) (r : RuleCall) : Key → Fin 32 → Bool := fun key b =>
  if key = r.key ∧ hasBit r.perm b then !r.invert else m key b

def HashAvtab.bits (h : HashAvtab) : Key → Fin 32 → Bool := fun key b => (h.vector key).getLsbD b

theorem HashAvtab.bits_addRule {h : HashAvtab} (hok : h.Ok) (r : RuleCall) :
    (h.addRule r).bits = setBits h.bits r := by
  funext key b
  have hav : r.key.specified.isAv := ruleKey_isAv _ _ _ _
  simp only [bits, setBits, addRule, vector_edit hok hav]
  by_cases hk : key = r.key
  · rw [if_pos hk, editData_getLsbD _ _ _ b.isLt, hk]
    simp
  · rw [if_neg hk, if_neg fun h => hk h.1]

/-- Every run of rules keeps the table well formed and does what it does to the map. The counter
has 32 bits. -/
theorem addRule_run {h : HashAvtab} (hok : h.Ok) (calls : List RuleCall) :
    (calls.foldl HashAvtab.addRule h).Ok ∧
      (calls.foldl HashAvtab.addRule h).bits = calls.foldl setBits h.bits ∧
      (calls.foldl HashAvtab.addRule h).nel.toNat =
        (calls.foldl HashAvtab.addRule h).nodes.length % 2 ^ 32 ∧
      ∀ key, ¬ key.specified.isAv →
        (calls.foldl HashAvtab.addRule h).find key = h.find key := by
  induction calls generalizing h with
  | nil => exact ⟨hok, rfl, congrArg UInt32.toNat h.nel_eq, fun _ _ => rfl⟩
  | cons r calls ih =>
    have hav : r.key.specified.isAv := ruleKey_isAv _ _ _ _
    obtain ⟨h₁, h₂, h₃, h₄⟩ := ih (hok.edit hav r.perm r.invert)
    refine ⟨h₁, ?_, h₃, ?_⟩
    · rw [foldl_cons, foldl_cons, ← HashAvtab.bits_addRule hok]
      exact h₂
    · intro key hkey
      have hne : key ≠ r.key := by
        rintro rfl
        exact hkey hav
      refine (h₄ key hkey).trans ?_
      rw [HashAvtab.find_edit, if_neg hne]

namespace HashAvtab

theorem length_nodes_setChain (h : HashAvtab) (key : Key) (c : List (Key × Datum)) (nel : UInt32)
    (hc : ∀ k ∈ c.map Prod.fst, k ∈ (h.chain key).map Prod.fst ∨ k = key)
    (hs : ChainSorted Key.Before c)
    (hnel : nel + UInt32.ofNat (h.chain key).length = h.nel + UInt32.ofNat c.length) :
    (h.setChain key c nel hc hs hnel).nodes.length + (h.chain key).length =
      h.nodes.length + c.length :=
  h.table.length_nodes_setChain key c (h.hash_of_keys hc) hs

theorem length_nodes_insertNonunique (h : HashAvtab) (key : Key) (datum : Datum) :
    (h.insertNonunique key datum).nodes.length = h.nodes.length + 1 := by
  have hset : (h.insertNonunique key datum).nodes.length + (h.chain key).length =
      h.nodes.length + (chainInsert Key.Before key datum (h.chain key)).length := by
    exact length_nodes_setChain ..
  rw [length_chainInsert] at hset
  omega

theorem length_nodes_modifyNode (h : HashAvtab) (key : Key) (i : ℕ) (f : BitVec 32 → BitVec 32) :
    (h.modifyNode key i f).nodes.length = h.nodes.length := by
  have hset : (h.modifyNode key i f).nodes.length + (h.chain key).length =
      h.nodes.length + ((h.chain key).modify i (setData f)).length := by
    exact length_nodes_setChain ..
  rw [length_modify] at hset
  omega

theorem length_nodes_edit {h : HashAvtab} {key : Key} (hnew : h.find key = [])
    {perm : Option (Fin 32)} {invert : Bool}
    (hr : ¬ isRedundant key ⟨editData perm invert (initialData key.specified), none⟩) :
    (h.edit key perm invert).nodes.length = h.nodes.length + 1 := by
  obtain ⟨c, v, c', hsplit, hi, hget, -⟩ := getNode_spec h key
  obtain ⟨hsplit', -⟩ := modifyNode_spec hsplit (editData perm invert)
  have hv : ⟨initialData key.specified, none⟩ = v := by
    rw [hnew] at hget
    exact (Prod.mk.inj hget).1
  subst hv
  have hsearch : h.searchNode key = none := by
    rw [Option.eq_none_iff_forall_ne_some]
    intro i hi
    obtain ⟨c, v, c', hchain, -, hc⟩ := chainSearch_eq_some hi
    have hfound : SplitAt (h.chain key) key c v c' := ⟨hchain, hc⟩
    rw [hfound.find] at hnew
    cases hnew
  have hinsert : (h.getNode key).1.nodes.length = h.nodes.length + 1 := by
    rw [getNode, hsearch]
    exact length_nodes_insertNonunique ..
  have hnode : ((((h.getNode key).1.modifyNode key c.length (editData perm invert)).chain key)[
      c.length]?) = some (key, ⟨editData perm invert (initialData key.specified), none⟩) := by
    rw [hsplit'.1]
    simp
  unfold edit
  simp only [hi, hnode, Option.any_some, if_neg hr]
  rw [length_nodes_modifyNode, hinsert]

end HashAvtab

def crowdedKey (i : ℕ) : Key := ⟨UInt16.ofNat (i / 2 ^ 16), UInt16.ofNat (i % 2 ^ 16), 1, .allowed⟩

theorem crowdedKey_before {i j : ℕ} (hi : i < 2 ^ 32) (hj : j < 2 ^ 32) :
    (crowdedKey i).Before (crowdedKey j) ↔ i < j := by
  have hsize : UInt16.size = 2 ^ 16 := rfl
  have hsrc : ∀ {n}, n < 2 ^ 32 → (UInt16.ofNat (n / 2 ^ 16)).toNat = n / 2 ^ 16 :=
    fun hn => UInt16.toNat_ofNat_of_lt' (by omega)
  have htgt : ∀ n, (UInt16.ofNat (n % 2 ^ 16)).toNat = n % 2 ^ 16 :=
    fun n => UInt16.toNat_ofNat_of_lt' (Nat.mod_lt _ (by norm_num))
  rw [Key.before_iff]
  simp only [crowdedKey, hsrc hi, hsrc hj, htgt]
  omega

def crowdedChain (n : ℕ) : List (Key × Datum) :=
  (List.range n).map fun i => (crowdedKey i, ⟨1, none⟩)

theorem crowdedChain_before {n : ℕ} (hn : n ≤ 2 ^ 32) :
    (crowdedChain n).Pairwise fun a b => a.1.Before b.1 := by
  rw [crowdedChain, pairwise_map]
  refine List.Pairwise.imp_of_mem ?_ pairwise_lt_range
  intro i j hi hj hij
  have hj := mem_range.mp hj
  exact (crowdedKey_before (by omega) (by omega)).mpr hij

def crowdedHashAvtab (n : ℕ) (hn : n ≤ 2 ^ 32) : HashAvtab where
  mask := 0
  table :=
    { slots := [crowdedChain n]
      hash_lt := fun key => by simp [avtabHash]
      hashed := by
        intro i chain h k _
        have hi : i < [crowdedChain n].length := (List.getElem?_eq_some_iff.mp h).1
        simp only [length_singleton] at hi
        have hz : avtabHash 0 k.1 = 0 := by simp [avtabHash]
        omega
      sorted := by
        intro chain h
        rw [mem_singleton.mp h]
        exact (crowdedChain_before hn).imp fun hab hba =>
          irrefl_of Key.Before _ (trans_of Key.Before hab hba) }
  nel := UInt32.ofNat n
  nel_eq := by simp [HashTable.nodes, crowdedChain]

theorem crowdedHashAvtab_ok (n : ℕ) (hn : n ≤ 2 ^ 32) : (crowdedHashAvtab n hn).Ok := by
  have hnodes : (crowdedHashAvtab n hn).nodes = crowdedChain n := flatten_singleton
  constructor
  · intro key _
    have hsub : ((crowdedChain n).filter fun m => m.1 = key).Pairwise fun a b => a.1.Before b.1 :=
      (crowdedChain_before hn).sublist filter_sublist
    have hkey : ∀ m ∈ (crowdedChain n).filter (fun m => m.1 = key), m.1 = key :=
      fun m hm => of_decide_eq_true (mem_filter.mp hm).2
    change (((crowdedHashAvtab n hn).nodes.filter fun m => m.1 = key).map Prod.snd).length ≤ 1
    rw [hnodes, length_map]
    rcases hl : (crowdedChain n).filter fun m => m.1 = key with _ | ⟨a, _ | ⟨b, l⟩⟩
    · rw [hl]
      exact Nat.zero_le 1
    · rw [hl]
      exact le_refl 1
    · rw [hl] at hsub hkey
      have hab := (pairwise_cons.mp hsub).1 b mem_cons_self
      rw [hkey a mem_cons_self, hkey b (mem_cons_of_mem a mem_cons_self)] at hab
      exact absurd hab (irrefl_of Key.Before key)
  · intro k hk _
    rw [hnodes] at hk
    obtain ⟨i, -, rfl⟩ := List.mem_map.mp hk
    simp [isRedundant, initialData, crowdedKey]

/-- The two rules leave two nodes. -/
theorem addRule_run_empty : ∃ h : HashAvtab, h.Ok ∧ h.nel.toNat = 2 ∧
    h.bits = [(⟨⟨1, .type⟩, ⟨2, .type⟩, dirClass, some 0, .allowed, false⟩ : RuleCall),
      ⟨⟨1, .type⟩, ⟨2, .type⟩, dirClass, none, .auditdeny, true⟩].foldl setBits
        (crowdedHashAvtab 0 (by norm_num)).bits := by
  obtain ⟨hok, hbits, hnel, -⟩ := addRule_run (crowdedHashAvtab_ok 0 (by norm_num))
    [⟨⟨1, .type⟩, ⟨2, .type⟩, dirClass, some 0, .allowed, false⟩,
      ⟨⟨1, .type⟩, ⟨2, .type⟩, dirClass, none, .auditdeny, true⟩]
  exact ⟨_, hok, hnel.trans (by decide +kernel), hbits⟩

theorem find_crowdedHashAvtab {n : ℕ} (hn : n < 2 ^ 32) :
    (crowdedHashAvtab n hn.le).find (crowdedKey n) = [] := by
  have hne : ∀ m ∈ crowdedChain n, m.1 ≠ crowdedKey n := by
    intro m hm hk
    obtain ⟨i, hi, rfl⟩ := List.mem_map.mp hm
    have hlt := mem_range.mp hi
    have hb := (crowdedKey_before (by omega) hn).mpr hlt
    rw [show crowdedKey i = crowdedKey n from hk] at hb
    exact irrefl_of Key.Before _ hb
  have hnodes : (crowdedHashAvtab n hn.le).nodes = crowdedChain n := flatten_singleton
  change ((crowdedHashAvtab n hn.le).nodes.filter fun m => m.1 = crowdedKey n).map Prod.snd = []
  rw [hnodes]
  exact HashAvtab.valuesOf_eq_nil hne

/-- With 2^32 nodes the counter is 0. -/
theorem addRule_run_crowded : ∃ (h : HashAvtab) (r : RuleCall),
    h.Ok ∧ h.nel.toNat = h.nodes.length ∧ (h.addRule r).nel.toNat ≠ (h.addRule r).nodes.length := by
  have hn : 2 ^ 32 - 1 < 2 ^ 32 := by norm_num
  set h := crowdedHashAvtab (2 ^ 32 - 1) hn.le with hh
  have hnodes : h.nodes = crowdedChain (2 ^ 32 - 1) := flatten_singleton
  have hlen : h.nodes.length = 2 ^ 32 - 1 := by
    rw [hnodes, crowdedChain, length_map, length_range]
  let r : RuleCall := ⟨⟨2 ^ 16 - 1, .type⟩, ⟨2 ^ 16 - 1, .type⟩, dirClass, none, .allowed, false⟩
  have hkey : r.key = crowdedKey (2 ^ 32 - 1) := by decide
  have hnew : h.find r.key = [] := by
    rw [hkey]
    exact find_crowdedHashAvtab hn
  have hadd : (h.addRule r).nodes.length = 2 ^ 32 := by
    have hr : ¬ isRedundant r.key ⟨editData r.perm r.invert (initialData r.key.specified), none⟩ := by
      decide
    have hedit := HashAvtab.length_nodes_edit hnew hr
    rw [hlen] at hedit
    exact hedit
  refine ⟨h, r, crowdedHashAvtab_ok _ hn.le, ?_, ?_⟩
  · rw [hlen]
    rfl
  · rw [(h.addRule r).nel_eq]
    change (UInt32.ofNat (h.addRule r).nodes.length).toNat ≠ _
    rw [hadd]
    decide

end Magisk.Sepolicy
