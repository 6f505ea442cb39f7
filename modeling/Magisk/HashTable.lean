import Mathlib

namespace Magisk

open List

variable {K V : Type} [DecidableEq K] {lt : K → K → Prop} [DecidableRel lt]

section Chain

variable (lt)

/-- The position of the first node with the key. -/
def chainSearch (k : K) : List (K × V) → Option ℕ
  | [] => none
  | n :: chain =>
    if k = n.1 then some 0
    else if lt k n.1 then none
    else (chainSearch k chain).map (· + 1)

/-- The position at which a node with the key is inserted. -/
def chainPos (k : K) : List (K × V) → ℕ
  | [] => 0
  | n :: chain =>
    if k = n.1 then 0
    else if lt k n.1 then 0
    else chainPos k chain + 1

/-- No node stands behind a later one. -/
def ChainSorted (chain : List (K × V)) : Prop := chain.Pairwise fun m n => ¬ lt n.1 m.1

variable {lt}

omit [DecidableEq K] [DecidableRel lt] in
theorem chainSorted_iff {chain : List (K × V)} :
    ChainSorted lt chain ↔ (chain.map Prod.fst).Pairwise fun a b => ¬ lt b a := by
  rw [pairwise_map]
  rfl

omit [DecidableEq K] [DecidableRel lt] in
theorem ChainSorted.eraseIdx {chain : List (K × V)} (h : ChainSorted lt chain) (i : ℕ) :
    ChainSorted lt (chain.eraseIdx i) :=
  List.Pairwise.sublist (eraseIdx_sublist _ _) h

theorem chainSearch_eq_some {k : K} {chain : List (K × V)} {i : ℕ}
    (h : chainSearch lt k chain = some i) :
    ∃ c v c', chain = c ++ (k, v) :: c' ∧ c.length = i ∧ ∀ n ∈ c, n.1 ≠ k := by
  induction chain generalizing i with
  | nil => cases h
  | cons n chain ih =>
    rw [chainSearch] at h
    split_ifs at h with hk hlt
    · cases h
      exact ⟨[], n.2, chain, by rw [hk]; rfl, rfl, by simp⟩
    · obtain ⟨j, hj, rfl⟩ := Option.map_eq_some_iff.mp h
      obtain ⟨c, v, c', rfl, rfl, hc⟩ := ih hj
      exact ⟨n :: c, v, c', rfl, rfl, forall_mem_cons.mpr ⟨Ne.symm hk, hc⟩⟩

theorem chainSearch_eq_none {k : K} {chain : List (K × V)} (hs : ChainSorted lt chain)
    (h : chainSearch lt k chain = none) : ∀ n ∈ chain, n.1 ≠ k := by
  induction chain with
  | nil => simp
  | cons n chain ih =>
    obtain ⟨hn, hs⟩ := pairwise_cons.mp hs
    rw [chainSearch] at h
    split_ifs at h with hk hlt
    · -- the nodes behind `n` are not before it, as the key is
      refine forall_mem_cons.mpr ⟨Ne.symm hk, ?_⟩
      rintro m hm rfl
      exact hn m hm hlt
    · exact forall_mem_cons.mpr ⟨Ne.symm hk, ih hs (Option.map_eq_none_iff.mp h)⟩

theorem chainPos_le (k : K) (chain : List (K × V)) : chainPos lt k chain ≤ chain.length := by
  induction chain with
  | nil => exact le_rfl
  | cons n chain ih =>
    rw [chainPos, length_cons]
    split_ifs <;> omega

theorem not_lt_of_mem_take_chainPos {k : K} {chain : List (K × V)} :
    ∀ n ∈ chain.take (chainPos lt k chain), ¬ lt k n.1 := by
  induction chain with
  | nil => simp
  | cons n chain ih =>
    rw [chainPos]
    split_ifs with hk hlt
    · simp
    · simp
    · exact forall_mem_cons.mpr ⟨hlt, ih⟩

theorem not_lt_of_mem_drop_chainPos [IsStrictOrder K lt] {k : K} {chain : List (K × V)}
    (hs : ChainSorted lt chain) : ∀ n ∈ chain.drop (chainPos lt k chain), ¬ lt n.1 k := by
  induction chain with
  | nil => simp
  | cons n chain ih =>
    obtain ⟨hn, hs⟩ := pairwise_cons.mp hs
    rw [chainPos]
    split_ifs with hk hlt
    · rw [drop_zero, hk]
      exact forall_mem_cons.mpr ⟨irrefl_of lt n.1, hn⟩
    · rw [drop_zero]
      refine forall_mem_cons.mpr ⟨fun h => irrefl_of lt _ (trans_of lt h hlt), ?_⟩
      exact fun m hm h => hn m hm (trans_of lt h hlt)
    · exact ih hs

def chainInsert (lt : K → K → Prop) [DecidableRel lt] (k : K) (v : V) (chain : List (K × V)) :
    List (K × V) :=
  chain.take (chainPos lt k chain) ++ (k, v) :: chain.drop (chainPos lt k chain)

theorem chainSorted_insert [IsStrictOrder K lt] (k : K) (v : V) {chain : List (K × V)}
    (hs : ChainSorted lt chain) : ChainSorted lt (chainInsert lt k v chain) := by
  have hparts := hs
  rw [ChainSorted, ← take_append_drop (chainPos lt k chain) chain,
    pairwise_append] at hparts
  obtain ⟨htake, hdrop, hcross⟩ := hparts
  rw [ChainSorted, chainInsert, pairwise_append, pairwise_cons]
  refine ⟨htake, ⟨not_lt_of_mem_drop_chainPos hs, hdrop⟩, ?_⟩
  intro m hm n hn
  rcases mem_cons.mp hn with rfl | hn
  · exact not_lt_of_mem_take_chainPos m hm
  · exact hcross m hm n hn

theorem length_chainInsert (k : K) (v : V) (chain : List (K × V)) :
    (chainInsert lt k v chain).length = chain.length + 1 := by
  simp only [chainInsert, length_append, length_cons, length_take,
    length_drop]
  omega

end Chain

/-- A table whose nodes stand in the chain of their hash. -/
structure HashTable (K V : Type) (hash : K → ℕ) (lt : K → K → Prop) where
  slots : List (List (K × V))
  hash_lt : ∀ k, hash k < slots.length
  hashed : ∀ i chain, slots[i]? = some chain → ∀ n ∈ chain, hash n.1 = i
  sorted : ∀ chain ∈ slots, ChainSorted lt chain

namespace HashTable

variable {hash : K → ℕ} (t : HashTable K V hash lt)

omit [DecidableRel lt]

def nodes : List (K × V) := t.slots.flatten

def find (k : K) : List V := (t.nodes.filter fun n => n.1 = k).map Prod.snd

def chain (k : K) : List (K × V) := t.slots.getD (hash k) []

omit [DecidableEq K] in
theorem getElem?_chain (k : K) : t.slots[hash k]? = some (t.chain k) := by
  rw [chain, getD_eq_getElem?_getD, getElem?_eq_getElem (t.hash_lt k), Option.getD_some]

omit [DecidableEq K] in
theorem hash_of_mem_chain {k : K} {n : K × V} (h : n ∈ t.chain k) : hash n.1 = hash k :=
  t.hashed _ _ (t.getElem?_chain k) n h

omit [DecidableEq K] in
theorem sorted_chain (k : K) : ChainSorted lt (t.chain k) :=
  t.sorted _ (mem_of_getElem? (t.getElem?_chain k))

omit [DecidableEq K] in
theorem slots_eq (k : K) : ∃ before after, t.slots = before ++ t.chain k :: after ∧
    before.length = hash k := by
  have hk := t.hash_lt k
  refine ⟨t.slots.take (hash k), t.slots.drop (hash k + 1), ?_, by simp; omega⟩
  have hc : t.slots[hash k] = t.chain k := by
    have := t.getElem?_chain k
    rw [getElem?_eq_getElem hk] at this
    exact Option.some.inj this
  rw [← hc, cons_getElem_drop_succ, take_append_drop]

theorem find_eq_chain (k : K) :
    t.find k = ((t.chain k).filter fun n => n.1 = k).map Prod.snd := by
  obtain ⟨before, after, hs, hlen⟩ := t.slots_eq k
  -- the nodes of the other slots have other hashes
  have hother : ∀ i c, t.slots[i]? = some c → i ≠ hash k →
      (c.filter fun n => n.1 = k) = [] := by
    intro i c hc hi
    rw [filter_eq_nil_iff]
    intro n hn hk
    exact hi ((t.hashed i c hc n hn).symm.trans (congrArg hash (of_decide_eq_true hk)))
  have hbefore : (before.flatten.filter fun n => n.1 = k) = [] := by
    rw [filter_flatten, flatten_eq_nil_iff]
    intro l hl
    obtain ⟨c, hc, rfl⟩ := List.mem_map.mp hl
    obtain ⟨i, hi, rfl⟩ := mem_iff_getElem.mp hc
    apply hother i
    · rw [hs, getElem?_append_left hi, getElem?_eq_getElem hi]
    · omega
  have hafter : (after.flatten.filter fun n => n.1 = k) = [] := by
    rw [filter_flatten, flatten_eq_nil_iff]
    intro l hl
    obtain ⟨c, hc, rfl⟩ := List.mem_map.mp hl
    obtain ⟨i, hi, rfl⟩ := mem_iff_getElem.mp hc
    apply hother (before.length + (i + 1))
    · rw [hs, getElem?_append_right (by omega)]
      simp [hi]
    · omega
  rw [find, nodes, hs, flatten_append, flatten_cons, filter_append,
    filter_append, hbefore, hafter, nil_append, append_nil]

/-- The table with another chain for the keys of one hash. -/
def setChain (k : K) (c : List (K × V)) (hc : ∀ n ∈ c, hash n.1 = hash k)
    (hs : ChainSorted lt c) : HashTable K V hash lt where
  slots := t.slots.set (hash k) c
  hash_lt a := by
    rw [length_set]
    exact t.hash_lt a
  hashed i c' h := by
    rw [getElem?_set] at h
    split_ifs at h with hi hl
    · cases h
      exact hi ▸ hc
    · exact t.hashed i c' h
  sorted c' h := by
    rcases mem_or_eq_of_mem_set h with h | rfl
    · exact t.sorted c' h
    · exact hs

omit [DecidableEq K] in
theorem chain_setChain (k a : K) (c : List (K × V)) (hc : ∀ n ∈ c, hash n.1 = hash k)
    (hs : ChainSorted lt c) :
    (t.setChain k c hc hs).chain a = if hash a = hash k then c else t.chain a := by
  have hk := t.hash_lt k
  simp only [chain, setChain, getD_eq_getElem?_getD, getElem?_set]
  split_ifs with h h' <;> first | rfl | omega

theorem find_setChain (k a : K) (c : List (K × V)) (hc : ∀ n ∈ c, hash n.1 = hash k)
    (hs : ChainSorted lt c) (hne : ∀ a, a ≠ k → (c.filter fun n => n.1 = a).map Prod.snd =
      ((t.chain k).filter fun n => n.1 = a).map Prod.snd) :
    (t.setChain k c hc hs).find a =
      if a = k then (c.filter fun n => n.1 = k).map Prod.snd else t.find a := by
  rw [find_eq_chain, find_eq_chain, chain_setChain]
  by_cases ha : a = k
  · rw [if_pos ha, ha, if_pos rfl]
  · rw [if_neg ha]
    by_cases hh : hash a = hash k
    · have hchain : t.chain a = t.chain k := by simp only [chain, hh]
      rw [if_pos hh, hne a ha, hchain]
    · rw [if_neg hh]

omit [DecidableEq K] in
theorem length_nodes_setChain (k : K) (c : List (K × V)) (hc : ∀ n ∈ c, hash n.1 = hash k)
    (hs : ChainSorted lt c) :
    (t.setChain k c hc hs).nodes.length + (t.chain k).length = t.nodes.length + c.length := by
  obtain ⟨before, after, h, hlen⟩ := t.slots_eq k
  have hset : t.slots.set (hash k) c = before ++ c :: after := by
    rw [h, set_append_right _ _ (by omega), hlen, Nat.sub_self, set_cons_zero]
  simp only [nodes, setChain, hset]
  simp only [h, flatten_append, flatten_cons, length_append]
  omega

end HashTable

end Magisk
