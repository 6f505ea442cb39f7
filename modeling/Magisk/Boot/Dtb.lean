import Magisk.Boot.Format
import Magisk.Boot.Patch

namespace Magisk.Boot

open List

/-- A property, with the place of its value in the tree. -/
structure NodeProperty where
  name : Bytes
  off : ℕ
  len : ℕ
  deriving DecidableEq, Repr

inductive FdtNode where
  | mk (name : Bytes) (properties : List NodeProperty) (children : List FdtNode)

namespace FdtNode

def name : FdtNode → Bytes
  | mk name _ _ => name

def properties : FdtNode → List NodeProperty
  | mk _ properties _ => properties

def children : FdtNode → List FdtNode
  | mk _ _ children => children

def property (node : FdtNode) (name : Bytes) : Option NodeProperty :=
  node.properties.find? (·.name = name)

mutual

/-- A node is listed before the nodes below it. -/
def allNodes : FdtNode → List FdtNode
  | mk name properties children => mk name properties children :: allNodesOf children

def allNodesOf : List FdtNode → List FdtNode
  | [] => []
  | node :: nodes => allNodes node ++ allNodesOf nodes

end

end FdtNode

inductive FdtError where
  | badMagic
  | badPtr
  | bufferTooSmall
  deriving DecidableEq, Repr

def totalSize (slice : Bytes) : ℕ := leValue (view slice 4 4).reverse

/-- What is assumed of the crate `fdt`: `Fdt::new`, of which only `total_size` is kept, takes every
tree that is there to its end. -/
structure FdtReader where
  new : Bytes → Except FdtError ℕ
  new_of_le : ∀ slice, 40 ≤ slice.length → view slice 0 4 = dtbMagic →
    totalSize slice ≤ slice.length → new slice = .ok (totalSize slice)
  size_eq : ∀ slice size, new slice = .ok size → size = totalSize slice

def fdtReader : FdtReader where
  new slice :=
    if slice.length < 40 then .error .bufferTooSmall
    else if view slice 0 4 ≠ dtbMagic then .error .badMagic
    else if slice.length < totalSize slice then .error .bufferTooSmall
    else .ok (totalSize slice)
  new_of_le slice h40 hmagic hle := by
    rw [if_neg (by omega), if_neg (not_not_intro hmagic), if_neg (by omega)]
  size_eq slice size h := by
    split_ifs at h
    exact (Except.ok.inj h).symm

/-- How a command ends without a value. An error leaves the file behind as it is then. -/
inductive DtbFault where
  | error (file : Bytes)
  | panic
  | hang
  deriving DecidableEq, Repr

/-- `for_each_fdt` from `pos` on. The closure gets the number of the tree and where it starts. A
tree of size zero would be visited again and again. -/
def forEachFdt {σ : Type} (fdt : FdtReader)
    (f : ℕ → ℕ → Bytes × σ → Except DtbFault (Bytes × σ)) :
    ℕ → ℕ → ℕ → Bytes × σ → Except DtbFault (Bytes × σ)
  | 0, _, _, _ => .error .hang
  | fuel + 1, dtbNum, pos, s =>
    match find (s.1.drop pos) dtbMagic with
    | none => .ok s
    | some i =>
      let slice := s.1.drop (pos + i)
      if slice.length < 40 then .ok s
      else
        match fdt.new slice with
        | .error .bufferTooSmall => .ok s
        | .error _ => .error (.error s.1)
        | .ok size =>
          f dtbNum (pos + i) s >>= fun s =>
            -- `&slice[size..]`
            if slice.length < size then .error .panic
            else forEachFdt fdt f fuel (dtbNum + 1) (pos + i + size) s

/-- `copy_from_slice` into the `len` bytes at `off`. -/
def copyFromSlice (file : Bytes) (off len : ℕ) (src : Bytes) : Except DtbFault Bytes :=
  if src.length = len then .ok (overwrite file off src) else .error .panic

def skipInitramfs : Bytes := lit "skip_initramfs"
def wantInitramfs : Bytes := lit "want_initramfs"

def patchWindow (s : Bytes × Bool) (off : ℕ) : Except DtbFault (Bytes × Bool) :=
  if view s.1 off 14 = skipInitramfs then
    -- the range `..=4` has five bytes
    (copyFromSlice s.1 off 5 (lit "want")).map fun file => (file, true)
  else .ok s

/-- The windows of 14 bytes of a value. -/
def patchBootArgs (s : Bytes × Bool) (off len : ℕ) : Except DtbFault (Bytes × Bool) :=
  (List.range (len + 1 - 14)).foldlM (fun s i => patchWindow s (off + i)) s

def patchFlags (s : Bytes × Bool) (off len : ℕ) : Bytes × Bool :=
  let flags := view s.1 off len
  let r := patchVerity flags
  (overwrite s.1 off r.1, s.2 || r.2 ≠ flags.length)

/-- The first loop of the closure, for a tree that starts at `base`. -/
def patchChosen (base : ℕ) (s : Bytes × Bool) (node : FdtNode) :
    Except DtbFault (Bytes × Bool) :=
  if node.name ≠ lit "chosen" then .ok s
  else
    match node.property (lit "bootargs") with
    | some bootArgs => patchBootArgs s (base + bootArgs.off) bootArgs.len
    | none => .ok s

def findFstab (tree : FdtNode) : Option FdtNode := tree.allNodes.find? (·.name = lit "fstab")

def patchChild (base : ℕ) (s : Bytes × Bool) (child : FdtNode) : Bytes × Bool :=
  match child.property (lit "fsmgr_flags") with
  | some flags => patchFlags s (base + flags.off) flags.len
  | none => s

def patchFstab (keepVerity : Bool) (base : ℕ) (tree : FdtNode) (s : Bytes × Bool) : Bytes × Bool :=
  if keepVerity then s
  else
    match findFstab tree with
    | none => s
    | some fstab => fstab.children.foldl (patchChild base) s

section Dtb

variable (fdt : FdtReader) (root : Bytes → FdtNode) (keepVerity : Bool)

/-- The closure of `dtb_patch`. The crate finds the nodes below `root` in the bytes from the start
of the tree on. -/
def patchFdt (_ base : ℕ) (s : Bytes × Bool) : Except DtbFault (Bytes × Bool) :=
  let tree := root (s.1.drop base)
  (tree.allNodes.foldlM (patchChosen base) s).map (patchFstab keepVerity base tree)

/-- The file afterwards and whether it was patched. An empty file cannot be mapped. -/
def dtbPatch (file : Bytes) : Except DtbFault (Bytes × Bool) :=
  if file = [] then .error (.error file)
  else forEachFdt fdt (patchFdt root keepVerity) (file.length + 1) 0 0 (file, false)

end Dtb

def FdtNode.allProperties (node : FdtNode) : List NodeProperty :=
  node.allNodes.flatMap FdtNode.properties

/-- The bytes of a device tree with its nodes. The values of the properties stand behind the
header, each in a place of its own. -/
structure DeviceTree where
  data : Bytes
  tree : FdtNode
  magic_eq : view data 0 4 = dtbMagic
  size_eq : leValue (view data 4 4).reverse = data.length
  header_le : 40 ≤ data.length
  inside : ∀ p ∈ tree.allProperties, 40 ≤ p.off ∧ p.off + p.len ≤ data.length
  disjoint : tree.allProperties.Pairwise fun p q =>
    p.off + p.len ≤ q.off ∨ q.off + q.len ≤ p.off

def fileOf (trees : List DeviceTree) : Bytes := trees.flatMap DeviceTree.data

def FdtNode.bootArgs (node : FdtNode) : Option NodeProperty :=
  if node.name = lit "chosen" then node.property (lit "bootargs") else none

def DeviceTree.bootArgs (t : DeviceTree) : List NodeProperty :=
  t.tree.allNodes.filterMap FdtNode.bootArgs

/-- The crate finds the nodes of each of the trees, whatever follows. -/
def Enumerates (root : Bytes → FdtNode) (trees : List DeviceTree) : Prop :=
  ∀ t ∈ trees, ∀ rest, root (t.data ++ rest) = t.tree

def Occurs (value : Bytes) : Prop := ∃ i, view value i 14 = skipInitramfs

/-- Every `skip_initramfs` has become a `want_initramfs`, and nothing else is changed. -/
structure Replaced (old new : Bytes) : Prop where
  length_eq : new.length = old.length
  wanted : ∀ i, view old i 14 = skipInitramfs → view new i 14 = wantInitramfs
  kept : ∀ x, (∀ i, view old i 14 = skipInitramfs → x < i ∨ i + 14 ≤ x) → new[x]? = old[x]?

/-- The file and the result, if any, of a call that returns. -/
def returned : Except DtbFault (Bytes × Bool) → Option (Bytes × Option Bool)
  | .ok (file, patched) => some (file, some patched)
  | .error (.error file) => some (file, none)
  | .error _ => none

/-- The call returns, with every value of `bootargs` patched, and tells so. -/
def PatchHolds (fdt : FdtReader) (root : Bytes → FdtNode) (keepVerity : Bool)
    (trees : List DeviceTree) : Prop :=
  ∃ file ret, returned (dtbPatch fdt root keepVerity (fileOf trees)) = some (file, ret) ∧
    (∀ l t r, trees = l ++ t :: r → ∀ p ∈ t.bootArgs,
      Replaced (view t.data p.off p.len) (view file ((fileOf l).length + p.off) p.len)) ∧
    ((∃ t ∈ trees, ∃ p ∈ t.bootArgs, Occurs (view t.data p.off p.len)) → ret = some true)

section Fold

variable {ε σ α : Type} {f : σ → α → Except ε σ} {s : σ} {l : List α}

theorem foldlM_eq_ok (h : ∀ a ∈ l, f s a = .ok s) : l.foldlM f s = .ok s := by
  induction l with
  | nil => rfl
  | cons a l ih =>
    rw [foldlM_cons, h a mem_cons_self]
    exact ih fun b hb => h b (mem_cons_of_mem a hb)

theorem foldlM_eq_error {e : ε} (h : ∀ a ∈ l, f s a = .ok s ∨ f s a = .error e)
    (hbad : ∃ a ∈ l, f s a = .error e) : l.foldlM f s = .error e := by
  induction l with
  | nil =>
    obtain ⟨a, ha, -⟩ := hbad
    cases ha
  | cons a l ih =>
    rw [foldlM_cons]
    cases h a mem_cons_self with
    | inr ha =>
      rw [ha]
      rfl
    | inl ha =>
      rw [ha]
      refine ih (fun b hb => h b (mem_cons_of_mem a hb)) ?_
      obtain ⟨b, hb, he⟩ := hbad
      cases mem_cons.mp hb with
      | inl hba =>
        rw [hba, ha] at he
        cases he
      | inr hb => exact ⟨b, hb, he⟩

end Fold

section BootArgs

variable {s : Bytes × Bool} {off len base : ℕ}

theorem patchWindow_of_ne (h : view s.1 off 14 ≠ skipInitramfs) : patchWindow s off = .ok s := by
  rw [patchWindow, if_neg h]

theorem patchWindow_of_eq (h : view s.1 off 14 = skipInitramfs) :
    patchWindow s off = .error .panic := by
  have hlen : ¬(lit "want").length = 5 := by decide
  rw [patchWindow, if_pos h, copyFromSlice, if_neg hlen]
  rfl

theorem occurs_iff : Occurs (view s.1 off len) ↔
    ∃ i ∈ List.range (len + 1 - 14), view s.1 (off + i) 14 = skipInitramfs := by
  have hskip : skipInitramfs.length = 14 := by decide
  constructor
  · rintro ⟨i, hi⟩
    have hlen := congrArg List.length hi
    rw [view_length, view_length, hskip] at hlen
    rw [view_view _ _ (by omega)] at hi
    exact ⟨i, mem_range.mpr (by omega), hi⟩
  · rintro ⟨i, hi, h⟩
    have hlt := mem_range.mp hi
    refine ⟨i, ?_⟩
    rw [view_view _ _ (by omega), h]

theorem patchBootArgs_of_not_occurs (h : ¬Occurs (view s.1 off len)) :
    patchBootArgs s off len = .ok s := by
  apply foldlM_eq_ok
  intro i hi
  exact patchWindow_of_ne fun hw => h (occurs_iff.mpr ⟨i, hi, hw⟩)

theorem patchBootArgs_of_occurs (h : Occurs (view s.1 off len)) :
    patchBootArgs s off len = .error .panic := by
  apply foldlM_eq_error
  · intro i _
    by_cases hw : view s.1 (off + i) 14 = skipInitramfs
    · exact Or.inr (patchWindow_of_eq hw)
    · exact Or.inl (patchWindow_of_ne hw)
  · obtain ⟨i, hi, hw⟩ := occurs_iff.mp h
    exact ⟨i, hi, patchWindow_of_eq hw⟩

theorem patchChosen_eq (base : ℕ) (s : Bytes × Bool) (node : FdtNode) :
    patchChosen base s node =
      match node.bootArgs with
      | some p => patchBootArgs s (base + p.off) p.len
      | none => .ok s := by
  rw [patchChosen, FdtNode.bootArgs]
  by_cases h : node.name = lit "chosen"
  · rw [if_neg (not_not_intro h), if_pos h]
  · rw [if_pos h, if_neg h]

end BootArgs

theorem FdtNode.induct {motive : FdtNode → Prop}
    (mk : ∀ name properties children, (∀ c ∈ children, motive c) →
      motive (.mk name properties children)) : ∀ node, motive node
  | .mk name properties children =>
    mk name properties children fun c _ => FdtNode.induct mk c

variable {node : FdtNode} {p : NodeProperty} {t : DeviceTree} {σ : Type}

theorem FdtNode.mem_allNodesOf {nodes : List FdtNode} :
    node ∈ allNodesOf nodes ↔ ∃ c ∈ nodes, node ∈ c.allNodes := by
  induction nodes with
  | nil => simp [allNodesOf]
  | cons c nodes ih => rw [allNodesOf, mem_append, ih, exists_mem_cons_iff]

theorem FdtNode.self_mem_allNodes (node : FdtNode) : node ∈ node.allNodes := by
  cases node with
  | mk name properties children =>
    exact mem_cons_self

theorem FdtNode.child_mem_allNodes {tree node child : FdtNode} (h : node ∈ tree.allNodes)
    (hc : child ∈ node.children) : child ∈ tree.allNodes := by
  induction tree using FdtNode.induct with
  | mk name properties nodes ih =>
    refine mem_cons_of_mem _ (mem_allNodesOf.mpr ?_)
    cases mem_cons.mp h with
    | inl hn =>
      rw [hn] at hc
      exact ⟨child, hc, self_mem_allNodes child⟩
    | inr hn =>
      obtain ⟨c, hcm, hn⟩ := mem_allNodesOf.mp hn
      exact ⟨c, hcm, ih c hcm hn⟩

theorem FdtNode.property_mem {tree node : FdtNode} {name : Bytes}
    (h : node ∈ tree.allNodes) (hp : node.property name = some p) :
    p ∈ tree.allProperties ∧ p.name = name := by
  refine ⟨mem_flatMap.mpr ⟨node, h, mem_of_find?_eq_some hp⟩, ?_⟩
  simpa using find?_some hp

theorem DeviceTree.bootArgs_mem (h : p ∈ t.bootArgs) :
    p ∈ t.tree.allProperties ∧ p.name = lit "bootargs" := by
  obtain ⟨node, hn, hp⟩ := mem_filterMap.mp h
  rw [FdtNode.bootArgs] at hp
  split_ifs at hp
  exact FdtNode.property_mem hn hp

/-- The places that hold the flags of an `fstab` are all that is written to. -/
def DeviceTree.Outside (t : DeviceTree) (base x : ℕ) : Prop :=
  ∀ q ∈ t.tree.allProperties, q.name = lit "fsmgr_flags" →
    x < base + q.off ∨ base + q.off + q.len ≤ x

/-- Two files that differ only where a tree has flags. -/
structure DeviceTree.Keeps (t : DeviceTree) (base : ℕ) (m m' : Bytes) : Prop where
  length_eq : m'.length = m.length
  outside : ∀ x, t.Outside base x → m'[x]? = m[x]?

section Tree

variable {t : DeviceTree} {base : ℕ} {s : Bytes × Bool}

variable {m m' : Bytes} {p : NodeProperty}

theorem patchFlags_keeps {q : NodeProperty} (hq : q ∈ t.tree.allProperties)
    (hname : q.name = lit "fsmgr_flags") (h : t.Keeps base m s.1) :
    t.Keeps base m (patchFlags s (base + q.off) q.len).1 := by
  refine ⟨(overwrite_length _ _ _).trans h.length_eq, fun x hx => ?_⟩
  rw [← h.outside x hx]
  apply getElem?_overwrite_of_not_mem
  rw [patchVerity, removePattern_length, view_length]
  cases hx q hq hname with
  | inl hx => exact Or.inl hx
  | inr hx => exact Or.inr (by omega)

theorem patchChildren_keeps {nodes : List FdtNode} (hn : ∀ c ∈ nodes, c ∈ t.tree.allNodes)
    (h : t.Keeps base m s.1) :
    t.Keeps base m (nodes.foldl (patchChild base) s).1 := by
  induction nodes generalizing s with
  | nil => exact h
  | cons c nodes ih =>
    apply ih fun d hd => hn d (mem_cons_of_mem c hd)
    rw [patchChild]
    cases hp : c.property (lit "fsmgr_flags") with
    | none => exact h
    | some q =>
      obtain ⟨hq, hname⟩ := FdtNode.property_mem (hn c mem_cons_self) hp
      exact patchFlags_keeps hq hname h

theorem patchFstab_keeps (keepVerity : Bool) (t : DeviceTree) (base : ℕ) (s : Bytes × Bool) :
    t.Keeps base s.1 (patchFstab keepVerity base t.tree s).1 := by
  have hrefl : t.Keeps base s.1 s.1 := ⟨rfl, fun _ _ => rfl⟩
  rw [patchFstab]
  split_ifs
  · exact hrefl
  · cases hf : findFstab t.tree with
    | none => exact hrefl
    | some fstab =>
      have hfm : fstab ∈ t.tree.allNodes := mem_of_find?_eq_some hf
      exact patchChildren_keeps (fun c hc => FdtNode.child_mem_allNodes hfm hc) hrefl

/-- `skip_initramfs` is in the `bootargs` of a `chosen` node. -/
def DeviceTree.HasSkip (t : DeviceTree) : Prop :=
  ∃ p ∈ t.bootArgs, Occurs (view t.data p.off p.len)

theorem view_tree {m rest : Bytes} (hm : m.drop base = t.data ++ rest)
    (hp : p ∈ t.tree.allProperties) : view m (base + p.off) p.len = view t.data p.off p.len := by
  have hle := (t.inside p hp).2
  rw [view, ← drop_drop, hm, drop_append_of_le_length (by omega),
    take_append_of_le_length (by rw [length_drop]; omega), view]

theorem patchChosen_cases (base : ℕ) (s : Bytes × Bool) (node : FdtNode) :
    patchChosen base s node = .ok s ∨ patchChosen base s node = .error .panic := by
  rw [patchChosen_eq]
  cases hp : node.bootArgs with
  | none => exact Or.inl rfl
  | some p =>
    by_cases ho : Occurs (view s.1 (base + p.off) p.len)
    · exact Or.inr (patchBootArgs_of_occurs ho)
    · exact Or.inl (patchBootArgs_of_not_occurs ho)

variable {root : Bytes → FdtNode} (keepVerity : Bool) (n : ℕ) {rest : Bytes}

theorem patchFdt_of_hasSkip (hroot : root (t.data ++ rest) = t.tree)
    (hs : s.1.drop base = t.data ++ rest) (h : t.HasSkip) :
    patchFdt root keepVerity n base s = .error .panic := by
  obtain ⟨p, hp, ho⟩ := h
  obtain ⟨node, hn, hnp⟩ := mem_filterMap.mp hp
  have hbad : patchChosen base s node = .error .panic := by
    rw [patchChosen_eq, hnp]
    apply patchBootArgs_of_occurs
    rwa [view_tree hs (DeviceTree.bootArgs_mem hp).1]
  have hfold : t.tree.allNodes.foldlM (patchChosen base) s = .error .panic :=
    foldlM_eq_error (fun node _ => patchChosen_cases base s node) ⟨node, hn, hbad⟩
  rw [patchFdt, hs, hroot, hfold]
  rfl

theorem patchFdt_of_not_hasSkip (hroot : root (t.data ++ rest) = t.tree)
    (hs : s.1.drop base = t.data ++ rest) (h : ¬t.HasSkip) :
    patchFdt root keepVerity n base s = .ok (patchFstab keepVerity base t.tree s) := by
  have hfold : t.tree.allNodes.foldlM (patchChosen base) s = .ok s := by
    apply foldlM_eq_ok
    intro node hn
    rw [patchChosen_eq]
    cases hp : node.bootArgs with
    | none => rfl
    | some p =>
      have hmem : p ∈ t.bootArgs := mem_filterMap.mpr ⟨node, hn, hp⟩
      apply patchBootArgs_of_not_occurs
      rw [view_tree hs (DeviceTree.bootArgs_mem hmem).1]
      exact fun ho => h ⟨p, hmem, ho⟩
  rw [patchFdt, hs, hroot, hfold]
  rfl

theorem DeviceTree.Keeps.before (h : t.Keeps base m m') {x : ℕ} (hx : x < base) :
    m'[x]? = m[x]? :=
  h.outside x fun q _ _ => Or.inl (by omega)

theorem DeviceTree.Keeps.behind (h : t.Keeps base m m') :
    m'.drop (base + t.data.length) = m.drop (base + t.data.length) := by
  apply ext_getElem?
  intro i
  rw [getElem?_drop, getElem?_drop]
  apply h.outside
  intro q hq _
  have hle := (t.inside q hq).2
  exact Or.inr (by omega)

theorem DeviceTree.Keeps.bootArgs (h : t.Keeps base m m')
    (hp : p ∈ t.bootArgs) : view m' (base + p.off) p.len = view m (base + p.off) p.len := by
  obtain ⟨hpm, hname⟩ := DeviceTree.bootArgs_mem hp
  apply view_ext
  intro x hle hlt
  apply h.outside
  intro q hq hqname
  have hne : p ≠ q := by
    intro he
    rw [← he, hname] at hqname
    exact absurd hqname (by decide)
  have hsymm : Std.Symm fun p q : NodeProperty =>
      p.off + p.len ≤ q.off ∨ q.off + q.len ≤ p.off := ⟨fun _ _ => Or.symm⟩
  have hd := t.disjoint.forall hpm hq hne
  omega

end Tree

theorem find_of_starts {m : Bytes} (h : view m 0 4 = dtbMagic) (rest : Bytes) :
    find (m ++ rest) dtbMagic = some 0 := by
  have hp : dtbMagic.isPrefixOf (m ++ rest) := by
    have hstart : m.take 4 <+: m := take_prefix 4 m
    have hmagic : m.take 4 = dtbMagic := h
    exact isPrefixOf_iff_prefix.mpr (hmagic ▸ hstart.trans (prefix_append m rest))
  rw [find.eq_def, if_pos hp]

theorem new_tree (fdt : FdtReader) (t : DeviceTree) (rest : Bytes) :
    fdt.new (t.data ++ rest) = .ok t.data.length := by
  have hle := t.header_le
  have hview : ∀ off, off + 4 ≤ 40 → view (t.data ++ rest) off 4 = view t.data off 4 := by
    intro off hoff
    rw [view, drop_append_of_le_length (by omega),
      take_append_of_le_length (by rw [length_drop]; omega), view]
  have hsize : totalSize (t.data ++ rest) = t.data.length := by
    rw [totalSize, hview 4 (by omega), t.size_eq]
  rw [fdt.new_of_le, hsize]
  · rw [length_append]
    omega
  · rw [hview 0 (by omega), t.magic_eq]
  · rw [hsize, length_append]
    omega

theorem forEachFdt_tree (fdt : FdtReader) (f : ℕ → ℕ → Bytes × σ → Except DtbFault (Bytes × σ))
    (fuel n base : ℕ) {s : Bytes × σ} {rest : Bytes}
    (hs : s.1.drop base = t.data ++ rest) :
    forEachFdt fdt f (fuel + 1) n base s =
      f n base s >>= fun s => forEachFdt fdt f fuel (n + 1) (base + t.data.length) s := by
  have hle := t.header_le
  have hlen : ¬(t.data ++ rest).length < 40 := by
    rw [length_append]
    omega
  have hsize : ¬(t.data ++ rest).length < t.data.length := by
    rw [length_append]
    omega
  rw [forEachFdt, hs, find_of_starts t.magic_eq]
  dsimp only
  rw [Nat.add_zero, hs, if_neg hlen, new_tree]
  simp only [if_neg hsize]

theorem forEachFdt_end (fdt : FdtReader) (f : ℕ → ℕ → Bytes × σ → Except DtbFault (Bytes × σ))
    (fuel n base : ℕ) {s : Bytes × σ} (hs : s.1.drop base = []) :
    forEachFdt fdt f (fuel + 1) n base s = .ok s := by
  have hfind : find [] dtbMagic = none := by decide
  rw [forEachFdt, hs, hfind]

theorem fileOf_cons (t : DeviceTree) (trees : List DeviceTree) :
    fileOf (t :: trees) = t.data ++ fileOf trees := flatMap_cons

theorem length_le_fileOf (trees : List DeviceTree) : trees.length ≤ (fileOf trees).length := by
  induction trees with
  | nil => exact Nat.zero_le _
  | cons t trees ih =>
    have hle := t.header_le
    rw [fileOf_cons, length_append, length_cons]
    omega

theorem eq_nil_of_fileOf {trees : List DeviceTree} (h : fileOf trees = []) : trees = [] := by
  have hle := length_le_fileOf trees
  rw [h] at hle
  exact length_eq_zero_iff.mp (Nat.le_zero.mp hle)

section Run

variable {fdt : FdtReader} {root : Bytes → FdtNode} (keepVerity : Bool)

variable {trees : List DeviceTree} {s : Bytes × Bool}

theorem Enumerates.tail {t : DeviceTree}
    (h : Enumerates root (t :: trees)) : Enumerates root trees :=
  fun u hu => h u (mem_cons_of_mem t hu)

theorem drop_patchFstab {t : DeviceTree} {base : ℕ} (hs : s.1.drop base = fileOf (t :: trees)) :
    (patchFstab keepVerity base t.tree s).1.drop (base + t.data.length) = fileOf trees := by
  rw [(patchFstab_keeps keepVerity t base s).behind, ← drop_drop, hs, fileOf_cons,
    drop_left]

theorem forEachFdt_of_hasSkip (hroot : Enumerates root trees)
    (h : ∃ t ∈ trees, t.HasSkip) {fuel : ℕ} (hf : trees.length < fuel) (n base : ℕ)
    (hs : s.1.drop base = fileOf trees) :
    forEachFdt fdt (patchFdt root keepVerity) fuel n base s = .error .panic := by
  induction trees generalizing fuel n base s with
  | nil =>
    obtain ⟨t, ht, -⟩ := h
    cases ht
  | cons t trees ih =>
    obtain ⟨fuel, rfl⟩ : ∃ k, fuel = k + 1 := ⟨fuel - 1, by omega⟩
    rw [length_cons] at hf
    have hs' : s.1.drop base = t.data ++ fileOf trees := hs
    have ht := hroot t mem_cons_self (fileOf trees)
    rw [forEachFdt_tree _ _ _ _ _ hs']
    by_cases hskip : t.HasSkip
    · rw [patchFdt_of_hasSkip keepVerity n ht hs' hskip]
      rfl
    · rw [patchFdt_of_not_hasSkip keepVerity n ht hs' hskip]
      have hrest : ∃ u ∈ trees, u.HasSkip := by
        obtain ⟨u, hu, hus⟩ := h
        cases mem_cons.mp hu with
        | inl hut => exact absurd (hut ▸ hus) hskip
        | inr hu => exact ⟨u, hu, hus⟩
      exact ih hroot.tail hrest (by omega) (n + 1) _ (drop_patchFstab keepVerity hs)

/-- Where no tree has `skip_initramfs`, the loop runs to its end. What was before stays as it is,
and so do the values of `bootargs`. -/
theorem forEachFdt_of_not_hasSkip (hroot : Enumerates root trees)
    (h : ∀ t ∈ trees, ¬t.HasSkip) {fuel : ℕ} (hf : trees.length < fuel) (n base : ℕ)
    (hs : s.1.drop base = fileOf trees) :
    ∃ s', forEachFdt fdt (patchFdt root keepVerity) fuel n base s = .ok s' ∧
      (∀ x < base, s'.1[x]? = s.1[x]?) ∧
      ∀ l t r, trees = l ++ t :: r → ∀ p ∈ t.bootArgs,
        view s'.1 (base + (fileOf l).length + p.off) p.len = view t.data p.off p.len := by
  induction trees generalizing fuel n base s with
  | nil =>
    obtain ⟨fuel, rfl⟩ : ∃ k, fuel = k + 1 := ⟨fuel - 1, by omega⟩
    refine ⟨s, forEachFdt_end _ _ _ _ _ hs, fun _ _ => rfl, ?_⟩
    intro l t r hlr
    exact absurd hlr.symm (by simp)
  | cons t trees ih =>
    obtain ⟨fuel, rfl⟩ : ∃ k, fuel = k + 1 := ⟨fuel - 1, by omega⟩
    rw [length_cons] at hf
    have hs' : s.1.drop base = t.data ++ fileOf trees := hs
    have ht := hroot t mem_cons_self (fileOf trees)
    have hkeeps := patchFstab_keeps keepVerity t base s
    obtain ⟨s', hrun, hbefore, hargs⟩ := ih hroot.tail
      (fun u hu => h u (mem_cons_of_mem t hu)) (by omega : trees.length < fuel) (n + 1) _
      (drop_patchFstab keepVerity hs)
    refine ⟨s', ?_, ?_, ?_⟩
    · rw [forEachFdt_tree _ _ _ _ _ hs',
        patchFdt_of_not_hasSkip keepVerity n ht hs' (h t mem_cons_self)]
      exact hrun
    · intro x hx
      rw [hbefore x (by omega), hkeeps.before hx]
    · intro l u r hlr p hp
      cases l with
      | nil =>
        obtain ⟨rfl, rfl⟩ := cons.inj hlr
        have hnil : (fileOf []).length = 0 := rfl
        -- The later trees do not reach back to this one.
        have hpm := (DeviceTree.bootArgs_mem hp).1
        have hle := (t.inside p hpm).2
        rw [hnil, Nat.add_zero, ← view_tree hs' hpm, ← hkeeps.bootArgs hp]
        exact view_ext fun x _ hlt => hbefore x (by omega)
      | cons v l =>
        obtain ⟨rfl, htail⟩ := cons.inj hlr
        have hu := hargs l u r htail p hp
        rw [fileOf_cons, length_append, ← Nat.add_assoc]
        exact hu

theorem dtbPatch_of_hasSkip (hroot : Enumerates root trees)
    (h : ∃ t ∈ trees, t.HasSkip) : dtbPatch fdt root keepVerity (fileOf trees) = .error .panic := by
  have hle := length_le_fileOf trees
  have hne : fileOf trees ≠ [] := by
    intro he
    obtain ⟨t, ht, -⟩ := h
    rw [eq_nil_of_fileOf he] at ht
    cases ht
  rw [dtbPatch, if_neg hne]
  exact forEachFdt_of_hasSkip keepVerity hroot h (by omega) 0 0 rfl

theorem dtbPatch_of_not_hasSkip (hroot : Enumerates root trees) (h : ∀ t ∈ trees, ¬t.HasSkip) :
    ∃ file ret, returned (dtbPatch fdt root keepVerity (fileOf trees)) = some (file, ret) ∧
      ∀ l t r, trees = l ++ t :: r → ∀ p ∈ t.bootArgs,
        view file ((fileOf l).length + p.off) p.len = view t.data p.off p.len := by
  have hle := length_le_fileOf trees
  rw [dtbPatch]
  by_cases hne : fileOf trees = []
  · refine ⟨fileOf trees, none, by rw [if_pos hne]; rfl, fun l t r hlr => ?_⟩
    rw [eq_nil_of_fileOf hne] at hlr
    exact absurd hlr.symm (by simp)
  · have hfuel : trees.length < (fileOf trees).length + 1 := by omega
    obtain ⟨s', hrun, -, hargs⟩ :=
      forEachFdt_of_not_hasSkip (s := (fileOf trees, false)) keepVerity hroot h hfuel 0 0 rfl
    refine ⟨s'.1, some s'.2, by rw [if_neg hne, hrun]; rfl, fun l t r hlr p hp => ?_⟩
    rw [← hargs l t r hlr p hp, Nat.zero_add]

end Run

theorem replaced_self {value : Bytes} (h : ¬Occurs value) : Replaced value value :=
  ⟨rfl, fun i hi => absurd ⟨i, hi⟩ h, fun _ _ => rfl⟩

/-- `dtb_patch` does what it is for exactly if there is nothing to be done: it panics at the first
`skip_initramfs` that it finds. -/
theorem dtbPatch_holds_iff {fdt : FdtReader} {root : Bytes → FdtNode} (keepVerity : Bool)
    (trees : List DeviceTree) (hroot : Enumerates root trees) :
    PatchHolds fdt root keepVerity trees ↔
      ∀ t ∈ trees, ∀ p ∈ t.bootArgs, ¬Occurs (view t.data p.off p.len) := by
  constructor
  · rintro ⟨file, ret, hret, -, -⟩ t ht p hp ho
    rw [dtbPatch_of_hasSkip keepVerity hroot ⟨t, ht, p, hp, ho⟩] at hret
    cases hret
  · intro h
    have hnot : ∀ t ∈ trees, ¬t.HasSkip := fun t ht ⟨p, hp, ho⟩ => h t ht p hp ho
    obtain ⟨file, ret, hret, hargs⟩ := dtbPatch_of_not_hasSkip keepVerity hroot hnot
    refine ⟨file, ret, hret, fun l t r hlr p hp => ?_, fun ⟨t, ht, hskip⟩ => ?_⟩
    · have ht : t ∈ trees := by
        rw [hlr]
        exact mem_append_right l mem_cons_self
      rw [hargs l t r hlr p hp]
      exact replaced_self (h t ht p hp)
    · exact absurd hskip (hnot t ht)

/-- A tree with the one property `bootargs` of the one node `chosen`, behind the header. -/
def chosenTree (len : ℕ) : FdtNode :=
  .mk [] [] [.mk (lit "chosen") [⟨lit "bootargs", 40, len⟩] []]

def chosenData (bootArgs : Bytes) : Bytes :=
  dtbMagic ++ (beBytes 4 (40 + bootArgs.length) ++ (zeros 32 ++ bootArgs))

def quietTree : DeviceTree where
  data := chosenData (lit "quiet")
  tree := chosenTree 5
  magic_eq := by decide
  size_eq := by decide
  header_le := by decide
  inside := by decide
  disjoint := by decide

def skipTree : DeviceTree where
  data := chosenData (lit "skip_initramfs")
  tree := chosenTree 14
  magic_eq := by decide
  size_eq := by decide
  header_le := by decide
  inside := by decide
  disjoint := by decide

theorem dtbPatch_holds_quiet : PatchHolds fdtReader (fun _ => chosenTree 5) false [quietTree] := by
  have hroot : Enumerates (fun _ => chosenTree 5) [quietTree] := by
    intro t ht rest
    rw [mem_singleton.mp ht]
    rfl
  refine (dtbPatch_holds_iff false [quietTree] hroot).mpr ?_
  intro t ht p hp ho
  obtain rfl := mem_singleton.mp ht
  have hargs : quietTree.bootArgs = [⟨lit "bootargs", 40, 5⟩] := by decide
  rw [hargs] at hp
  obtain rfl := mem_singleton.mp hp
  obtain ⟨i, hi, -⟩ := (occurs_iff (s := (quietTree.data, false))).mp ho
  cases hi

/-- One `skip_initramfs` is enough for a panic. -/
theorem dtbPatch_skip :
    Enumerates (fun _ => chosenTree 14) [skipTree] ∧
      dtbPatch fdtReader (fun _ => chosenTree 14) true (fileOf [skipTree]) = .error .panic ∧
      ¬PatchHolds fdtReader (fun _ => chosenTree 14) true [skipTree] := by
  have hroot : Enumerates (fun _ => chosenTree 14) [skipTree] := by
    intro t ht rest
    rw [mem_singleton.mp ht]
    rfl
  have hskip : skipTree.HasSkip := by
    refine ⟨⟨lit "bootargs", 40, 14⟩, ?_, 0, by decide⟩
    have hargs : skipTree.bootArgs = [⟨lit "bootargs", 40, 14⟩] := by decide
    rw [hargs]
    exact mem_singleton_self _
  have hpanic : dtbPatch fdtReader (fun _ => chosenTree 14) true (fileOf [skipTree]) =
      .error .panic := dtbPatch_of_hasSkip true hroot ⟨skipTree, mem_singleton_self _, hskip⟩
  refine ⟨hroot, hpanic, ?_⟩
  rintro ⟨file, ret, hret, -, -⟩
  rw [hpanic] at hret
  cases hret

end Magisk.Boot
