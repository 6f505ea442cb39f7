import Magisk.Boot.Format
import Magisk.Paging

namespace Magisk.Boot

/-- The classes derived from `dyn_img_hdr`. -/
inductive HdrKind where
  | v0
  | v1
  | v2
  | pxa
  | v3
  | v4
  | vndV3
  | vndV4
  deriving DecidableEq, Repr

instance : Fintype HdrKind :=
  .ofList [.v0, .v1, .v2, .pxa, .v3, .v4, .vndV3, .vndV4] fun k => by cases k <;> decide

/-- The blocks of an image, in the order in which they follow the header. -/
inductive Block where
  | kernel
  | ramdisk
  | second
  | extra
  | recoveryDtbo
  | dtb
  | signature
  | vendorRamdiskTable
  | bootconfig
  deriving DecidableEq, Repr

def Block.all : List Block :=
  [.kernel, .ramdisk, .second, .extra, .recoveryDtbo, .dtb, .signature, .vendorRamdiskTable,
    .bootconfig]

theorem Block.mem_all (b : Block) : b ∈ Block.all := by
  cases b <;> decide

instance : Fintype Block := .ofList Block.all Block.mem_all

inductive Field where
  | size (b : Block)
  | pageSize
  | headerVersion
  | id
  | recoveryDtboOffset
  | headerSize
  | vendorRamdiskTableEntryNum
  | vendorRamdiskTableEntrySize
  deriving DecidableEq, Repr

instance : Fintype Field :=
  .ofList (Block.all.map .size ++ [.pageSize, .headerVersion, .id, .recoveryDtboOffset, .headerSize,
    .vendorRamdiskTableEntryNum, .vendorRamdiskTableEntrySize]) fun f => by
      cases f with
      | size b => exact List.mem_append_left _ (List.mem_map_of_mem (Block.mem_all b))
      | _ => decide

namespace HdrKind

def isVendor : HdrKind → Bool
  | vndV3 | vndV4 => true
  | _ => false

def hdrSize : HdrKind → ℕ
  | v0 => 1632
  | v1 => 1648
  | v2 => 1660
  | pxa => 1640
  | v3 => 1580
  | v4 => 1584
  | vndV3 => 2112
  | vndV4 => 2128

def sizeAt : Block → HdrKind → Option ℕ
  | .kernel, vndV3 | .kernel, vndV4 => none
  | .kernel, _ => some 8
  | .ramdisk, v3 | .ramdisk, v4 => some 12
  | .ramdisk, vndV3 | .ramdisk, vndV4 => some 24
  | .ramdisk, _ => some 16
  | .second, v0 | .second, v1 | .second, v2 | .second, pxa => some 24
  -- in v0 the field that later versions use for the header version
  | .extra, v0 => some 40
  | .extra, pxa => some 32
  | .recoveryDtbo, v1 | .recoveryDtbo, v2 => some 1632
  | .dtb, v2 => some 1648
  | .dtb, vndV3 | .dtb, vndV4 => some 2100
  | .signature, v4 => some 1580
  | .vendorRamdiskTable, vndV4 => some 2112
  | .bootconfig, vndV4 => some 2124
  | _, _ => none

def field (k : HdrKind) : Field → Option (ℕ × ℕ)
  | .size b => (sizeAt b k).map fun o => (o, 4)
  | .pageSize =>
    match k with
    | v0 | v1 | v2 => some (36, 4)
    | pxa => some (44, 4)
    | v3 | v4 => none
    | vndV3 | vndV4 => some (12, 4)
  | .headerVersion =>
    match k with
    | v0 | pxa => none
    | v1 | v2 | v3 | v4 => some (40, 4)
    | vndV3 | vndV4 => some (8, 4)
  | .id =>
    match k with
    | v0 | v1 | v2 => some (576, 32)
    | pxa => some (584, 32)
    | _ => none
  | .recoveryDtboOffset =>
    match k with
    | v1 | v2 => some (1636, 8)
    | _ => none
  | .headerSize =>
    match k with
    | v1 | v2 => some (1644, 4)
    | v3 | v4 => some (20, 4)
    | vndV3 | vndV4 => some (2096, 4)
    | _ => none
  | .vendorRamdiskTableEntryNum => if k = vndV4 then some (2116, 4) else none
  | .vendorRamdiskTableEntrySize => if k = vndV4 then some (2120, 4) else none

theorem field_size (k : HdrKind) (b : Block) :
    k.field (.size b) = (sizeAt b k).map fun o => (o, 4) := rfl

theorem field_le : ∀ (k : HdrKind) (f : Field), ∀ x ∈ k.field f, x.1 + x.2 ≤ k.hdrSize := by
  decide

theorem field_disjoint : ∀ (k : HdrKind) (f g : Field), f ≠ g → ∀ x ∈ k.field f, ∀ y ∈ k.field g,
    x.1 + x.2 ≤ y.1 ∨ y.1 + y.2 ≤ x.1 := by
  decide

theorem le_hdrSize (k : HdrKind) : 1580 ≤ k.hdrSize := by
  cases k <;> decide

theorem hdrSize_le (k : HdrKind) : k.hdrSize ≤ 2128 := by
  cases k <;> decide

end HdrKind

structure Hdr where
  kind : HdrKind
  raw : Bytes
  raw_length : raw.length = kind.hdrSize

namespace Hdr

def get (h : Hdr) (f : Field) : Bytes :=
  match h.kind.field f with
  | some (o, n) => view h.raw o n
  | none => []

def set (h : Hdr) (f : Field) (b : Bytes) : Hdr :=
  match h.kind.field f with
  | some (o, n) => { h with
      raw := overwrite h.raw o (b.take n)
      raw_length := by rw [overwrite_length, h.raw_length] }
  | none => h

def val (h : Hdr) (f : Field) : ℕ := leValue (h.get f)

def set32 (h : Hdr) (f : Field) (v : ℕ) : Hdr := h.set f (leBytes 4 v)

def set64 (h : Hdr) (f : Field) (v : ℕ) : Hdr := h.set f (leBytes 8 v)

def size (h : Hdr) (b : Block) : ℕ := h.val (.size b)

def setSize (h : Hdr) (b : Block) (v : ℕ) : Hdr := h.set32 (.size b) v

def pageSize (h : Hdr) : ℕ :=
  match h.kind with
  | .v3 | .v4 => 4096
  | _ => h.val .pageSize

def headerVersion (h : Hdr) : ℕ := h.val .headerVersion

def hdrSize (h : Hdr) : ℕ := h.kind.hdrSize

variable {b : Block} {f g : Field} {o n : ℕ} (h : Hdr)

@[simp] theorem kind_set (f : Field) (b : Bytes) : (h.set f b).kind = h.kind := by
  unfold set
  split <;> rfl

theorem get_set_self {h : Hdr} (hf : h.kind.field f = some (o, n)) {b : Bytes}
    (hb : b.length = n) : (h.set f b).get f = b := by
  have hle := h.kind.field_le f (o, n) hf
  rw [get, kind_set, hf, set, hf]
  subst hb
  dsimp only at hle ⊢
  rw [List.take_length, view_overwrite_self]
  rw [h.raw_length]
  exact hle

theorem view_set {h : Hdr} (b : Bytes) (hd : ∀ x ∈ h.kind.field f, x.1 + x.2 ≤ o ∨ o + n ≤ x.1) :
    view (h.set f b).raw o n = view h.raw o n := by
  unfold set
  split
  case h_1 o' n' hf =>
    have := hd (o', n') hf
    apply view_overwrite_of_disjoint
    rw [List.length_take]
    dsimp only at this
    omega
  case h_2 => rfl

theorem get_set_of_ne (hne : f ≠ g) (h : Hdr) (b : Bytes) : (h.set f b).get g = h.get g := by
  unfold get
  rw [kind_set]
  split
  case h_1 o n hg =>
    apply view_set
    intro x hx
    exact h.kind.field_disjoint f g hne x hx (o, n) hg
  case h_2 => rfl

theorem val_set_of_ne (hne : f ≠ g) (h : Hdr) (b : Bytes) : (h.set f b).val g = h.val g := by
  rw [val, val, get_set_of_ne hne]

/-- A block has a size in headers of this kind. -/
def Has (h : Hdr) (b : Block) : Prop := (HdrKind.sizeAt b h.kind).isSome

instance (h : Hdr) (b : Block) : Decidable (h.Has b) := inferInstanceAs (Decidable (_ = true))

theorem size_of_not_has {h : Hdr} (hb : ¬ h.Has b) : h.size b = 0 := by
  rw [size, val, get, HdrKind.field_size, Option.not_isSome_iff_eq_none.mp hb]
  rfl

theorem val_lt (hf : ∀ x ∈ h.kind.field f, x.2 ≤ 4) : h.val f < 2 ^ 32 := by
  have hl : (h.get f).length ≤ 4 := by
    rw [get]
    cases hx : h.kind.field f with
    | none => exact Nat.zero_le _
    | some x =>
      have := hf x hx
      rw [view_length]
      omega
  calc h.val f < 256 ^ (h.get f).length := leValue_lt _
    _ ≤ 256 ^ 4 := Nat.pow_le_pow_right (by norm_num) hl
    _ = 2 ^ 32 := by norm_num

theorem size_lt (b : Block) : h.size b < 2 ^ 32 := by
  apply val_lt
  have hall : ∀ (k : HdrKind) (b : Block), ∀ x ∈ k.field (.size b), x.2 ≤ 4 := by decide
  exact hall h.kind b

theorem size_setSize_self (b : Block) (v : ℕ) :
    (h.setSize b v).size b = if h.Has b then v % 2 ^ 32 else 0 := by
  split_ifs with hb
  · obtain ⟨o, ho⟩ := Option.isSome_iff_exists.mp hb
    have hf : h.kind.field (.size b) = some (o, 4) := by
      rw [HdrKind.field_size, ho, Option.map_some]
    rw [size, val, setSize, set32, get_set_self hf (leBytes_length 4 v), leValue_leBytes_mod]
    norm_num
  · have hk : ¬ (h.setSize b v).Has b := by
      rwa [Has, setSize, set32, kind_set]
    exact size_of_not_has hk

theorem size_set_of_ne (hne : f ≠ .size b) (h : Hdr) (x : Bytes) :
    (h.set f x).size b = h.size b := val_set_of_ne hne h x

theorem size_setSize_of_ne {b c : Block} (hne : b ≠ c) (h : Hdr) (v : ℕ) :
    (h.setSize b v).size c = h.size c := size_set_of_ne (by simpa using hne) h _

/-- `h'` is `h` with other values in the fields `F`. -/
structure SameBut (F : Field → Prop) (h h' : Hdr) : Prop where
  kind_eq : h'.kind = h.kind
  view_eq : ∀ o n, (∀ f, F f → ∀ x ∈ h.kind.field f, x.1 + x.2 ≤ o ∨ o + n ≤ x.1) →
    view h'.raw o n = view h.raw o n

namespace SameBut

variable {F : Field → Prop} {h h' h'' : Hdr}

theorem refl (F : Field → Prop) (h : Hdr) : SameBut F h h := ⟨rfl, fun _ _ _ => rfl⟩

theorem trans (h1 : SameBut F h h') (h2 : SameBut F h' h'') : SameBut F h h'' := by
  refine ⟨h2.kind_eq.trans h1.kind_eq, fun o n hd => ?_⟩
  rw [h2.view_eq o n (by rwa [h1.kind_eq]), h1.view_eq o n hd]

theorem mono {G : Field → Prop} (hs : SameBut F h h') (hFG : ∀ f, F f → G f) : SameBut G h h' :=
  ⟨hs.kind_eq, fun o n hd => hs.view_eq o n fun f hf => hd f (hFG f hf)⟩

theorem set {f : Field} (hf : F f) (h : Hdr) (b : Bytes) : SameBut F h (h.set f b) :=
  ⟨kind_set h f b, fun _ _ hd => view_set b (hd f hf)⟩

theorem get_eq (hs : SameBut F h h') {g : Field} (hg : ¬ F g) : h'.get g = h.get g := by
  unfold Hdr.get
  rw [hs.kind_eq]
  split
  case h_1 o n hgf =>
    apply hs.view_eq
    intro f hf x hx
    have hne : f ≠ g := fun he => hg (he ▸ hf)
    exact h.kind.field_disjoint f g hne x hx (o, n) hgf
  case h_2 => rfl

theorem val_eq (hs : SameBut F h h') {g : Field} (hg : ¬ F g) : h'.val g = h.val g := by
  rw [val, val, hs.get_eq hg]

theorem size_eq (hs : SameBut F h h') {b : Block} (hb : ¬ F (.size b)) : h'.size b = h.size b :=
  hs.val_eq hb

theorem pageSize_eq (hs : SameBut F h h') (hp : ¬ F .pageSize) : h'.pageSize = h.pageSize := by
  unfold Hdr.pageSize
  rw [hs.kind_eq, hs.val_eq hp]

end SameBut

end Hdr

end Magisk.Boot
