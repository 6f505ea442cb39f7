import Magisk.Boot.Parsed
import Magisk.Boot.Run

namespace Magisk.Boot

/-- The flags that `parse_image` sets for a header. -/
inductive HdrFlag where
  | sha256
  | amonet
  | nookhd
  | acclaim
  deriving DecidableEq, Repr

namespace Flags

def has (flags : Flags) : HdrFlag → Bool
  | .sha256 => flags.sha256
  | .amonet => flags.amonet
  | .nookhd => flags.nookhd
  | .acclaim => flags.acclaim

def or (a b : Flags) : Flags where
  chromeos := a.chromeos || b.chromeos
  dhtb := a.dhtb || b.dhtb
  seandroid := a.seandroid || b.seandroid
  lgBump := a.lgBump || b.lgBump
  sha256 := a.sha256 || b.sha256
  blob := a.blob || b.blob
  nookhd := a.nookhd || b.nookhd
  acclaim := a.acclaim || b.acclaim
  amonet := a.amonet || b.amonet
  avb1Signed := a.avb1Signed || b.avb1Signed
  avb := a.avb || b.avb

variable (flags own : Flags)

theorem has_or (f : HdrFlag) : (flags.or own).has f = (flags.has f || own.has f) := by
  cases f <;> rfl

@[simp] theorem or_empty : flags.or {} = flags := by
  simp [or]

end Flags

variable {α β γ : Type} {env : Env} {file : Bytes} {hdr : Hdr} {flags : Flags} {boot : BootImg}

theorem map_bind (x : Except Stop α) (f : α → Except Stop β) (g : β → γ) :
    (x >>= f).map g = x >>= fun a => (f a).map g := by
  cases x <;> rfl

theorem bind_map (x : Except Stop α) (g : α → β) (f : β → Except Stop γ) :
    x.map g >>= f = x >>= fun a => f (g a) := by
  cases x <;> rfl

theorem map_pure (a : α) (g : α → β) : (pure a : Except Stop α).map g = pure (g a) := rfl

theorem map_ite {c : Prop} [Decidable c] (x y : Except Stop α) (g : α → β) :
    (if c then x else y).map g = if c then x.map g else y.map g := by
  split_ifs <;> rfl

section

variable (env : Env) (mem file : Bytes) (flags own : Flags) (addr tail : ℕ) (type : FileFormat)

theorem preHeader_or : preHeader mem addr (flags.or own) =
    (preHeader mem addr own).map fun r => (r.1, flags.or r.2) := by
  simp only [preHeader, map_bind, map_ite, map_pure]
  simp [Flags.or]

theorem parseHdr_or : parseHdr mem addr type (flags.or own) =
    (parseHdr mem addr type own).map fun r => (r.1, r.2.1, flags.or r.2.2) := by
  have hamonet : flags.or { own with amonet := true } = { flags.or own with amonet := true } := by
    simp [Flags.or]
  simp only [parseHdr, preHeader_or, map_bind, bind_map, map_ite, map_pure, hamonet]

theorem tailFlags_or : tailFlags env mem addr tail (flags.or own) =
    (tailFlags env mem addr tail own).map flags.or := by
  simp only [tailFlags, map_bind, map_ite, map_pure]
  simp [Flags.or]

theorem parseTail_or : parseTail env mem addr tail (flags.or own) =
    (parseTail env mem addr tail own).map fun t => { t with flags := flags.or t.flags } := by
  have havb (own : Flags) :
      flags.or { own with avb := true } = { flags.or own with avb := true } := by
    simp [Flags.or]
  simp only [parseTail, tailFlags_or, map_bind, bind_map, map_ite, map_pure, havb]
  rfl

theorem parseParts_or (hdr : Hdr) (block : Block → ℕ) (off : ℕ) :
    parseParts env file addr hdr (flags.or own) block off =
      (parseParts env file addr hdr own block off).map fun b =>
        { b with flags := flags.or b.flags } := by
  simp only [parseParts, parseTail_or, map_bind, bind_map, map_pure]

theorem parseImage_or : parseImage env file (flags.or own) addr type =
    (parseImage env file own addr type).map fun r =>
      (flags.or r.1, r.2.map fun b => { b with flags := flags.or b.flags }) := by
  have hsha (own : Flags) (b : Bool) :
      ({ flags.or own with sha256 := (flags.or own).sha256 || b } : Flags) =
        flags.or { own with sha256 := own.sha256 || b } := by
    simp [Flags.or, Bool.or_assoc]
  simp only [parseImage, parseHdr_or, map_bind, bind_map]
  congr 1
  funext r
  obtain ⟨hdr, addr', hflags⟩ := r
  cases hdr with
  | none => rfl
  | some hdr =>
    simp only [map_bind]
    congr 1
    funext space
    congr 1
    funext g
    cases g with
    | none =>
      dsimp only
      rw [hsha]
      rfl
    | some g =>
      dsimp only
      rw [hsha, parseParts_or, bind_map, map_bind]
      rfl

end

theorem IsParsed.flags_eq
    (h : IsParsed env file hdr flags boot) : ∃ se lg avb1 avb, boot.flags =
      { flags with seandroid := se, lgBump := lg, avb1Signed := avb1, avb := avb } := by
  have htail {g : Flags}
      (hg : tailFlags env boot.mem boot.payload.1 boot.payload.2 flags = .ok g) (b : Bool) :
      ∃ se lg avb1 avb, { g with avb := b } =
        { flags with seandroid := se, lgBump := lg, avb1Signed := avb1, avb := avb } := by
    rcases tailFlags_eq_ok hg with rfl | rfl | rfl | rfl <;> exact ⟨_, _, _, _, rfl⟩
  rcases parseTail_eq_ok h.tail with ⟨-, ht⟩ | ⟨g, hg, -, ht | ht | ⟨off, -, -, ht⟩⟩
  · exact ⟨_, _, _, _, (TailInfo.mk.inj ht).1⟩
  · rw [(TailInfo.mk.inj ht).1]
    exact htail hg g.avb
  · rw [(TailInfo.mk.inj ht).1]
    exact htail hg g.avb
  · rw [(TailInfo.mk.inj ht).1]
    exact htail hg true

theorem IsParsed.has_eq
    (h : IsParsed env file hdr flags boot) (f : HdrFlag) : boot.flags.has f = flags.has f := by
  obtain ⟨se, lg, avb1, avb, hflags⟩ := h.flags_eq
  rw [hflags]
  cases f <;> rfl

section

variable (mem : Bytes)

/-- Some of the last eight bytes of the id is set in the `n` bytes of a header. -/
def idSet (kind : HdrKind) (ptr n : ℕ) : Bool :=
  match kind.field .id with
  | some (o, _) => (view (view mem ptr n) (o + 24) 8).any (· ≠ 0)
  | none => false

/-- There is a header with such an id. Its kind is given by the version in it. -/
def aospIdSet (ptr : ℕ) (size : Option ℕ) : Bool :=
  let kind := aospKind (leValue (view mem (ptr + 40) 4))
  view mem ptr bootMagic.length = bootMagic && idSet mem kind ptr (size.getD kind.hdrSize)

def Microloader (addr : ℕ) : Prop :=
  (find (view mem addr amonetMicroloaderSz) (lit "microloader")).isSome ∧
    view mem (addr + amonetMicroloaderSz) bootMagic.length = bootMagic

def NookhdLoader (addr : ℕ) : Prop :=
  ∃ magic ∈ nookhdMagics, view mem (addr + 64) magic.length = magic

def AcclaimLoader (addr : ℕ) : Prop :=
  view mem (addr + 48) (lit "BauwksBoot").length = lit "BauwksBoot"

instance (addr : ℕ) : Decidable (Microloader mem addr) :=
  inferInstanceAs (Decidable (_ ∧ _))

instance (addr : ℕ) : Decidable (NookhdLoader mem addr) :=
  inferInstanceAs (Decidable (∃ magic ∈ nookhdMagics, _))

instance (addr : ℕ) : Decidable (AcclaimLoader mem addr) :=
  inferInstanceAs (Decidable (_ = _))

/-- The flags that the bytes at the magic of a header stand for. -/
def hdrFlags (addr : ℕ) (type : FileFormat) : Flags :=
  if type = .aospVendor then {}
  else if 0x02000000 ≤ leValue (view mem (addr + 36) 4) then
    { sha256 := idSet mem .pxa addr HdrKind.pxa.hdrSize }
  else if Microloader mem addr then
    { amonet := true
      sha256 := aospIdSet mem (addr + amonetMicroloaderSz) (some (sub32
        (leValue (view mem (addr + amonetMicroloaderSz + 36) 4)) amonetMicroloaderSz)) }
  else if NookhdLoader mem addr then
    { nookhd := true, sha256 := aospIdSet mem (addr + nookhdPreHeaderSz) none }
  else if AcclaimLoader mem addr then
    { acclaim := true, sha256 := aospIdSet mem (addr + acclaimPreHeaderSz) none }
  else { sha256 := aospIdSet mem addr none }

end

section

variable {mem : Bytes} {addr addr' : ℕ} {type : FileFormat} {own : Flags}

theorem any_view_append_zeros (b : Bytes) (k off n : ℕ) :
    (view (b ++ zeros k) off n).any (· ≠ 0) = (view b off n).any (· ≠ 0) := by
  have hzeros : ((zeros k).drop (off - b.length)).take (n - (b.drop off).length) =
      zeros (min (n - (b.drop off).length) (k - (off - b.length))) := by
    rw [zeros, List.drop_replicate, List.take_replicate, zeros]
  rw [view, List.drop_append, List.take_append, List.any_append, hzeros, zeros,
    List.any_replicate]
  simp [view]

theorem idIsSha256_of_newHdr {kind : HdrKind} {p n : ℕ} (h : newHdr kind mem p n = .ok hdr) :
    hdr.idIsSha256 = idSet mem kind p n := by
  unfold newHdr at h
  split_ifs at h with hn
  obtain ⟨b, hb, h⟩ := bind_eq_ok.mp h
  have hl : b.length = n := (read_eq_ok.mp hb).1
  have hraw : overwrite (zeros kind.hdrSize) 0 b = b ++ zeros (kind.hdrSize - n) := by
    have hlen : (b ++ zeros (kind.hdrSize - n)).length ≤ (zeros kind.hdrSize).length := by
      rw [List.length_append, zeros_length, zeros_length]
      omega
    rw [overwrite, List.take_zero, List.nil_append, zero_add, zeros, List.drop_replicate, hl]
    exact List.take_of_length_le hlen
  cases h
  unfold Hdr.idIsSha256 Hdr.get idSet
  dsimp only
  cases hf : kind.field .id with
  | none => rfl
  | some x =>
    have h32 : ∀ k : HdrKind, ∀ x ∈ k.field .id, x.2 = 32 := by decide
    obtain ⟨o, k⟩ := x
    obtain rfl : k = 32 := h32 kind _ hf
    have hdrop (l : Bytes) : (view l o 32).drop 24 = view l (o + 24) 8 := by
      rw [view, List.drop_take, List.drop_drop, view]
    dsimp only
    rw [hdrop, hraw, any_view_append_zeros, eq_view_of_read hb]

theorem aospIdSet_of_makeAospHdr {ptr : ℕ} {size : Option ℕ} {r : Option Hdr}
    (h : makeAospHdr mem ptr size = .ok r) : (r.any Hdr.idIsSha256) = aospIdSet mem ptr size := by
  obtain ⟨c, hc, h⟩ := bind_eq_ok.mp h
  have hc := eq_of_bufferMatch hc
  unfold aospIdSet
  rw [← hc]
  cases c with
  | false =>
    cases h
    rfl
  | true =>
    obtain ⟨version, hv, h⟩ := bind_eq_ok.mp h
    obtain ⟨hdr, hn, h⟩ := bind_eq_ok.mp h
    cases h
    rw [Option.any_some, idIsSha256_of_newHdr hn, eq_view_of_read32 hv, Bool.true_and]

theorem isAmonet_eq_ok {c : Bool} (h : isAmonet mem addr = .ok c) :
    c = decide (Microloader mem addr) := by
  obtain ⟨loader, hl, h⟩ := bind_eq_ok.mp h
  rw [eq_view_of_read hl] at h
  unfold Microloader
  split_ifs at h with hf
  · rw [eq_of_bufferMatch h]
    simp [hf]
  · cases h
    simp [hf]

theorem matchAny_eq_ok {off : ℕ} {l : List Bytes} {c : Bool} (h : matchAny mem off l = .ok c) :
    c = decide (∃ magic ∈ l, view mem off magic.length = magic) := by
  induction l with
  | nil =>
    cases h
    simp
  | cons magic l ih =>
    obtain ⟨c', hc', h⟩ := bind_eq_ok.mp h
    have hc' := eq_of_bufferMatch hc'
    cases c' with
    | true =>
      cases h
      simp [of_decide_eq_true hc'.symm]
    | false =>
      rw [ih h]
      simp [of_decide_eq_false hc'.symm]

theorem preHeader_eq_ite {r : ℕ × Flags} (h : preHeader mem addr {} = .ok r) :
    r = if NookhdLoader mem addr then (addr + nookhdPreHeaderSz, { nookhd := true })
      else if AcclaimLoader mem addr then (addr + acclaimPreHeaderSz, { acclaim := true })
      else (addr, {}) := by
  obtain ⟨c, hc, h⟩ := bind_eq_ok.mp h
  have hnookhd : c = decide (NookhdLoader mem addr) := matchAny_eq_ok hc
  cases c with
  | true =>
    cases h
    rw [if_pos (of_decide_eq_true hnookhd.symm)]
  | false =>
    rw [if_neg (of_decide_eq_false hnookhd.symm)]
    obtain ⟨c, hc, h⟩ := bind_eq_ok.mp h
    have hacclaim : c = decide (AcclaimLoader mem addr) := eq_of_bufferMatch hc
    cases c with
    | true =>
      cases h
      rw [if_pos (of_decide_eq_true hacclaim.symm)]
    | false =>
      cases h
      rw [if_neg (of_decide_eq_false hacclaim.symm)]

theorem parseHdr_flags {r : Option Hdr} {fl : Flags}
    (h : parseHdr mem addr type {} = .ok (r, addr', fl)) :
    { fl with sha256 := r.any Hdr.idIsSha256 } = hdrFlags mem addr type := by
  unfold parseHdr at h
  unfold hdrFlags
  split_ifs at h with hvendor
  · obtain ⟨version, -, h⟩ := bind_eq_ok.mp h
    obtain ⟨hdr, hn, h⟩ := bind_eq_ok.mp h
    have hid : ∀ k : HdrKind, k = .vndV4 ∨ k = .vndV3 → k.field .id = none := by decide
    have hnone := hid (if version = 4 then .vndV4 else .vndV3) (by split_ifs <;> simp)
    cases h
    rw [if_pos hvendor, Option.any_some, idIsSha256_of_newHdr hn, idSet, hnone]
  · rw [if_neg hvendor]
    obtain ⟨page, hpage, h⟩ := bind_eq_ok.mp h
    rw [← eq_view_of_read32 hpage]
    split_ifs at h with hpxa
    · obtain ⟨hdr, hn, h⟩ := bind_eq_ok.mp h
      cases h
      rw [if_pos hpxa, Option.any_some, idIsSha256_of_newHdr hn]
    · rw [if_neg hpxa]
      obtain ⟨c, hc, h⟩ := bind_eq_ok.mp h
      have hc := isAmonet_eq_ok hc
      cases c with
      | true =>
        obtain ⟨page, hpage, h⟩ := bind_eq_ok.mp h
        obtain ⟨hdr, hm, h⟩ := bind_eq_ok.mp h
        cases h
        rw [if_pos (of_decide_eq_true hc.symm), aospIdSet_of_makeAospHdr hm,
          eq_view_of_read32 hpage]
      | false =>
        obtain ⟨pre, hpre, h⟩ := bind_eq_ok.mp h
        obtain ⟨hdr, hm, h⟩ := bind_eq_ok.mp h
        cases h
        rw [if_neg (of_decide_eq_false hc.symm), aospIdSet_of_makeAospHdr hm,
          preHeader_eq_ite hpre]
        split_ifs <;> rfl

theorem parseImage_own {r : Option BootImg} (h : parseImage env file {} addr type = .ok (own, r)) :
    own = hdrFlags (env.mapped file) addr type := by
  obtain ⟨⟨hdr, addr', fl⟩, hh, h⟩ := bind_eq_ok.mp h
  have hfl := parseHdr_flags hh
  have hsha : fl.sha256 = false := by
    rcases (parseHdr_eq_ok hh).2 with rfl | rfl | rfl | rfl <;> rfl
  cases hdr with
  | none =>
    cases h
    rw [← hfl, Option.any_none, ← hsha]
  | some hdr =>
    obtain ⟨space, -, h⟩ := bind_eq_ok.mp h
    obtain ⟨g, -, h⟩ := bind_eq_ok.mp h
    have hown : own = { fl with sha256 := fl.sha256 || hdr.idIsSha256 } := by
      cases g with
      | none =>
        cases h
        rfl
      | some g =>
        obtain ⟨img, -, h⟩ := bind_eq_ok.mp h
        cases h
        rfl
    rw [hown, hsha, Bool.false_or]
    exact hfl

end

def IsHeader (fmt : FileFormat) : Prop := fmt = .aosp ∨ fmt = .aospVendor

/-- How far the constructor goes on where it finds no image. -/
def skipSize : FileFormat → ℕ
  | .chromeos => 65536
  | .dhtb => dhtbHdrSize
  | .blob => blobHdrSize
  | _ => 1

/-- The flags of the heads that may stand before an image. -/
def skipFlags (flags : Flags) : FileFormat → Flags
  | .chromeos => { flags with chromeos := true }
  | .dhtb => { flags with dhtb := true, seandroid := true }
  | .blob => { flags with blob := true }
  | _ => flags

theorem skipFlags_or (flags own : Flags) (fmt : FileFormat) :
    skipFlags (flags.or own) fmt = flags.or (skipFlags own fmt) := by
  unfold skipFlags
  split <;> simp [Flags.or]

theorem skipSize_pos (fmt : FileFormat) : 0 < skipSize fmt := by
  unfold skipSize
  split <;> decide

/-- The constructor goes on from a position, with the flags of the heads so far. -/
def Passes (mem : Bytes) (len : ℕ) (s t : ℕ × Flags) : Prop :=
  s.1 < len ∧ ∃ fmt, checkFmt mem s.1 len = .ok fmt ∧
    t = (s.1 + skipSize fmt, skipFlags s.2 fmt)

/-- The positions that the constructor comes to if it accepts no image before. -/
abbrev WalksTo (mem : Bytes) (len : ℕ) : ℕ × Flags → ℕ × Flags → Prop :=
  Relation.ReflTransGen (Passes mem len)

section

variable {mem : Bytes} {len : ℕ} {s t u : ℕ × Flags}

theorem Passes.unique (h : Passes mem len s t) (h' : Passes mem len s u) : t = u := by
  obtain ⟨-, fmt, hfmt, rfl⟩ := h
  obtain ⟨-, fmt', hfmt', rfl⟩ := h'
  cases hfmt.symm.trans hfmt'
  rfl

theorem WalksTo.le (h : WalksTo mem len s t) : s.1 ≤ t.1 := by
  induction h with
  | refl => exact le_rfl
  | tail _ hp ih =>
    obtain ⟨-, fmt, -, rfl⟩ := hp
    exact ih.trans (Nat.le_add_right _ _)

theorem walksTo_iff (h : Passes mem len s t) :
    WalksTo mem len s u ↔ s = u ∨ WalksTo mem len t u := by
  rw [WalksTo, Relation.ReflTransGen.cases_head_iff]
  refine or_congr_right ⟨?_, fun hc => ⟨t, h, hc⟩⟩
  rintro ⟨t', h', hc⟩
  rwa [h.unique h']

end

/-- The bytes of a header at a position before `p` stand for the flag. -/
def SetBefore (mem : Bytes) (len : ℕ) (s : ℕ × Flags) (p : ℕ) (f : HdrFlag) : Prop :=
  ∃ t type, WalksTo mem len s t ∧ t.1 < p ∧ IsHeader type ∧ checkFmt mem t.1 len = .ok type ∧
    (hdrFlags mem t.1 type).has f

section

variable {mem : Bytes} {len p : ℕ} {s t : ℕ × Flags} {f : HdrFlag}

theorem not_setBefore_self : ¬ SetBefore mem len s s.1 f := by
  rintro ⟨t, type, hv, hlt, -⟩
  exact absurd hv.le (by omega)

theorem setBefore_iff {fmt : FileFormat} (h : Passes mem len s t)
    (hc : checkFmt mem s.1 len = .ok fmt) (hp : s.1 < p) :
    SetBefore mem len s p f ↔
      IsHeader fmt ∧ (hdrFlags mem s.1 fmt).has f ∨ SetBefore mem len t p f := by
  constructor
  · rintro ⟨u, type, hv, hlt, ht, hc', hf⟩
    rcases (walksTo_iff h).mp hv with rfl | hv
    · cases hc.symm.trans hc'
      exact .inl ⟨ht, hf⟩
    · exact .inr ⟨u, type, hv, hlt, ht, hc', hf⟩
  · rintro (⟨ht, hf⟩ | ⟨u, type, hv, hrest⟩)
    · exact ⟨s, fmt, .refl, hp, ht, hc, hf⟩
    · exact ⟨u, type, (walksTo_iff h).mpr (.inr hv), hrest⟩

end

/-- Only flags of headers are set. -/
def Flags.OfHdr (flags : Flags) : Prop :=
  flags = { sha256 := flags.sha256, amonet := flags.amonet, nookhd := flags.nookhd,
            acclaim := flags.acclaim }

theorem Flags.OfHdr.or {a b : Flags} (ha : a.OfHdr) (hb : b.OfHdr) : (a.or b).OfHdr := by
  rw [OfHdr, ha, hb]
  rfl

theorem ofHdr_hdrFlags (mem : Bytes) (addr : ℕ) (type : FileFormat) :
    (hdrFlags mem addr type).OfHdr := by
  unfold hdrFlags
  split_ifs <;> rfl

theorem Flags.or_right_comm (a b c : Flags) : (a.or b).or c = (a.or c).or b := by
  simp [or, Bool.or_right_comm]

theorem Flags.OfHdr.or_eq {kept flags : Flags} (hk : kept.OfHdr)
    (h : ∀ f, kept.has f → flags.has f) : kept.or flags = flags := by
  have hor (f : HdrFlag) : (kept.has f || flags.has f) = flags.has f := by
    cases hf : kept.has f with
    | false => rfl
    | true => rw [h f hf, Bool.or_self]
  rw [OfHdr] at hk
  rw [hk]
  have h1 := hor .sha256
  have h2 := hor .amonet
  have h3 := hor .nookhd
  have h4 := hor .acclaim
  simp only [has] at h1 h2 h3 h4
  simp [Flags.or, h1, h2, h3, h4]

section

variable {env : Env} {file : Bytes} {s : ℕ × Flags} {kept : Flags} {boot : BootImg} {fuel : ℕ}

/-- The constructor accepts the image at its position, or goes on with what a rejected header sets,
or skips what is no header. -/
theorem loadFrom_cases
    (h : loadFrom env file (fuel + 1) s.1 (kept.or s.2) = .ok boot) :
    ∃ fmt, checkFmt (env.mapped file) s.1 file.length = .ok fmt ∧ s.1 < file.length ∧
      (IsHeader fmt ∧ (∃ flags img, parseImage env file s.2 s.1 fmt = .ok (flags, some img) ∧
          boot = { img with flags := kept.or img.flags }) ∨
        IsHeader fmt ∧ loadFrom env file fuel (s.1 + skipSize fmt)
          ((kept.or (hdrFlags (env.mapped file) s.1 fmt)).or (skipFlags s.2 fmt)) = .ok boot ∨
        ¬ IsHeader fmt ∧ loadFrom env file fuel (s.1 + skipSize fmt)
          (kept.or (skipFlags s.2 fmt)) = .ok boot) := by
  have hheader {type : FileFormat} {flags' : Flags} {r : Option BootImg}
      (hp : parseImage env file (kept.or s.2) s.1 type = .ok (flags', r)) :
      flags' = (kept.or (hdrFlags (env.mapped file) s.1 type)).or s.2 ∧
        ∃ flags r₀, parseImage env file s.2 s.1 type = .ok (flags, r₀) ∧
          r = r₀.map fun b => { b with flags := kept.or b.flags } := by
    constructor
    · rw [← (kept.or s.2).or_empty, parseImage_or] at hp
      obtain ⟨⟨own, r₀⟩, hp₀, he⟩ := map_eq_ok.mp hp
      obtain ⟨rfl, -⟩ := Prod.mk.inj he
      rw [parseImage_own hp₀, Flags.or_right_comm]
    · rw [parseImage_or] at hp
      obtain ⟨⟨own, r₀⟩, hp₀, he⟩ := map_eq_ok.mp hp
      exact ⟨own, r₀, hp₀, (Prod.mk.inj he).2.symm⟩
  rw [loadFrom] at h
  split_ifs at h with hlen
  obtain ⟨fmt, hfmt, h⟩ := bind_eq_ok.mp h
  refine ⟨fmt, hfmt, by omega, ?_⟩
  cases fmt with
  | aosp =>
    obtain ⟨⟨flags', r⟩, hp, h⟩ := bind_eq_ok.mp h
    obtain ⟨rfl, flags, r₀, hp₀, rfl⟩ := hheader hp
    cases r₀ with
    | none => exact .inr (.inl ⟨.inl rfl, h⟩)
    | some img => exact .inl ⟨.inl rfl, flags, img, hp₀, (Except.ok.inj h).symm⟩
  | aospVendor =>
    obtain ⟨⟨flags', r⟩, hp, h⟩ := bind_eq_ok.mp h
    obtain ⟨rfl, flags, r₀, hp₀, rfl⟩ := hheader hp
    cases r₀ with
    | none => exact .inr (.inl ⟨.inr rfl, h⟩)
    | some img => exact .inl ⟨.inr rfl, flags, img, hp₀, (Except.ok.inj h).symm⟩
  | _ =>
    refine .inr (.inr ⟨by simp [IsHeader], ?_⟩)
    rw [← skipFlags_or]
    exact h

/-- An image that `parse_image` accepts where the constructor comes to it, with the heads alone. -/
structure Accepted (env : Env) (file : Bytes) (s : ℕ × Flags) (p : ℕ) (type : FileFormat)
    (img : BootImg) : Prop where
  isHeader : IsHeader type
  fmt : checkFmt (env.mapped file) p file.length = .ok type
  parsed : ∃ heads flags, WalksTo (env.mapped file) file.length s (p, heads) ∧
    parseImage env file heads p type = .ok (flags, some img)

theorem loadFrom_has_iff (hk : kept.OfHdr)
    (h : loadFrom env file fuel s.1 (kept.or s.2) = .ok boot) : ∃ p type img, ∃ kept' : Flags,
      Accepted env file s p type img ∧ s.1 ≤ p ∧ boot = { img with flags := kept'.or img.flags } ∧
      kept'.OfHdr ∧ ∀ f, kept'.has f ↔
        kept.has f ∨ SetBefore (env.mapped file) file.length s p f := by
  induction fuel generalizing s kept with
  | zero => cases h
  | succ fuel ih =>
    obtain ⟨fmt, hfmt, hlen, hcases⟩ := loadFrom_cases h
    have hpass : Passes (env.mapped file) file.length s (s.1 + skipSize fmt, skipFlags s.2 fmt) :=
      ⟨hlen, fmt, hfmt, rfl⟩
    have hpos := skipSize_pos fmt
    have hvisit {p : ℕ} {type : FileFormat} {img : BootImg}
        (h : Accepted env file (s.1 + skipSize fmt, skipFlags s.2 fmt) p type img) :
        Accepted env file s p type img := by
      obtain ⟨heads, flags, hv, hp⟩ := h.parsed
      exact ⟨h.isHeader, h.fmt, heads, flags, .head hpass hv, hp⟩
    rcases hcases with ⟨ht, flags, img, hp, hboot⟩ | ⟨ht, h⟩ | ⟨ht, h⟩
    · refine ⟨s.1, fmt, img, kept, ⟨ht, hfmt, s.2, flags, .refl, hp⟩, le_rfl, hboot, hk, ?_⟩
      exact fun f => ⟨.inl, fun hf => hf.resolve_right not_setBefore_self⟩
    · obtain ⟨p, type, img, kept', hacc, hle, hboot, hk', hiff⟩ :=
        ih (s := (s.1 + skipSize fmt, skipFlags s.2 fmt)) (hk.or (ofHdr_hdrFlags _ _ _)) h
      refine ⟨p, type, img, kept', hvisit hacc, by omega, hboot, hk', fun f => ?_⟩
      rw [hiff, setBefore_iff hpass hfmt (by omega), and_iff_right ht, Flags.has_or,
        Bool.or_eq_true, or_assoc]
    · obtain ⟨p, type, img, kept', hacc, hle, hboot, hk', hiff⟩ :=
        ih (s := (s.1 + skipSize fmt, skipFlags s.2 fmt)) hk h
      refine ⟨p, type, img, kept', hvisit hacc, by omega, hboot, hk', fun f => ?_⟩
      rw [hiff, setBefore_iff hpass hfmt (by omega), iff_false_intro ht, false_and, false_or]

theorem Accepted.has_eq {p : ℕ} {type : FileFormat} {img : BootImg} (hs : ∀ f, ¬ s.2.has f)
    (h : Accepted env file s p type img) (f : HdrFlag) :
    img.flags.has f = (hdrFlags (env.mapped file) p type).has f := by
  obtain ⟨heads, flags, hv, hp⟩ := h.parsed
  have hheads : heads.has f = false := by
    have hkeep : ∀ {t : ℕ × Flags}, WalksTo (env.mapped file) file.length s t →
        t.2.has f = s.2.has f := by
      intro t ht
      induction ht with
      | refl => rfl
      | tail _ hp ih =>
        obtain ⟨-, fmt, -, rfl⟩ := hp
        rw [← ih]
        unfold skipFlags
        split <;> cases f <;> rfl
    rw [hkeep hv]
    exact Bool.eq_false_iff.mpr (hs f)
  have hparsed := hp
  rw [← heads.or_empty, parseImage_or] at hp
  obtain ⟨⟨own, r₀⟩, hp₀, he⟩ := map_eq_ok.mp hp
  obtain ⟨rfl, -⟩ := Prod.mk.inj he
  obtain ⟨hdr, hflags, -, -, hparsed⟩ := parseImage_eq_ok.mp hparsed
  rw [hparsed.has_eq f, parseImage_own hp₀, Flags.has_or, hheads, Bool.false_or]

/-- The flags are the ones of the header, and the leading bytes and the checksum that `repack`
writes are those of the image `img`. -/
def DescribesOnly (env : Env) (boot img : BootImg) (own : Flags) : Prop :=
  (∀ f, boot.flags.has f = own.has f) ∧ headBytes boot = headBytes img ∧
    ∀ out hdr off, checksum env boot out hdr off = checksum env img out hdr off

/-- The flags describe the accepted header only exactly if its bytes stand for each flag that the
bytes of a header before it do. -/
theorem load_flags_iff (h : load env file = .ok boot) : ∃ p type img,
    Accepted env file (0, {}) p type img ∧ boot = { img with flags := boot.flags } ∧
    (DescribesOnly env boot img (hdrFlags (env.mapped file) p type) ↔
      ∀ f, SetBefore (env.mapped file) file.length (0, {}) p f →
        (hdrFlags (env.mapped file) p type).has f) := by
  have hempty (f : HdrFlag) : ¬ Flags.has {} f := by cases f <;> decide
  obtain ⟨p, type, img, kept, hacc, -, hboot, hk, hiff⟩ :=
    loadFrom_has_iff (s := (0, {})) (rfl : Flags.OfHdr {}) h
  have hown := hacc.has_eq (s := (0, {})) hempty
  have hset (f : HdrFlag) : kept.has f ↔
      SetBefore (env.mapped file) file.length (0, {}) p f := by
    rw [hiff]
    exact or_iff_right (hempty f)
  refine ⟨p, type, img, hacc, by rw [hboot], ?_, ?_⟩
  · rintro ⟨hflags, -⟩ f hf
    rw [← hflags, hboot, Flags.has_or, (hset f).mpr hf, Bool.true_or]
  · intro hall
    have heq : boot = img := by
      rw [hboot, hk.or_eq fun f hf => ?_]
      rw [hown]
      exact hall f ((hset f).mp hf)
    rw [heq]
    exact ⟨hown, rfl, fun _ _ _ => rfl⟩

end

/-- An image behind a magic. The first header seems to have the address of its second stage as the
page size, and some bytes of its id as the last ones of an id. -/
def twoHeaders (idByte : UInt8) : Bytes :=
  bootMagic ++ padded 2048 (bootMagic ++ (zeros 20 ++ (leBytes 4 2048 ++ (zeros 4 ++
    (leBytes 4 2048 ++ (zeros 552 ++ [idByte]))))))

theorem twoHeaders_load : ∀ b ∈ ([0, 1] : Bytes), (load sampleEnv (twoHeaders b)).map
    (fun boot => (boot.payload.1, boot.flags.sha256)) = .ok (8, b = 1) := by
  decide +kernel

theorem twoHeaders_flags : ∀ q < 8, ∀ type ∈ [FileFormat.aosp, .aospVendor],
    hdrFlags (sampleEnv.mapped (twoHeaders 0)) q type = {} := by
  decide +kernel

theorem load_flags_twoHeaders : ∃ boot p type img, load sampleEnv (twoHeaders 0) = .ok boot ∧
    boot.payload.1 = 8 ∧ Accepted sampleEnv (twoHeaders 0) (0, {}) p type img ∧
    DescribesOnly sampleEnv boot img
      (hdrFlags (sampleEnv.mapped (twoHeaders 0)) p type) := by
  obtain ⟨boot, hload, hb⟩ := map_eq_ok.mp (twoHeaders_load 0 (by decide))
  obtain ⟨hpos, -⟩ := Prod.mk.inj hb
  obtain ⟨p, type, img, hacc, himg, hiff⟩ := load_flags_iff hload
  refine ⟨boot, p, type, img, hload, hpos, hacc, hiff.mpr ?_⟩
  have hp : p ≤ 8 := by
    obtain ⟨heads, flags, -, hparsed⟩ := hacc.parsed
    obtain ⟨hdr, hflags, hh, -⟩ := parseImage_eq_ok.mp hparsed
    have hle := (parseHdr_eq_ok hh).1
    rw [himg] at hpos
    exact hle.trans hpos.le
  rintro f ⟨⟨q, heads⟩, type', -, hlt, ht, -, hf⟩
  have hnone := twoHeaders_flags q (by dsimp only at hlt; omega) type'
    (by rcases ht with rfl | rfl <;> simp)
  rw [hnone] at hf
  cases f <;> cases hf

theorem twoHeaders_accepted :
    checkFmt (sampleEnv.mapped (twoHeaders 1)) 8 (twoHeaders 1).length = .ok .aosp ∧
    (parseImage sampleEnv (twoHeaders 1) {} 8 .aosp).map (·.2.isSome) = .ok true ∧
    (hdrFlags (sampleEnv.mapped (twoHeaders 1)) 8 .aosp).has .sha256 = false := by
  decide +kernel

/-- The image is taken for one with a SHA-256. -/
theorem load_flags_kept : ∃ boot img own, load sampleEnv (twoHeaders 1) = .ok boot ∧
    boot.payload.1 = 8 ∧
    checkFmt (sampleEnv.mapped (twoHeaders 1)) 8 (twoHeaders 1).length = .ok .aosp ∧
    parseImage sampleEnv (twoHeaders 1) {} 8 .aosp = .ok (own, some img) ∧
    boot.flags.sha256 ∧ own.sha256 = false := by
  obtain ⟨boot, hload, hb⟩ := map_eq_ok.mp (twoHeaders_load 1 (by decide))
  obtain ⟨hpos, hsha⟩ := Prod.mk.inj hb
  obtain ⟨hfmt, hp, hown⟩ := twoHeaders_accepted
  obtain ⟨⟨own, r⟩, hp, hsome⟩ := map_eq_ok.mp hp
  obtain ⟨img, rfl⟩ := Option.isSome_iff_exists.mp hsome
  rw [← parseImage_own hp] at hown
  exact ⟨boot, img, own, hload, hpos, hfmt, hp, hsha, hown⟩

end Magisk.Boot
