import Magisk.Boot.Parsed

namespace Magisk.Boot

open List

def HdrKind.format (k : HdrKind) : FileFormat := if k.isVendor then .aospVendor else .aosp

/-- A header that `make_aosp_hdr` makes and that does not start a loader. -/
structure Hdr.IsAosp (h : Hdr) : Prop where
  magic : bufferMatch h.raw 0 bootMagic = .ok true
  page : leValue (view h.raw 36 4) < 0x02000000
  version : aospKind (leValue (view h.raw 40 4)) = h.kind
  nookhd : matchAny h.raw 64 nookhdMagics = .ok false
  acclaim : bufferMatch h.raw 48 (lit "BauwksBoot") = .ok false

/-- The bytes of the header tell its kind. -/
def Hdr.Found (h : Hdr) : Prop :=
  match h.kind with
  | .vndV3 => leValue (view h.raw 8 4) ≠ 4
  | .vndV4 => leValue (view h.raw 8 4) = 4
  | .pxa => 0x02000000 ≤ leValue (view h.raw 36 4)
  | _ => h.IsAosp

section Local

variable {mem raw : Bytes} {addr : ℕ} (ha : At mem addr raw)

include ha

theorem bufferMatch_of_at {i : ℕ} {magic : Bytes} (h : i + magic.length ≤ raw.length) :
    bufferMatch mem (addr + i) magic = bufferMatch raw i magic := by
  rw [← bufferMatch_view mem addr h, ha.view_eq]

theorem read32_of_at {i : ℕ} (h : i + 4 ≤ raw.length) :
    read32 mem (addr + i) = .ok (leValue (view raw i 4)) := by
  rw [read32, ← read_view mem addr h, ha.view_eq, read_of_le h]
  rfl

theorem matchAny_of_at {i : ℕ} {l : List Bytes} (h : ∀ m ∈ l, i + m.length ≤ raw.length) :
    matchAny mem (addr + i) l = matchAny raw i l := by
  induction l with
  | nil => rfl
  | cons m l ih =>
    rw [matchAny, matchAny, bufferMatch_of_at ha (h m mem_cons_self),
      ih fun m' hm' => h m' (mem_cons_of_mem m hm')]

end Local

theorem overwrite_all {m b : Bytes} (h : b.length = m.length) : overwrite m 0 b = b := by
  rw [overwrite, h, zero_add, drop_length, take_zero, nil_append, append_nil,
    ← h, take_length]

theorem newHdr_eq_ok {k : HdrKind} {mem : Bytes} {p : ℕ} {h : Hdr} :
    newHdr k mem p k.hdrSize = .ok h ↔ h.kind = k ∧ At mem p h.raw := by
  rw [newHdr, if_neg (lt_irrefl _)]
  constructor
  · intro hn
    rw [bind_eq_ok] at hn
    obtain ⟨b, hb, hn⟩ := hn
    obtain ⟨hl, ha⟩ := read_eq_ok.mp hb
    cases hn
    refine ⟨rfl, ?_⟩
    dsimp only
    rwa [overwrite_all (by rw [hl, zeros_length])]
  · rintro ⟨rfl, ha⟩
    rw [read_eq_ok.mpr ⟨h.raw_length, ha⟩]
    obtain ⟨kind, raw, hraw⟩ := h
    simp only [bind, Except.bind]
    congr
    exact overwrite_all (by rw [hraw, zeros_length])

section Parse

variable {mem : Bytes} {addr addr' : ℕ} {flags flags' : Flags} {h : Hdr} {type : FileFormat}

theorem bufferMatch_eq_ok {off : ℕ} {magic : Bytes} (hle : off + magic.length ≤ mem.length) :
    bufferMatch mem off magic = .ok (view mem off magic.length = magic) := by
  unfold bufferMatch
  split_ifs with h1 h2
  · simp [h1]
  · have hp := isPrefixOf_iff_prefix.mp h2
    have hl : (view mem off magic.length).length = magic.length := by
      rw [view_length]
      omega
    exact absurd (hp.eq_of_length hl) h1
  · simp [h1]

theorem nookhdMagics_length : ∀ m ∈ nookhdMagics, m.length ≤ 30 := by decide

theorem preHeader_of_isAosp (hi : h.IsAosp) (ha : At mem addr h.raw) (flags : Flags) :
    preHeader mem addr flags = .ok (addr, flags) := by
  have hl : 1580 ≤ h.raw.length := h.raw_length ▸ h.kind.le_hdrSize
  have hn : matchAny mem (addr + 64) nookhdMagics = .ok false := by
    rw [matchAny_of_at ha, hi.nookhd]
    intro m hm
    have := nookhdMagics_length m hm
    omega
  have hb : bufferMatch mem (addr + 48) (lit "BauwksBoot") = .ok false := by
    rw [bufferMatch_of_at ha, hi.acclaim]
    have : (lit "BauwksBoot").length = 10 := by decide
    omega
  rw [preHeader, hn, hb]
  rfl

theorem isAmonet_of_magic {raw : Bytes} (hl : 1032 ≤ raw.length) (ha : At mem addr raw)
    (hm : view raw 1024 8 ≠ bootMagic) : isAmonet mem addr = .ok false := by
  have hlen : bootMagic.length = 8 := by decide
  have hle := ha.le_length (ne_nil_of_length_pos (by omega))
  have hmagic : bufferMatch mem (addr + amonetMicroloaderSz) bootMagic = .ok false := by
    rw [amonetMicroloaderSz, bufferMatch_of_at ha (by omega), bufferMatch_eq_ok (by omega), hlen]
    simp [hm]
  rw [isAmonet, read_of_le (by rw [amonetMicroloaderSz]; omega), hmagic]
  simp only [bind, Except.bind]
  split_ifs <;> rfl

theorem makeAospHdr_of_isAosp (hi : h.IsAosp) (ha : At mem addr h.raw) :
    makeAospHdr mem addr none = .ok (some h) := by
  have hlen : bootMagic.length = 8 := by decide
  have hl : 1580 ≤ h.raw.length := h.raw_length ▸ h.kind.le_hdrSize
  have hb := bufferMatch_of_at ha (show 0 + bootMagic.length ≤ h.raw.length by omega)
  rw [add_zero, hi.magic] at hb
  rw [makeAospHdr, hb, read32_of_at ha (by omega)]
  simp only [bind, Except.bind, if_true, hi.version, Option.getD_none,
    newHdr_eq_ok.mpr ⟨rfl, ha⟩]
  rfl

theorem Hdr.found_of_vendor (hv : h.kind.isVendor) :
    h.Found ↔ h.kind = if leValue (view h.raw 8 4) = 4 then .vndV4 else .vndV3 := by
  unfold Hdr.Found
  cases hk : h.kind with
  | vndV3 | vndV4 => simp
  | _ => simp [hk, HdrKind.isVendor] at hv

theorem Hdr.found_of_aosp (hv : h.kind.isVendor = false) (hp : h.kind ≠ .pxa) :
    h.Found ↔ h.IsAosp := by
  unfold Hdr.Found
  cases hk : h.kind with
  | vndV3 | vndV4 => simp [hk, HdrKind.isVendor] at hv
  | pxa => exact absurd hk hp
  | _ => rfl

/-- `parse_hdr` finds the header where it stands. AMONET is told by the magic behind the loader. -/
theorem parseHdr_of_found (hf : h.Found) (ha : At mem addr h.raw)
    (hm : h.kind.isVendor = false → view h.raw 1024 8 ≠ bootMagic) (flags : Flags) :
    parseHdr mem addr h.kind.format flags = .ok (some h, addr, flags) := by
  have hl : 1580 ≤ h.raw.length := h.raw_length ▸ h.kind.le_hdrSize
  have hnew := newHdr_eq_ok.mpr ⟨rfl, ha⟩
  have hne : FileFormat.aosp ≠ .aospVendor := by decide
  by_cases hv : h.kind.isVendor
  · have hk := (Hdr.found_of_vendor hv).mp hf
    rw [HdrKind.format, if_pos hv, parseHdr, if_pos rfl, read32_of_at ha (by omega)]
    simp only [bind, Except.bind, ← hk, hnew]
    rfl
  rw [HdrKind.format, if_neg hv, parseHdr, if_neg hne, read32_of_at ha (by omega)]
  by_cases hp : h.kind = .pxa
  · have hpage : 0x02000000 ≤ leValue (view h.raw 36 4) := by
      unfold Hdr.Found at hf
      rwa [hp] at hf
    rw [hp] at hnew
    simp only [bind, Except.bind, hpage, if_true, hnew]
    rfl
  · have hi := (Hdr.found_of_aosp (by simpa using hv) hp).mp hf
    rw [isAmonet_of_magic (by omega) ha (hm (by simpa using hv))]
    simp only [bind, Except.bind, Nat.not_le.mpr hi.page, if_false,
      preHeader_of_isAosp hi ha flags, makeAospHdr_of_isAosp hi ha]
    rfl

/-- The flags of the loaders that are not looked for in the first bytes of the header. -/
def Flags.loader (flags : Flags) : Bool := flags.nookhd || flags.acclaim || flags.amonet

theorem preHeader_eq_ok (hp : preHeader mem addr flags = .ok (addr', flags'))
    (hl : flags'.loader = false) : addr' = addr ∧ flags' = flags ∧
      matchAny mem (addr + 64) nookhdMagics = .ok false ∧
      bufferMatch mem (addr + 48) (lit "BauwksBoot") = .ok false := by
  simp only [preHeader, bind_eq_ok] at hp
  obtain ⟨c, hc, hp⟩ := hp
  cases c with
  | true =>
    cases hp
    simp [Flags.loader] at hl
  | false =>
    simp only [Bool.false_eq_true, if_false, bind_eq_ok] at hp
    obtain ⟨d, hd, hp⟩ := hp
    cases d with
    | true =>
      cases hp
      simp [Flags.loader] at hl
    | false =>
      cases hp
      exact ⟨rfl, rfl, hc, hd⟩

theorem makeAospHdr_eq_some (hm : makeAospHdr mem addr none = .ok (some h)) :
    bufferMatch mem addr bootMagic = .ok true ∧
      read32 mem (addr + 40) = .ok (leValue (view h.raw 40 4)) ∧
      aospKind (leValue (view h.raw 40 4)) = h.kind ∧ At mem addr h.raw := by
  simp only [makeAospHdr, bind_eq_ok] at hm
  obtain ⟨c, hc, hm⟩ := hm
  cases c with
  | false => cases hm
  | true =>
    simp only [if_true, bind_eq_ok] at hm
    obtain ⟨version, hver, hdr, hnew, hm⟩ := hm
    cases hm
    obtain ⟨hk, ha⟩ := newHdr_eq_ok.mp hnew
    have hl : 1580 ≤ h.raw.length := h.raw_length ▸ h.kind.le_hdrSize
    have h40 := read32_of_at ha (show 40 + 4 ≤ h.raw.length by omega)
    rw [hver, Except.ok.injEq] at h40
    subst h40
    exact ⟨hc, hver, hk.symm, ha⟩

theorem found_of_parseHdr (hp : parseHdr mem addr type flags = .ok (some h, addr', flags'))
    (hl : flags'.loader = false) :
    addr' = addr ∧ flags' = flags ∧ At mem addr h.raw ∧ h.Found ∧
      (type = .aosp ∨ type = .aospVendor → type = h.kind.format) := by
  have hsize : 1580 ≤ h.raw.length := h.raw_length ▸ h.kind.le_hdrSize
  have hlen : bootMagic.length = 8 := by decide
  unfold parseHdr at hp
  split_ifs at hp with ht
  · simp only [bind_eq_ok] at hp
    obtain ⟨version, hver, hdr, hnew, hp⟩ := hp
    cases hp
    obtain ⟨hk, ha⟩ := newHdr_eq_ok.mp hnew
    rw [read32_of_at ha (by omega), Except.ok.injEq] at hver
    subst hver
    have hv : h.kind.isVendor := by
      rw [hk]
      split_ifs <;> rfl
    refine ⟨rfl, rfl, ha, (Hdr.found_of_vendor hv).mpr hk, fun _ => ?_⟩
    rw [HdrKind.format, if_pos hv, ht]
  · have hformat : h.kind.isVendor = false →
        (type = .aosp ∨ type = .aospVendor → type = h.kind.format) := by
      intro hv hor
      rw [HdrKind.format, if_neg (by simp [hv])]
      exact hor.resolve_right ht
    simp only [bind_eq_ok] at hp
    obtain ⟨page, hpage, hp⟩ := hp
    by_cases hle : 0x02000000 ≤ page
    · simp only [if_pos hle, bind_eq_ok] at hp
      obtain ⟨hdr, hnew, hp⟩ := hp
      cases hp
      obtain ⟨hk, ha⟩ := newHdr_eq_ok.mp hnew
      rw [read32_of_at ha (by omega), Except.ok.injEq] at hpage
      subst hpage
      refine ⟨rfl, rfl, ha, ?_, hformat (by rw [hk]; rfl)⟩
      unfold Hdr.Found
      rw [hk]
      exact hle
    · simp only [if_neg hle, bind_eq_ok] at hp
      obtain ⟨c, -, hp⟩ := hp
      cases c with
      | true =>
        simp only [if_true, bind_eq_ok] at hp
        obtain ⟨v, -, hdr, -, hp⟩ := hp
        cases hp
        simp [Flags.loader] at hl
      | false =>
        simp only [Bool.false_eq_true, if_false, bind_eq_ok] at hp
        obtain ⟨⟨a, f⟩, hpre, hdr, hmake, hp⟩ := hp
        cases hp
        obtain ⟨rfl, rfl, hn, hb⟩ := preHeader_eq_ok hpre hl
        obtain ⟨hmagic, -, hk, ha⟩ := makeAospHdr_eq_some hmake
        rw [read32_of_at ha (by omega), Except.ok.injEq] at hpage
        subst hpage
        have hne : h.kind.isVendor = false ∧ h.kind ≠ .pxa := by
          rw [← hk]
          unfold aospKind
          split <;> decide
        refine ⟨rfl, rfl, ha, (Hdr.found_of_aosp hne.1 hne.2).mpr ?_, hformat hne.1⟩
        refine ⟨?_, Nat.not_le.mp hle, hk, ?_, ?_⟩
        · rw [← hmagic, ← bufferMatch_of_at ha (by omega), add_zero]
        · rw [← hn, matchAny_of_at ha]
          intro m hm
          have := nookhdMagics_length m hm
          omega
        · rw [← hb, bufferMatch_of_at ha]
          have : (lit "BauwksBoot").length = 10 := by decide
          omega

theorem parseTail_loader {env : Env} {tail : ℕ} {t : TailInfo}
    (h : parseTail env mem addr tail flags = .ok t) : t.flags.loader = flags.loader := by
  rcases parseTail_eq_ok h with ⟨-, rfl⟩ | ⟨f, hf, -, ht⟩
  · rfl
  · have hloader : f.loader = flags.loader := by
      rcases tailFlags_eq_ok hf with rfl | rfl | rfl | rfl <;> rfl
    rw [← hloader]
    rcases ht with rfl | rfl | ⟨off, -, -, rfl⟩ <;> rfl

end Parse

theorem load_found {env : Env} {file : Bytes} {boot : BootImg} (h : load env file = .ok boot)
    (hl : boot.flags.loader = false) :
    ∃ hdr flags, IsParsed env file hdr flags boot ∧ hdr.Found ∧
      At boot.mem boot.payload.1 hdr.raw ∧
      checkFmt boot.mem boot.payload.1 file.length = .ok hdr.kind.format := by
  obtain ⟨-, addr, type, flags, flags', ht, hc, hp⟩ := loadFrom_parseImage h
  obtain ⟨hdr, hflags, hh, rfl, hparsed⟩ := parseImage_eq_ok.mp hp
  have hl' : hflags.loader = false := by
    rw [← hl, parseTail_loader hparsed.tail]
    rfl
  obtain ⟨haddr, -, hat, hf, htype⟩ := found_of_parseHdr hh hl'
  refine ⟨hdr, _, hparsed, hf, ?_⟩
  rw [hparsed.mem_eq, haddr, ← htype ht]
  exact ⟨hat, hc⟩

theorem aospKind_eq_v0 {n : ℕ} : aospKind n = .v0 ↔ n = 0 ∨ 4 < n := by
  unfold aospKind
  split
  case h_5 h1 h2 h3 h4 =>
    have hne : n ≠ 1 ∧ n ≠ 2 ∧ n ≠ 3 ∧ n ≠ 4 := ⟨h1, h2, h3, h4⟩
    simp only [true_iff]
    omega
  all_goals simp

/-- The fields that `repack` stores anew. -/
def Field.written : Field → Bool
  | .size _ | .id | .recoveryDtboOffset | .headerSize => true
  | _ => false

/-- The version 0 header has the size of the extra block where the others have the version. -/
theorem size_extra_of_v0 {h : Hdr} (hk : h.kind = .v0) :
    h.size .extra = leValue (view h.raw 40 4) := by
  rw [Hdr.size, Hdr.val, Hdr.get, hk]
  rfl

section Patched

variable {h h' : Hdr} (hs : Hdr.SameBut (fun f => f.written) h h')

include hs

theorem bufferMatch_of_sameBut {o : ℕ} {magic : Bytes}
    (hd : ∀ f, f.written → ∀ x ∈ h.kind.field f,
      x.1 + x.2 ≤ o ∨ o + magic.length ≤ x.1) :
    bufferMatch h'.raw o magic = bufferMatch h.raw o magic := by
  rw [bufferMatch, bufferMatch, hs.view_eq o magic.length hd]

theorem matchAny_of_sameBut {o : ℕ} {l : List Bytes}
    (hd : ∀ m ∈ l, ∀ f, f.written → ∀ x ∈ h.kind.field f,
      x.1 + x.2 ≤ o ∨ o + m.length ≤ x.1) : matchAny h'.raw o l = matchAny h.raw o l := by
  induction l with
  | nil => rfl
  | cons m l ih =>
    rw [matchAny, matchAny, bufferMatch_of_sameBut hs (hd m mem_cons_self),
      ih fun m' hm' => hd m' (mem_cons_of_mem m hm')]

theorem view_magic_of_sameBut : view h'.raw 1024 8 = view h.raw 1024 8 := by
  apply hs.view_eq
  generalize h.kind = k
  revert k
  decide

theorem isAosp_of_sameBut (hi : h.IsAosp)
    (h0 : h.kind = .v0 → h'.size .extra = 0 ∨ 4 < h'.size .extra) : h'.IsAosp := by
  have hregion : ∀ k : HdrKind, k.isVendor = false → ∀ f : Field, f.written →
      ∀ x ∈ k.field f, (8 ≤ x.1) ∧ (x.1 + x.2 ≤ 36 ∨ 40 ≤ x.1) ∧ (x.1 + x.2 ≤ 48 ∨ 94 ≤ x.1) ∧
        (k ≠ .v0 → x.1 + x.2 ≤ 40 ∨ 44 ≤ x.1) := by decide
  have hv : h.kind.isVendor = false := by
    rw [← hi.version]
    unfold aospKind
    split <;> rfl
  refine ⟨?_, ?_, ?_, ?_, ?_⟩
  · rw [bufferMatch_of_sameBut hs, hi.magic]
    intro f hf x hx
    have := hregion _ hv f hf x hx
    have hlen : bootMagic.length = 8 := by decide
    omega
  · rw [hs.view_eq]
    · exact hi.page
    · intro f hf x hx
      have := hregion _ hv f hf x hx
      omega
  · rw [hs.kind_eq]
    by_cases hk : h.kind = .v0
    · rw [← size_extra_of_v0 (hs.kind_eq.trans hk), hk, aospKind_eq_v0]
      exact h0 hk
    · rw [hs.view_eq, hi.version]
      intro f hf x hx
      have := (hregion _ hv f hf x hx).2.2.2 hk
      omega
  · rw [matchAny_of_sameBut hs, hi.nookhd]
    intro m hm f hf x hx
    have := hregion _ hv f hf x hx
    have := nookhdMagics_length m hm
    omega
  · rw [bufferMatch_of_sameBut hs, hi.acclaim]
    intro f hf x hx
    have := hregion _ hv f hf x hx
    have hlen : (lit "BauwksBoot").length = 10 := by decide
    omega

/-- The patched header is still found, unless the size of the extra block is taken for a version. -/
theorem found_of_sameBut (hf : h.Found)
    (h0 : h.kind = .v0 → h'.size .extra = 0 ∨ 4 < h'.size .extra) : h'.Found := by
  have hregion : ∀ k : HdrKind, ∀ f : Field, f.written → ∀ x ∈ k.field f,
      (k.isVendor → x.1 + x.2 ≤ 8 ∨ 12 ≤ x.1) ∧ (x.1 + x.2 ≤ 36 ∨ 40 ≤ x.1) := by decide
  by_cases hv : h.kind.isVendor
  · rw [Hdr.found_of_vendor (by rwa [hs.kind_eq]), hs.kind_eq, hs.view_eq]
    · exact (Hdr.found_of_vendor hv).mp hf
    · intro f hf x hx
      have := (hregion _ f hf x hx).1 hv
      omega
  · by_cases hp : h.kind = .pxa
    · unfold Hdr.Found at hf ⊢
      rw [hs.kind_eq, hp]
      rw [hp] at hf
      dsimp only at hf ⊢
      rw [hs.view_eq]
      · exact hf
      · intro f hf x hx
        have := hregion _ f hf x hx
        omega
    · have hv' : h.kind.isVendor = false := by simpa using hv
      rw [Hdr.found_of_aosp (by rwa [hs.kind_eq]) (by rwa [hs.kind_eq])]
      exact isAosp_of_sameBut hs ((Hdr.found_of_aosp hv' hp).mp hf) h0

end Patched

end Magisk.Boot
