import Magisk.Boot.KernelParts
import Magisk.Boot.Written

namespace Magisk.Boot

open List

/-- The kernel file as it is written, compressed if need be. -/
def piggyData (env : Env) (boot : BootImg) (skipComp : Bool) (m : Bytes) : Except Stop Bytes :=
  component env skipComp boot.kernel.fmt
    (if boot.kernel.fmt = .gzip then .zopfli else boot.kernel.fmt) m

/-- The new kernel is larger, and the original one can be read; or it is as large as before; or it
leaves room for the size of the file. -/
def PiggyFits (boot : BootImg) (skipComp : Bool) (n : ℕ) : Prop :=
  n < 2 ^ 32 ∧
  ((boot.hdr.size .kernel < n ∧
      ∃ orig, read boot.mem boot.kernel.kernel (boot.hdr.size .kernel) = .ok orig) ∨
    (skipComp ∧ n = boot.hdr.size .kernel) ∨
    (skipComp = false ∧ n + 4 ≤ boot.hdr.size .kernel))

section

variable {env : Env} {file : Bytes} {boot : BootImg} {files : Files} {skipComp : Bool} {hdr : Hdr}

theorem zimageBody_length_iff (data m : Bytes) :
    (∃ body, zimageBody boot skipComp data m (data.length % 2 ^ 32) = .ok body ∧
      body.length = boot.hdr.size .kernel) ↔ PiggyFits boot skipComp data.length := by
  have horig := boot.hdr.size_lt .kernel
  have hmod := Nat.mod_le data.length (2 ^ 32)
  -- what is beyond 32 bits in the length is written, but not counted
  have hlt : data.length - data.length % 2 ^ 32 = 0 ↔ data.length < 2 ^ 32 := by omega
  unfold PiggyFits
  simp only [zimageBody]
  by_cases hlarge : boot.hdr.size .kernel < data.length % 2 ^ 32
  · simp only [if_pos hlarge, bind_eq_ok]
    constructor
    · rintro ⟨body, ⟨orig, ho, he⟩, hlen⟩
      cases he
      rw [length_append, length_take, (read_eq_ok.mp ho).1] at hlen
      exact ⟨by omega, .inl ⟨by omega, orig, ho⟩⟩
    · rintro ⟨h32, ⟨-, orig, ho⟩ | ⟨-, hn⟩ | ⟨-, hn⟩⟩
      · refine ⟨_, ⟨orig, ho, rfl⟩, ?_⟩
        rw [length_append, length_take, (read_eq_ok.mp ho).1]
        omega
      · omega
      · omega
  simp only [if_neg hlarge]
  cases skipComp with
  | true =>
    simp only [if_true]
    constructor
    · rintro ⟨body, ⟨⟩, hlen⟩
      exact ⟨by omega, .inr (.inl ⟨trivial, hlen⟩)⟩
    · rintro ⟨h32, ⟨hn, -⟩ | ⟨-, hn⟩ | ⟨he, -⟩⟩
      · omega
      · exact ⟨data, rfl, hn⟩
      · cases he
  | false =>
    simp only [Bool.false_eq_true, if_false]
    by_cases hroom : boot.hdr.size .kernel - data.length % 2 ^ 32 < 4
    · simp only [if_pos hroom]
      refine iff_of_false (by rintro ⟨body, ⟨⟩, -⟩) ?_
      rintro ⟨h32, ⟨hn, -⟩ | ⟨he, -⟩ | ⟨-, hn⟩⟩
      · omega
      · cases he
      · omega
    · simp only [if_neg hroom]
      constructor
      · rintro ⟨body, ⟨⟩, hlen⟩
        simp only [length_append, zeros_length, leBytes_length] at hlen
        exact ⟨by omega, .inr (.inr ⟨trivial, by omega⟩)⟩
      · rintro ⟨h32, -⟩
        refine ⟨_, rfl, ?_⟩
        simp only [length_append, zeros_length, leBytes_length]
        omega

/-- The kernel between its header and its tail has the size that the header tells. -/
theorem kernelBody_zimage_length_iff (h : load env file = .ok boot)
    (hz : boot.kernel.zimage) (hk : hdr.kind = boot.hdr.kind) {m : Bytes}
    (hm : files.kernel = some m) :
    (∃ body hdr', kernelBody env boot files skipComp hdr = .ok (body, hdr') ∧
      body.length = boot.hdr.size .kernel ∧ hdr'.size .kernel = boot.hdr.size .kernel) ↔
    ∃ data, piggyData env boot skipComp m = .ok data ∧ PiggyFits boot skipComp data.length := by
  obtain ⟨-, addr, type, flags, flags', -, -, hp⟩ := loadFrom_parseImage h
  obtain ⟨hdr₀, -, -, -, hparsed⟩ := parseImage_eq_ok.mp hp
  have hhas : hdr.Has .kernel := by
    by_contra hn
    rw [Hdr.Has, hk] at hn
    rw [(hparsed.kernelFree hn).2] at hz
    cases hz
  have hbody : ∀ q, kernelBody env boot files skipComp hdr = .ok q ↔
      ∃ data, piggyData env boot skipComp m = .ok data ∧
        ∃ body, zimageBody boot skipComp data m (data.length % 2 ^ 32) = .ok body ∧
          q = (body, (hdr.setSize .kernel data.length).setSize .kernel (boot.hdr.size .kernel)) := by
    intro q
    simp only [kernelBody, hm, hz, Bool.true_and, decide_eq_true_eq, if_true, bind_eq_ok,
      Hdr.size_setSize_self, if_pos hhas, piggyData]
    simp only [pure, Except.pure, Except.ok.injEq, eq_comm]
  have hhas' (data : Bytes) : (hdr.setSize .kernel data.length).Has .kernel := by
    rwa [(hdr.sameBut_setSize .kernel _).has_iff]
  constructor
  · rintro ⟨body, hdr', hq, hlen, -⟩
    obtain ⟨data, hdata, body', hb, he⟩ := (hbody _).mp hq
    cases he
    exact ⟨data, hdata, (zimageBody_length_iff data m).mp ⟨body, hb, hlen⟩⟩
  · rintro ⟨data, hdata, hfits⟩
    obtain ⟨body, hb, hlen⟩ := (zimageBody_length_iff data m).mpr hfits
    refine ⟨body, _, (hbody _).mpr ⟨data, hdata, body, hb, rfl⟩, hlen, ?_⟩
    rw [Hdr.size_setSize_self, if_pos (hhas' data), Nat.mod_eq_of_lt (boot.hdr.size_lt .kernel)]

end

/-- An image with a zImage: a gzip magic at 48, and 100 as the end of the piggy. -/
def zimageSample : Bytes :=
  kernelImage (zeros 36 ++ (zimageMagic ++ (zeros 4 ++ (leBytes 4 256 ++ ([0x1f, 0x8b] ++
    (zeros 202 ++ leBytes 4 100))))))

def gzipFile (n : ℕ) : Files := { kernel := some ([0x1f, 0x8b] ++ zeros n) }

theorem zimageSample_run : (load sampleEnv zimageSample).map (fun boot =>
    (boot.kernel.zimage, boot.hdr.size .kernel,
      (kernelBody sampleEnv boot (gzipFile 49) true boot.hdr).map fun q =>
        (q.1.length, q.2.size .kernel),
      (kernelBody sampleEnv boot (gzipFile 49) false boot.hdr).map fun q =>
        (q.1.length, q.2.size .kernel))) =
    .ok (true, 52, .ok (51, 52), .error .hang) := by
  decide +kernel

theorem exists_zimageSample : ∃ boot, load sampleEnv zimageSample = .ok boot ∧
    boot.kernel.zimage ∧ boot.hdr.size .kernel = 52 := by
  obtain ⟨boot, hload, h⟩ := map_eq_ok.mp zimageSample_run
  simp only [Prod.mk.injEq] at h
  exact ⟨boot, hload, h.1, h.2.1⟩

/-- A kernel of 48 bytes is filled up. -/
theorem kernelBody_zimage_length_gzipFile : ∃ boot, load sampleEnv zimageSample = .ok boot ∧
    ∃ body hdr, kernelBody sampleEnv boot (gzipFile 46) false boot.hdr = .ok (body, hdr) ∧
      body.length = boot.hdr.size .kernel ∧ hdr.size .kernel = boot.hdr.size .kernel := by
  obtain ⟨boot, hload, hz, hs⟩ := exists_zimageSample
  have hfmt : checkFmt ([0x1f, 0x8b] ++ zeros 46) 0 48 = .ok .gzip := by decide
  have hdata : piggyData sampleEnv boot false ([0x1f, 0x8b] ++ zeros 46) =
      .ok ([0x1f, 0x8b] ++ zeros 46) := by
    unfold piggyData component
    rw [if_neg (by decide)]
    exact bind_eq_ok.mpr ⟨.gzip, hfmt, rfl⟩
  refine ⟨boot, hload, (kernelBody_zimage_length_iff hload hz rfl rfl).mpr ⟨_, hdata, ?_⟩⟩
  refine ⟨by decide, .inr (.inr ⟨rfl, ?_⟩)⟩
  rw [hs]
  decide

/-- One of 51 bytes is not filled up if nothing is to be compressed, and has no room for the size of
the file otherwise. -/
theorem kernelBody_zimage_short : ∃ boot, load sampleEnv zimageSample = .ok boot ∧
    boot.kernel.zimage ∧
    (∃ body hdr, kernelBody sampleEnv boot (gzipFile 49) true boot.hdr = .ok (body, hdr) ∧
      body.length = 51 ∧ hdr.size .kernel = 52 ∧ boot.hdr.size .kernel = 52) ∧
    kernelBody sampleEnv boot (gzipFile 49) false boot.hdr = .error .hang := by
  obtain ⟨boot, hload, h⟩ := map_eq_ok.mp zimageSample_run
  simp only [Prod.mk.injEq] at h
  obtain ⟨hz, hs, hskip, hhang⟩ := h
  obtain ⟨⟨body, hdr⟩, hb, he⟩ := map_eq_ok.mp hskip
  obtain ⟨hlen, hsize⟩ := Prod.mk.inj he
  refine ⟨boot, hload, hz, ⟨body, hdr, hb, hlen, hsize, hs⟩, ?_⟩
  cases hk : kernelBody sampleEnv boot (gzipFile 49) false boot.hdr with
  | error e =>
    rw [hk] at hhang
    cases hhang
    rfl
  | ok q =>
    rw [hk] at hhang
    cases hhang

end Magisk.Boot
