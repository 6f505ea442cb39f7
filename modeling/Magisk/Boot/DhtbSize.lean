import Magisk.Boot.Candidates
import Magisk.Boot.Image
import Magisk.Boot.KernelParts

namespace Magisk.Boot

section

variable {env : Env} {file : Bytes} {boot : BootImg}

theorem parseImage_dhtb {a : ℕ} {type : FileFormat} {own : Flags} {img : BootImg}
    (h : parseImage env file {} a type = .ok (own, some img)) : img.flags.dhtb = false := by
  have hown : own.dhtb = false := by
    rw [parseImage_own h, ofHdr_hdrFlags]
  obtain ⟨hdr, hflags, -, -, hparsed⟩ := parseImage_eq_ok.mp h
  obtain ⟨se, lg, avb1, avb, hflags⟩ := hparsed.flags_eq
  rw [hflags]
  exact hown

theorem WalksTo.seandroid {mem : Bytes} {len : ℕ} {s t : ℕ × Flags} (h : WalksTo mem len s t)
    (hs : s.2.dhtb → s.2.seandroid) : t.2.dhtb → t.2.seandroid := by
  induction h with
  | refl => exact hs
  | tail _ hp ih =>
    obtain ⟨-, fmt, -, rfl⟩ := hp
    unfold skipFlags
    split
    · exact ih
    · exact fun _ => rfl
    · exact ih
    · exact ih

/-- The flags of a DHTB header stay with the image. -/
theorem load_seandroid (h : load env file = .ok boot) (hd : boot.flags.dhtb) :
    boot.flags.seandroid := by
  obtain ⟨p, type, img, kept, hacc, -, rfl, hk, -⟩ :=
    loadFrom_has_iff (s := (0, {})) (rfl : Flags.OfHdr {}) h
  obtain ⟨heads, flags, hv, hp⟩ := hacc.parsed
  rw [← heads.or_empty, parseImage_or] at hp
  obtain ⟨⟨own, r₀⟩, hp₀, he⟩ := map_eq_ok.mp hp
  obtain ⟨img₀, rfl, rfl⟩ := Option.map_eq_some_iff.mp (Prod.mk.inj he).2
  have hkept : kept.dhtb = false := by rw [hk]
  have hheads : heads.dhtb := by
    simp only [Flags.or, hkept, parseImage_dhtb hp₀, Bool.false_or, Bool.or_false] at hd
    exact hd
  have hse : heads.seandroid := hv.seandroid (by decide) hheads
  simp [Flags.or, hse]

theorem trailer_dhtb (h : load env file = .ok boot) (hd : boot.flags.dhtb) :
    trailer boot = seandroidMagic ++ [0xff, 0xff, 0xff, 0xff] := by
  rw [trailer, if_pos (load_seandroid h hd), if_pos hd]

end

theorem getElem?_mapped_overwrite (env : Env) (m b : Bytes) {off i : ℕ} (h : off + b.length ≤ i) :
    (env.mapped (overwrite m off b))[i]? = (env.mapped m)[i]? := by
  unfold Env.mapped padded
  rw [overwrite_length]
  by_cases hi : i < m.length
  · rw [List.getElem?_append_left (by rwa [overwrite_length]), List.getElem?_append_left hi,
      getElem?_overwrite_of_not_mem m (by omega)]
  · rw [List.getElem?_append_right (by rw [overwrite_length]; omega),
      List.getElem?_append_right (by omega), overwrite_length]

section

variable {env : Env} {boot : BootImg} {files : Files} {skipComp : Bool} {r : Repacked} {x : Run}

/-- How many bytes there are from the end of the DHTB header to the end of the trailer. -/
def dhtbBytes (boot : BootImg) (r : Repacked) : ℕ := (r.out.fd ++ trailer boot).length - dhtbHdrSize

theorem IsRun.dhtb_imgSize (h : IsRun env boot files skipComp r x) (hd : boot.flags.dhtb) :
    dhtbHdrSize ≤ (r.out.fd ++ trailer boot).length ∧
      (r.imgSize + 16 + 4) % 2 ^ 32 = (dhtbBytes boot r + 20) % 2 ^ 32 := by
  have hhead := (headBytes_length h.head).1 hd
  have hfd := (writeBlocks_length Block.nodup_all h.out).1
  have htail := (writeTail_eq_ok h.tail).1
  have hle : dhtbHdrSize ≤ (r.out.fd ++ trailer boot).length := by
    simp only [List.length_append] at hfd ⊢
    omega
  refine ⟨hle, ?_⟩
  have hsize : dhtbHdrSize = 512 := rfl
  unfold Repacked.imgSize sub32 dhtbBytes
  rw [htail, h.header, hhead]
  omega

/-- The size that is stored is too large by the size of the trailer, and so is what is hashed. -/
theorem IsRun.dhtb (h : IsRun env boot files skipComp r x) (hd : boot.flags.dhtb) :
    leValue (view x.headPatched 48 4) = (dhtbBytes boot r + 20) % 2 ^ 32 ∧
      ∃ payload, payload.length = (dhtbBytes boot r + 20) % 2 ^ 32 ∧
        At (env.mapped x.headPatched) dhtbHdrSize payload ∧
        view x.headPatched 8 32 = env.sha false payload := by
  obtain ⟨hle, hsize⟩ := h.dhtb_imgSize hd
  have hlen : dhtbHdrSize ≤ x.avbPatched.length := by
    rw [h.length_eq.2.2.1]
    exact hle.trans h.fd_length_le
  have hp := h.headPatched
  rw [patchHead, if_pos hd, hsize] at hp
  generalize hn : (dhtbBytes boot r + 20) % 2 ^ 32 = n at hp ⊢
  simp only [bind_eq_ok] at hp
  obtain ⟨out1, h1, payload, hpay, h2⟩ := hp
  have hd512 : dhtbHdrSize = 512 := rfl
  have hsha : (env.sha false payload).length = 32 := by
    rw [env.sha_length, if_neg (by decide)]
  obtain ⟨hpl, hat⟩ := read_eq_ok.mp hpay
  have hl1 := poke_length h1
  have hl2 := poke_length h2
  rw [poke_eq_ok h2]
  refine ⟨?_, payload, hpl, ?_, ?_⟩
  · have hview : view (overwrite out1 8 (env.sha false payload)) 48 (leBytes 4 n).length =
        leBytes 4 n := by
      rw [view_eq_iff, at_overwrite_of_disjoint (by rw [hsha]; omega), poke_eq_ok h1]
      exact at_overwrite_self (by rw [leBytes_length]; omega)
    rw [leBytes_length] at hview
    rw [hview, leValue_leBytes]
    omega
  · intro i hi
    rw [getElem?_mapped_overwrite env _ _ (by rw [hsha]; omega)]
    exact hat i hi
  · rw [← hsha]
    exact view_overwrite_self (by omega)

/-- The signature is written behind the trailer, so that the header stays as it is. -/
theorem IsRun.dhtb_image (h : IsRun env boot files skipComp r x) (hd : boot.flags.dhtb)
    (hlt : r.image.length < 2 ^ 32) {o : ℕ} {c : Bytes}
    (hle : o + c.length ≤ dhtbHdrSize + dhtbBytes boot r) (hc : At x.headPatched o c) :
    At r.image o c := by
  have hdhtb := (h.dhtb_imgSize hd).1
  have htail := (writeTail_eq_ok h.tail).1
  have hfd := h.fd_length_le
  have hlen := h.length_eq
  rw [Nat.mod_eq_of_lt (by omega)] at htail
  refine signImage_at h.image ?_ hc
  rw [dhtbBytes] at hle
  omega

end

/-- The size of a DHTB image never is what it is to be. -/
theorem repack_dhtb_size {env : Env} {file : Bytes} {boot : BootImg} {files : Files} {skipComp : Bool}
    {r : Repacked} (hload : load env file = .ok boot) (hd : boot.flags.dhtb)
    (h : repack env boot files skipComp = .ok r) :
    trailer boot = seandroidMagic ++ [0xff, 0xff, 0xff, 0xff] ∧
    ∃ x payload, IsRun env boot files skipComp r x ∧
      payload.length = (dhtbBytes boot r + 20) % 2 ^ 32 ∧
      leValue (view x.headPatched 48 4) = (dhtbBytes boot r + 20) % 2 ^ 32 ∧
      leValue (view x.headPatched 48 4) ≠ dhtbBytes boot r ∧
      At (env.mapped x.headPatched) dhtbHdrSize payload ∧
      view x.headPatched 8 32 = env.sha false payload ∧
      (r.image.length < 2 ^ 32 → leValue (view r.image 48 4) = dhtbBytes boot r + 20 ∧
        view r.image 8 32 = env.sha false payload ∧
        At r.image dhtbHdrSize (payload.take (dhtbBytes boot r))) := by
  obtain ⟨x, hx⟩ := repack_eq_ok.mp h
  obtain ⟨hsize, payload, hl, hat, hsha⟩ := hx.dhtb hd
  refine ⟨trailer_dhtb hload hd, x, payload, hx, hl, hsize, by omega, hat, hsha, fun hlt => ?_⟩
  have hdhtb := (hx.dhtb_imgSize hd).1
  have hd512 : dhtbHdrSize = 512 := rfl
  have hfd := hx.fd_length_le
  have hlens := hx.length_eq
  have hn : dhtbBytes boot r = (r.out.fd ++ trailer boot).length - dhtbHdrSize := rfl
  have hkeep {o n : ℕ} (ho : o + n ≤ 512) : view r.image o n = view x.headPatched o n := by
    have hvl : (view x.headPatched o n).length = n := by
      rw [view_length]
      omega
    have hc : At x.headPatched o (view x.headPatched o n) := view_eq_iff.mp (by rw [hvl])
    have himg := (hx.dhtb_image hd hlt (by omega) hc).view_eq
    rwa [hvl] at himg
  refine ⟨?_, ?_, ?_⟩
  · rw [hkeep (by omega), hsize, Nat.mod_eq_of_lt (by omega)]
  · rw [hkeep (by omega), hsha]
  · refine hx.dhtb_image hd hlt (by rw [List.length_take]; omega) fun i hi => ?_
    rw [List.length_take] at hi
    have hmem := hat i (by omega)
    rw [Env.mapped, padded, List.getElem?_append_left (by omega)] at hmem
    rw [hmem, List.getElem_take]

/-- An image without any blocks in a DHTB container. -/
def dhtbSample : Bytes :=
  [0x44, 0x48, 0x54, 0x42, 0x01, 0x00, 0x00, 0x00] ++ (zeros 504 ++ kernelImage [])

theorem dhtbSample_run : checkRun sampleEnv dhtbSample {} (fun boot r =>
    decide (boot.flags.dhtb ∧ dhtbBytes boot r = 2068 ∧ r.image.length < 2 ^ 32 ∧
      leValue (view r.image 48 4) = 2088)) := by
  decide +kernel

theorem repack_dhtb_size_sample : ∃ boot r, load sampleEnv dhtbSample = .ok boot ∧
    repack sampleEnv boot {} true = .ok r ∧ dhtbBytes boot r = 2068 ∧
    leValue (view r.image 48 4) = dhtbBytes boot r + 20 := by
  obtain ⟨boot, r, hload, hrep, hp⟩ := exists_of_checkRun dhtbSample_run
  obtain ⟨hd, hn, hlt, -⟩ := of_decide_eq_true hp
  obtain ⟨-, x, payload, -, -, -, -, -, -, himage⟩ := repack_dhtb_size hload hd hrep
  exact ⟨boot, r, hload, hrep, hn, (himage hlt).1⟩

theorem repack_dhtb_size_counted_twice : ∃ boot r, load sampleEnv dhtbSample = .ok boot ∧
    boot.flags.dhtb ∧ repack sampleEnv boot {} true = .ok r ∧
    leValue (view r.image 48 4) ≠ dhtbBytes boot r := by
  obtain ⟨boot, r, hload, hrep, hp⟩ := exists_of_checkRun dhtbSample_run
  obtain ⟨hd, hn, -, hsize⟩ := of_decide_eq_true hp
  exact ⟨boot, r, hload, hd, hrep, by omega⟩

end Magisk.Boot
