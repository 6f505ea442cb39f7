import Magisk.Boot.Pieces

namespace Magisk.Boot

open List

theorem Block.nodup_all : Block.all.Nodup := by decide

theorem alignInt_of_lt {v a : ℕ} (h0 : 0 < a) (h31 : a < 2 ^ 31) (hv : v < 2 ^ 63) :
    alignInt v a = .ok (alignTo v a) := by
  have hmod : (v + (a + (2 ^ 64 - 1))) % 2 ^ 64 = v + a - 1 := by omega
  rw [alignInt, if_neg (by omega), signExtend, if_pos h31, hmod, alignTo]

theorem pos_of_alignInt {v a n : ℕ} (h : alignInt v a = .ok n) : 0 < a := by
  unfold alignInt at h
  split_ifs at h with h0
  exact Nat.pos_of_ne_zero h0

theorem ptrAdd_of_lt {p off : ℕ} (h : p + off < 2 ^ 64) : ptrAdd p off = p + off :=
  Nat.mod_eq_of_lt h

theorem isBehind_of_lt {mapAddr mapEnd p : ℕ} (hend : mapAddr + mapEnd < 2 ^ 64)
    (hp : mapAddr + p < 2 ^ 64) : isBehind mapAddr mapEnd p = decide (mapEnd < p) := by
  rw [isBehind, Nat.mod_eq_of_lt hend, Nat.mod_eq_of_lt hp, decide_eq_decide]
  omega

section Read

variable {mapAddr : ℕ} {hdr : Hdr} {addr mapEnd : ℕ} {bs : List Block} {off : ℕ}

theorem getBlocks_cons (h0 : 0 < hdr.pageSize) (h31 : hdr.pageSize < 2 ^ 31) (b : Block)
    (bs : List Block) (block : Block → ℕ) (hoff : hdr.pageSize ∣ off)
    (hend : mapAddr + mapEnd < 2 ^ 63) (haddr : addr ≤ mapEnd) (hlt : off + 2 ^ 33 < 2 ^ 63) :
    getBlocks mapAddr hdr addr mapEnd (b :: bs) (block, off) =
      if mapEnd < addr + (off + alignTo (hdr.size b) hdr.pageSize) then .ok none
      else getBlocks mapAddr hdr addr mapEnd bs
        (Function.update block b (addr + off), off + alignTo (hdr.size b) hdr.pageSize) := by
  have hsize := hdr.size_lt b
  have hround := alignTo_lt h0 (hdr.size b)
  rw [getBlocks, alignInt_of_lt h0 h31 (by omega), alignTo_add_of_dvd h0 hoff,
    ptrAdd_of_lt (by omega)]
  simp only [bind, Except.bind]
  rw [ptrAdd_of_lt (by omega), isBehind_of_lt (by omega) (by omega)]
  simp only [decide_eq_true_eq]
  rfl

theorem getBlocks_of_le (h0 : 0 < hdr.pageSize) (h31 : hdr.pageSize < 2 ^ 31) (hn : bs.Nodup)
    (block : Block → ℕ) (hoff : hdr.pageSize ∣ off) (hmap : mapAddr + mapEnd < 2 ^ 63)
    (haddr : addr ≤ mapEnd) (hlt : off + bs.length * 2 ^ 33 < 2 ^ 63)
    (hend : addr + endOf hdr.pageSize hdr.size bs off ≤ mapEnd) :
    getBlocks mapAddr hdr addr mapEnd bs (block, off) =
      .ok (some (fun b => if b ∈ bs then addr + startOf hdr.pageSize hdr.size bs off b else block b,
        endOf hdr.pageSize hdr.size bs off)) := by
  induction bs generalizing block off with
  | nil => simp [getBlocks, endOf]
  | cons b bs ih =>
    obtain ⟨hb, hn⟩ := nodup_cons.mp hn
    have hsize := hdr.size_lt b
    have hround := alignTo_lt h0 (hdr.size b)
    have hle := le_endOf hdr.pageSize hdr.size bs (off + alignTo (hdr.size b) hdr.pageSize)
    rw [length_cons] at hlt
    rw [endOf] at hend ⊢
    rw [getBlocks_cons h0 h31 b bs block hoff hmap haddr (by omega), if_neg (by omega),
      ih hn _ (dvd_add hoff (dvd_alignTo _ _)) (by omega) hend]
    congr 3
    funext c
    by_cases hc : c = b
    · subst hc
      simp [hb, startOf]
    · simp [hc, startOf]

theorem pos_of_getBlocks (hbs : bs ≠ []) {block : Block → ℕ} {r : Option ((Block → ℕ) × ℕ)}
    (h : getBlocks mapAddr hdr addr mapEnd bs (block, off) = .ok r) : 0 < hdr.pageSize := by
  cases bs with
  | nil => exact absurd rfl hbs
  | cons b bs =>
    rw [getBlocks, bind_eq_ok] at h
    obtain ⟨next, hnext, -⟩ := h
    exact pos_of_alignInt hnext

theorem le_of_getBlocks (h0 : 0 < hdr.pageSize) (h31 : hdr.pageSize < 2 ^ 31) (hbs : bs ≠ [])
    {block block' : Block → ℕ} {off' : ℕ} (hoff : hdr.pageSize ∣ off)
    (hmap : mapAddr + mapEnd < 2 ^ 63) (haddr : addr ≤ mapEnd)
    (hlt : off + bs.length * 2 ^ 33 < 2 ^ 63)
    (h : getBlocks mapAddr hdr addr mapEnd bs (block, off) = .ok (some (block', off'))) :
    addr + endOf hdr.pageSize hdr.size bs off ≤ mapEnd := by
  induction bs generalizing block off with
  | nil => exact absurd rfl hbs
  | cons b bs ih =>
    have hsize := hdr.size_lt b
    have hround := alignTo_lt h0 (hdr.size b)
    rw [length_cons] at hlt
    rw [getBlocks_cons h0 h31 b bs block hoff hmap haddr (by omega)] at h
    split_ifs at h with hle
    · cases h
    · rw [endOf]
      cases bs with
      | nil =>
        rw [endOf]
        omega
      | cons c bs =>
        exact ih (by simp) (dvd_add hoff (dvd_alignTo _ _)) (by omega) h

end Read

section Write

variable {env : Env} {boot : BootImg} {files : Files} {skipComp : Bool} {header : ℕ}

def Out.next (o : Out) (page header : ℕ) (b : Block) (p : Piece) : Out :=
  ⟨if p.aligned then fileAlign page header (o.fd ++ p.bytes) else o.fd ++ p.bytes, p.hdr,
    Function.update o.off b o.fd.length, Function.update o.wrote b p.bytes⟩

variable {b : Block} {bs : List Block} {o o' : Out}

theorem writeBlocks_cons :
    writeBlocks env boot files skipComp header (b :: bs) o = .ok o' ↔
      ∃ p, repackBlock env boot files skipComp b o.fd.length o.hdr = .ok p ∧
        (p.aligned → boot.hdr.pageSize < 2 ^ 31) ∧
        writeBlocks env boot files skipComp header bs (o.next boot.hdr.pageSize header b p) =
          .ok o' := by
  rw [writeBlocks, bind_eq_ok]
  refine exists_congr fun p => and_congr_right fun _ => ?_
  by_cases h : p.aligned ∧ 2 ^ 31 ≤ boot.hdr.pageSize
  · rw [if_pos h]
    exact iff_of_false (fun h => by cases h) fun ⟨hlt, _⟩ => by have := hlt h.1; omega
  · rw [if_neg h]
    exact (and_iff_right fun ha => by by_contra hge; exact h ⟨ha, by omega⟩).symm

theorem writeBlocks_of_not_mem
    (h : writeBlocks env boot files skipComp header bs o = .ok o') (hb : b ∉ bs) :
    o'.off b = o.off b ∧ o'.wrote b = o.wrote b := by
  induction bs generalizing o with
  | nil =>
    cases h
    exact ⟨rfl, rfl⟩
  | cons c bs ih =>
    obtain ⟨p, -, -, h⟩ := writeBlocks_cons.mp h
    rw [mem_cons, not_or] at hb
    obtain ⟨hbc, hb⟩ := hb
    obtain ⟨ho, hw⟩ := ih h hb
    rw [ho, hw]
    exact ⟨Function.update_of_ne hbc _ _, Function.update_of_ne hbc _ _⟩

theorem fileAlign_eq {page : ℕ} (hp : 0 < page) {fd : Bytes} (hh : header ≤ fd.length)
    (hd : page ∣ fd.length - header) (b : Bytes) :
    fileAlign page header (fd ++ b) = fd ++ padded page b := by
  have hl : (fd ++ b).length - header = (fd.length - header) + b.length := by
    rw [length_append]
    omega
  have hpad : alignPadding ((fd.length - header) + b.length) page = alignPadding b.length page := by
    rw [alignPadding, alignTo_add_of_dvd hp hd, alignPadding]
    omega
  rw [fileAlign, hl, hpad, append_assoc, padded]

theorem Out.next_fd {page : ℕ} (hp : 0 < page) (hh : header ≤ o.fd.length)
    (hd : page ∣ o.fd.length - header) (b : Block) {p : Piece} (ha : p.aligned ∨ p.bytes = []) :
    (o.next page header b p).fd = o.fd ++ padded page p.bytes := by
  rw [Out.next]
  split_ifs with h
  · exact fileAlign_eq hp hh hd p.bytes
  · rw [ha.resolve_left h, padded_nil]

theorem writeBlocks_fd (ha : Aligned boot files) (hp : 0 < boot.hdr.pageSize)
    (hn : bs.Nodup) (hh : header ≤ o.fd.length)
    (hd : boot.hdr.pageSize ∣ o.fd.length - header)
    (h : writeBlocks env boot files skipComp header bs o = .ok o') :
    o'.fd = o.fd ++ paged o'.wrote boot.hdr.pageSize bs ∧ ∀ b ∈ bs,
      o'.off b = startOf boot.hdr.pageSize (fun b => (o'.wrote b).length) bs o.fd.length b := by
  induction bs generalizing o with
  | nil =>
    cases h
    exact ⟨by simp [paged], by simp⟩
  | cons b bs ih =>
    obtain ⟨hb, hn⟩ := nodup_cons.mp hn
    obtain ⟨p, hpiece, -, h⟩ := writeBlocks_cons.mp h
    have hnext := Out.next_fd hp hh hd b (repackBlock_aligned ha hpiece)
    have hlen : (o.next boot.hdr.pageSize header b p).fd.length =
        o.fd.length + alignTo p.bytes.length boot.hdr.pageSize := by
      rw [hnext, length_append, padded_length hp]
    obtain ⟨hoff, hwrote⟩ := writeBlocks_of_not_mem h hb
    have hw : o'.wrote b = p.bytes := by
      rw [hwrote]
      exact Function.update_self _ _ _
    obtain ⟨hfd, hstart⟩ := ih hn (by omega) (by
      rw [hlen, Nat.sub_add_comm hh]
      exact dvd_add hd (dvd_alignTo _ _)) h
    constructor
    · rw [hfd, hnext, paged_cons, hw, append_assoc]
    · intro c hc
      rw [startOf]
      split_ifs with hcb
      · subst hcb
        rw [hoff]
        exact Function.update_self _ _ _
      · rw [hstart c ((mem_cons.mp hc).resolve_left hcb), hlen, hw]

theorem writeBlocks_sameBut (h : writeBlocks env boot files skipComp header bs o = .ok o') :
    Hdr.SameBut (fun f => ∃ b ∈ bs, storedWith b f) o.hdr o'.hdr := by
  induction bs generalizing o with
  | nil =>
    cases h
    exact Hdr.SameBut.refl _ _
  | cons b bs ih =>
    obtain ⟨p, hp, -, h⟩ := writeBlocks_cons.mp h
    have h1 := (repackBlock_sameBut hp).mono fun f hf =>
      (⟨b, mem_cons_self, hf⟩ : ∃ c ∈ b :: bs, storedWith c f)
    have h2 := (ih h).mono fun f ⟨c, hc, hf⟩ =>
      (⟨c, mem_cons_of_mem b hc, hf⟩ : ∃ c ∈ b :: bs, storedWith c f)
    exact h1.trans h2

theorem storedWith_size {b c : Block} : storedWith c (.size b) ↔ c = b := by
  simp [storedWith, eq_comm]

/-- Each block is written by its own step, from the size that the block has at the start. -/
theorem writeBlocks_block (hn : bs.Nodup)
    (h : writeBlocks env boot files skipComp header bs o = .ok o') (hb : b ∈ bs) :
    ∃ pos hdr p, repackBlock env boot files skipComp b pos hdr = .ok p ∧ o'.wrote b = p.bytes ∧
      o'.hdr.size b = p.hdr.size b ∧ hdr.size b = o.hdr.size b ∧ hdr.kind = o.hdr.kind := by
  induction bs generalizing o with
  | nil => cases hb
  | cons c bs ih =>
    obtain ⟨hc, hn⟩ := nodup_cons.mp hn
    obtain ⟨p, hp, -, h⟩ := writeBlocks_cons.mp h
    have hs := repackBlock_sameBut hp
    by_cases hbc : b = c
    · subst hbc
      refine ⟨_, _, p, hp, ?_, ?_, rfl, rfl⟩
      · rw [(writeBlocks_of_not_mem h hc).2]
        exact Function.update_self _ _ _
      · apply (writeBlocks_sameBut h).size_eq
        rintro ⟨d, hd, hdb⟩
        rw [storedWith_size] at hdb
        exact hc (hdb ▸ hd)
    · obtain ⟨pos, hdr, p', hp', hw, hsz, h0, hk⟩ := ih hn h ((mem_cons.mp hb).resolve_left hbc)
      refine ⟨pos, hdr, p', hp', hw, hsz, h0.trans ?_, hk.trans hs.kind_eq⟩
      apply hs.size_eq
      rw [storedWith_size]
      exact Ne.symm hbc

/-- Nothing that has been written is taken back, and each block is written to where the file ended. -/
theorem writeBlocks_length (hn : bs.Nodup)
    (h : writeBlocks env boot files skipComp header bs o = .ok o') :
    o.fd.length ≤ o'.fd.length ∧ ∀ b ∈ bs, o.fd.length ≤ o'.off b ∧
      o'.off b + (o'.wrote b).length ≤ o'.fd.length := by
  induction bs generalizing o with
  | nil =>
    cases h
    exact ⟨le_rfl, by simp⟩
  | cons c bs ih =>
    obtain ⟨hc, hn⟩ := nodup_cons.mp hn
    obtain ⟨p, hp, -, h⟩ := writeBlocks_cons.mp h
    have hnext : o.fd.length + p.bytes.length ≤
        (o.next boot.hdr.pageSize header c p).fd.length := by
      unfold Out.next fileAlign
      split_ifs <;> simp only [length_append] <;> omega
    obtain ⟨hle, hall⟩ := ih hn h
    refine ⟨by omega, fun b hb => ?_⟩
    by_cases hbc : b = c
    · subst hbc
      obtain ⟨hoff, hw⟩ := writeBlocks_of_not_mem h hc
      have hoff' : o'.off b = o.fd.length := by
        rw [hoff]
        exact Function.update_self _ _ _
      have hw' : o'.wrote b = p.bytes := by
        rw [hw]
        exact Function.update_self _ _ _
      rw [hoff', hw']
      omega
    · have := hall b ((mem_cons.mp hb).resolve_left hbc)
      omega

end Write

end Magisk.Boot
