import Magisk.Compress.Lz4

namespace Magisk.Lz4

open List Option

/-- What the LZ4 library documents: `LZ4_COMPRESSBOUND`, and blocks that decompress to what
was compressed. -/
structure Codec.Lawful (z : Codec) : Prop where
  bound : z.compressBound blockSize = some (blockSize + blockSize / 255 + 16)
  inverse : ∀ d : Bytes, 0 < d.length → d.length ≤ blockSize →
    ∃ b, z.compress d = some b ∧ 0 < b.length ∧ b.length ≤ z.bufSize ∧ z.decompress b = some d

section

variable {z : Codec}

def block (z : Codec) (c : Bytes) : Bytes :=
  leBytes 4 ((z.compress c).getD []).length ++ (z.compress c).getD []

theorem Codec.Lawful.bufSize_eq (hz : z.Lawful) : z.bufSize = 8421520 := by
  rw [Codec.bufSize, hz.bound]
  rfl

/-- The encoder has taken `data`, of which all but the last part stands in whole blocks
behind `head`. -/
structure Encoder.Holds (z : Codec) (head data : Bytes) (e : Encoder) : Prop where
  size : e.chunker.chunkSize = blockSize
  blocks : ∃ chunks : List Bytes, (∀ c ∈ chunks, c.length = blockSize) ∧
    chunks.flatten ++ e.chunker.chunk = data ∧ e.write = head ++ chunks.flatMap (block z)

variable {c head data tail : Bytes} {e : Encoder} {n : ℕ} {writes : List Bytes}

theorem encodeBlock_eq (hz : z.Lawful) (write : Bytes) (h0 : 0 < c.length)
    (h : c.length ≤ blockSize) : Encoder.encodeBlock z write c = .ok (write ++ block z c) := by
  obtain ⟨b, hb, -⟩ := hz.inverse c h0 h
  simp [Encoder.encodeBlock, block, hb, orIo, bind, Except.bind, pure, Except.pure]

theorem Encoder.Holds.addData (h : e.Holds z head data)
    (buf : Bytes) : ∃ data', data' ++ (e.chunker.addData buf).buf = data ++ buf ∧
      ({ e with
        write := e.write ++ ((e.chunker.addData buf).chunk.toList.flatMap (block z))
        chunker := (e.chunker.addData buf).self } : Encoder).Holds z head data' := by
  obtain ⟨hs, chunks, hlen, hdata, hw⟩ := h
  obtain ⟨hsplit, hsize, hc⟩ := e.chunker.addData_spec buf
  have hflat : (chunks ++ (e.chunker.addData buf).chunk.toList).flatten =
      chunks.flatten ++ (e.chunker.addData buf).chunk.getD [] := by
    cases (e.chunker.addData buf).chunk <;> simp
  refine ⟨(chunks ++ (e.chunker.addData buf).chunk.toList).flatten ++
    (e.chunker.addData buf).self.chunk, ?_, hsize.trans hs, _, ?_, rfl, ?_⟩
  · simp only [append_assoc] at hsplit
    rw [hflat, ← hdata]
    simp only [append_assoc, hsplit]
  · intro c hm
    rcases mem_append.mp hm with hm | hm
    · exact hlen c hm
    · exact (hc c (mem_toList.mp hm)).trans hs
  · rw [hw, flatMap_append, append_assoc]

theorem writeLoop_holds (hz : z.Lawful) (e : Encoder) (buf : Bytes) (h : e.Holds z head data) :
    ∃ e', Encoder.writeLoop z e buf = .ok e' ∧ e'.Holds z head (data ++ buf) ∧
      e'.total = e.total ∧ e'.isLg = e.isLg := by
  induction e, buf using Encoder.writeLoop.induct generalizing data with
  | case1 e => exact ⟨e, by rw [Encoder.writeLoop, dif_pos rfl], by simpa using h, rfl, rfl⟩
  | case2 e buf hne hlt chunk hc ih =>
    obtain ⟨data', hd, hh⟩ := h.addData buf
    have hl : chunk.length = blockSize := ((e.chunker.addData_spec buf).2.2 chunk hc).trans h.size
    have hw := encodeBlock_eq hz e.write (c := chunk) (by rw [hl]; decide) hl.le
    rw [hc, toList_some, flatMap_singleton] at hh
    obtain ⟨e', he, hh', ht, hi⟩ := ih _ hh
    refine ⟨e', ?_, hd ▸ hh', ht, hi⟩
    rw [Encoder.writeLoop, dif_neg hne, hc]
    simp only [hw, bind, Except.bind, he]
  | case3 e buf hne hlt hc ih =>
    obtain ⟨data', hd, hh⟩ := h.addData buf
    rw [hc, toList_none, flatMap_nil, append_nil] at hh
    obtain ⟨e', he, hh', ht, hi⟩ := ih hh
    refine ⟨e', ?_, hd ▸ hh', ht, hi⟩
    rw [Encoder.writeLoop, dif_neg hne, hc]
    exact he

theorem eq_nil_of_flatten {chunks : List Bytes} (h : ∀ c ∈ chunks, 0 < c.length)
    (hf : chunks.flatten = []) : chunks = [] := by
  cases chunks with
  | nil => rfl
  | cons c cs =>
    rw [flatten_cons, append_eq_nil_iff] at hf
    have hc := h c (by simp)
    rw [hf.1] at hc
    exact absurd hc (Nat.lt_irrefl 0)

theorem Encoder.Holds.write_of_nil (h : e.Holds z head []) :
    e.write = head ∧ e.chunker.chunk = [] := by
  obtain ⟨-, chunks, hlen, hdata, hw⟩ := h
  obtain ⟨hf, hc⟩ := append_eq_nil_iff.mp hdata
  have h0 : chunks = [] := eq_nil_of_flatten (fun c hm => by rw [hlen c hm]; decide) hf
  exact ⟨by rw [hw, h0]; simp, hc⟩

def headers : List Bytes → ℕ
  | [] => 0
  | w :: ws => if w = [] then headers ws + 1 else 1

def magics (n : ℕ) : Bytes := (List.replicate n (leBytes 4 magic)).flatten

theorem total_eq_zero_iff (h : n < 2 ^ 32) : UInt32.ofNat n = 0 ↔ n = 0 := by
  rw [← UInt32.toNat_inj, UInt32.toNat_ofNat_of_lt' h]
  rfl

theorem writeAll_holds (hz : z.Lawful) (buf : Bytes)
    (h : e.Holds z head data) (ht : e.total = UInt32.ofNat data.length)
    (hlen : data.length < 2 ^ 32) :
    ∃ e', Encoder.writeAll z e buf = .ok e' ∧
      e'.Holds z (head ++ if data = [] then leBytes 4 magic else []) (data ++ buf) ∧
      e'.total = UInt32.ofNat (data ++ buf).length ∧ e'.isLg = e.isLg := by
  have hzero : e.total = 0 ↔ data = [] := by
    rw [ht, total_eq_zero_iff hlen, length_eq_zero_iff]
  by_cases h0 : data = []
  · subst h0
    obtain ⟨hw, hc⟩ := h.write_of_nil
    have hh : ({ e with
        write := e.write ++ leBytes 4 magic
        total := e.total + UInt32.ofNat buf.length } : Encoder).Holds z
        (head ++ leBytes 4 magic) [] := ⟨h.size, [], by simp, by simp [hc], by simp [hw]⟩
    obtain ⟨e', he, hh', ht', hi⟩ := writeLoop_holds hz _ buf hh
    refine ⟨e', ?_, by simpa using hh', ?_, hi⟩
    · rw [Encoder.writeAll, if_pos (hzero.mpr rfl)]
      exact he
    · rw [ht', ht]
      simp
  · have hh : ({ e with total := e.total + UInt32.ofNat buf.length } : Encoder).Holds z
        (head ++ []) data := by
      rw [append_nil]
      exact ⟨h.size, h.blocks⟩
    obtain ⟨e', he, hh', ht', hi⟩ := writeLoop_holds hz _ buf hh
    refine ⟨e', ?_, by rwa [if_neg h0], ?_, hi⟩
    · rw [Encoder.writeAll, if_neg fun h => h0 (hzero.mp h)]
      exact he
    · rw [ht', ht, length_append, UInt32.ofNat_add]

theorem magics_succ (n : ℕ) : magics (n + 1) = leBytes 4 magic ++ magics n := by
  rfl

/-- All calls: the data goes to the blocks, and a magic to the head for each call up to the
first one with data. -/
theorem foldlM_writeAll (hz : z.Lawful) (ws : List Bytes)
    (h : e.Holds z head data) (ht : e.total = UInt32.ofNat data.length)
    (hlen : (data ++ ws.flatten).length < 2 ^ 32) :
    ∃ e', ws.foldlM (Encoder.writeAll z) e = .ok e' ∧
      e'.Holds z (head ++ magics (if data = [] then headers ws else 0)) (data ++ ws.flatten) ∧
      e'.total = UInt32.ofNat (data ++ ws.flatten).length ∧ e'.isLg = e.isLg := by
  induction ws generalizing head data e with
  | nil => exact ⟨e, rfl, by simpa [headers, magics] using h, by simpa using ht, rfl⟩
  | cons w ws ih =>
    rw [flatten_cons, ← append_assoc] at hlen ⊢
    obtain ⟨e₁, he₁, hh₁, ht₁, hi₁⟩ := writeAll_holds hz w h ht (by
      simp only [length_append] at hlen
      omega)
    obtain ⟨e', he, hh, ht', hi⟩ := ih hh₁ ht₁ hlen
    refine ⟨e', ?_, ?_, ht', hi.trans hi₁⟩
    · rw [foldlM_cons, he₁]
      exact he
    · have hm : (head ++ if data = [] then leBytes 4 magic else []) ++
          magics (if data ++ w = [] then headers ws else 0) =
          head ++ magics (if data = [] then headers (w :: ws) else 0) := by
        by_cases h0 : data = []
        · by_cases hw : w = []
          · simp [h0, hw, headers, magics_succ]
          · simp [h0, hw, headers, magics]
        · simp [h0]
      rwa [hm] at hh

/-- The length at the end of the LG variant. -/
def trailer (isLg : Bool) (n : ℕ) : Bytes := if isLg then leBytes 4 n else []

theorem encode_eq (hz : z.Lawful) (isLg : Bool) (hlen : writes.flatten.length < 2 ^ 32) :
    ∃ chunks : List Bytes, (∀ c ∈ chunks, 0 < c.length ∧ c.length ≤ blockSize) ∧
      chunks.flatten = writes.flatten ∧
      encode z isLg writes = .ok (magics (headers writes) ++
        (chunks.flatMap (block z) ++ trailer isLg writes.flatten.length)) := by
  have h0 : (Encoder.new isLg).Holds z [] [] := ⟨rfl, [], by simp, rfl, rfl⟩
  obtain ⟨e, he, ⟨hs, chunks, hc, hd, hw⟩, ht, hi⟩ := foldlM_writeAll hz writes h0 rfl hlen
  have hpos : ∀ c ∈ chunks, 0 < c.length ∧ c.length ≤ blockSize := fun c hm => by
    rw [hc c hm]
    decide
  simp only [if_true, nil_append] at hd hw ht
  have htot : e.total.toNat = writes.flatten.length := by
    rw [ht, UInt32.toNat_ofNat_of_lt' hlen]
  have hlg : e.isLg = isLg := hi
  by_cases hrest : e.chunker.chunk = []
  · refine ⟨chunks, hpos, by simpa [hrest] using hd, ?_⟩
    simp only [encode, he, bind, Except.bind, Encoder.finish, Chunker.getAvailable, hrest,
      ne_eq, not_true_eq_false, if_false, pure, Except.pure, hw, hlg, htot, trailer]
    cases isLg <;> simp
  · have hl : 0 < e.chunker.chunk.length ∧ e.chunker.chunk.length ≤ blockSize :=
      ⟨length_pos_of_ne_nil hrest, hs ▸ e.chunker.pos_lt.le⟩
    refine ⟨chunks ++ [e.chunker.chunk], ?_, by simpa using hd, ?_⟩
    · intro c hm
      rcases mem_append.mp hm with hm | hm
      · exact hpos c hm
      · rw [mem_singleton.mp hm]
        exact hl
    · simp only [encode, he, bind, Except.bind, Encoder.finish, Chunker.getAvailable, ne_eq, hrest,
        not_false_eq_true, if_true, encodeBlock_eq hz _ hl.1 hl.2, pure, Except.pure, hw, hlg, htot,
        trailer]
      cases isLg <;> simp

variable {src : Source}

theorem readPod_leBytes {v : ℕ} (h : v < 2 ^ 32) (rest : Bytes) :
    Decoder.readPod (leBytes 4 v ++ rest) = .ok (v, rest) := by
  have hl : (leBytes 4 v).length = 4 := leBytes_length 4 v
  have hv : leValue (leBytes 4 v) = v := leValue_leBytes h
  simp [Decoder.readPod, Decoder.readExact, hl, hv, bind, Except.bind, pure, Except.pure,
    take_left' hl, drop_left' hl]

theorem give_readExact (src : Source) {b : Bytes} (h : 0 < b.length) (rest : Bytes) :
    0 < src.give b.length (b ++ rest).length ∧
      ∃ remain, Decoder.readExact ((b ++ rest).drop (src.give b.length (b ++ rest).length))
        (b.length - src.give b.length (b ++ rest).length) = .ok (remain, rest) ∧
        (b ++ rest).take (src.give b.length (b ++ rest).length) ++ remain = b := by
  obtain ⟨len, hlen⟩ : ∃ len, len = src.give b.length (b ++ rest).length := ⟨_, rfl⟩
  have hle : len ≤ b.length := by
    have := src.give_le b.length (b ++ rest).length
    omega
  have hpos := src.give_pos b.length (b ++ rest).length h (by rw [length_append]; omega)
  rw [← hlen] at hpos ⊢
  refine ⟨hpos, b.drop len, ?_, ?_⟩
  · rw [drop_append_of_le_length hle, Decoder.readExact, if_pos (by simp),
      take_left' (by simp), drop_left' (by simp)]
  · rw [take_append_of_le_length hle, take_append_drop]

theorem nextBlock_block (hz : z.Lawful) (h0 : 0 < c.length) (h : c.length ≤ blockSize)
    (rest : Bytes) : Decoder.nextBlock z src (block z c ++ rest) = .ok (some c, rest) := by
  obtain ⟨b, hb, hpos, hle, hd⟩ := hz.inverse c h0 h
  have hbs := hz.bufSize_eq
  have hne : b.length ≠ magic := by
    rw [magic]
    omega
  obtain ⟨hg, remain, hr, hb'⟩ := give_readExact src hpos rest
  rw [block, hb, getD_some, append_assoc, Decoder.nextBlock,
    readPod_leBytes (by omega)]
  simp only [bind, Except.bind, pure, Except.pure, if_neg hne, gt_iff_lt, not_lt.mpr hle, if_false,
    hg.ne', hr, hb', hd, orIo]

theorem nextBlock_magic {v : ℕ} (hv : v < 2 ^ 32) (hne : v ≠ magic) (rest : Bytes) :
    Decoder.nextBlock z src (leBytes 4 magic ++ (leBytes 4 v ++ rest)) =
      Decoder.nextBlock z src (leBytes 4 v ++ rest) := by
  rw [Decoder.nextBlock, Decoder.nextBlock, readPod_leBytes (by decide), readPod_leBytes hv]
  simp only [bind, Except.bind, pure, Except.pure, if_true, if_neg hne, readPod_leBytes hv]

theorem nextBlock_magic_block (hz : z.Lawful) (h0 : 0 < c.length)
    (h : c.length ≤ blockSize) (rest : Bytes) :
    Decoder.nextBlock z src (leBytes 4 magic ++ (block z c ++ rest)) = .ok (some c, rest) := by
  obtain ⟨b, hb, -, hle, -⟩ := hz.inverse c h0 h
  have hbs := hz.bufSize_eq
  have hv : b.length < 2 ^ 32 ∧ b.length ≠ magic := by
    rw [magic]
    omega
  rw [← nextBlock_block hz h0 h rest, block, hb, getD_some, append_assoc]
  exact nextBlock_magic hv.1 hv.2 _

/-- The decoder is to give `data` and then stands at `tail`. -/
def Decoder.Ahead (z : Codec) (tail data : Bytes) (d : Decoder) : Prop :=
  ∃ (m : Bytes) (chunks : List Bytes), (m = [] ∨ m = leBytes 4 magic ∧ chunks ≠ []) ∧
    (∀ c ∈ chunks, 0 < c.length ∧ c.length ≤ blockSize) ∧
    d.out ++ chunks.flatten = data ∧ d.read = m ++ (chunks.flatMap (block z) ++ tail)

theorem readInto_ahead (hz : z.Lawful) (src : Source) {d : Decoder} (hn : 0 < n)
    (h : d.Ahead z tail data) (hd : data ≠ []) :
    ∃ b d' data', Decoder.readInto z src d n = .ok (b, d') ∧ b ≠ [] ∧ b ++ data' = data ∧
      d'.Ahead z tail data' := by
  obtain ⟨m, chunks, hm, hc, rfl, hr⟩ := h
  by_cases ho : d.out = []
  · cases chunks with
    | nil => exact absurd (by simp [ho]) hd
    | cons c cs =>
      obtain ⟨h0, hle⟩ := hc c (by simp)
      have hnext : Decoder.nextBlock z src d.read = .ok (some c, cs.flatMap (block z) ++ tail) := by
        rw [hr, flatMap_cons, append_assoc]
        rcases hm with rfl | ⟨rfl, -⟩
        · exact nextBlock_block hz h0 hle _
        · exact nextBlock_magic_block hz h0 hle _
      refine ⟨c.take n, ⟨cs.flatMap (block z) ++ tail, c.drop n⟩, c.drop n ++ cs.flatten, ?_, ?_, ?_,
        [], cs, .inl rfl, fun x hx => hc x (by simp [hx]), rfl, rfl⟩
      · simp only [Decoder.readInto, ho, if_true, hnext, bind, Except.bind, pure, Except.pure]
      · rw [ne_eq, take_eq_nil_iff, not_or]
        exact ⟨hn.ne', ne_nil_of_length_pos h0⟩
      · rw [ho, ← append_assoc, take_append_drop]
        rfl
  · refine ⟨d.out.take n, ⟨d.read, d.out.drop n⟩, d.out.drop n ++ chunks.flatten, ?_, ?_, ?_,
      m, chunks, hm, hc, rfl, hr⟩
    · simp only [Decoder.readInto, ho, if_false, pure, Except.pure]
    · rw [ne_eq, take_eq_nil_iff, not_or]
      exact ⟨hn.ne', ho⟩
    · rw [← append_assoc, take_append_drop]

theorem reads_ahead (hz : z.Lawful) (src : Source) {d : Decoder}
    (sizes : List ℕ) (hpos : ∀ n ∈ sizes, 0 < n) (hlen : data.length < sizes.length)
    (h : d.Ahead z tail data) :
    ∃ n sizes', Decoder.reads z src d sizes =
      (Decoder.reads z src ⟨tail, []⟩ (n :: sizes')).map fun r => (data ++ r.1, r.2) := by
  induction sizes generalizing d data with
  | nil => exact absurd hlen (Nat.not_lt_zero _)
  | cons n sizes ih =>
    by_cases hd : data = []
    · obtain ⟨m, chunks, hm, hc, hdata, hr⟩ := h
      rw [hd] at hdata
      obtain ⟨ho, hf⟩ := append_eq_nil_iff.mp hdata
      obtain rfl := eq_nil_of_flatten (fun c hm => (hc c hm).1) hf
      obtain rfl : m = [] := hm.resolve_right fun h => h.2 rfl
      obtain ⟨read, out⟩ := d
      obtain rfl : out = [] := ho
      obtain rfl : read = tail := hr
      refine ⟨n, sizes, ?_⟩
      rw [hd]
      cases Decoder.reads z src ⟨read, []⟩ (n :: sizes) <;> rfl
    · obtain ⟨b, d', data', hb, hbne, rfl, h'⟩ := readInto_ahead hz src (hpos n (by simp)) h hd
      have hbl := length_pos_of_ne_nil hbne
      simp only [length_append, length_cons] at hlen
      obtain ⟨n', sizes', hs⟩ := ih (fun x hx => hpos x (by simp [hx])) (by omega) h'
      refine ⟨n', sizes', ?_⟩
      rw [Decoder.reads]
      simp only [hb, bind, Except.bind, if_neg hbne, hs]
      cases Decoder.reads z src ⟨tail, []⟩ (n' :: sizes') <;>
        simp [Except.map, pure, Except.pure]

theorem reads_of_none {tail rest : Bytes} (n : ℕ) (sizes : List ℕ)
    (h : Decoder.nextBlock z src tail = .ok (none, rest)) :
    Decoder.reads z src ⟨tail, []⟩ (n :: sizes) = .ok ([], true) := by
  simp [Decoder.reads, Decoder.readInto, h, bind, Except.bind, pure, Except.pure]

theorem reads_of_error {e : IoError} (n : ℕ) (sizes : List ℕ)
    (h : Decoder.nextBlock z src tail = .error e) :
    Decoder.reads z src ⟨tail, []⟩ (n :: sizes) = .error e := by
  simp [Decoder.reads, Decoder.readInto, h, bind, Except.bind]

theorem nextBlock_nil : Decoder.nextBlock z src [] = .ok (none, []) := rfl

theorem nextBlock_magic_nil :
    Decoder.nextBlock z src (leBytes 4 magic) = .error .unexpectedEof := by
  rfl

theorem nextBlock_magic_magic (hz : z.Lawful) (rest : Bytes) :
    Decoder.nextBlock z src (leBytes 4 magic ++ (leBytes 4 magic ++ rest)) = .ok (none, rest) := by
  have hb : z.bufSize < magic := by
    rw [hz.bufSize_eq]
    decide
  rw [Decoder.nextBlock, readPod_leBytes (by decide)]
  simp only [bind, Except.bind, pure, Except.pure, if_true,
    readPod_leBytes (show magic < 2 ^ 32 by decide),
    gt_iff_lt, if_pos hb]

theorem nextBlock_length (hn : n < 2 ^ 32) (hne : n ≠ magic) :
    Decoder.nextBlock z src (leBytes 4 n) = .ok (none, []) := by
  have hg : src.give n 0 = 0 := Nat.le_zero.mp ((src.give_le n 0).trans (min_le_right _ _))
  rw [← append_nil (leBytes 4 n), Decoder.nextBlock, readPod_leBytes hn]
  simp only [bind, Except.bind, pure, Except.pure, if_neg hne, length_nil, hg, if_true]
  split_ifs <;> rfl

theorem nextBlock_trailer (isLg : Bool) (hn : n < 2 ^ 32) (hne : ¬ (isLg ∧ n = magic)) :
    Decoder.nextBlock z src (trailer isLg n) = .ok (none, []) := by
  cases isLg with
  | false => exact nextBlock_nil
  | true => exact nextBlock_length hn fun h => hne ⟨rfl, h⟩

/-- The calls whose archive the decoder reads as it was meant. -/
def Readable (isLg : Bool) (writes : List Bytes) : Prop :=
  if writes.flatten = [] then isLg ∨ writes.length ≠ 1
  else writes.head? ≠ some [] ∧ ¬ (isLg ∧ writes.flatten.length = magic)

instance (isLg : Bool) (writes : List Bytes) : Decidable (Readable isLg writes) := by
  unfold Readable
  infer_instance

/-- Every sequence of reads gives the data and then the end of file. -/
def ReadsAs (z : Codec) (src : Source) (archive data : Bytes) : Prop :=
  ∀ sizes : List ℕ, (∀ n ∈ sizes, 0 < n) → data.length < sizes.length →
    Decoder.reads z src (.new archive) sizes = .ok (data, true)

theorem headers_of_flatten_nil (h : writes.flatten = []) : headers writes = writes.length := by
  induction writes with
  | nil => rfl
  | cons w ws ih =>
    rw [flatten_cons, append_eq_nil_iff] at h
    rw [headers, if_pos h.1, ih h.2, length_cons]

theorem headers_pos (h : writes.flatten ≠ []) : 0 < headers writes := by
  cases writes with
  | nil => exact absurd rfl h
  | cons w ws =>
    rw [headers]
    split_ifs <;> omega

theorem readsAs_of_none {archive rest : Bytes}
    (h : Decoder.nextBlock z src archive = .ok (none, rest)) : ReadsAs z src archive [] := by
  intro sizes _ hlen
  cases sizes with
  | nil => exact absurd hlen (Nat.lt_irrefl 0)
  | cons n sizes => exact reads_of_none n sizes h

theorem readsAs_nil_iff (hz : z.Lawful) (isLg : Bool) (k : ℕ) :
    ReadsAs z src (magics k ++ trailer isLg 0) [] ↔ isLg ∨ k ≠ 1 := by
  match k with
  | 0 =>
    have h : Decoder.nextBlock z src (trailer isLg 0) = .ok (none, []) :=
      nextBlock_trailer isLg (by decide) fun h => absurd h.2 (by decide)
    exact ⟨fun _ => .inr (by decide), fun _ => readsAs_of_none h⟩
  | 1 =>
    cases isLg with
    | false =>
      refine ⟨fun hr => ?_, fun h => by simp at h⟩
      have := hr [1] (by simp) (by simp)
      cases this
    | true =>
      have h : Decoder.nextBlock z src (magics 1 ++ trailer true 0) = .ok (none, []) :=
        (nextBlock_magic (by decide) (by decide) []).trans (nextBlock_length (by decide) (by decide))
      exact ⟨fun _ => .inl rfl, fun _ => readsAs_of_none h⟩
  | k + 2 =>
    refine ⟨fun _ => .inr (by omega), fun _ => ?_⟩
    exact readsAs_of_none (nextBlock_magic_magic hz _)

theorem not_readsAs_of_headers (hz : z.Lawful) {k : ℕ} {rest data : Bytes} (hd : data ≠ []) :
    ¬ ReadsAs z src (magics (k + 2) ++ rest) data := by
  intro hr
  have h := hr (1 :: List.replicate data.length 1) (by simp) (by simp)
  rw [magics_succ, magics_succ, append_assoc, append_assoc, Decoder.new,
    reads_of_none _ _ (nextBlock_magic_magic hz _)] at h
  cases h
  exact hd rfl

theorem readsAs_iff (hz : z.Lawful) (isLg : Bool) {chunks : List Bytes}
    (hc : ∀ c ∈ chunks, 0 < c.length ∧ c.length ≤ blockSize) (hne : chunks ≠ [])
    (hlen : chunks.flatten.length < 2 ^ 32) :
    ReadsAs z src (magics 1 ++ (chunks.flatMap (block z) ++ trailer isLg chunks.flatten.length))
        chunks.flatten ↔
      ¬ (isLg ∧ chunks.flatten.length = magic) := by
  have ha : (Decoder.new (magics 1 ++
      (chunks.flatMap (block z) ++ trailer isLg chunks.flatten.length))).Ahead z
      (trailer isLg chunks.flatten.length) chunks.flatten :=
    ⟨_, chunks, .inr ⟨rfl, hne⟩, hc, rfl, rfl⟩
  constructor
  · rintro hr ⟨rfl, hm⟩
    have h := hr (List.replicate (chunks.flatten.length + 1) 1) (by simp) (by simp)
    obtain ⟨n, sizes, hs⟩ := reads_ahead hz src
      (List.replicate (chunks.flatten.length + 1) 1) (by simp) (by simp) ha
    rw [hs, trailer, if_pos rfl, hm, reads_of_error n sizes nextBlock_magic_nil] at h
    cases h
  · intro hm sizes hpos hl
    obtain ⟨n, sizes', hs⟩ := reads_ahead hz src sizes hpos hl ha
    rw [hs, reads_of_none n sizes' (nextBlock_trailer isLg hlen hm)]
    simp [Except.map]

/-- The decoder gives back what was written exactly for readable sequences of calls. -/
theorem decode_encode_iff (hz : z.Lawful) (src : Source) (isLg : Bool) (writes : List Bytes)
    (hlen : writes.flatten.length < 2 ^ 32) :
    (∃ archive, encode z isLg writes = .ok archive ∧ ReadsAs z src archive writes.flatten) ↔
      Readable isLg writes := by
  obtain ⟨chunks, hc, hf, he⟩ := encode_eq hz isLg hlen
  rw [he]
  simp only [Except.ok.injEq, exists_eq_left']
  unfold Readable
  split_ifs with h0
  · obtain rfl := eq_nil_of_flatten (fun c hm => (hc c hm).1) (hf.trans h0)
    rw [h0, headers_of_flatten_nil h0]
    exact readsAs_nil_iff hz isLg writes.length
  · have hne : chunks ≠ [] := by
      rintro rfl
      exact h0 hf.symm
    rw [← hf] at hlen ⊢
    cases writes with
    | nil => exact absurd rfl h0
    | cons w ws =>
      by_cases hw : w = []
      · subst hw
        have hp : 0 < headers ws := headers_pos h0
        obtain ⟨k, hk⟩ : ∃ k, headers ([] :: ws) = k + 2 := ⟨headers ws - 1, by
          rw [headers, if_pos rfl]
          omega⟩
        rw [hk]
        exact iff_of_false (not_readsAs_of_headers hz (hf ▸ h0)) fun h => h.1 rfl
      · rw [headers, if_neg hw, readsAs_iff hz isLg hc hne hlen]
        simp [hw]

end

/-- The bytes that continue a literal length. -/
def lengthBytes (n : ℕ) : Bytes :=
  if n < 255 then [UInt8.ofNat n] else 255 :: lengthBytes (n - 255)

def readLength : Bytes → Option (ℕ × Bytes)
  | [] => none
  | b :: bs =>
    if b = 255 then (readLength bs).map fun r => (r.1 + 255, r.2) else some (b.toNat, bs)

/-- LZ4 without matches: one sequence that holds all bytes as literals, as short data has it. -/
def literals : Codec where
  compressBound n := some (n + n / 255 + 16)
  compress d := some ((if d.length < 15 then [UInt8.ofNat (16 * d.length)]
    else 0xf0 :: lengthBytes (d.length - 15)) ++ d)
  decompress
    | [] => none
    | token :: bs =>
      if token.toNat / 16 < 15 then
        if bs.length = token.toNat / 16 then some bs else none
      else (readLength bs).bind fun r => if r.2.length = r.1 + 15 then some r.2 else none

theorem lengthBytes_length (n : ℕ) : (lengthBytes n).length = n / 255 + 1 := by
  induction n using lengthBytes.induct with
  | case1 n h =>
    rw [lengthBytes, if_pos h, Nat.div_eq_of_lt h]
    rfl
  | case2 n h ih =>
    rw [lengthBytes, if_neg h, length_cons, ih]
    omega

theorem readLength_lengthBytes (n : ℕ) (rest : Bytes) :
    readLength (lengthBytes n ++ rest) = some (n, rest) := by
  induction n using lengthBytes.induct with
  | case1 n h =>
    have hn : (UInt8.ofNat n).toNat = n := by
      rw [UInt8.toNat_ofNat']
      omega
    have hb : UInt8.ofNat n ≠ 255 := by
      intro he
      rw [he] at hn
      exact absurd hn (by change (255 : ℕ) ≠ n; omega)
    rw [lengthBytes, if_pos h, singleton_append, readLength, if_neg hb, hn]
  | case2 n h ih =>
    rw [lengthBytes, if_neg h, cons_append, readLength, if_pos rfl, ih, map_some]
    congr 2
    omega

theorem literals_lawful : literals.Lawful where
  bound := rfl
  inverse d h0 hle := by
    refine ⟨_, rfl, ?_, ?_, ?_⟩
    · rw [length_append]
      omega
    · have hb : literals.bufSize = 8421520 := rfl
      rw [blockSize] at hle
      rw [hb, length_append]
      split_ifs
      · simp only [length_singleton]
        omega
      · rw [length_cons, lengthBytes_length]
        omega
    · by_cases hs : d.length < 15
      · have ht : (UInt8.ofNat (16 * d.length)).toNat / 16 = d.length := by
          rw [UInt8.toNat_ofNat']
          omega
        simp only [literals, singleton_append, ht, hs, if_true]
      · rw [if_neg hs]
        simp only [literals, cons_append, readLength_lengthBytes]
        have hl : d.length = d.length - 15 + 15 := by omega
        rw [if_neg (by decide), bind_some, if_pos hl]

/-- A reader that hands over all that is asked for. -/
def wholeReads : Source where
  give n avail := min n avail
  give_le _ _ := le_rfl
  give_pos _ _ hn ha := lt_min hn ha

theorem decode_encode_two_writes : ∃ archive,
    encode literals true [[1, 2], [], [3]] = .ok archive ∧
      ReadsAs literals wholeReads archive [1, 2, 3] :=
  (decode_encode_iff literals_lawful wholeReads true [[1, 2], [], [3]] (by decide)).mpr (by decide)

/-- An empty write before the data gives a second magic, which reads as the end. -/
theorem decode_encode_empty_write : ¬ ∃ archive,
    encode literals false [[], [1]] = .ok archive ∧ ReadsAs literals wholeReads archive [1] := by
  obtain ⟨chunks, -, -, he⟩ := encode_eq literals_lawful false
    (show [[], [(1 : UInt8)]].flatten.length < 2 ^ 32 by decide)
  rintro ⟨archive, ha, hr⟩
  rw [he] at ha
  cases ha
  exact not_readsAs_of_headers literals_lawful (by decide) hr

end Magisk.Lz4
