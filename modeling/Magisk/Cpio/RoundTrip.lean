import Magisk.Cpio.Archive
import Magisk.OrderedMap

namespace Magisk.Cpio

open List

theorem align4_add {p : ℕ} (x : ℕ) (h : 4 ∣ p) : align4 (p + x) = p + align4 x := by
  unfold align4; omega

def padding (n : ℕ) : Bytes := List.replicate (align4 n - n) 0

theorem append_padding_length (b : Bytes) : (b ++ padding b.length).length = align4 b.length := by
  have := le_align4 b.length
  simp only [padding, length_append, length_replicate]
  omega

/-- The header fields that the dumper writes for an entry. -/
def entryValues (inode : ℕ) (name : Str) (entry : CpioEntry) : List ℕ :=
  [inode, entry.mode.toNat, entry.uid.toNat, entry.gid.toNat,
    1, 0, entry.data.length, 0, 0, entry.rdevmajor.toNat, entry.rdevminor.toNat,
    (asBytes name).length + 1, 0]

def namePart (inode : ℕ) (name : Str) (entry : CpioEntry) : Bytes :=
  let b := headerText (entryValues inode name entry) ++ (asBytes name ++ [0])
  b ++ padding b.length

def record (inode : ℕ) (ne : Str × CpioEntry) : Bytes :=
  namePart inode ne.1 ne.2 ++ (ne.2.data ++ padding ne.2.data.length)

def trailer (inode : ℕ) : Bytes :=
  let b := headerText [inode, 0o755, 0, 0, 1, 0, 0, 0, 0, 0, 0, 11, 0] ++ (lit "TRAILER!!!" ++ [0])
  b ++ padding b.length

def records (inode : ℕ) : List (Str × CpioEntry) → Bytes
  | [] => []
  | ne :: l => record inode ne ++ records (inode + 1) l

/-- The dumper's position is the length of its file, at a multiple of four. -/
structure DumpState.Aligned (st : DumpState) : Prop where
  pos_eq : st.pos = st.file.length
  dvd : 4 ∣ st.pos

variable {st : DumpState} {values : List ℕ} {name : Str} {pre : Bytes} {inode : ℕ}
  {entry : CpioEntry} (n : ℕ) (c : Cpio)

theorem pad_write_eq (h : st.Aligned) (b : Bytes) :
    (st.write b).pad = ⟨st.file ++ (b ++ padding b.length), st.pos + align4 b.length, st.inode⟩ := by
  have ha := align4_add b.length h.dvd
  have hd : st.pos + align4 b.length - (st.pos + b.length) = align4 b.length - b.length := by omega
  simp [DumpState.write, DumpState.pad, padding, ha, hd]

theorem pad_write_aligned (h : st.Aligned) (b : Bytes) : ((st.write b).pad).Aligned := by
  rw [pad_write_eq h]
  constructor
  · have := append_padding_length b
    simp only [length_append] at this ⊢
    have := h.pos_eq
    omega
  · exact Nat.dvd_add h.dvd (dvd_align4 _)

theorem write_write (st : DumpState) (a b : Bytes) : (st.write a).write b = st.write (a ++ b) := by
  simp [DumpState.write, Nat.add_assoc]

theorem dumpEntry_eq (st : DumpState) (ne : Str × CpioEntry) :
    dumpEntry st ne =
      { (((st.write (headerText (entryValues st.inode ne.1 ne.2) ++ (asBytes ne.1 ++ [0]))).pad).write
          ne.2.data).pad with inode := st.inode + 1 } := by
  simp only [dumpEntry, entryValues, write_write, append_assoc]
  rfl

theorem dumpEntry_file (h : st.Aligned) (ne : Str × CpioEntry) :
    (dumpEntry st ne).file = st.file ++ record st.inode ne ∧
      (dumpEntry st ne).inode = st.inode + 1 ∧ (dumpEntry st ne).Aligned := by
  have h1 := pad_write_aligned h (headerText (entryValues st.inode ne.1 ne.2) ++ (asBytes ne.1 ++ [0]))
  have h2 := pad_write_aligned h1 ne.2.data
  rw [dumpEntry_eq]
  refine ⟨?_, rfl, ⟨h2.pos_eq, h2.dvd⟩⟩
  simp only [pad_write_eq h1]
  simp only [pad_write_eq h, record, namePart, append_assoc]

theorem foldl_dumpEntry {l : List (Str × CpioEntry)} (h : st.Aligned) :
    (l.foldl dumpEntry st).file = st.file ++ records st.inode l ∧
      (l.foldl dumpEntry st).inode = st.inode + l.length ∧ (l.foldl dumpEntry st).Aligned := by
  induction l generalizing st with
  | nil => exact ⟨by simp [records], rfl, h⟩
  | cons ne l ih =>
    obtain ⟨hf, hi, ha⟩ := dumpEntry_file h ne
    obtain ⟨hf', hi', ha'⟩ := ih ha
    refine ⟨?_, ?_, ha'⟩
    · rw [foldl_cons, hf', hf, hi, records, append_assoc]
    · rw [foldl_cons, hi', hi, length_cons]
      omega

theorem dump_eq :
    dump c = records 300000 c.entries.toList ++ trailer (300000 + c.entries.size) := by
  have h0 : (⟨[], 0, 300000⟩ : DumpState).Aligned := ⟨rfl, Nat.dvd_zero 4⟩
  obtain ⟨hf, hi, ha⟩ := foldl_dumpEntry (l := c.entries.toList) h0
  unfold dump dumpTrailer
  simp only [write_write, pad_write_eq ha, hf, hi, trailer, nil_append,
    Std.ExtTreeMap.length_toList]

/-- The numbers of an entry fit the fields of its header. -/
structure Fits (name : Str) (entry : CpioEntry) : Prop where
  name_lt : (asBytes name).length + 1 < 2 ^ 32
  data_lt : entry.data.length < 2 ^ 32
  rdevmajor_lt : entry.rdevmajor.toNat < 2 ^ 32
  rdevminor_lt : entry.rdevminor.toNat < 2 ^ 32

theorem lit_magic_length : (lit "070701").length = 6 := by decide

theorem flatMap_fmt08x_length (h : ∀ v ∈ values, v < 2 ^ 32) :
    (values.flatMap fmt08x).length = 8 * values.length := by
  induction values with
  | nil => rfl
  | cons v values ih =>
    rw [flatMap_cons, length_append, fmt08x_length (h v (by simp)),
      ih fun x hx => h x (by simp [hx]), length_cons]
    omega

theorem headerText_length (h : ∀ v ∈ values, v < 2 ^ 32) :
    (headerText values).length = 6 + 8 * values.length := by
  rw [headerText, length_append, lit_magic_length, flatMap_fmt08x_length h]

theorem field_headerText (h : ∀ v ∈ values, v < 2 ^ 32) {k v : ℕ}
    (hk : values[k]? = some v) : field (headerText values) k = fmt08x v := by
  have hd : (headerText values).drop (6 + 8 * k) = (values.flatMap fmt08x).drop (8 * k) := by
    rw [← drop_drop, headerText, drop_left' lit_magic_length]
  rw [field, hd]
  clear hd
  induction values generalizing k with
  | nil => simp at hk
  | cons w values ih =>
    have hw := fmt08x_length (h w (by simp))
    cases k with
    | zero =>
      obtain rfl : w = v := by simpa using hk
      simp [take_left' hw]
    | succ k =>
      rw [flatMap_cons, Nat.mul_succ, Nat.add_comm, ← drop_drop, drop_left' hw]
      exact ih (fun x hx => h x (by simp [hx])) (by simpa using hk)

theorem take_headerText (values : List ℕ) : (headerText values).take 6 = lit "070701" :=
  take_left' lit_magic_length

theorem x8u_fmt08x : x8u (fmt08x n) = .ok n := by
  rw [x8u, hexValue_fmt08x]

theorem cstrFromBytes_asBytes (h : '\x00' ∉ name) :
    cstrFromBytes (asBytes name ++ [0]) = .ok name := by
  have h0 : 0 ∉ asBytes name := fun hz => h ((zero_mem_asBytes name).mp hz)
  simp [cstrFromBytes, h0, fromUtf8_asBytes]

theorem readName_headerText (post : Bytes)
    (hv : ∀ v ∈ values, v < 2 ^ 32) (hlen : values.length = 13)
    (hn : values[11]? = some ((asBytes name).length + 1)) (h0 : '\x00' ∉ name)
    (hp : 4 ∣ pre.length) {b : Bytes} (hb : b = headerText values ++ (asBytes name ++ [0])) :
    readName (pre ++ (b ++ padding b.length ++ post)) pre.length =
      .ok (Header.fromBytes (headerText values), name, pre.length + align4 b.length) := by
  have hl : (headerText values).length = hdrSz := by rw [headerText_length hv, hlen]; rfl
  have hbl : b.length = hdrSz + ((asBytes name).length + 1) := by simp [hb, hl]
  have hd (pad : Bytes) : pre ++ (b ++ pad ++ post) =
      pre ++ (headerText values ++ ((asBytes name ++ [0]) ++ (pad ++ post))) := by
    simp only [hb, append_assoc]
  have hs : slice (pre ++ (b ++ padding b.length ++ post)) pre.length (pre.length + hdrSz) =
      some (headerText values) := by
    rw [hd]
    exact slice_append _ _ _ rfl (by rw [hl])
  have hs' : slice (pre ++ (b ++ padding b.length ++ post)) (pre.length + hdrSz)
      (pre.length + hdrSz + ((asBytes name).length + 1)) = some (asBytes name ++ [0]) := by
    rw [hd, ← append_assoc]
    exact slice_append _ _ _ (by simp [hl]) (by simp [hl])
  have hm : (Header.fromBytes (headerText values)).magic = lit "070701" := take_headerText values
  have hsz : (Header.fromBytes (headerText values)).namesize = fmt08x ((asBytes name).length + 1) :=
    field_headerText hv hn
  rw [readName, hs]
  simp only [orPanic_some, bind, Except.bind, hm, if_true, hsz, x8u_fmt08x, hs',
    cstrFromBytes_asBytes h0]
  rw [Nat.add_assoc, ← hbl, align4_add _ hp]
  rfl

/-- The name is one that the loader keeps as an entry. -/
structure Keeps (name : Str) : Prop where
  no_nul : '\x00' ∉ name
  ne_dot : name ≠ ".".toList
  ne_dotdot : name ≠ "..".toList
  ne_trailer : name ≠ "TRAILER!!!".toList

theorem Fits.values_lt (h : Fits name entry)
    (hi : inode < 2 ^ 32) : ∀ v ∈ entryValues inode name entry, v < 2 ^ 32 := by
  obtain ⟨h1, h2, h3, h4⟩ := h
  have := entry.mode.toNat_lt
  have := entry.uid.toNat_lt
  have := entry.gid.toNat_lt
  simp only [entryValues, forall_mem_cons, not_mem_nil, false_imp_iff, implies_true,
    and_true]
  omega

theorem readEntry_record (pre post : Bytes)
    (h : Fits name entry) (hi : inode < 2 ^ 32) (hp : 4 ∣ pre.length) :
    readEntry (Header.fromBytes (headerText (entryValues inode name entry)))
        (pre ++ (entry.data ++ padding entry.data.length ++ post)) pre.length =
      .ok (entry, pre.length + align4 entry.data.length) := by
  have hf {k v : ℕ} (hk : (entryValues inode name entry)[k]? = some v) :
      x8u (field (headerText (entryValues inode name entry)) k) = .ok v := by
    rw [field_headerText (h.values_lt hi) hk, x8u_fmt08x]
  have hs : slice (pre ++ (entry.data ++ padding entry.data.length ++ post)) pre.length
      (pre.length + entry.data.length) = some entry.data := by
    rw [append_assoc]
    exact slice_append _ _ _ rfl rfl
  simp only [readEntry, Header.fromBytes, bind, Except.bind, hf (k := 6) rfl, hf (k := 1) rfl,
    hf (k := 2) rfl, hf (k := 3) rfl, hf (k := 9) rfl, hf (k := 10) rfl, hs, orPanic_some,
    UInt32.ofNat_toNat, UInt64.ofNat_toNat, align4_add _ hp]
  rfl

theorem loadStep_record (post : Bytes)
    (h : Fits name entry) (hk : Keeps name) (hi : inode < 2 ^ 32) (hp : 4 ∣ pre.length)
    (c : Cpio) :
    loadStep (pre ++ (record inode (name, entry) ++ post)) pre.length c =
      .ok (.next (pre ++ record inode (name, entry)).length ⟨c.entries.insert name entry⟩) := by
  let b := headerText (entryValues inode name entry) ++ (asBytes name ++ [0])
  have hn := readName_headerText (entry.data ++ padding entry.data.length ++ post)
    (h.values_lt hi) rfl rfl hk.no_nul hp (b := b) rfl
  have hq : (pre ++ namePart inode name entry).length = pre.length + align4 b.length := by
    rw [length_append, namePart, append_padding_length]
  have he := readEntry_record (pre ++ namePart inode name entry) post h hi
    (by rw [hq]; exact Nat.dvd_add hp (dvd_align4 _))
  have hr : (pre ++ record inode (name, entry)).length =
      (pre ++ namePart inode name entry).length + align4 entry.data.length := by
    simp only [record, length_append, ← append_padding_length entry.data]
    omega
  have hdata : pre ++ (record inode (name, entry) ++ post) =
      pre ++ (b ++ padding b.length ++ (entry.data ++ padding entry.data.length ++ post)) := by
    simp only [record, namePart, b, append_assoc]
  have hdata' : pre ++ (record inode (name, entry) ++ post) =
      pre ++ namePart inode name entry ++ (entry.data ++ padding entry.data.length ++ post) := by
    simp only [record, append_assoc]
  rw [loadStep, hdata, hn]
  simp only [bind, Except.bind, hk.ne_dot, hk.ne_dotdot, hk.ne_trailer, or_self, if_false]
  rw [← hq, ← hdata, hdata', he, hr]
  rfl

theorem record_length (inode : ℕ) (ne : Str × CpioEntry) :
    4 ∣ (record inode ne).length ∧ 0 < (record inode ne).length := by
  have h6 : 6 ≤ (namePart inode ne.1 ne.2).length := by
    simp only [namePart, headerText, length_append, lit_magic_length]
    omega
  constructor
  · rw [record, length_append, append_padding_length]
    exact Nat.dvd_add (by rw [namePart, append_padding_length]; exact dvd_align4 _) (dvd_align4 _)
  · rw [record, length_append]
    omega

theorem records_length_dvd (inode : ℕ) (l : List (Str × CpioEntry)) :
    4 ∣ (records inode l).length := by
  induction l generalizing inode with
  | nil => exact Nat.dvd_zero 4
  | cons ne l ih =>
    rw [records, length_append]
    exact Nat.dvd_add (record_length inode ne).1 (ih _)

theorem loadLoop_records {l : List (Str × CpioEntry)} (pre post : Bytes) (inode : ℕ)
    (hl : ∀ ne ∈ l, Fits ne.1 ne.2 ∧ Keeps ne.1) (hi : inode + l.length ≤ 2 ^ 32)
    (hp : 4 ∣ pre.length) (c : Cpio) :
    loadLoop (pre ++ (records inode l ++ post)) pre.length c =
      loadLoop (pre ++ (records inode l ++ post)) (pre ++ records inode l).length
        ⟨c.entries.insertMany l⟩ := by
  induction l generalizing pre inode c with
  | nil => simp [records]
  | cons ne l ih =>
    obtain ⟨name, entry⟩ := ne
    obtain ⟨hf, hk⟩ := hl (name, entry) (by simp)
    rw [length_cons] at hi
    have hr := record_length inode (name, entry)
    have hs := loadStep_record (records (inode + 1) l ++ post) hf hk
      (show inode < 2 ^ 32 by omega) hp c
    have hd : pre ++ (records inode ((name, entry) :: l) ++ post) =
        pre ++ (record inode (name, entry) ++ (records (inode + 1) l ++ post)) := by
      simp only [records, append_assoc]
    rw [hd, loadLoop_next (by simp only [length_append]; omega) hs]
    have h := ih (pre ++ record inode (name, entry)) (inode + 1)
      (fun x hx => hl x (by simp [hx])) (by omega)
      (by rw [length_append]; exact Nat.dvd_add hp hr.1)
      ⟨c.entries.insert name entry⟩
    simpa only [records, append_assoc, Std.ExtTreeMap.insertMany_cons] using h

theorem insertMany_toList (m : Std.ExtTreeMap Str CpioEntry compare) :
    (∅ : Std.ExtTreeMap Str CpioEntry compare).insertMany m.toList = m := by
  apply Std.ExtTreeMap.ext_getElem?
  intro k
  rw [OrderedMap.getElem?_insertMany_toList]
  simp

theorem loadStep_trailer (hi : inode < 2 ^ 32) (hp : 4 ∣ pre.length)
    (c : Cpio) : loadStep (pre ++ trailer inode) pre.length c = .ok (.stop c) := by
  have hv : ∀ v ∈ [inode, 0o755, 0, 0, 1, 0, 0, 0, 0, 0, 0, 11, 0], v < 2 ^ 32 := by
    simp only [forall_mem_cons, not_mem_nil, false_imp_iff, implies_true, and_true]
    omega
  obtain ⟨b, hb⟩ : ∃ b, b = headerText [inode, 0o755, 0, 0, 1, 0, 0, 0, 0, 0, 0, 11, 0] ++
    (asBytes "TRAILER!!!".toList ++ [0]) := ⟨_, rfl⟩
  have hn := readName_headerText [] hv rfl
    (show some 11 = some ((asBytes "TRAILER!!!".toList).length + 1) by decide) (by decide) hp hb
  have hd : pre ++ (b ++ padding b.length ++ []) = pre ++ trailer inode := by
    rw [append_nil, hb]
    rfl
  have hl : pre.length + align4 b.length = (pre ++ trailer inode).length := by
    rw [← hd, append_nil, length_append, append_padding_length]
  rw [hd, hl] at hn
  have hs : slice (pre ++ trailer inode) (pre ++ trailer inode).length
      (pre ++ trailer inode).length = some [] := by simp [slice]
  have hf : find [] (lit "070701") = none := by decide
  rw [loadStep, hn]
  simp only [bind, Except.bind, hs, orPanic_some, hf]
  rfl

/-- What newc can store: names the loader keeps and numbers of at most eight digits. -/
def Storable (c : Cpio) : Prop := ∀ ne ∈ c.entries.toList, Fits ne.1 ne.2 ∧ Keeps ne.1

theorem loadFromData_dump (h : Storable c) (hn : 300000 + c.entries.size ≤ 2 ^ 32) :
    loadFromData (dump c) = loadLoop (dump c) (records 300000 c.entries.toList).length c := by
  have hl : c.entries.toList.length = c.entries.size := Std.ExtTreeMap.length_toList
  have hr := loadLoop_records [] (trailer (300000 + c.entries.size)) 300000 h (by omega)
    (Nat.dvd_zero 4) new
  simp only [nil_append, length_nil] at hr
  rw [loadFromData, dump_eq, hr, show new.entries = ∅ from rfl, insertMany_toList]

theorem trailer_start_lt : (records 300000 c.entries.toList).length < (dump c).length := by
  rw [dump_eq, length_append]
  simp only [trailer, headerText, length_append, lit_magic_length]
  omega

theorem reload_of_storable {c : Cpio} (h : Storable c) (hn : 300000 + c.entries.size < 2 ^ 32) :
    loadFromData (dump c) = .ok c := by
  have ht := loadStep_trailer hn (records_length_dvd 300000 c.entries.toList) c
  rw [← dump_eq] at ht
  rw [loadFromData_dump c h hn.le, loadLoop_stop (trailer_start_lt c) ht]

/-- Loading a dump gives the archive back, as long as the inode counter, which the
trailer uses last, stays within its eight digits. -/
theorem load_dump (c : Cpio) (h : Storable c) (hn : 300000 + c.entries.size < 2 ^ 32) :
    loadFromData (dump c) = .ok c :=
  reload_of_storable h hn

/-- An archive whose data look like a header and like a trailer. -/
def nested : Cpio :=
  ⟨.ofList [("init".toList, ⟨0o100750, 0, 2000, 0, 0, lit "070701"⟩),
    ("TRAILER".toList, ⟨0o100644, 0, 0, 0, 0, lit "TRAILER!!!" ++ [0, 255]⟩),
    ("dev/null".toList, ⟨0o20666, 0, 0, 1, 3, []⟩)] compare⟩

theorem nested_toList : nested.entries.toList =
    [("TRAILER".toList, ⟨0o100644, 0, 0, 0, 0, lit "TRAILER!!!" ++ [0, 255]⟩),
      ("dev/null".toList, ⟨0o20666, 0, 0, 1, 3, []⟩),
      ("init".toList, ⟨0o100750, 0, 2000, 0, 0, lit "070701"⟩)] := by
  decide +kernel

theorem load_dump_nested : loadFromData (dump nested) = .ok nested := by
  apply load_dump nested
  · intro ne hne
    rw [nested_toList] at hne
    simp only [mem_cons, not_mem_nil, or_false] at hne
    rcases hne with rfl | rfl | rfl <;>
      exact ⟨⟨by decide, by decide, by decide, by decide⟩,
        ⟨by decide, by decide, by decide, by decide⟩⟩
  · rw [← Std.ExtTreeMap.length_toList, nested_toList]
    decide

theorem loadStep_trailer_overflow (pre : Bytes) (c : Cpio) :
    loadStep (pre ++ trailer (2 ^ 32)) pre.length c =
      .error (.error "invalid nul terminator") := by
  have h1 : slice (trailer (2 ^ 32)) 0 hdrSz = some ((trailer (2 ^ 32)).take hdrSz) := by
    decide +kernel
  have hm : (Header.fromBytes ((trailer (2 ^ 32)).take hdrSz)).magic = lit "070701" := by
    decide +kernel
  -- the last digit of `rdevminor` and the first seven of the name size
  have hs : x8u (Header.fromBytes ((trailer (2 ^ 32)).take hdrSz)).namesize = .ok 0 := by
    decide +kernel
  have h2 : slice (trailer (2 ^ 32)) hdrSz hdrSz = some [] := by decide +kernel
  have h1' := slice_append_add pre (trailer (2 ^ 32)) 0 hdrSz
  have h2' := slice_append_add pre (trailer (2 ^ 32)) hdrSz hdrSz
  rw [Nat.add_zero, h1] at h1'
  rw [h2] at h2'
  rw [loadStep, readName, h1']
  simp only [bind, Except.bind, orPanic_some, hm, if_true, hs, Nat.add_zero, h2']
  rfl

theorem load_dump_overflow (h : Storable c) (hn : 300000 + c.entries.size = 2 ^ 32) :
    loadFromData (dump c) = .error (.error "invalid nul terminator") := by
  have ht := loadStep_trailer_overflow (records 300000 c.entries.toList) c
  rw [← hn, ← dump_eq] at ht
  rw [loadFromData_dump c h hn.le, loadLoop_error (trailer_start_lt c) ht]

/-- The bits of a number, as a name of 32 bytes. -/
def bitName (i : ℕ) : Str := (List.range 32).map fun k => if i.testBit k then 'b' else 'a'

theorem bitName_inj {i j : ℕ} (hi : i < 2 ^ 32) (hj : j < 2 ^ 32) (h : bitName i = bitName j) :
    i = j := by
  refine Nat.eq_of_testBit_eq fun k => ?_
  by_cases hk : k < 32
  · have he := map_inj_left.mp h k (mem_range.mpr hk)
    cases hx : i.testBit k <;> cases hy : j.testBit k <;> simp [hx, hy] at he ⊢
  · have hle : 2 ^ 32 ≤ 2 ^ k := Nat.pow_le_pow_right (by decide) (by omega)
    rw [Nat.testBit_lt_two_pow (hi.trans_le hle), Nat.testBit_lt_two_pow (hj.trans_le hle)]

/-- `n` empty files. -/
def crowded (n : ℕ) : Cpio :=
  ⟨.ofList ((List.range n).map fun i => (bitName i, ⟨0, 0, 0, 0, 0, []⟩)) compare⟩

section Crowded

variable {n : ℕ} (hn : n ≤ 2 ^ 32)

include hn

theorem crowded_distinct :
    ((List.range n).map fun i => (bitName i, (⟨0, 0, 0, 0, 0, []⟩ : CpioEntry))).Pairwise
      fun a b => ¬ compare a.1 b.1 = .eq := by
  rw [pairwise_map]
  refine pairwise_lt_range.imp_of_mem fun {i j} hi hj hij he => hij.ne ?_
  rw [mem_range] at hi hj
  exact bitName_inj (by omega) (by omega) (Std.LawfulEqCmp.eq_of_compare he)

theorem crowded_size : (crowded n).entries.size = n := by
  rw [crowded, Std.ExtTreeMap.size_ofList (crowded_distinct hn)]
  simp

theorem crowded_mem {ne : Str × CpioEntry} (h : ne ∈ (crowded n).entries.toList) :
    ∃ i, ne = (bitName i, ⟨0, 0, 0, 0, 0, []⟩) := by
  obtain ⟨name, entry⟩ := ne
  have hk := Std.ExtTreeMap.mem_toList_iff_getElem?_eq_some.mp h
  have hm : name ∈ (crowded n).entries := by
    rw [Std.ExtTreeMap.mem_iff_isSome_getElem?, hk]
    rfl
  rw [crowded, Std.ExtTreeMap.mem_ofList] at hm
  simp only [List.map_map, contains_iff_mem, List.mem_map, mem_range,
    Function.comp_apply] at hm
  obtain ⟨i, hi, rfl⟩ := hm
  have hc : compare (bitName i) (bitName i) = .eq := Std.ReflCmp.compare_self
  have hv := Std.ExtTreeMap.getElem?_ofList_of_mem hc (crowded_distinct hn)
    (List.mem_map.mpr ⟨i, mem_range.mpr hi, rfl⟩)
  refine ⟨i, ?_⟩
  rw [crowded, hv] at hk
  rw [Option.some.inj hk]

theorem crowded_storable : Storable (crowded n) := by
  intro ne h
  obtain ⟨i, rfl⟩ := crowded_mem hn h
  have hlen : (bitName i).length = 32 := by simp [bitName]
  have hl : (asBytes (bitName i)).length ≤ (bitName i).length * 4 := by
    rw [asBytes, length_flatMap, ← length_map fun c => (String.utf8EncodeChar c).length]
    refine sum_le_card_nsmul _ 4 fun m hm => ?_
    obtain ⟨c, -, rfl⟩ := List.mem_map.mp hm
    rw [String.length_utf8EncodeChar]
    exact c.utf8Size_le_four
  refine ⟨⟨by dsimp only; omega, by simp, by simp, by simp⟩, ?_⟩
  constructor <;> intro hx <;> dsimp only at hx
  · obtain ⟨k, -, hk⟩ := List.mem_map.mp hx
    split_ifs at hk <;> exact absurd hk (by decide)
  all_goals
    rw [hx] at hlen
    exact absurd hlen (by decide)

end Crowded

/-- An archive that meets every other bound, with one entry too many for the counter. -/
theorem load_dump_crowded : Storable (crowded (2 ^ 32 - 300000)) ∧
    loadFromData (dump (crowded (2 ^ 32 - 300000))) ≠ .ok (crowded (2 ^ 32 - 300000)) := by
  have hs : Storable (crowded (2 ^ 32 - 300000)) := crowded_storable (by norm_num)
  refine ⟨hs, ?_⟩
  rw [load_dump_overflow _ hs (by rw [crowded_size (by norm_num)]; norm_num)]
  intro h
  cases h

end Magisk.Cpio
