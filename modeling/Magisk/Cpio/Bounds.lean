import Magisk.Cpio.Archive

namespace Magisk.Cpio

open List

def headerAt (data : Bytes) (pos : ℕ) : Header := Header.fromBytes ((data.drop pos).take hdrSz)

/-- All the numbers of an entry can be read. -/
def Header.Numeric (hdr : Header) : Prop :=
  ∀ x ∈ [hdr.filesize, hdr.mode, hdr.uid, hdr.gid, hdr.rdevmajor, hdr.rdevminor],
    ∃ n, x8u x = .ok n

/-- What is read of the record at `pos` lies inside of the data. -/
structure RecordInside (data : Bytes) (pos : ℕ) : Prop where
  header : pos + hdrSz ≤ data.length
  name : ∀ n, (headerAt data pos).magic = lit "070701" →
    x8u (headerAt data pos).namesize = .ok n → pos + hdrSz + n ≤ data.length
  /-- The padding of a trailer is not read, but the search goes on behind it. -/
  trailer : ∀ hdr p, readName data pos = .ok (hdr, "TRAILER!!!".toList, p) → p ≤ data.length
  content : ∀ hdr name p n, readName data pos = .ok (hdr, name, p) →
    name ∉ [".".toList, "..".toList, "TRAILER!!!".toList] → hdr.Numeric →
    x8u hdr.filesize = .ok n → p + n ≤ data.length

/-- Where the next record starts. -/
inductive GoesOn (data : Bytes) (pos : ℕ) : ℕ → Prop
  | dots {hdr name p} : readName data pos = .ok (hdr, name, p) →
      name = ".".toList ∨ name = "..".toList → GoesOn data pos p
  /-- Another archive may follow a trailer, with anything in between. -/
  | trailer {hdr p x} : readName data pos = .ok (hdr, "TRAILER!!!".toList, p) → p ≤ data.length →
      find (data.drop p) (lit "070701") = some x → GoesOn data pos (p + x)
  | entry {hdr name p n} : readName data pos = .ok (hdr, name, p) →
      name ∉ [".".toList, "..".toList, "TRAILER!!!".toList] → hdr.Numeric →
      x8u hdr.filesize = .ok n → p + n ≤ data.length → GoesOn data pos (align4 (p + n))

/-- The loader gets from `pos` to `p`. -/
def Leads (data : Bytes) : ℕ → ℕ → Prop :=
  Relation.ReflTransGen fun pos p => pos < data.length ∧ GoesOn data pos p

section Record

variable {data : Bytes} {pos : ℕ}

theorem x8u_ne_panic (x : Bytes) : x8u x ≠ .error .panic := by
  unfold x8u
  cases hexValue x with
  | none =>
    intro h
    cases h
  | some n =>
    intro h
    cases h

theorem cstrFromBytes_ne_panic (b : Bytes) : cstrFromBytes b ≠ .error .panic := by
  unfold cstrFromBytes
  split_ifs
  · cases fromUtf8 b.dropLast with
    | none =>
      intro h
      cases h
    | some s =>
      intro h
      cases h
  · intro h
    cases h

theorem readName_eq_panic : readName data pos = .error .panic ↔
    ¬(pos + hdrSz ≤ data.length ∧ ∀ n, (headerAt data pos).magic = lit "070701" →
      x8u (headerAt data pos).namesize = .ok n → pos + hdrSz + n ≤ data.length) := by
  unfold readName
  by_cases hh : pos + hdrSz ≤ data.length
  · have hslice : slice data pos (pos + hdrSz) = some ((data.drop pos).take hdrSz) := by
      rw [slice_of_le (Nat.le_add_right _ _) hh, Nat.add_sub_cancel_left]
    rw [hslice, orPanic_some, and_iff_right hh]
    show (if (headerAt data pos).magic = lit "070701" then _ else _) = _ ↔ _
    split_ifs with hm
    · rw [bind_eq_error, or_iff_right (x8u_ne_panic _)]
      constructor
      · rintro ⟨n, hn, h⟩ hin
        rcases bind_eq_error.mp h with h | ⟨b, -, h⟩
        · rw [orPanic_slice_eq_panic (Nat.le_add_right _ _)] at h
          exact absurd (hin n hm hn) (Nat.not_le.mpr h)
        · rcases bind_eq_error.mp h with h | ⟨name, -, h⟩
          · exact cstrFromBytes_ne_panic b h
          · cases h
      · intro hin
        push Not at hin
        obtain ⟨n, -, hn, hlt⟩ := hin
        refine ⟨n, hn, bind_eq_error.mpr (.inl ?_)⟩
        exact (orPanic_slice_eq_panic (Nat.le_add_right _ _)).mpr hlt
    · refine iff_of_false (fun h => ?_) (not_not.mpr fun n h => absurd h hm)
      cases h
  · refine iff_of_true (bind_eq_error.mpr (.inl ?_)) fun h => hh h.1
    exact (orPanic_slice_eq_panic (Nat.le_add_right _ _)).mpr (Nat.not_le.mp hh)

theorem bind_x8u_eq {α : Type} {x : Bytes} {f : ℕ → Except Fault α} {r : Except Fault α}
    (hr : ∀ e, r = .error e → e = .panic) (h : x8u x >>= f = r) : ∃ n, x8u x = .ok n ∧ f n = r := by
  cases hx : x8u x with
  | ok n =>
    rw [hx] at h
    exact ⟨n, rfl, h⟩
  | error e =>
    rw [hx] at h
    rw [hr e h.symm] at hx
    exact absurd hx (x8u_ne_panic x)

variable {hdr : Header} {p : ℕ} (c : Cpio)

theorem readEntry_inv {r : Except Fault (CpioEntry × ℕ)}
    (hr : ∀ e, r = .error e → e = .panic) (h : readEntry hdr data p = r) :
    ∃ n, hdr.Numeric ∧ x8u hdr.filesize = .ok n ∧ ∃ entry : Bytes → CpioEntry,
      (do return (entry (← orPanic (slice data p (p + n))), align4 (p + n))) = r := by
  obtain ⟨n, hn, h⟩ := bind_x8u_eq hr h
  obtain ⟨mode, hmode, h⟩ := bind_x8u_eq hr h
  obtain ⟨uid, huid, h⟩ := bind_x8u_eq hr h
  obtain ⟨gid, hgid, h⟩ := bind_x8u_eq hr h
  obtain ⟨major, hmajor, h⟩ := bind_x8u_eq hr h
  obtain ⟨minor, hminor, h⟩ := bind_x8u_eq hr h
  refine ⟨n, ?_, hn, fun b => ⟨.ofNat mode, .ofNat uid, .ofNat gid, .ofNat major, .ofNat minor, b⟩, h⟩
  simp only [Header.Numeric, forall_mem_cons]
  exact ⟨⟨n, hn⟩, ⟨mode, hmode⟩, ⟨uid, huid⟩, ⟨gid, hgid⟩, ⟨major, hmajor⟩, ⟨minor, hminor⟩,
    fun x hx => absurd hx not_mem_nil⟩

theorem readEntry_of_numeric {p n : ℕ} (hnum : hdr.Numeric)
    (hn : x8u hdr.filesize = .ok n) : ∃ entry : Bytes → CpioEntry,
      readEntry hdr data p =
        (do return (entry (← orPanic (slice data p (p + n))), align4 (p + n))) := by
  simp only [Header.Numeric, forall_mem_cons] at hnum
  obtain ⟨-, ⟨mode, hmode⟩, ⟨uid, huid⟩, ⟨gid, hgid⟩, ⟨major, hmajor⟩, ⟨minor, hminor⟩, -⟩ := hnum
  rw [readEntry, hn, hmode, huid, hgid, hmajor, hminor]
  exact ⟨fun b => ⟨.ofNat mode, .ofNat uid, .ofNat gid, .ofNat major, .ofNat minor, b⟩, rfl⟩

theorem readEntry_eq_panic : readEntry hdr data p = .error .panic ↔
    ∃ n, hdr.Numeric ∧ x8u hdr.filesize = .ok n ∧ data.length < p + n := by
  constructor
  · intro h
    obtain ⟨n, hnum, hn, entry, h⟩ := readEntry_inv (fun e he => (Except.error.inj he).symm) h
    refine ⟨n, hnum, hn, ?_⟩
    rcases bind_eq_error.mp h with h | ⟨b, -, h⟩
    · exact (orPanic_slice_eq_panic (Nat.le_add_right _ _)).mp h
    · cases h
  · rintro ⟨n, hnum, hn, hlt⟩
    obtain ⟨entry, h⟩ := readEntry_of_numeric hnum hn
    rw [h, (orPanic_slice_eq_panic (Nat.le_add_right p n)).mpr hlt]
    rfl

theorem readEntry_eq_ok {p q : ℕ} : (∃ entry, readEntry hdr data p = .ok (entry, q)) ↔
    ∃ n, hdr.Numeric ∧ x8u hdr.filesize = .ok n ∧ p + n ≤ data.length ∧ q = align4 (p + n) := by
  constructor
  · rintro ⟨entry, h⟩
    obtain ⟨n, hnum, hn, entry, h⟩ := readEntry_inv (fun e he => by cases he) h
    obtain ⟨b, hb, h⟩ := bind_eq_ok.mp h
    cases h
    refine ⟨n, hnum, hn, ?_, rfl⟩
    by_contra hlt
    rw [(orPanic_slice_eq_panic (Nat.le_add_right p n)).mpr (Nat.not_le.mp hlt)] at hb
    cases hb
  · rintro ⟨n, hnum, hn, hle, rfl⟩
    obtain ⟨entry, h⟩ := readEntry_of_numeric hnum hn
    rw [h, slice_of_le (Nat.le_add_right p n) hle]
    exact ⟨_, rfl⟩

/-- Behind a trailer the loader looks for the next magic. -/
def searchNext (data : Bytes) (p : ℕ) (c : Cpio) : Except Fault Step := do
  match find (← orPanic (slice data p data.length)) (lit "070701") with
  | some x => return .next (p + x) c
  | none => return .stop c

theorem searchNext_eq_panic : searchNext data p c = .error .panic ↔ data.length < p := by
  unfold searchNext
  by_cases hp : p ≤ data.length
  · rw [slice_of_le hp le_rfl, orPanic_some]
    refine iff_of_false (fun h => ?_) (Nat.not_lt.mpr hp)
    rcases bind_eq_error.mp h with h | ⟨b, -, h⟩
    · cases h
    · cases hf : find b (lit "070701") with
      | none =>
        rw [hf] at h
        cases h
      | some x =>
        rw [hf] at h
        cases h
  · rw [slice, if_neg fun h => hp h.1, orPanic_none]
    exact iff_of_true rfl (Nat.not_le.mp hp)

theorem loadStep_of_readName {name : Str}
    (h : readName data pos = .ok (hdr, name, p)) : loadStep data pos c =
      if name = ".".toList ∨ name = "..".toList then .ok (.next p c)
      else if name = "TRAILER!!!".toList then searchNext data p c
      else do
        let (entry, q) ← readEntry hdr data p
        return .next q ⟨c.entries.insert name entry⟩ := by
  rw [loadStep, h]
  rfl

theorem loadStep_of_error {e : Fault} (h : readName data pos = .error e) :
    loadStep data pos c = .error e := by
  rw [loadStep, h]
  rfl

/-- The record lies inside when its name could be read and what the name stands for does. -/
theorem recordInside_iff {name : Str}
    (hr : readName data pos = .ok (hdr, name, p)) : RecordInside data pos ↔
      (name = "TRAILER!!!".toList → p ≤ data.length) ∧
        (name ∉ [".".toList, "..".toList, "TRAILER!!!".toList] → ∀ n, hdr.Numeric →
          x8u hdr.filesize = .ok n → p + n ≤ data.length) := by
  have hn : readName data pos ≠ .error .panic ↔ _ := not_iff_comm.mp readName_eq_panic.symm
  rw [hr] at hn
  obtain ⟨hheader, hname⟩ := hn.mp fun h => by cases h
  constructor
  · intro h
    refine ⟨fun ht => h.trailer hdr p (by rw [hr, ht]), fun hk n hnum hsz => ?_⟩
    exact h.content hdr name p n hr hk hnum hsz
  · rintro ⟨ht, hc⟩
    refine ⟨hheader, hname, fun hdr' p' hr' => ?_, fun hdr' name' p' n hr' hk hnum hsz => ?_⟩
    · rw [hr] at hr'
      cases hr'
      exact ht rfl
    · rw [hr] at hr'
      cases hr'
      exact hc hk n hnum hsz

theorem recordInside_iff_of_error {e : Fault} (hr : readName data pos = .error e) :
    RecordInside data pos ↔ e ≠ .panic := by
  have hn : readName data pos ≠ .error .panic ↔ _ := not_iff_comm.mp readName_eq_panic.symm
  rw [hr] at hn
  constructor
  · rintro h rfl
    exact hn.mpr ⟨h.header, h.name⟩ rfl
  · intro he
    obtain ⟨hheader, hname⟩ := hn.mp fun h => he (Except.error.inj h)
    refine ⟨hheader, hname, fun hdr p hr' => ?_, fun hdr name p n hr' => ?_⟩
    · rw [hr] at hr'
      cases hr'
    · rw [hr] at hr'
      cases hr'

theorem trailer_ne_dots :
    ¬("TRAILER!!!".toList = ".".toList ∨ "TRAILER!!!".toList = "..".toList) := by
  decide

theorem loadStep_eq_panic : loadStep data pos c = .error .panic ↔ ¬RecordInside data pos := by
  cases hr : readName data pos with
  | error e =>
    rw [loadStep_of_error c hr, recordInside_iff_of_error hr, not_not]
    exact ⟨Except.error.inj, congrArg _⟩
  | ok r =>
    obtain ⟨hdr, name, p⟩ := r
    rw [recordInside_iff hr, loadStep_of_readName c hr]
    simp only [mem_cons, not_mem_nil, or_false, not_or]
    split_ifs with hdots htrailer
    · refine iff_of_false (fun h => by cases h) (not_not.mpr ⟨fun ht => ?_, fun hk => ?_⟩)
      · exact absurd (ht ▸ hdots) trailer_ne_dots
      · exact absurd hdots (not_or.mpr ⟨hk.1, hk.2.1⟩)
    · rw [searchNext_eq_panic, ← Nat.not_le]
      exact not_congr ⟨fun h => ⟨fun _ => h, fun hk => absurd htrailer hk.2.2⟩, fun h => h.1 htrailer⟩
    · have hk : name ≠ ".".toList ∧ name ≠ "..".toList ∧ name ≠ "TRAILER!!!".toList :=
        ⟨fun h => hdots (.inl h), fun h => hdots (.inr h), htrailer⟩
      rw [bind_eq_error, readEntry_eq_panic]
      constructor
      · rintro (⟨n, hnum, hsz, hlt⟩ | ⟨r, -, h⟩) hin
        · exact absurd (hin.2 hk n hnum hsz) (Nat.not_le.mpr hlt)
        · cases h
      · intro hin
        by_contra hno
        refine hin ⟨fun h => absurd h htrailer, fun _ n hnum hsz => ?_⟩
        by_contra hlt
        exact hno (.inl ⟨n, hnum, hsz, Nat.not_le.mp hlt⟩)

theorem searchNext_eq_next {p q : ℕ} {c c' : Cpio} : searchNext data p c = .ok (.next q c') ↔
    p ≤ data.length ∧ c' = c ∧ ∃ x, find (data.drop p) (lit "070701") = some x ∧ q = p + x := by
  unfold searchNext
  by_cases hp : p ≤ data.length
  · have hall : (data.drop p).take (data.length - p) = data.drop p := by
      rw [← length_drop, take_length]
    rw [slice_of_le hp le_rfl, orPanic_some, hall]
    show (match find (data.drop p) (lit "070701") with
      | some x => (.ok (.next (p + x) c) : Except Fault Step)
      | none => .ok (.stop c)) = _ ↔ _
    cases find (data.drop p) (lit "070701") with
    | none => simp
    | some x => simp [hp, eq_comm, and_comm]
  · rw [slice, if_neg fun h => hp h.1, orPanic_none]
    exact iff_of_false (fun h => by cases h) fun h => hp h.1

theorem loadStep_eq_next : (∃ c', loadStep data pos c = .ok (.next p c')) ↔ GoesOn data pos p := by
  constructor
  · rintro ⟨c', h⟩
    obtain ⟨⟨hdr, name, q⟩, hr, -⟩ := bind_eq_ok.mp h
    rw [loadStep_of_readName c hr] at h
    split_ifs at h with hdots htrailer
    · cases h
      exact .dots hr hdots
    · obtain ⟨hq, -, x, hx, rfl⟩ := searchNext_eq_next.mp h
      rw [htrailer] at hr
      exact .trailer hr hq hx
    · obtain ⟨⟨entry, r⟩, he, h⟩ := bind_eq_ok.mp h
      cases h
      obtain ⟨n, hnum, hn, hle, rfl⟩ := readEntry_eq_ok.mp ⟨entry, he⟩
      refine .entry hr ?_ hnum hn hle
      simp only [mem_cons, not_mem_nil, or_false, not_or]
      exact ⟨fun h => hdots (.inl h), fun h => hdots (.inr h), htrailer⟩
  · intro h
    cases h with
    | dots hr hdots =>
      rw [loadStep_of_readName c hr, if_pos hdots]
      exact ⟨c, rfl⟩
    | trailer hr hp hx =>
      rw [loadStep_of_readName c hr, if_neg trailer_ne_dots, if_pos rfl]
      exact ⟨c, searchNext_eq_next.mpr ⟨hp, rfl, _, hx, rfl⟩⟩
    | entry hr hk hnum hn hle =>
      simp only [mem_cons, not_mem_nil, or_false, not_or] at hk
      obtain ⟨entry, he⟩ := readEntry_eq_ok.mpr ⟨_, hnum, hn, hle, rfl⟩
      rw [loadStep_of_readName c hr, if_neg (not_or.mpr ⟨hk.1, hk.2.1⟩), if_neg hk.2.2, he]
      exact ⟨_, rfl⟩

end Record

variable {data : Bytes} {pos : ℕ} {c : Cpio}

theorem recordInside_of_ok {r : Step} (h : loadStep data pos c = .ok r) : RecordInside data pos := by
  by_contra hno
  rw [← loadStep_eq_panic c, h] at hno
  cases hno

/-- Every record from `pos` on lies inside. -/
def StaysInside (data : Bytes) (pos : ℕ) : Prop :=
  ∀ p, Leads data pos p → p < data.length → RecordInside data p

theorem staysInside_iff (hlt : pos < data.length) :
    StaysInside data pos ↔
      RecordInside data pos ∧ ∀ p, GoesOn data pos p → StaysInside data p := by
  constructor
  · intro h
    exact ⟨h pos .refl hlt, fun p hp q hq => h q (.head ⟨hlt, hp⟩ hq)⟩
  · rintro ⟨hpos, hnext⟩ q hq
    rcases Relation.ReflTransGen.cases_head hq with rfl | ⟨p, hp, hq⟩
    · exact fun _ => hpos
    · exact hnext p hp.2 q hq

theorem not_goesOn
    (h : ∀ p c', loadStep data pos c ≠ .ok (.next p c')) (p : ℕ) : ¬GoesOn data pos p := by
  intro hp
  obtain ⟨c', hc⟩ := (loadStep_eq_next c).mpr hp
  exact h p c' hc

theorem loadLoop_ne_panic_iff (pos : ℕ) (c : Cpio) :
    loadLoop data pos c ≠ .error .panic ↔ StaysInside data pos := by
  induction pos, c using loadLoop.induct data with
  | case1 pos c hlt e he =>
    -- the round fails, and no position follows
    have hgo : ∀ p, ¬GoesOn data pos p :=
      not_goesOn (c := c) fun p c' h => by rw [he] at h; cases h
    have hp : loadStep data pos c = .error .panic ↔ _ := loadStep_eq_panic c
    rw [he, Except.error.injEq] at hp
    rw [loadLoop_error hlt he, Ne, Except.error.injEq, hp, not_not, staysInside_iff hlt]
    exact (and_iff_left fun p hp => absurd hp (hgo p)).symm
  | case2 pos c hlt c' hs =>
    have hgo : ∀ p, ¬GoesOn data pos p :=
      not_goesOn (c := c) fun p c'' h => by rw [hs] at h; cases h
    rw [loadLoop_stop hlt hs, staysInside_iff hlt]
    exact iff_of_true (fun h => by cases h)
      ⟨recordInside_of_ok hs, fun p hp => absurd hp (hgo p)⟩
  | case3 pos c hlt p c' hs _ ih =>
    have hgo : ∀ q, GoesOn data pos q ↔ q = p := by
      intro q
      rw [← loadStep_eq_next c, hs]
      simp [eq_comm]
    rw [loadLoop_next hlt hs, ih, staysInside_iff hlt, and_iff_right (recordInside_of_ok hs)]
    simp only [hgo, forall_eq]
  | case4 pos c hlt =>
    rw [loadLoop, if_neg hlt]
    refine iff_of_true (fun h => by cases h) fun q hq => ?_
    rcases Relation.ReflTransGen.cases_head hq with rfl | ⟨p, hp, -⟩
    · exact fun h => absurd h hlt
    · exact absurd hp.1 hlt

/-- The loader does not panic exactly when every record that it gets to lies inside of the data. -/
theorem loadFromData_ne_panic_iff (data : Bytes) : loadFromData data ≠ .error .panic ↔
    ∀ pos, Leads data 0 pos → pos < data.length → RecordInside data pos :=
  loadLoop_ne_panic_iff 0 new

/-- A file that ends in the middle of a header. -/
theorem loadFromData_truncated : loadFromData (lit "070701") = .error .panic := by
  rw [loadFromData]
  exact loadLoop_error (by decide) rfl

end Magisk.Cpio
