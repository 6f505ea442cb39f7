import Magisk.Socket
import Magisk.Utf8

namespace Magisk

open List

variable {α β : Type}

/-- A result that the caller gets as an error. -/
def Errs (x : Except Fault α) : Prop := ∃ msg, x = .error (.error msg)

theorem Errs.bind {x : Except Fault α} (h : Errs x) (f : α → Except Fault β) : Errs (x >>= f) := by
  obtain ⟨msg, rfl⟩ := h
  exact ⟨msg, rfl⟩

theorem not_errs_ok {a : α} : ¬ Errs (.ok a : Except Fault α) := by
  rintro ⟨msg, h⟩
  cases h

theorem not_errs_panic : ¬ Errs (.error .panic : Except Fault α) := by
  rintro ⟨msg, h⟩
  cases h

theorem strict_append_cases {r x y : List α} (h : r <+: x ++ y) (hne : r ≠ x ++ y) :
    (r <+: x ∧ r ≠ x) ∨ ∃ t, r = x ++ t ∧ t <+: y ∧ t ≠ y := by
  by_cases hx : x <+: r
  · obtain ⟨t, rfl⟩ := hx
    rw [prefix_append_right_inj] at h
    exact .inr ⟨t, rfl, h, fun ht => hne (ht ▸ rfl)⟩
  · have hr : r <+: x := by
      rcases prefix_or_prefix_of_prefix h (prefix_append x y) with hr | hr
      · exact hr
      · exact absurd hr hx
    exact .inl ⟨hr, fun he => hx (he ▸ prefix_rfl)⟩

theorem length_lt_of_strict {r x : List α} (h : r <+: x) (hne : r ≠ x) : r.length < x.length :=
  lt_of_le_of_ne h.length_le fun he => hne (h.eq_of_length he)

/-- Where the bytes of a text are cut off, the rest is text if the cut is between characters. -/
theorem isSome_fromUtf8_cut {s : Str} {t : Bytes} (h : t <+: asBytes s) (hne : t ≠ asBytes s) :
    (fromUtf8 t).isSome ↔ ∃ k < s.length, t ++ asBytes (s.drop k) = asBytes s := by
  obtain ⟨u, hu⟩ := h
  rw [isSome_fromUtf8_iff hu]
  constructor
  · rintro ⟨k, rfl⟩
    refine ⟨k, ?_, by rw [← asBytes_append, take_append_drop]⟩
    by_contra hk
    exact hne (by rw [take_of_length_le (not_lt.mp hk)])
  · rintro ⟨k, -, hk⟩
    refine ⟨k, (append_left_inj (asBytes (s.drop k))).mp ?_⟩
    rw [hk, ← asBytes_append, take_append_drop]

namespace Codec

/-- Two fields of a structure, one after the other. -/
def pair (c : Codec α) (d : Codec β) : Codec (α × β) where
  encode v := c.encode v.1 ++ d.encode v.2
  decode r := do
    let (a, r) ← c.decode r
    let (b, r) ← d.decode r
    return ((a, b), r)
  Fits v := c.Fits v.1 ∧ d.Fits v.2
  decode_encode v rest h := by
    rw [append_assoc, c.decode_encode _ _ h.1]
    simp only [bind, Except.bind, d.decode_encode _ _ h.2]
    rfl

/-- Of the encoding, the stream lacks the last characters of a string at its end. -/
def LacksEnd (c : Codec α) (last : α → Option Str) (a : α) (r : Bytes) : Prop :=
  ∃ s k, last a = some s ∧ k < s.length ∧ r ++ asBytes (s.drop k) = c.encode a

/-- What becomes of cut streams, where `last` is the string that ends a value. -/
structure Cuts (c : Codec α) (last : α → Option Str) : Prop where
  eof : Errs (c.decode [])
  size : ∀ a s, c.Fits a → last a = some s → (asBytes s).length ≤ (c.encode a).length
  cut : ∀ a r, c.Fits a → r <+: c.encode a → r ≠ c.encode a →
    (Errs (c.decode r) ∧ ¬ c.LacksEnd last a r) ∨
      ((∃ b, c.decode r = .ok (b, [])) ∧ c.LacksEnd last a r)

variable {c : Codec α} {a : α} {r : Bytes} {last : α → Option Str} {n : ℕ} {d : Codec β}
  {reads : Bytes → Int32 → Prop}

theorem not_lacksEnd_none : ¬ c.LacksEnd (fun _ => none) a r := by
  rintro ⟨s, k, h, -⟩
  cases h

theorem LacksEnd.strict (h : c.LacksEnd last a r) : r <+: c.encode a ∧ r ≠ c.encode a := by
  obtain ⟨s, k, -, hk, he⟩ := h
  refine ⟨⟨_, he⟩, fun heq => ?_⟩
  rw [← heq, append_right_eq_self, asBytes_eq_nil_iff, drop_eq_nil_iff] at he
  omega

theorem errs_readExact (h : r.length < n) : Errs (readExact n r) :=
  ⟨_, if_neg (by omega)⟩

theorem cuts_of_length (hn : 0 < n) (hlen : ∀ a, (c.encode a).length = n)
    (herr : ∀ r, r.length < n → Errs (c.decode r)) : Cuts c fun _ => none where
  eof := herr [] hn
  size a s _ h := by cases h
  cut a r _ hr hne := by
    refine .inl ⟨herr r ?_, not_lacksEnd_none⟩
    rw [← hlen a]
    exact lt_of_le_of_ne hr.length_le fun he => hne (hr.eq_of_length he)

theorem cuts_u8 : Cuts u8 fun _ => none :=
  cuts_of_length Nat.one_pos (fun _ => rfl) fun _ h => (errs_readExact h).bind _

theorem errs_u32 (h : r.length < 4) : Errs (u32.decode r) := (errs_readExact h).bind _

theorem errs_i32 (h : r.length < 4) : Errs (i32.decode r) := (errs_u32 h).bind _

theorem cuts_u32 : Cuts u32 fun _ => none :=
  cuts_of_length (by decide) (fun _ => leBytes_length 4 _) fun _ h => errs_u32 h

theorem cuts_i32 : Cuts i32 fun _ => none :=
  cuts_of_length (by decide) (fun _ => leBytes_length 4 _) fun _ h => errs_i32 h

theorem cuts_bool : Cuts bool fun _ => none :=
  cuts_of_length Nat.one_pos (fun _ => rfl) fun _ h => ((errs_readExact h).bind _).bind _

@[simp] theorem length_len (n : ℕ) : (len n).length = 4 := leBytes_length 4 _

theorem errs_decodeLen (h : r.length < 4) : Errs (decodeLen r) := (errs_i32 h).bind _

theorem not_lacksEnd_of_append {r x y : Bytes}
    (henc : c.encode a = x ++ y) (hlast : ∀ s, last a = some s → (asBytes s).length ≤ y.length)
    (hr : r.length < x.length) : ¬ c.LacksEnd last a r := by
  rintro ⟨s, k, hs, -, he⟩
  have hlen := congrArg List.length he
  have hle := hlast s hs
  have hdrop : (asBytes s).length = (asBytes (s.take k)).length + (asBytes (s.drop k)).length := by
    rw [← length_append, ← asBytes_append, take_append_drop]
  rw [henc, length_append, length_append] at hlen
  omega

theorem string_decode_len {t : Bytes} (hn : n < 2 ^ 31) (ht : t.length ≤ n) :
    ((fromUtf8 t).isSome ∧ ∃ b, string.decode (len n ++ t) = .ok (b, [])) ∨
      (¬ (fromUtf8 t).isSome ∧ Errs (string.decode (len n ++ t))) := by
  unfold string
  simp only [decodeLen_len hn, bind, Except.bind, take_of_length_le ht,
    drop_eq_nil_of_le ht]
  cases hu : fromUtf8 t with
  | some u => exact .inl ⟨rfl, u, rfl⟩
  | none => exact .inr ⟨Bool.false_ne_true, _, rfl⟩

theorem cuts_string : Cuts string some where
  eof := (errs_decodeLen (by decide)).bind _
  size s t _ h := by
    cases h
    change _ ≤ (len _ ++ asBytes s).length
    rw [length_append]
    omega
  cut s r hfits hr hne := by
    rcases strict_append_cases hr hne with ⟨hr, hne⟩ | ⟨t, rfl, ht, htne⟩
    · have hlt := length_lt_of_strict hr hne
      refine .inl ⟨(errs_decodeLen (by rwa [length_len] at hlt)).bind _, ?_⟩
      refine not_lacksEnd_of_append rfl (fun t h => ?_) hlt
      cases h
      exact le_rfl
    · have hlacks : string.LacksEnd some s (len (asBytes s).length ++ t) ↔
          (fromUtf8 t).isSome := by
        rw [isSome_fromUtf8_cut ht htne]
        constructor
        · rintro ⟨u, k, hu, hk, he⟩
          cases hu
          rw [append_assoc] at he
          exact ⟨k, hk, append_cancel_left he⟩
        · rintro ⟨k, hk, he⟩
          refine ⟨s, k, rfl, hk, ?_⟩
          rw [append_assoc, he]
          rfl
      rw [hlacks]
      rcases string_decode_len hfits ht.length_le with ⟨hu, hok⟩ | ⟨hu, herr⟩
      · exact .inr ⟨hok, hu⟩
      · exact .inl ⟨herr, hu⟩

/-- What is cut off in the first of two parts is an error, as the second one has nothing to read. -/
theorem Cuts.errs_bind (hc : Cuts c last)
    (ha : c.Fits a) (hr : r <+: c.encode a) (hne : r ≠ c.encode a) {f : α × Bytes → Except Fault β}
    (hf : ∀ b, Errs (f (b, []))) : Errs (c.decode r >>= f) := by
  rcases hc.cut a r ha hr hne with ⟨herr, -⟩ | ⟨⟨b, hok⟩, -⟩
  · exact herr.bind f
  · rw [hok]
    exact hf b

theorem Cuts.pair {lastc : α → Option Str} {lastd : β → Option Str}
    (hc : Cuts c lastc) (hd : Cuts d lastd) : Cuts (c.pair d) fun v => lastd v.2 where
  eof := hc.eof.bind _
  size v s hv h := by
    change _ ≤ (c.encode v.1 ++ d.encode v.2).length
    rw [length_append]
    have := hd.size v.2 s hv.2 h
    omega
  cut v r hv hr hne := by
    rcases strict_append_cases hr hne with ⟨hr, hne⟩ | ⟨t, rfl, ht, htne⟩
    · refine .inl ⟨hc.errs_bind hv.1 hr hne fun b => hd.eof.bind _, ?_⟩
      exact not_lacksEnd_of_append rfl (hd.size v.2 · hv.2) (length_lt_of_strict hr hne)
    · have hlacks : (c.pair d).LacksEnd (fun v => lastd v.2) v (c.encode v.1 ++ t) ↔
          d.LacksEnd lastd v.2 t := by
        unfold LacksEnd
        change (∃ s k, _ ∧ _ ∧ _ = c.encode v.1 ++ d.encode v.2) ↔ _
        simp only [append_assoc, append_cancel_left_eq]
      have hdec : (c.pair d).decode (c.encode v.1 ++ t) =
          d.decode t >>= fun x => .ok ((v.1, x.1), x.2) := by
        change c.decode _ >>= _ = _
        rw [c.decode_encode _ _ hv.1]
        rfl
      rw [hlacks, hdec]
      rcases hd.cut v.2 t hv.2 ht htne with ⟨herr, hno⟩ | ⟨⟨b, hok⟩, hyes⟩
      · exact .inl ⟨herr.bind _, hno⟩
      · refine .inr ⟨⟨(v.1, b), ?_⟩, hyes⟩
        rw [hok]
        rfl

theorem Cuts.transfer {lastc : α → Option Str} {lastd : β → Option Str}
    (hc : Cuts c lastc) (f : α → β) (hdec : ∀ r, d.decode r = (c.decode r).map (Prod.map f id))
    (henc : ∀ b, d.Fits b → ∃ a, c.Fits a ∧ c.encode a = d.encode b ∧ lastc a = lastd b) :
    Cuts d lastd where
  eof := by
    obtain ⟨msg, h⟩ := hc.eof
    exact ⟨msg, by rw [hdec, h]; rfl⟩
  size b s hb h := by
    obtain ⟨a, ha, he, hl⟩ := henc b hb
    rw [← he]
    exact hc.size a s ha (hl.trans h)
  cut b r hb hr hne := by
    obtain ⟨a, ha, he, hl⟩ := henc b hb
    have hlacks : d.LacksEnd lastd b r ↔ c.LacksEnd lastc a r := by
      unfold LacksEnd
      rw [he, hl]
    rw [← he] at hr hne
    rw [hlacks, hdec]
    rcases hc.cut a r ha hr hne with ⟨⟨msg, herr⟩, hno⟩ | ⟨⟨x, hok⟩, hyes⟩
    · exact .inl ⟨⟨msg, by rw [herr]; rfl⟩, hno⟩
    · exact .inr ⟨⟨f x, by rw [hok]; rfl⟩, hyes⟩

def many (c : Codec α) (n : ℕ) : Codec (List α) where
  encode l := l.flatMap c.encode
  decode := decodeMany c n
  Fits l := l.length = n ∧ ∀ a ∈ l, c.Fits a
  decode_encode l rest h := by
    rw [← h.1]
    exact decodeMany_flatMap c l rest h.2

theorem decode_many_succ (c : Codec α) (n : ℕ) (r : Bytes) :
    (c.many (n + 1)).decode r =
      ((c.pair (c.many n)).decode r).map (Prod.map (fun v => v.1 :: v.2) id) := by
  change (c.decode r >>= fun x => decodeMany c n x.2 >>= _) =
    (c.decode r >>= fun x => decodeMany c n x.2 >>= _).map _
  cases c.decode r with
  | error e => rfl
  | ok x =>
    simp only [bind, Except.bind]
    cases decodeMany c n x.2 with
    | error e => rfl
    | ok y => rfl

theorem Cuts.many (hc : Cuts c last) (n : ℕ) :
    Cuts (c.many (n + 1)) fun l => l.getLast?.bind last := by
  induction n with
  | zero =>
    refine hc.transfer (fun a => [a]) (fun r => ?_) fun l hl => ?_
    · rw [decode_many_succ]
      change (c.decode r >>= fun x => Except.ok ((x.1, []), x.2)).map _ = _
      cases c.decode r with
      | error e => rfl
      | ok x => rfl
    · obtain ⟨a, rfl⟩ := length_eq_one_iff.mp hl.1
      exact ⟨a, hl.2 a mem_cons_self, (append_nil _).symm, rfl⟩
  | succ n ih =>
    refine (hc.pair ih).transfer (fun v => v.1 :: v.2) (decode_many_succ c (n + 1)) fun l hl => ?_
    obtain ⟨a, l, rfl⟩ := exists_cons_of_length_eq_add_one hl.1
    have hlen : l.length = n + 1 := Nat.succ_injective hl.1
    refine ⟨(a, l), ⟨hl.2 a mem_cons_self, hlen, fun b hb => ?_⟩, rfl, ?_⟩
    · exact hl.2 b (mem_cons_of_mem a hb)
    · have hne : l ≠ [] := ne_nil_of_length_eq_add_one hlen
      simp only [getLast?_cons_of_ne_nil hne]

theorem Cuts.vec (hc : Cuts c last) : Cuts c.vec fun l => l.getLast?.bind last := by
  -- an empty list ends in no string
  have hsize : ∀ l s, c.vec.Fits l → l.getLast?.bind last = some s →
      (asBytes s).length ≤ (l.flatMap c.encode).length := by
    intro l s hl h
    cases l with
    | nil => cases h
    | cons a l => exact (hc.many l.length).size (a :: l) s ⟨rfl, hl.2⟩ h
  refine ⟨(errs_decodeLen (by decide)).bind _, fun l s hl h => ?_, fun l r hl hr hne => ?_⟩
  · change _ ≤ (len _ ++ l.flatMap c.encode).length
    have := hsize l s hl h
    rw [length_append]
    omega
  · rcases strict_append_cases hr hne with ⟨hr, hne⟩ | ⟨t, rfl, ht, htne⟩
    · have hlt := length_lt_of_strict hr hne
      refine .inl ⟨(errs_decodeLen (by rwa [length_len] at hlt)).bind _, ?_⟩
      exact not_lacksEnd_of_append rfl (hsize l · hl) hlt
    · cases l with
      | nil => exact absurd (prefix_nil.mp ht) htne
      | cons a l =>
        have hlacks : c.vec.LacksEnd (fun l => l.getLast?.bind last) (a :: l)
            (len (a :: l).length ++ t) ↔
            (c.many (l.length + 1)).LacksEnd (fun l => l.getLast?.bind last) (a :: l) t := by
          change (∃ s k, _ ∧ _ ∧ _ = len _ ++ (a :: l).flatMap c.encode) ↔ _
          simp only [append_assoc, append_cancel_left_eq]
          rfl
        have hdec : c.vec.decode (len (a :: l).length ++ t) =
            (c.many (l.length + 1)).decode t := by
          change decodeLen _ >>= _ = _
          rw [decodeLen_len hl.1]
          rfl
        rw [hlacks, hdec]
        exact (hc.many l.length).cut (a :: l) t ⟨rfl, hl.2⟩ ht htne

/-- The call panics exactly if one of the lengths it reads is negative. -/
def PanicsOn (c : Codec α) (reads : Bytes → Int32 → Prop) : Prop :=
  ∀ r, c.decode r = .error .panic ↔ ∃ n < 0, reads r n

theorem readExact_ne_panic (n : ℕ) (r : Bytes) : readExact n r ≠ .error .panic := by
  unfold readExact
  split_ifs <;> simp

/-- Plain data has no lengths. -/
def readsNone (_ : Bytes) (_ : Int32) : Prop := False

theorem panicsOn_none (h : ∀ r, c.decode r ≠ .error .panic) : c.PanicsOn readsNone := by
  intro r
  simp [h r, readsNone]

theorem bind_pure_ne_panic {x : Except Fault α} {f : α → β} (h : x ≠ .error .panic) :
    x >>= (fun a => pure (f a)) ≠ .error .panic := by
  cases x with
  | ok a => simp [bind, Except.bind, pure, Except.pure]
  | error e => simpa [bind, Except.bind] using h

theorem u8_ne_panic (r : Bytes) : u8.decode r ≠ .error .panic :=
  bind_pure_ne_panic (readExact_ne_panic 1 r)

theorem u32_ne_panic (r : Bytes) : u32.decode r ≠ .error .panic :=
  bind_pure_ne_panic (readExact_ne_panic 4 r)

theorem i32_ne_panic (r : Bytes) : i32.decode r ≠ .error .panic :=
  bind_pure_ne_panic (u32_ne_panic r)

theorem bool_ne_panic (r : Bytes) : bool.decode r ≠ .error .panic :=
  bind_pure_ne_panic (u8_ne_panic r)

/-- The length at the front of the stream. -/
def LenAt (r : Bytes) (n : Int32) : Prop := ∃ r', i32.decode r = .ok (n, r')

theorem decodeLen_of_ok {r r' : Bytes} {n : Int32} (h : i32.decode r = .ok (n, r')) :
    decodeLen r = if n < 0 then .error .panic else .ok (n.toNatClampNeg, r') := by
  unfold decodeLen
  rw [h]
  change ite _ _ _ = _
  split_ifs <;> rfl

theorem decodeLen_ok_iff {x : ℕ × Bytes} :
    decodeLen r = .ok x ↔
      ∃ n r', i32.decode r = .ok (n, r') ∧ ¬ n < 0 ∧ x = (n.toNatClampNeg, r') := by
  constructor
  · intro hx
    obtain ⟨⟨n, r'⟩, h, -⟩ := bind_eq_ok.mp hx
    rw [decodeLen_of_ok h] at hx
    by_cases hn : n < 0
    · rw [if_pos hn] at hx
      cases hx
    · rw [if_neg hn] at hx
      cases hx
      exact ⟨n, r', h, hn, rfl⟩
  · rintro ⟨n, r', h, hn, rfl⟩
    rw [decodeLen_of_ok h, if_neg hn]

theorem decodeLen_eq_panic_iff : decodeLen r = .error .panic ↔ ∃ n < 0, LenAt r n := by
  constructor
  · intro hp
    rcases bind_eq_error.mp hp with h | ⟨⟨n, r'⟩, h, -⟩
    · exact absurd h (i32_ne_panic r)
    · rw [decodeLen_of_ok h] at hp
      refine ⟨n, ?_, r', h⟩
      by_contra hn
      rw [if_neg hn] at hp
      cases hp
  · rintro ⟨n, hn, r', h⟩
    rw [decodeLen_of_ok h, if_pos hn]

theorem panicsOn_string : string.PanicsOn LenAt := by
  intro r
  rw [← decodeLen_eq_panic_iff]
  change decodeLen r >>= _ = _ ↔ _
  rw [bind_eq_error, or_iff_left]
  rintro ⟨x, -, hx⟩
  dsimp only at hx
  cases hu : fromUtf8 (x.2.take x.1) with
  | some u =>
    rw [hu] at hx
    cases hx
  | none =>
    rw [hu] at hx
    cases hx

/-- The lengths that are read in two fields. -/
def readsPair (c : Codec α) (readc readd : Bytes → Int32 → Prop) (r : Bytes) (n : Int32) : Prop :=
  readc r n ∨ ∃ a r', c.decode r = .ok (a, r') ∧ readd r' n

theorem PanicsOn.pair {readc readd : Bytes → Int32 → Prop}
    (hc : c.PanicsOn readc) (hd : d.PanicsOn readd) :
    (c.pair d).PanicsOn (c.readsPair readc readd) := by
  intro r
  have hdec : (c.pair d).decode r = .error .panic ↔ c.decode r = .error .panic ∨
      ∃ a r', c.decode r = .ok (a, r') ∧ d.decode r' = .error .panic := by
    change c.decode r >>= _ = _ ↔ _
    rw [bind_eq_error]
    refine or_congr_right ?_
    constructor
    · rintro ⟨⟨a, r'⟩, ha, hx⟩
      refine ⟨a, r', ha, ?_⟩
      by_contra hne
      exact bind_pure_ne_panic hne hx
    · rintro ⟨a, r', ha, hx⟩
      refine ⟨(a, r'), ha, ?_⟩
      dsimp only
      rw [hx]
      rfl
  rw [hdec, hc r]
  simp only [hd _]
  constructor
  · rintro (⟨n, hn, h⟩ | ⟨a, r', ha, n, hn, h⟩)
    · exact ⟨n, hn, .inl h⟩
    · exact ⟨n, hn, .inr ⟨a, r', ha, h⟩⟩
  · rintro ⟨n, hn, h | ⟨a, r', ha, h⟩⟩
    · exact .inl ⟨n, hn, h⟩
    · exact .inr ⟨a, r', ha, n, hn, h⟩

theorem PanicsOn.transfer (hc : c.PanicsOn reads) (f : α → β)
    (hdec : ∀ r, d.decode r = (c.decode r).map (Prod.map f id)) : d.PanicsOn reads := by
  intro r
  rw [hdec, ← hc r]
  cases c.decode r with
  | error e => simp [Except.map]
  | ok x => simp [Except.map]

/-- The lengths that are read in a number of elements. -/
def readsMany (c : Codec α) (reads : Bytes → Int32 → Prop) : ℕ → Bytes → Int32 → Prop
  | 0 => readsNone
  | k + 1 => c.readsPair reads (readsMany c reads k)

theorem PanicsOn.many (hc : c.PanicsOn reads)
    (k : ℕ) : (c.many k).PanicsOn (c.readsMany reads k) := by
  induction k with
  | zero => exact panicsOn_none fun r h => by cases h
  | succ k ih => exact (hc.pair ih).transfer _ (decode_many_succ c k)

theorem toNatClampNeg_of_neg {n : Int32} (h : n < 0) : n.toNatClampNeg = 0 := by
  rw [Int32.lt_iff_toInt_lt] at h
  exact Int.toNat_of_nonpos h.le

/-- The lengths that are read in a sequence: its own, and those in its elements. -/
def readsVec (c : Codec α) (reads : Bytes → Int32 → Prop) (r : Bytes) (n : Int32) : Prop :=
  LenAt r n ∨ ∃ k r', i32.decode r = .ok (k, r') ∧ c.readsMany reads k.toNatClampNeg r' n

theorem PanicsOn.vec (hc : c.PanicsOn reads) : c.vec.PanicsOn (c.readsVec reads) := by
  intro r
  have hmany : ∀ k r, decodeMany c k r = .error .panic ↔ ∃ n < 0, c.readsMany reads k r n :=
    hc.many
  change decodeLen r >>= (fun x => decodeMany c x.1 x.2) = _ ↔ _
  rw [bind_eq_error, decodeLen_eq_panic_iff]
  simp only [hmany, decodeLen_ok_iff]
  constructor
  · rintro (⟨n, hn, h⟩ | ⟨x, ⟨k, r', hk, -, rfl⟩, n, hn, h⟩)
    · exact ⟨n, hn, .inl h⟩
    · exact ⟨n, hn, .inr ⟨k, r', hk, h⟩⟩
  · rintro ⟨n, hn, h | ⟨k, r', hk, h⟩⟩
    · exact .inl ⟨n, hn, h⟩
    · by_cases hneg : k < 0
      · rw [toNatClampNeg_of_neg hneg] at h
        exact h.elim
      · exact .inr ⟨_, ⟨k, r', hk, hneg, rfl⟩, n, hn, h⟩

end Codec

end Magisk
