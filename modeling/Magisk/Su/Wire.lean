import Magisk.ShortStreams
import Magisk.Su.Client

namespace Magisk.Su

namespace SuRequest

open Codec

abbrev Fields : Type := Int32 × Int32 × Bool × Bool × Bool × Str × Str × Str × List UInt32

def ofFields : Fields → SuRequest
  | (targetUid, targetPid, login, keepEnv, dropCap, shell, command, context, gids) =>
    ⟨targetUid, targetPid, login, keepEnv, dropCap, shell, command, context, gids⟩

def fields (req : SuRequest) : Fields :=
  (req.targetUid, req.targetPid, req.login, req.keepEnv, req.dropCap, req.shell, req.command,
    req.context, req.gids)

def fieldsCodec : Codec Fields :=
  i32.pair (i32.pair (bool.pair (bool.pair (bool.pair
    (string.pair (string.pair (string.pair u32.vec)))))))

theorem decode_eq_fields (r : Bytes) :
    codec.decode r = (fieldsCodec.decode r).map (Prod.map ofFields id) := by
  change _ = Prod.map ofFields id <$> _
  simp only [codec, fieldsCodec, pair, map_bind, bind_assoc, pure_bind, map_pure]
  rfl

theorem encode_eq_fields (req : SuRequest) :
    fieldsCodec.encode req.fields = codec.encode req := by
  simp only [codec, fieldsCodec, pair, fields, List.append_assoc]

theorem fits_fields {req : SuRequest} (h : codec.Fits req) : fieldsCodec.Fits req.fields :=
  ⟨trivial, trivial, trivial, trivial, trivial, h.1, h.2.1, h.2.2.1, h.2.2.2⟩

theorem cuts_codec : Cuts codec fun _ => none := by
  have hgids : Cuts u32.vec fun _ => none := by
    have hnone : (fun _ => none : List UInt32 → Option Str) =
        fun l => l.getLast?.bind fun _ => none := by
      funext l
      exact (Option.bind_fun_none _).symm
    rw [hnone]
    exact cuts_u32.vec
  have hfields : Cuts fieldsCodec fun _ => none :=
    cuts_i32.pair (cuts_i32.pair (cuts_bool.pair (cuts_bool.pair (cuts_bool.pair
      (cuts_string.pair (cuts_string.pair (cuts_string.pair hgids)))))))
  exact hfields.transfer ofFields decode_eq_fields fun req h =>
    ⟨req.fields, fits_fields h, encode_eq_fields req, rfl⟩

/-- The lengths that are read in a request. -/
def reads : Bytes → Int32 → Prop :=
  i32.readsPair readsNone (i32.readsPair readsNone (bool.readsPair readsNone
    (bool.readsPair readsNone (bool.readsPair readsNone (string.readsPair LenAt
      (string.readsPair LenAt (string.readsPair LenAt (u32.readsVec readsNone))))))))

theorem panicsOn_codec : codec.PanicsOn reads := by
  have hi32 : i32.PanicsOn readsNone := panicsOn_none i32_ne_panic
  have hbool : bool.PanicsOn readsNone := panicsOn_none bool_ne_panic
  have hgids : u32.vec.PanicsOn (u32.readsVec readsNone) := (panicsOn_none u32_ne_panic).vec
  have hfields : fieldsCodec.PanicsOn reads :=
    hi32.pair (hi32.pair (hbool.pair (hbool.pair (hbool.pair
      (panicsOn_string.pair (panicsOn_string.pair (panicsOn_string.pair hgids)))))))
  exact hfields.transfer ofFields decode_eq_fields

end SuRequest

inductive WireType
  | u8
  | u32
  | i32
  | bool
  | string
  | vec (t : WireType)
  | suRequest
deriving DecidableEq, Repr

namespace WireType

abbrev El : WireType → Type
  | .u8 => UInt8
  | .u32 => UInt32
  | .i32 => Int32
  | .bool => Bool
  | .string => Str
  | .vec t => List t.El
  | .suRequest => SuRequest

def codec : (t : WireType) → Codec t.El
  | .u8 => Codec.u8
  | .u32 => Codec.u32
  | .i32 => Codec.i32
  | .bool => Codec.bool
  | .string => Codec.string
  | .vec t => t.codec.vec
  | .suRequest => SuRequest.codec

/-- The lengths in a value: those of its texts, in bytes, and those of its sequences. -/
def lengths : (t : WireType) → t.El → List ℕ
  | .u8, _ => []
  | .u32, _ => []
  | .i32, _ => []
  | .bool, _ => []
  | .string, s => [(asBytes s).length]
  | .vec t, l => l.length :: l.flatMap t.lengths
  | .suRequest, req =>
    [(asBytes req.shell).length, (asBytes req.command).length, (asBytes req.context).length,
      req.gids.length]

def Short (t : WireType) (v : t.El) : Prop := ∀ n ∈ t.lengths v, n < 2 ^ 31

instance (t : WireType) (v : t.El) : Decidable (t.Short v) :=
  inferInstanceAs (Decidable (∀ n ∈ t.lengths v, n < 2 ^ 31))

theorem fits_iff_short (t : WireType) (v : t.El) : t.codec.Fits v ↔ t.Short v := by
  unfold Short
  induction t with
  | u8 => simp [codec, lengths, Codec.u8]
  | u32 => simp [codec, lengths, Codec.u32]
  | i32 => simp [codec, lengths, Codec.i32]
  | bool => simp [codec, lengths, Codec.bool]
  | string => simp [codec, lengths, Codec.string]
  | suRequest => simp [codec, lengths, SuRequest.codec, Codec.string, Codec.vec, Codec.u32]
  | vec t ih =>
    change v.length < 2 ^ 31 ∧ (∀ a ∈ v, t.codec.Fits a) ↔ _
    simp only [ih, lengths, List.forall_mem_cons, List.forall_mem_flatMap]

/-- What is sent is received, and what follows it is left in the stream. -/
theorem decode_encode_append (t : WireType) (v : t.El) (rest : Bytes) (h : t.Short v) :
    t.codec.decode (t.codec.encode v ++ rest) = .ok (v, rest) :=
  t.codec.decode_encode v rest ((t.fits_iff_short v).mpr h)

theorem decode_encode_append_requests :
    let req : SuRequest :=
      { targetUid := 2000, login := true, command := "id".toList, gids := [1004, 3003] }
    let t : WireType := .vec .suRequest
    t.Short [req, {}] ∧
      t.codec.decode (t.codec.encode [req, {}] ++ [7]) = .ok ([req, {}], [7]) := by
  intro req t
  have h : t.Short [req, {}] := by decide
  exact ⟨h, decode_encode_append t [req, {}] [7] h⟩

/-- The string that the encoding ends with, if it does. -/
def last : (t : WireType) → t.El → Option Str
  | .u8, _ => none
  | .u32, _ => none
  | .i32, _ => none
  | .bool, _ => none
  | .string, s => some s
  | .vec t, l => l.getLast?.bind t.last
  | .suRequest, _ => none

theorem cuts_codec (t : WireType) : Codec.Cuts t.codec t.last := by
  induction t with
  | u8 => exact Codec.cuts_u8
  | u32 => exact Codec.cuts_u32
  | i32 => exact Codec.cuts_i32
  | bool => exact Codec.cuts_bool
  | string => exact Codec.cuts_string
  | suRequest => exact SuRequest.cuts_codec
  | vec t ih => exact ih.vec

def reads : WireType → Bytes → Int32 → Prop
  | .u8 => Codec.readsNone
  | .u32 => Codec.readsNone
  | .i32 => Codec.readsNone
  | .bool => Codec.readsNone
  | .string => Codec.LenAt
  | .vec t => t.codec.readsVec t.reads
  | .suRequest => SuRequest.reads

theorem panicsOn_codec (t : WireType) : t.codec.PanicsOn t.reads := by
  induction t with
  | u8 => exact Codec.panicsOn_none Codec.u8_ne_panic
  | u32 => exact Codec.panicsOn_none Codec.u32_ne_panic
  | i32 => exact Codec.panicsOn_none Codec.i32_ne_panic
  | bool => exact Codec.panicsOn_none Codec.bool_ne_panic
  | string => exact Codec.panicsOn_string
  | suRequest => exact SuRequest.panicsOn_codec
  | vec t ih => exact ih.vec

/-- The stream ends inside the encoding of some value. -/
def CutOff (t : WireType) (r : Bytes) : Prop :=
  ∃ v, t.Short v ∧ r <+: t.codec.encode v ∧ r ≠ t.codec.encode v

theorem errs_or_lacksEnd {t : WireType} {v : t.El} {r : Bytes} (hv : t.Short v)
    (hr : r <+: t.codec.encode v) (hne : r ≠ t.codec.encode v) :
    (Errs (t.codec.decode r) ∧ ¬ t.codec.LacksEnd t.last v r) ∨
      ((∃ b, t.codec.decode r = .ok (b, [])) ∧ t.codec.LacksEnd t.last v r) :=
  t.cuts_codec.cut v r ((t.fits_iff_short v).mpr hv) hr hne

/-- A stream that is cut off or holds a negative length is an error exactly where no negative
length is read and the cut is not between two characters of a string at the end. -/
theorem errs_decode_iff (t : WireType) (r : Bytes) :
    (t.CutOff r ∨ (∃ n < 0, t.reads r n) → Errs (t.codec.decode r)) ↔
      (∀ n, t.reads r n → ¬ n < 0) ∧ ∀ v, t.Short v → ¬ t.codec.LacksEnd t.last v r := by
  constructor
  · intro herr
    refine ⟨fun n hread hneg => ?_, fun v hv hlacks => ?_⟩
    · have hpanic := (t.panicsOn_codec r).mpr ⟨n, hneg, hread⟩
      have := herr (.inr ⟨n, hneg, hread⟩)
      rw [hpanic] at this
      exact not_errs_panic this
    · obtain ⟨hr, hne⟩ := hlacks.strict
      rcases errs_or_lacksEnd hv hr hne with ⟨-, hno⟩ | ⟨⟨b, hok⟩, -⟩
      · exact hno hlacks
      · have := herr (.inl ⟨v, hv, hr, hne⟩)
        rw [hok] at this
        exact not_errs_ok this
  · rintro ⟨hlen, hend⟩ (⟨v, hv, hr, hne⟩ | ⟨n, hneg, hread⟩)
    · rcases errs_or_lacksEnd hv hr hne with ⟨herr, -⟩ | ⟨-, hlacks⟩
      · exact herr
      · exact absurd hlacks (hend v hv)
    · exact absurd hneg (hlen n hread)

/-- The shell of this request is -1 bytes long. -/
def negativeShell : Bytes := [0, 0, 0, 0, 0, 0, 0, 0, 0, 0, 0, 255, 255, 255, 255]

theorem decode_negativeShell :
    ((∃ n < 0, WireType.suRequest.reads negativeShell n) ∧
      WireType.suRequest.codec.decode negativeShell = .error .panic) ∧
    -- one of five characters
    WireType.string.CutOff [5, 0, 0, 0, 97] ∧
      WireType.string.codec.decode [5, 0, 0, 0, 97] = .ok (['a'], []) := by
  have hpanic : WireType.suRequest.codec.decode negativeShell = .error .panic := by
    decide +kernel
  refine ⟨⟨(panicsOn_codec .suRequest _).mp hpanic, hpanic⟩, ?_, by decide +kernel⟩
  exact ⟨"abcde".toList, by decide, by decide +kernel, by decide +kernel⟩

end WireType

end Magisk.Su
