import Magisk.BufWriter
import Magisk.BinarySearch
import Magisk.NamedTree
import Magisk.Resetprop.Message

namespace Magisk.Resetprop

open List Option

/-- The name in the order of `Option`, where `None` comes first. -/
def Record.key (r : Record) : WithBot Str := r.name

/-- How the file operations of `proto_write_props` end. -/
structure WriteFaults where
  mkstemp : Bool
  answers : List WriteAnswer
  cloneAttr : Bool
  rename : Bool
  deriving DecidableEq, Repr

/-- All of them succeed. -/
def WriteFaults.clear : WriteFaults := ⟨true, [], true, true⟩

def bufSize : ℕ := 8192

/-- Whether the call returns `Ok`, and what `persistent_properties` holds then. -/
def protoWriteProps (c : Codec) (o : WriteFaults) (props : List Record) (file : Bytes) :
    Bool × Bytes :=
  if o.mkstemp = false then (false, file)
  else
    match (BufWriter.create bufSize o.answers).putAll (c.pieces props) with
    | none => (false, file)
    | some w =>
      -- the writer goes out of scope and is dropped
      let tmp := w.dropped
      if o.cloneAttr = false then (false, file)
      else if o.rename = false then (false, file)
      else (true, tmp)

/-- A call either fails and leaves the file, or succeeds with the whole message, exactly when
the flush of the dropped writer loses nothing or another step fails. -/
theorem protoWriteProps_iff (c : Codec) (o : WriteFaults) (props : List Record) (file : Bytes) :
    (protoWriteProps c o props file = (false, file) ∨
      protoWriteProps c o props file = (true, c.encode props)) ↔
    ∀ w, (BufWriter.create bufSize o.answers).putAll (c.pieces props) = some w →
      w.lost = [] ∨ o.mkstemp = false ∨ o.cloneAttr = false ∨ o.rename = false := by
  unfold protoWriteProps
  cases hput : (BufWriter.create bufSize o.answers).putAll (c.pieces props) with
  | none => simp
  | some w =>
    have hheld : w.held = c.encode props := by
      rw [BufWriter.putAll_held hput]
      rfl
    split_ifs with hm hc hr
    · simp [hm]
    · simp [hc]
    · simp [hr]
    · simp only [Prod.mk.injEq, Bool.true_eq_false, false_and, true_and, false_or,
        some.injEq, forall_eq', hm, hc, hr, or_false]
      rw [← hheld]
      exact w.dropped_eq_held_iff

/-- The message is still in the buffer when the writer is dropped, and the write of the drop
fails: the call returns `Ok` with an empty file. -/
theorem protoWriteProps_lost :
    protoWriteProps messageCodec ⟨true, [.failed], true, true⟩
        [⟨some "a".toList, some "b".toList⟩] (lit "old") = (true, []) ∧
      messageCodec.encode [⟨some "a".toList, some "b".toList⟩] ≠ [] := by
  decide +kernel

theorem protoWriteProps_clear (c : Codec) (props : List Record) (file : Bytes) :
    protoWriteProps c .clear props file = (true, c.encode props) := by
  obtain ⟨w, hw, hlost⟩ := BufWriter.putAll_complete (w := .create bufSize []) (c.pieces props) rfl
  have hheld : w.held = c.encode props := by
    rw [BufWriter.putAll_held hw]
    rfl
  have hdropped : w.dropped = c.encode props := by
    rw [← hheld]
    exact w.dropped_eq_held_iff.mpr hlost
  rw [protoWriteProps, WriteFaults.clear]
  simp only [hw, Bool.true_eq_false, if_false, hdropped]

/-- `MappedFile::open`. `map_fd` passes the size of the file to `mmap`, which refuses size 0. -/
def mapFile (file : Bytes) : Option Bytes := if file = [] then none else some file

/-- The records, sorted by their names. -/
def protoReadProps (c : Codec) (file : Bytes) : Option (List Record) := do
  let m ← mapFile file
  let props ← c.fromReader m
  return props.insertionSort fun a b => a.key ≤ b.key

def compareNames : Option Str → Option Str → Ordering
  | none, none => .eq
  | none, some _ => .lt
  | some _, none => .gt
  | some a, some b => if a < b then .lt else if b < a then .gt else .eq

def findIndex (props : List Record) (name : Str) : Except ℕ ℕ :=
  binarySearchBy props fun p => compareNames p.name (some name)

def findProp (props : List Record) (name : Str) : Option Record :=
  match findIndex props name with
  | .ok idx => props[idx]?
  | .error _ => none

def persistGetProp (c : Codec) (file : Bytes) (key : Str) : Option Str := do
  let props ← protoReadProps c file
  let prop ← findProp props key
  match prop with
  | ⟨some _, some v⟩ => some v
  | _ => none

def persistDeleteProp (c : Codec) (o : WriteFaults) (file : Bytes) (key : Str) : Bool × Bytes :=
  match protoReadProps c file with
  | none => (false, file)
  | some props =>
    match findIndex props key with
    | .error _ => (false, file)
    | .ok idx => protoWriteProps c o (props.eraseIdx idx) file

/-- The records with the value set: in place, or in a new record at the place of the name. -/
def setProp (props : List Record) (key val : Str) : List Record :=
  match findIndex props key with
  | .ok idx => props.modify idx fun p => { p with value := some val }
  | .error idx => props.insertIdx idx ⟨some key, some val⟩

def persistSetProp (c : Codec) (o : WriteFaults) (file : Bytes) (key val : Str) : Bool × Bytes :=
  match protoReadProps c file with
  | none => (false, file)
  | some props => protoWriteProps c o (setProp props key val) file

inductive Call where
  | set (key val : Str)
  | delete (key : Str)
  | get (key : Str)
  deriving DecidableEq, Repr

/-- What a call returns: success or failure, or a value. -/
inductive Reply where
  | done (ok : Bool)
  | value (v : Option Str)
  deriving DecidableEq, Repr

/-- One call, when all file operations succeed. -/
def runCall (c : Codec) (file : Bytes) : Call → Reply × Bytes
  | .set key val => (persistSetProp c .clear file key val).map .done id
  | .delete key => (persistDeleteProp c .clear file key).map .done id
  | .get key => (.value (persistGetProp c file key), file)

def runCalls (c : Codec) : Bytes → List Call → List Reply × Bytes
  | file, [] => ([], file)
  | file, call :: calls =>
    let (reply, file) := runCall c file call
    (runCalls c file calls).map (reply :: ·) id

/-- A finite map from names to values. A name may be there without a value. -/
abbrev PropMap := Option Str → Option (Option Str)

namespace PropMap

def empty : PropMap := fun _ => none

def call (m : PropMap) : Call → Reply × PropMap
  | .set key val => (.done true, Function.update m (some key) (some (some val)))
  | .delete key => (.done (m (some key)).isSome, Function.update m (some key) none)
  | .get key => (.value (m (some key)).join, m)

def calls : PropMap → List Call → List Reply × PropMap
  | m, [] => ([], m)
  | m, c :: cs =>
    let (reply, m) := m.call c
    (m.calls cs).map (reply :: ·) id

end PropMap

/-- The map that the records stand for. -/
def valueOf (props : List Record) : PropMap := fun n =>
  (props.map fun p => (p.name, p.value)).lookup n

def Distinct (props : List Record) : Prop := (props.map Record.name).Nodup

instance : DecidablePred Distinct := fun props =>
  inferInstanceAs (Decidable (props.map Record.name).Nodup)

def SortedProps (props : List Record) : Prop := props.Pairwise fun a b => a.key < b.key

variable {props : List Record} {a b : WithBot Str}

theorem SortedProps.distinct (h : SortedProps props) : Distinct props :=
  pairwise_map.mpr (h.imp fun hab => ne_of_lt hab)

theorem sortedProps_insertionSort (h : Distinct props) :
    SortedProps (props.insertionSort fun a b => a.key ≤ b.key) := by
  have hle := pairwise_insertionSort (fun a b : Record => a.key ≤ b.key) props
  have hne : (props.insertionSort fun a b => a.key ≤ b.key).Pairwise fun a b => a.name ≠ b.name :=
    pairwise_map.mp (((perm_insertionSort _ props).map Record.name).nodup_iff.mpr h)
  exact (hle.and hne).imp fun hab => lt_of_le_of_ne hab.1 hab.2

theorem compareNames_lt (h : a < b) : compareNames a b = .lt := by
  cases b with
  | bot => exact absurd h not_lt_bot
  | coe b =>
    cases a with
    | bot => rfl
    | coe a => exact if_pos (WithBot.coe_lt_coe.mp h)

theorem compareNames_gt (h : b < a) : compareNames a b = .gt := by
  cases a with
  | bot => exact absurd h not_lt_bot
  | coe a =>
    cases b with
    | bot => rfl
    | coe b =>
      have hba := WithBot.coe_lt_coe.mp h
      exact (if_neg hba.not_gt).trans (if_pos hba)

theorem compareNames_self (a : Option Str) : compareNames a a = .eq := by
  cases a with
  | none => rfl
  | some a => exact (if_neg (lt_irrefl a)).trans (if_neg (lt_irrefl a))

def recordOf (key : Str) : Option (Option Str) → List Record
  | none => []
  | some value => [⟨some key, value⟩]

/-- The records before and behind the place of a name in a sorted list. -/
structure Cut (key : Str) (less greater : List Record) : Prop where
  sorted_less : SortedProps less
  sorted_greater : SortedProps greater
  less_lt : ∀ p ∈ less, p.key < key
  lt_greater : ∀ p ∈ greater, key < p.key

theorem SortedProps.cut (h : SortedProps props) (key : Str) :
    ∃ less o greater, props = less ++ (recordOf key o ++ greater) ∧ Cut key less greater := by
  induction props with
  | nil => exact ⟨[], none, [], rfl, .nil, .nil, by simp, by simp⟩
  | cons p props ih =>
    obtain ⟨hp, hprops⟩ := pairwise_cons.mp h
    rcases lt_trichotomy p.key key with hlt | heq | hgt
    · obtain ⟨less, o, greater, rfl, hcut⟩ := ih hprops
      have hpless : ∀ q ∈ less, p.key < q.key := fun q hq => hp q (mem_append_left _ hq)
      exact ⟨p :: less, o, greater, rfl, pairwise_cons.mpr ⟨hpless, hcut.sorted_less⟩,
        hcut.sorted_greater, forall_mem_cons.mpr ⟨hlt, hcut.less_lt⟩, hcut.lt_greater⟩
    · obtain ⟨name, value⟩ := p
      obtain rfl : name = some key := heq
      exact ⟨[], some value, props, rfl, .nil, hprops, by simp, hp⟩
    · exact ⟨[], none, p :: props, rfl, .nil, h, by simp,
        forall_mem_cons.mpr ⟨hgt, fun q hq => hgt.trans (hp q hq)⟩⟩

namespace Cut

variable {less greater : List Record} {key : Str}

theorem findIndex_none (h : Cut key less greater) :
    findIndex (less ++ (recordOf key none ++ greater)) key = .error less.length :=
  binarySearchBy_error (fun p hp => compareNames_lt (h.less_lt p hp))
    fun p hp => compareNames_gt (h.lt_greater p hp)

theorem findIndex_some (h : Cut key less greater) (value : Option Str) :
    findIndex (less ++ (recordOf key (some value) ++ greater)) key = .ok less.length :=
  binarySearchBy_ok (fun p hp => compareNames_lt (h.less_lt p hp))
    (compareNames_self (some key)) fun p hp => compareNames_gt (h.lt_greater p hp)

theorem sorted (h : Cut key less greater) (o : Option (Option Str)) :
    SortedProps (less ++ (recordOf key o ++ greater)) := by
  have hlg : ∀ p ∈ less, ∀ q ∈ greater, p.key < q.key := fun p hp q hq =>
    (h.less_lt p hp).trans (h.lt_greater q hq)
  cases o with
  | none => exact pairwise_append.mpr ⟨h.sorted_less, h.sorted_greater, hlg⟩
  | some value =>
    refine pairwise_append.mpr ⟨h.sorted_less,
      pairwise_cons.mpr ⟨h.lt_greater, h.sorted_greater⟩, fun p hp => ?_⟩
    exact forall_mem_cons.mpr ⟨h.less_lt p hp, hlg p hp⟩

theorem valueOf_append (a b : List Record) (n : Option Str) :
    valueOf (a ++ b) n = (valueOf a n).or (valueOf b n) := by
  rw [valueOf, map_append, lookup_append]
  rfl

theorem valueOf_eq (h : Cut key less greater) (o : Option (Option Str)) :
    valueOf (less ++ (recordOf key o ++ greater)) =
      Function.update (valueOf (less ++ greater)) (some key) o := by
  have habsent (l : List Record) (hl : ∀ p ∈ l, p.name ≠ some key) :
      valueOf l (some key) = none := by
    refine lookup_eq_none_iff_forall.mpr fun e he => ?_
    obtain ⟨p, hp, rfl⟩ := List.mem_map.mp he
    exact hl p hp
  have hless := habsent less fun p hp => (h.less_lt p hp).ne
  have hgreater := habsent greater fun p hp => (h.lt_greater p hp).ne'
  funext n
  rw [valueOf_append, valueOf_append]
  by_cases hn : n = some key
  · rw [hn, Function.update_self, hless, hgreater, none_or, or_none]
    cases o with
    | none => rfl
    | some value => exact lookup_cons_self
  · have hmid : valueOf (recordOf key o) n = none := by
      cases o with
      | none => rfl
      | some value => exact lookup_cons_ne hn value []
    rw [Function.update_of_ne hn, hmid, none_or, valueOf_append]

theorem setProp_eq (h : Cut key less greater) (o : Option (Option Str)) (val : Str) :
    setProp (less ++ (recordOf key o ++ greater)) key val =
      less ++ (recordOf key (some (some val)) ++ greater) := by
  unfold setProp
  cases o with
  | none =>
    rw [h.findIndex_none]
    exact insertIdx_length_append less greater _
  | some value =>
    rw [h.findIndex_some]
    exact modify_length_append less greater _ _

theorem eraseIdx_eq (value : Option Str) :
    (less ++ (recordOf key (some value) ++ greater)).eraseIdx less.length =
      less ++ (recordOf key none ++ greater) := by
  rw [eraseIdx_append_of_length_le le_rfl, Nat.sub_self]
  rfl

theorem findProp_eq (h : Cut key less greater) (o : Option (Option Str)) :
    findProp (less ++ (recordOf key o ++ greater)) key = o.map fun value => ⟨some key, value⟩ := by
  unfold findProp
  cases o with
  | none =>
    rw [h.findIndex_none]
    rfl
  | some value =>
    rw [h.findIndex_some]
    simp [recordOf]

end Cut

theorem valueOf_eq_empty_iff : valueOf props = PropMap.empty ↔ props = [] := by
  refine ⟨fun h => ?_, fun h => h ▸ rfl⟩
  cases props with
  | nil => rfl
  | cons p props =>
    have hp : valueOf (p :: props) p.name = some p.value := lookup_cons_self
    rw [h] at hp
    cases hp

/-- A message without records has no bytes. -/
structure Codec.Lawful (c : Codec) : Prop where
  inverse : ∀ props, c.fromReader (c.encode props) = some props
  encode_nil : c.encode [] = []

theorem messageCodec_lawful : messageCodec.Lawful := ⟨messageCodec_inverse, rfl⟩

/-- The file holds records with different names that stand for the map. -/
def Represents (c : Codec) (file : Bytes) (m : PropMap) : Prop :=
  ∃ props, c.fromReader file = some props ∧ (props = [] → file = []) ∧ Distinct props ∧
    valueOf props = m

/-- No property is set while there is none. -/
def SetsBesideOthers : PropMap → List Call → Prop
  | _, [] => True
  | m, call :: calls =>
    (∀ key val, call = .set key val → m ≠ .empty) ∧ SetsBesideOthers (m.call call).2 calls

section Refinement

variable {c : Codec} {file : Bytes} {m : PropMap}

theorem Represents.encode (hc : c.Lawful) (h : Distinct props) :
    Represents c (c.encode props) (valueOf props) :=
  ⟨props, hc.inverse props, fun hnil => by rw [hnil, hc.encode_nil], h, rfl⟩

theorem protoReadProps_eq (h : Represents c file m) (hm : m ≠ .empty) (hc : c.Lawful) :
    ∃ props, protoReadProps c file = some props ∧ SortedProps props ∧ valueOf props = m := by
  obtain ⟨props, hread, -, hdistinct, rfl⟩ := h
  have hfile : file ≠ [] := by
    rintro rfl
    have hnil := hc.inverse []
    rw [hc.encode_nil, hread] at hnil
    exact hm (valueOf_eq_empty_iff.mpr (some.inj hnil))
  refine ⟨_, by rw [protoReadProps, mapFile, if_neg hfile, bind_eq_bind, bind_some, hread]; rfl,
    sortedProps_insertionSort hdistinct, ?_⟩
  funext n
  have hnodup : (props.map fun p => (p.name, p.value)).map Prod.fst = props.map Record.name := by
    rw [List.map_map]
    rfl
  exact (lookup_perm (hnodup ▸ hdistinct) ((perm_insertionSort _ props).map _).symm n).symm

theorem protoReadProps_of_empty (h : Represents c file .empty) : protoReadProps c file = none := by
  obtain ⟨props, -, hnil, -, hvalue⟩ := h
  rw [hnil (valueOf_eq_empty_iff.mp hvalue), protoReadProps, mapFile, if_pos rfl]
  rfl

/-- On a store with records each call does what it does to the map. -/
theorem runCall_of_ne_empty (hc : c.Lawful) (h : Represents c file m) (hm : m ≠ .empty)
    (call : Call) : (runCall c file call).1 = (m.call call).1 ∧
      Represents c (runCall c file call).2 (m.call call).2 := by
  obtain ⟨props, hread, hsorted, hvalue⟩ := protoReadProps_eq h hm hc
  cases call with
  | set key val =>
    obtain ⟨less, o, greater, rfl, hcut⟩ := hsorted.cut key
    rw [hcut.valueOf_eq] at hvalue
    have hset : runCall c file (.set key val) = (.done true,
        c.encode (less ++ (recordOf key (some (some val)) ++ greater))) := by
      rw [runCall, persistSetProp, hread]
      dsimp only
      rw [hcut.setProp_eq, protoWriteProps_clear]
      rfl
    have hcall : (m.call (.set key val)).2 =
        valueOf (less ++ (recordOf key (some (some val)) ++ greater)) := by
      rw [hcut.valueOf_eq, PropMap.call, ← hvalue, Function.update_idem]
    rw [hset, hcall]
    exact ⟨rfl, .encode hc (hcut.sorted _).distinct⟩
  | delete key =>
    obtain ⟨less, o, greater, rfl, hcut⟩ := hsorted.cut key
    rw [hcut.valueOf_eq] at hvalue
    have hkey : m (some key) = o := by rw [← hvalue, Function.update_self]
    cases o with
    | none =>
      have hdel : runCall c file (.delete key) = (.done false, file) := by
        rw [runCall, persistDeleteProp, hread]
        dsimp only
        rw [hcut.findIndex_none]
        rfl
      rw [hdel, PropMap.call, hkey]
      refine ⟨rfl, ?_⟩
      rw [← hkey, Function.update_eq_self]
      exact h
    | some value =>
      have hdel : runCall c file (.delete key) = (.done true,
          c.encode (less ++ (recordOf key none ++ greater))) := by
        rw [runCall, persistDeleteProp, hread]
        dsimp only
        rw [hcut.findIndex_some]
        dsimp only
        rw [Cut.eraseIdx_eq, protoWriteProps_clear]
        rfl
      have hcall : m.call (.delete key) =
          (.done true, valueOf (less ++ (recordOf key none ++ greater))) := by
        rw [hcut.valueOf_eq, PropMap.call, hkey, ← hvalue, Function.update_idem]
        rfl
      rw [hdel, hcall]
      exact ⟨rfl, .encode hc (hcut.sorted _).distinct⟩
  | get key =>
    obtain ⟨less, o, greater, rfl, hcut⟩ := hsorted.cut key
    rw [hcut.valueOf_eq] at hvalue
    have hkey : m (some key) = o := by rw [← hvalue, Function.update_self]
    have hget : persistGetProp c file key = o.join := by
      rw [persistGetProp, hread, bind_eq_bind, bind_some, hcut.findProp_eq]
      cases o with
      | none => rfl
      | some value => cases value <;> rfl
    rw [runCall, PropMap.call, hget, hkey]
    exact ⟨rfl, h⟩

/-- On a store without records every call fails. -/
theorem runCall_of_empty (h : Represents c file .empty) (call : Call) :
    runCall c file call =
      ((match call with | .get _ => .value none | _ => .done false), file) := by
  have hread := protoReadProps_of_empty h
  cases call with
  | set key val => rw [runCall, persistSetProp, hread]; rfl
  | delete key => rw [runCall, persistDeleteProp, hread]; rfl
  | get key => rw [runCall, persistGetProp, hread]; rfl

theorem runCall_refines_iff (hc : c.Lawful) (h : Represents c file m) (call : Call) :
    ((runCall c file call).1 = (m.call call).1 ∧
      Represents c (runCall c file call).2 (m.call call).2) ↔
    ∀ key val, call = .set key val → m ≠ .empty := by
  by_cases hm : m = .empty
  · subst hm
    rw [runCall_of_empty h]
    cases call with
    | set key val => simp [PropMap.call]
    | delete key =>
      have hcall : PropMap.empty.call (.delete key) = (.done false, .empty) := by
        show (Reply.done false,
          Function.update PropMap.empty (some key) (PropMap.empty (some key))) = _
        rw [Function.update_eq_self]
      simpa [hcall] using h
    | get key => simpa [PropMap.call, PropMap.empty] using h
  · simp only [hm, ne_eq, not_false_eq_true, implies_true, iff_true]
    exact runCall_of_ne_empty hc h hm call

/-- The calls give the replies of the map and leave a store of the map that results, exactly when
no property is set in an empty store. -/
theorem runCalls_refines_iff (hc : c.Lawful) (h : Represents c file m) (calls : List Call) :
    ((runCalls c file calls).1 = (m.calls calls).1 ∧
      Represents c (runCalls c file calls).2 (m.calls calls).2) ↔ SetsBesideOthers m calls := by
  induction calls generalizing file m with
  | nil => exact iff_of_true ⟨rfl, h⟩ trivial
  | cons call calls ih =>
    have hstep := runCall_refines_iff hc h call
    have hreplies : (runCalls c file (call :: calls)).1 = (m.calls (call :: calls)).1 ↔
        (runCall c file call).1 = (m.call call).1 ∧
          (runCalls c (runCall c file call).2 calls).1 = ((m.call call).2.calls calls).1 :=
      cons_eq_cons
    rw [hreplies, SetsBesideOthers, ← hstep]
    constructor
    · rintro ⟨⟨hreply, hrest⟩, hlast⟩
      -- a reply of the map tells that the store was not empty
      have hnext := hstep.mpr fun key val hset hm => by
        rw [hset, hm, runCall_of_empty (hm ▸ h)] at hreply
        cases hreply
      exact ⟨hnext, (ih hnext.2).mp ⟨hrest, hlast⟩⟩
    · rintro ⟨hnext, hrest⟩
      obtain ⟨hreplies, hlast⟩ := (ih hnext.2).mpr hrest
      exact ⟨⟨hnext.1, hreplies⟩, hlast⟩

end Refinement

/-- Two properties, not in the order of their names. -/
def twoProps : List Record :=
  [⟨some "b".toList, some "2".toList⟩, ⟨some "a".toList, some "1".toList⟩]

theorem runCalls_twoProps :
    (runCalls messageCodec (messageCodec.encode twoProps)
      [.set "c".toList "3".toList, .get "a".toList, .delete "b".toList, .get "b".toList,
        .delete "d".toList, .get "c".toList]).1 =
      [.done true, .value (some "1".toList), .done true, .value none, .done false,
        .value (some "3".toList)] := by
  have hrecords : valueOf twoProps ≠ .empty := fun h => by cases valueOf_eq_empty_iff.mp h
  refine ((runCalls_refines_iff messageCodec_lawful
    (Represents.encode messageCodec_lawful (by decide)) _).mpr ?_).1.trans (by decide)
  simp [SetsBesideOthers, hrecords]

/-- The only property is deleted, and then another one is set. -/
theorem runCalls_emptied :
    Represents messageCodec (messageCodec.encode [⟨some "a".toList, some "1".toList⟩])
        (valueOf [⟨some "a".toList, some "1".toList⟩]) ∧
      (runCalls messageCodec (messageCodec.encode [⟨some "a".toList, some "1".toList⟩])
        [.delete "a".toList, .set "b".toList "2".toList, .get "b".toList]).1 =
          [.done true, .done false, .value none] ∧
      ((valueOf [⟨some "a".toList, some "1".toList⟩]).calls
        [.delete "a".toList, .set "b".toList "2".toList, .get "b".toList]).1 =
          [.done true, .done true, .value (some "2".toList)] :=
  ⟨Represents.encode messageCodec_lawful (by decide), by decide +kernel, by decide⟩

end Magisk.Resetprop
