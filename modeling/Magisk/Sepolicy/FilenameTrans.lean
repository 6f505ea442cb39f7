import Magisk.Memory
import Magisk.Sepolicy.Rules

namespace Magisk.Sepolicy

open List Option

/-- Bits of an `ebitmap`; its last map word would overflow `highbit`. -/
structure Ebitmap where
  bits : UInt32 → Bool
  bounded : ∀ b, bits b → b < 0xffffffc0

namespace Ebitmap

def empty : Ebitmap := ⟨fun _ => false, fun _ h => absurd h (by decide)⟩

def setBit (e : Ebitmap) (bit : UInt32) : Option Ebitmap :=
  if h : bit < 0xffffffc0 then
    some ⟨fun b => b == bit || e.bits b, by
      intro b hb
      rcases Bool.or_eq_true_iff.mp hb with hb | hb
      · rwa [beq_iff_eq.mp hb]
      · exact e.bounded b hb⟩
  else none

end Ebitmap

structure FilenameKey where
  ttype : UInt32
  tclass : UInt32
  name : Bytes
  deriving DecidableEq, Repr

structure FilenameDatum where
  stypes : Ebitmap
  otype : UInt32

/-- A hash table with C strings in its keys and at most `UINT32_MAX` nodes. -/
structure FilenameTable where
  entries : List (FilenameKey × List FilenameDatum)
  nodup : (entries.map Prod.fst).Nodup
  nel_lt : entries.length < 2 ^ 32
  cstring : ∀ e ∈ entries, 0 ∉ e.1.name
  chained : ∀ e ∈ entries, e.2 ≠ []

namespace FilenameTable

variable (table : FilenameTable) (key : FilenameKey)

def find : Option (List FilenameDatum) := table.entries.lookup key

/-- The table after the chain of a key was changed in place. -/
def change (chain : List FilenameDatum) (hc : chain ≠ []) : FilenameTable where
  entries := table.entries.map fun e => if e.1 = key then (e.1, chain) else e
  nodup := by
    have h : (fun e : FilenameKey × List FilenameDatum =>
        (if e.1 = key then (e.1, chain) else e).1) = Prod.fst := by
      funext e
      split_ifs <;> rfl
    rw [List.map_map]
    simpa only [Function.comp_def, h] using table.nodup
  nel_lt := by
    rw [length_map]
    exact table.nel_lt
  cstring := by
    intro e he
    obtain ⟨e', he', rfl⟩ := List.mem_map.mp he
    split_ifs
    · exact table.cstring e' he'
    · exact table.cstring e' he'
  chained := by
    intro e he
    obtain ⟨e', he', rfl⟩ := List.mem_map.mp he
    split_ifs
    · exact hc
    · exact table.chained e' he'

/-- `hashtab_insert`; its failures `SEPOL_EEXIST` and `SEPOL_ENOMEM` leave the table as it is. -/
def insert (chain : List FilenameDatum) (hn : 0 ∉ key.name) (hc : chain ≠ []) : FilenameTable :=
  if h : table.find key = none ∧ table.entries.length + 1 < 2 ^ 32 then
    { entries := table.entries ++ [(key, chain)]
      nodup := by
        rw [map_append, nodup_append]
        refine ⟨table.nodup, nodup_singleton _, ?_⟩
        rintro a ha b hb rfl
        obtain ⟨e, he, rfl⟩ := List.mem_map.mp ha
        have hk : e.1 = key := by simpa using hb
        have hne := lookup_eq_none_iff.mp h.1 e he
        simp [hk] at hne
      nel_lt := by
        rw [length_append]
        exact h.2
      cstring := by
        intro e he
        rcases mem_append.mp he with he | he
        · exact table.cstring e he
        · rwa [mem_singleton.mp he]
      chained := by
        intro e he
        rcases mem_append.mp he with he | he
        · exact table.chained e he
        · rwa [mem_singleton.mp he] }
  else table

/-- The table with the updated chain of a search that found `found`. Where its first datum
was taken, the code tries to insert it under its own key again, which is refused. -/
def store (found : Option (List FilenameDatum)) (chain : List FilenameDatum) (hn : 0 ∉ key.name)
    (hc : chain ≠ []) : FilenameTable :=
  match found with
  | some _ => table.change key chain hc
  | none => table.insert key chain hn hc

end FilenameTable

structure TransPolicy extends Policydb where
  filenameTrans : FilenameTable
  filenameTransCount : UInt32

/-- The memory of a `filename_trans_key_t` on a 64-bit little-endian machine. -/
def keyBytes (key : FilenameKey) (name : UInt64) : Bytes :=
  leBytes 4 key.ttype.toNat ++ leBytes 4 key.tclass.toNat ++ leBytes 8 name.toNat

/-- What `hashtab_find` passes on: the pointer becomes a `rust::Str`, which ends at the first
zero byte and must be UTF-8, and is copied to an array of zeros. -/
def copyKey (key : Bytes) : Option Bytes :=
  let text := key.takeWhile (· ≠ 0)
  (fromUtf8 text).map fun _ => text ++ zeros (key.length - text.length)

/-- The address of `key_name`. -/
structure NameAddress where
  address : UInt64
  ne_zero : address ≠ 0

/-- The search of `filename_trans`. It does not return when the string is not UTF-8 or the
copied key no longer points to the name: `filenametr_hash` reads it through that pointer. -/
def FilenameTable.search (table : FilenameTable) (ptr : NameAddress) (key : FilenameKey) :
    Option (Option (List FilenameDatum)) :=
  match copyKey (keyBytes key ptr.address) with
  | none => none
  | some copy =>
    if leValue (copy.drop 8) = ptr.address.toNat then
      some (table.find ⟨UInt32.ofNat (leValue (copy.take 4)),
        UInt32.ofNat (leValue ((copy.drop 4).take 4)), key.name⟩)
    else none

/-- The chain after the loop and the update; `none` where existing data is overwritten, else
the result of `ebitmap_set_bit`. -/
def addToChain (bit otype : UInt32) : List FilenameDatum → List FilenameDatum × Option Bool
  | [] => match Ebitmap.empty.setBit bit with
    | some stypes => ([⟨stypes, otype⟩], some true)
    | none => ([⟨Ebitmap.empty, otype⟩], some false)
  | datum :: rest =>
    if datum.stypes.bits bit then
      -- Duplicate, overwrite existing data and return
      (⟨datum.stypes, otype⟩ :: rest, none)
    else if datum.otype = otype then
      match datum.stypes.setBit bit with
      | some stypes => (⟨stypes, otype⟩ :: rest, some true)
      | none => (datum :: rest, some false)
    else
      (datum :: (addToChain bit otype rest).1, (addToChain bit otype rest).2)

theorem addToChain_ne_nil (bit otype : UInt32) (chain : List FilenameDatum) :
    (addToChain bit otype chain).1 ≠ [] := by
  cases chain with
  | nil => unfold addToChain; split <;> simp
  | cons datum rest =>
    unfold addToChain
    split_ifs
    · simp
    · split <;> simp
    · simp

/-- The C string that `copy_str` makes of the object name. -/
def keyName (o : Str) : Bytes := ((asBytes o).take 255).takeWhile (· ≠ 0)

theorem zero_not_mem_keyName (o : Str) : 0 ∉ keyName o := by
  intro h
  have := mem_takeWhile_imp h
  simp at this

def TypeDatum.bit (t : TypeDatum) : UInt32 := UInt32.ofNat t.value - 1

def transKey (tgt : TypeDatum) (cls : ClassDatum) (o : Str) : FilenameKey :=
  ⟨UInt32.ofNat tgt.value, cls.value.toUInt32, keyName o⟩

/-- `none` when the search does not return. -/
def addTransData (db : TransPolicy) (ptr : NameAddress) (src tgt : TypeDatum) (cls : ClassDatum)
    (dflt : TypeDatum) (o : Str) : Option (Bool × TransPolicy) :=
  let key := transKey tgt cls o
  match db.filenameTrans.search ptr key with
  | none => none
  | some found =>
    let otype := UInt32.ofNat dflt.value
    let added := addToChain src.bit otype (found.getD [])
    let hc := addToChain_ne_nil src.bit otype (found.getD [])
    let filenameTrans := db.filenameTrans.store key found added.1 (zero_not_mem_keyName o) hc
    match added.2 with
    | none => some (true, { db with filenameTrans })
    | some ok => some (ok, { db with
        filenameTrans
        filenameTransCount := db.filenameTransCount + 1 })

def addFilenameTrans (db : TransPolicy) (ptr : NameAddress) (s t c d o : Str) :
    Option (Bool × TransPolicy) :=
  match hashtabFind db.types s, hashtabFind db.types t, hashtabFind db.classes c,
    hashtabFind db.types d with
  | some src, some tgt, some cls, some dflt => addTransData db ptr src tgt cls dflt o
  | _, _, _, _ => some (false, db)

/-- `add_type_rule` for `AVTAB_TRANSITION`. -/
def addTypeTransition (db : TransPolicy) (s t c d : Str) : Bool × TransPolicy :=
  match hashtabFind db.types s, hashtabFind db.types t, hashtabFind db.classes c,
    hashtabFind db.types d with
  | some src, some tgt, some cls, some dflt =>
    let key : Key := ⟨src.key, tgt.key, cls.key, .transition⟩
    let nodes := match getAvtabNode key (db.teAvtab.search key) with
      | (node, rest) => { node with data := BitVec.ofNat 32 dflt.value } :: rest
    have ok : NodesOk key nodes := ⟨fun h => (nomatch h), fun h => (nomatch h)⟩
    (true, { db with teAvtab := db.teAvtab.update key nodes ok })
  | _, _, _, _ => (false, db)

def typeTransition (db : TransPolicy) (ptr : NameAddress) (s t c d o : Str) :
    Option (Bool × TransPolicy) :=
  if o ≠ [] then addFilenameTrans db ptr s t c d o else some (addTypeTransition db s t c d)

theorem leValue_zeros (n : ℕ) : leValue (zeros n) = 0 := by
  induction n with
  | zero => rfl
  | succ n ih =>
    have h : leValue (zeros (n + 1)) = 0 + 256 * leValue (zeros n) := rfl
    omega

theorem leValue_copyKey_drop {key copy : Bytes} {n : ℕ} (h : copyKey key = some copy)
    (hn : (key.takeWhile fun b => decide (b ≠ 0)).length ≤ n) : leValue (copy.drop n) = 0 := by
  obtain ⟨-, -, rfl⟩ := map_eq_some_iff.mp h
  rw [drop_append, drop_eq_nil_of_le hn, nil_append, zeros, drop_replicate]
  exact leValue_zeros _

/-- The two high bytes of a class are zero, so the text of the key ends before the pointer. -/
theorem length_takeWhile_keyBytes {key : FilenameKey} (hc : key.tclass.toNat < 2 ^ 16)
    (name : UInt64) : ((keyBytes key name).takeWhile fun b => decide (b ≠ 0)).length ≤ 8 := by
  by_contra hlen
  have hbyte : (keyBytes key name)[6]? = some 0 := by
    have h0 : key.tclass.toNat / 256 / 256 = 0 := by omega
    simp [keyBytes, leBytes, h0]
  obtain ⟨rest, hrest⟩ := takeWhile_prefix (p := fun b : UInt8 => decide (b ≠ 0))
    (l := keyBytes key name)
  rw [← hrest, getElem?_append_left (by omega)] at hbyte
  have hne := mem_takeWhile_imp (mem_of_getElem? hbyte)
  simp at hne

theorem search_eq_none (table : FilenameTable) (ptr : NameAddress) {key : FilenameKey}
    (hc : key.tclass.toNat < 2 ^ 16) : table.search ptr key = none := by
  unfold FilenameTable.search
  cases hcopy : copyKey (keyBytes key ptr.address) with
  | none => rfl
  | some copy =>
    apply if_neg
    rw [leValue_copyKey_drop hcopy (length_takeWhile_keyBytes hc _)]
    exact fun h0 => ptr.ne_zero (UInt64.toNat_inj.mp h0.symm)

theorem addTransData_eq_none (db : TransPolicy) (ptr : NameAddress) (src tgt : TypeDatum)
    (cls : ClassDatum) (dflt : TypeDatum) (o : Str) :
    addTransData db ptr src tgt cls dflt o = none := by
  have hc : (transKey tgt cls o).tclass.toNat < 2 ^ 16 := by
    rw [transKey, UInt16.toNat_toUInt32]
    exact cls.value.toNat_lt
  simp only [addTransData, search_eq_none db.filenameTrans ptr hc]

/-- The output type a chain gives to a source type. -/
def lookupChain (b : UInt32) (chain : List FilenameDatum) : Option UInt32 :=
  (chain.find? fun datum => datum.stypes.bits b).map FilenameDatum.otype

/-- The output type for a source type, a target type, a class and a file name. -/
def lookupTrans (db : TransPolicy) (stype ttype tclass : UInt32) (name : Bytes) : Option UInt32 :=
  (db.filenameTrans.find ⟨ttype, tclass, name⟩).bind (lookupChain (stype - 1))

/-- The lookup of the arguments gives the new type, and every other one what it gave before. -/
def SetsLookup (db db' : TransPolicy) (src tgt : TypeDatum) (cls : ClassDatum) (dflt : TypeDatum)
    (o : Str) : Prop :=
  ∀ stype ttype tclass name, lookupTrans db' stype ttype tclass name =
    if stype = UInt32.ofNat src.value ∧ ttype = UInt32.ofNat tgt.value ∧
        tclass = cls.value.toUInt32 ∧ name = asBytes o
    then some (UInt32.ofNat dflt.value) else lookupTrans db stype ttype tclass name

/-- If the call succeeds, it sets the lookup of its own arguments and no other one. -/
def SetsOneTransition (db : TransPolicy) (ptr : NameAddress) (s t c d o : Str) : Prop :=
  ∀ db', typeTransition db ptr s t c d o = some (true, db') →
    ∀ src tgt cls dflt, hashtabFind db.types s = some src → hashtabFind db.types t = some tgt →
      hashtabFind db.classes c = some cls → hashtabFind db.types d = some dflt →
      SetsLookup db db' src tgt cls dflt o

def namePolicy : TransPolicy where
  policyvers := 30
  types := [(lit "app", ⟨1, .type⟩), (lit "data", ⟨2, .type⟩), (lit "file", ⟨3, .type⟩)]
  classes := [(lit "file", ⟨7, [], none⟩)]
  typeAttrMap := []
  teAvtab := Avtab.empty
  filenameTrans :=
    { entries := []
      nodup := by simp
      nel_lt := by decide
      cstring := by simp
      chained := by simp }
  filenameTransCount := 0

end Magisk.Sepolicy
