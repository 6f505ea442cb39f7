import Magisk.Protobuf

namespace Magisk.Resetprop

open List Protobuf

structure Record where
  name : Option Str
  value : Option Str
  deriving DecidableEq, Repr

/-- Messages of lists of records: the pieces in which one is written, and how it is read. -/
structure Codec where
  pieces : List Record → List Bytes
  fromReader : Bytes → Option (List Record)

def Codec.encode (c : Codec) (props : List Record) : Bytes := (c.pieces props).flatten

def recordFields (r : Record) : List Field :=
  (r.name.map fun s => ⟨10, asBytes s⟩).toList ++ (r.value.map fun s => ⟨18, asBytes s⟩).toList

/-- The writer puts numbers byte by byte, and strings at once. -/
def fieldPieces (f : Field) : List Bytes :=
  (varint f.tag).map ([·]) ++ ((varint f.data.length).map ([·]) ++ [f.data])

def recordPieces (r : Record) : List Bytes :=
  let pieces := (recordFields r).flatMap fieldPieces
  (varint 10).map ([·]) ++ ((varint pieces.flatten.length).map ([·]) ++ pieces)

/-- `from_reader` of a record, a field at a time. -/
def readRecordField (r : Record) (f : Field) : Option Record :=
  if f.tag = 10 then (fromUtf8 f.data).map fun s => { r with name := some s }
  else if f.tag = 18 then (fromUtf8 f.data).map fun s => { r with value := some s }
  else some r

def readRecord (b : Bytes) : Option Record :=
  (readFields b).bind fun fs => fs.foldlM readRecordField ⟨none, none⟩

def readRecords (b : Bytes) : Option (List Record) :=
  (readFields b).bind fun fs => (fs.filter (·.tag = 10)).mapM fun f => readRecord f.data

def messageCodec : Codec := ⟨fun props => props.flatMap recordPieces, readRecords⟩

theorem flatten_map_singleton (b : Bytes) : (b.map ([·])).flatten = b := by
  induction b with
  | nil => rfl
  | cons x b ih => rw [map_cons, flatten_cons, ih, singleton_append]

theorem flatten_fieldPieces (f : Field) : (fieldPieces f).flatten = f.bytes := by
  simp [fieldPieces, Field.bytes, flatten_map_singleton]

theorem flatten_flatMap_fieldPieces (fs : List Field) :
    (fs.flatMap fieldPieces).flatten = fs.flatMap Field.bytes := by
  induction fs with
  | nil => rfl
  | cons f fs ih =>
    rw [flatMap_cons, flatten_append, ih, flatten_fieldPieces, flatMap_cons]

def recordField (r : Record) : Field := ⟨10, (recordFields r).flatMap Field.bytes⟩

theorem flatten_recordPieces (r : Record) : (recordPieces r).flatten = (recordField r).bytes := by
  simp only [recordPieces, flatten_append, flatten_map_singleton, flatten_flatMap_fieldPieces]
  rfl

theorem messageCodec_encode (props : List Record) :
    messageCodec.encode props = (props.map recordField).flatMap Field.bytes := by
  show (props.flatMap recordPieces).flatten = _
  induction props with
  | nil => rfl
  | cons r props ih =>
    rw [flatMap_cons, flatten_append, ih, flatten_recordPieces, map_cons,
      flatMap_cons]

theorem readRecord_recordField (r : Record) : readRecord (recordField r).data = some r := by
  obtain ⟨name, value⟩ := r
  rw [readRecord, recordField, readFields_flatMap, Option.bind_some]
  cases name <;> cases value <;>
    simp [recordFields, readRecordField, fromUtf8_asBytes, List.foldlM]

theorem mapM_readRecord (props : List Record) :
    (props.map recordField).mapM (fun f => readRecord f.data) = some props := by
  induction props with
  | nil => rfl
  | cons r props ih => simp [mapM_cons, ih, readRecord_recordField]

theorem messageCodec_inverse (props : List Record) :
    messageCodec.fromReader (messageCodec.encode props) = some props := by
  have hfilter : (props.map recordField).filter (·.tag = 10) = props.map recordField := by
    refine filter_eq_self.mpr fun f hf => ?_
    obtain ⟨r, -, rfl⟩ := List.mem_map.mp hf
    rfl
  rw [messageCodec_encode]
  show readRecords ((props.map recordField).flatMap Field.bytes) = some props
  rw [readRecords, readFields_flatMap, Option.bind_some, hfilter, mapM_readRecord]

end Magisk.Resetprop
