import Magisk.Bytes
import Magisk.OrderedMap

namespace Magisk.Sql

open List

abbrev Name := Bytes

inductive Value
  | null
  | int (v : Int64)
  | text (s : Bytes)
deriving DecidableEq, Repr

structure Table where
  columns : List Name
  /-- the columns of the primary key -/
  key : List Name
  rows : List (List Value) := []
deriving DecidableEq, Repr

namespace Table

variable (t : Table)

def get (row : List Value) (c : Name) : Value := ((t.columns.zip row).lookup c).getD .null

def keyOf (row : List Value) : List Value := t.key.map (t.get row)

/-- Another row holds the same key. A key with a NULL in it is never the same as another. -/
def clashes (row : List Value) : Bool :=
  .null ∉ t.keyOf row && t.rows.any fun r => t.keyOf r = t.keyOf row

def insert (row : List Value) : Option Table :=
  if t.clashes row then none else some { t with rows := t.rows ++ [row] }

def insertAll (rows : List (List Value)) : Option Table := rows.foldlM insert t

/-- The row that has these values in these columns. -/
def place (columns : List Name) (values : List Value) : List Value :=
  t.columns.map fun c => ((columns.zip values).lookup c).getD .null

/-- `WHERE column=value AND ...` -/
def selects (conds : List (Name × Value)) (row : List Value) : Bool :=
  conds.all fun (c, v) => v ≠ .null && t.get row c = v

end Table

structure Db where
  tables : Std.ExtTreeMap Name Table compare := ∅
  userVersion : Int32 := 0

inductive Stmt
  /-- `CREATE TABLE IF NOT EXISTS` -/
  | createTable (name : Name) (columns key : List Name)
  | dropTable (name : Name) (ifExists : Bool)
  | renameTable (name new : Name)
  | insert (name : Name) (columns : List Name) (rows : List (List Value))
  /-- `INSERT INTO name SELECT columns FROM source`, where `none` stands for `*` -/
  | insertSelect (name source : Name) (columns : Option (List Name))
  | delete (name : Name) (conds : List (Name × Value))
  | setUserVersion (v : Int32)
deriving DecidableEq, Repr

namespace Db

variable (db : Db)

def set (name : Name) (t : Table) : Db := { db with tables := db.tables.insert name t }

def erase (name : Name) : Db := { db with tables := db.tables.erase name }

/-- What is taken from SQLite: a statement runs as a whole or fails, a table has no constraints but
its key, values are compared without conversion, and names are given in one case. -/
def exec : Stmt → Option Db
  | .createTable name columns key =>
    match db.tables[name]? with
    | some _ => some db
    | none => some (db.set name ⟨columns, key, []⟩)
  | .dropTable name ifExists =>
    match db.tables[name]? with
    | some _ => some (db.erase name)
    | none => if ifExists then some db else none
  | .renameTable name new => do
    let t ← db.tables[name]?
    match db.tables[new]? with
    | some _ => none
    | none => return (db.erase name).set new t
  | .insert name columns rows => do
    let t ← db.tables[name]?
    if columns.all (· ∈ t.columns) && rows.all (·.length = columns.length) then
      let t ← t.insertAll (rows.map (t.place columns))
      return db.set name t
    else none
  | .insertSelect name source columns => do
    let t ← db.tables[name]?
    let s ← db.tables[source]?
    let columns := columns.getD s.columns
    if columns.all (· ∈ s.columns) && columns.length = t.columns.length then
      let t ← t.insertAll (s.rows.map fun row => columns.map (s.get row))
      return db.set name t
    else none
  | .delete name conds => do
    let t ← db.tables[name]?
    if conds.all fun (c, _) => c ∈ t.columns then
      return db.set name { t with rows := t.rows.filter fun row => !t.selects conds row }
    else none
  | .setUserVersion v => some { db with userVersion := v }

/-- A transaction: all of its statements, or none. -/
def transaction (stmts : List Stmt) : Option Db := stmts.foldlM exec db

end Db

namespace Table

variable {t t' : Table}

theorem insert_eq_some {row : List Value} (h : t.insert row = some t') :
    t' = { t with rows := t.rows ++ [row] } := by
  simp only [insert] at h
  split_ifs at h
  exact (Option.some.inj h).symm

theorem insertAll_eq_some {rows : List (List Value)} (h : t.insertAll rows = some t') :
    t' = { t with rows := t.rows ++ rows } := by
  induction rows generalizing t with
  | nil => simpa [insertAll] using (Option.some.inj h).symm
  | cons row rows ih =>
    simp only [insertAll, foldlM_cons, Option.bind_eq_bind, Option.bind_eq_some_iff] at h
    obtain ⟨t₁, h₁, h⟩ := h
    have ht := ih h
    rw [insert_eq_some h₁] at ht
    simpa using ht

def Keyed (t : Table) : Prop :=
  t.rows.Pairwise fun r r' => .null ∈ t.keyOf r' ∨ t.keyOf r ≠ t.keyOf r'

theorem insertAll_of_keyed {rows : List (List Value)}
    (h : ({ t with rows := t.rows ++ rows } : Table).Keyed) :
    t.insertAll rows = some { t with rows := t.rows ++ rows } := by
  induction rows generalizing t with
  | nil => simp [insertAll]
  | cons row rows ih =>
    have hclash : t.clashes row = false := by
      have hpair := (pairwise_append.mp h).2.2
      rw [clashes, Bool.and_eq_false_iff]
      by_cases hnull : .null ∈ t.keyOf row
      · left
        simp [hnull]
      · right
        rw [List.any_eq_false]
        intro r hr
        have hne : t.keyOf r ≠ t.keyOf row :=
          (hpair r hr row mem_cons_self).resolve_left hnull
        simpa using hne
    have hfirst : t.insert row = some { t with rows := t.rows ++ [row] } := by
      rw [insert, hclash]
      rfl
    have hrest : t.rows ++ row :: rows = (t.rows ++ [row]) ++ rows := by simp
    rw [hrest] at h ⊢
    rw [insertAll, foldlM_cons, hfirst]
    exact ih h

end Table

namespace Db

variable {db db' : Db} {name n : Name}

@[simp] theorem set_tables (t : Table) :
    (db.set name t).tables[n]? = if name = n then some t else db.tables[n]? :=
  OrderedMap.getElem?_insert_eq _ _ _ _

@[simp] theorem erase_tables :
    (db.erase name).tables[n]? = if name = n then none else db.tables[n]? :=
  OrderedMap.getElem?_erase_eq _ _ _

end Db

end Magisk.Sql
