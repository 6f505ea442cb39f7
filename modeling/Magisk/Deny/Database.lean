import Magisk.Bytes

namespace Magisk.Deny

open List

/-- The pairs in the table `denylist`, if there is one, and the rest of the database. -/
structure Db (α : Type) where
  denylist : Option (List (Bytes × Bytes))
  rest : α
  deriving DecidableEq, Repr

def quote : UInt8 := 39

/-- A string as it stands in a literal, where each single quote is written twice. -/
def escape (s : Bytes) : Bytes := s.flatMap fun c => if c = quote then [quote, quote] else [c]

def insertText (pkg proc : Bytes) : Bytes :=
  lit "INSERT INTO denylist (package_name, process) VALUES('" ++ (pkg ++ (lit "', '" ++
    (proc ++ lit "')")))

def deletePkgText (pkg : Bytes) : Bytes :=
  lit "DELETE FROM denylist WHERE package_name='" ++ (pkg ++ lit "'")

def deleteProcText (pkg proc : Bytes) : Bytes :=
  lit "DELETE FROM denylist WHERE package_name='" ++ (pkg ++ (lit "' AND process='" ++
    (proc ++ lit "'")))

namespace Db

variable {α : Type} (db : Db α)

/-- The pair is the primary key. -/
def insert (pkg proc : Bytes) : Bool × Db α :=
  match db.denylist with
  | none => (false, db)
  | some rows =>
    if (pkg, proc) ∈ rows then (false, db)
    else (true, { db with denylist := some (rows ++ [(pkg, proc)]) })

def delete (selects : Bytes × Bytes → Bool) : Bool × Db α :=
  match db.denylist with
  | none => (false, db)
  | some rows => (true, { db with denylist := some (rows.filter fun row => !selects row) })

end Db

/-- SQLite: whether a text runs, and the database then. Known are the statements of the denylist on
the table of `create_denylist`, with well-formed literals. A C string has no NUL. -/
structure Engine (α : Type) where
  exec : Db α → Bytes → Bool × Db α
  exec_insert : ∀ db pkg proc, 0 ∉ pkg → 0 ∉ proc →
    exec db (insertText (escape pkg) (escape proc)) = db.insert pkg proc
  exec_deletePkg : ∀ db pkg, 0 ∉ pkg →
    exec db (deletePkgText (escape pkg)) = db.delete fun row => row.1 = pkg
  exec_deleteProc : ∀ db pkg proc, 0 ∉ pkg → 0 ∉ proc →
    exec db (deleteProcText (escape pkg) (escape proc)) = db.delete fun row => row = (pkg, proc)

theorem escape_eq_self {s : Bytes} (h : quote ∉ s) : escape s = s := by
  induction s with
  | nil => rfl
  | cons c s ih =>
    rw [mem_cons, not_or] at h
    have hc : ¬ c = quote := fun hc => h.1 hc.symm
    rw [escape, flatMap_cons, if_neg hc, ← escape, ih h.2, singleton_append]

theorem length_lt_escape {s : Bytes} (h : quote ∈ s) : s.length < (escape s).length := by
  have hle (s : Bytes) : s.length ≤ (escape s).length := by
    induction s with
    | nil => exact le_rfl
    | cons c s ih =>
      rw [escape, flatMap_cons, ← escape, length_append, length_cons]
      split_ifs <;> simp <;> omega
  obtain ⟨pre, post, rfl⟩ := append_of_mem h
  have hsplit : escape (pre ++ quote :: post) = escape pre ++ ([quote, quote] ++ escape post) := by
    rw [escape, flatMap_append, flatMap_cons, if_pos rfl]
    rfl
  have hpre := hle pre
  have hpost := hle post
  rw [hsplit]
  simp only [length_append, length_cons, length_nil]
  omega

/-- A name that is stored as it stands. -/
def Plain (s : Bytes) : Prop := quote ∉ s ∧ 0 ∉ s

instance : DecidablePred Plain := fun s => inferInstanceAs (Decidable (quote ∉ s ∧ 0 ∉ s))

namespace Engine

variable {α : Type} (q : Engine α) (db : Db α) {pkg proc : Bytes}

theorem exec_insertText (hpkg : Plain pkg) (hproc : Plain proc) :
    q.exec db (insertText pkg proc) = db.insert pkg proc := by
  have h := q.exec_insert db pkg proc hpkg.2 hproc.2
  rwa [escape_eq_self hpkg.1, escape_eq_self hproc.1] at h

theorem exec_deletePkgText (hpkg : Plain pkg) :
    q.exec db (deletePkgText pkg) = db.delete fun row => row.1 = pkg := by
  have h := q.exec_deletePkg db pkg hpkg.2
  rwa [escape_eq_self hpkg.1] at h

theorem exec_deleteProcText (hpkg : Plain pkg) (hproc : Plain proc) :
    q.exec db (deleteProcText pkg proc) = db.delete fun row => row = (pkg, proc) := by
  have h := q.exec_deleteProc db pkg proc hpkg.2 hproc.2
  rwa [escape_eq_self hpkg.1, escape_eq_self hproc.1] at h

end Engine

/-- The string of a literal behind its first quote, and what follows its last one. -/
def readLiteral : Bytes → Option (Bytes × Bytes)
  | [] => none
  | c :: s =>
    if c = quote then
      match s with
      | [] => some ([], [])
      | c' :: s' => if c' = quote then (readLiteral s').map (.map (quote :: ·) id) else some ([], s)
    else (readLiteral s).map (.map (c :: ·) id)

theorem readLiteral_escape (s : Bytes) {rest : Bytes} (h : rest.head? ≠ some quote) :
    readLiteral (escape s ++ quote :: rest) = some (s, rest) := by
  induction s with
  | nil =>
    cases rest with
    | nil => rfl
    | cons c rest =>
      have hc : ¬ c = quote := fun hc => h (congrArg some hc)
      rw [escape, flatMap_nil, nil_append, readLiteral, if_pos rfl]
      exact if_neg hc
  | cons c s ih =>
    rw [escape, flatMap_cons, ← escape]
    by_cases hc : c = quote
    · rw [if_pos hc, hc, readLiteral.eq_def]
      simp [ih]
    · rw [if_neg hc, readLiteral.eq_def]
      simp [hc, ih]

/-- The text behind its first part. -/
def after (start text : Bytes) : Option Bytes :=
  if start.isPrefixOf text then some (text.drop start.length) else none

@[simp] theorem after_append (start text : Bytes) : after start (start ++ text) = some text := by
  rw [after, if_pos (by simp), drop_left]

def readInsert (text : Bytes) : Option (Bytes × Bytes) := do
  let (pkg, text) ← readLiteral
    (← after (lit "INSERT INTO denylist (package_name, process) VALUES('") text)
  let (proc, text) ← readLiteral (← after (lit ", '") text)
  if text = lit ")" then some (pkg, proc) else none

def readDelete (text : Bytes) : Option (Bytes × Option Bytes) := do
  let (pkg, text) ← readLiteral (← after (lit "DELETE FROM denylist WHERE package_name='") text)
  if text = [] then some (pkg, none)
  else
    let (proc, text) ← readLiteral (← after (lit " AND process='") text)
    if text = [] then some (pkg, some proc) else none

/-- An engine that runs no other statements. -/
def denyEngine : Engine Unit where
  exec db text :=
    match readInsert text, readDelete text with
    | some (pkg, proc), _ => db.insert pkg proc
    | none, some (pkg, none) => db.delete fun row => row.1 = pkg
    | none, some (pkg, some proc) => db.delete fun row => row = (pkg, proc)
    | none, none => (false, db)
  exec_insert db pkg proc _ _ := by
    have hread : readInsert (insertText (escape pkg) (escape proc)) = some (pkg, proc) := by
      have hsep : lit "', '" = quote :: lit ", '" := rfl
      have hend : lit "')" = quote :: lit ")" := rfl
      simp only [readInsert, insertText, hsep, hend, after_append, Option.bind_eq_bind,
        Option.bind_some, cons_append]
      rw [readLiteral_escape pkg]
      · simp only [Option.bind_some, after_append]
        rw [readLiteral_escape proc (by decide)]
        rfl
      · exact show some (44 : UInt8) ≠ some quote by decide
    simp only [hread]
  exec_deletePkg db pkg _ := by
    have hinsert : readInsert (deletePkgText (escape pkg)) = none := rfl
    have hread : readDelete (deletePkgText (escape pkg)) = some (pkg, none) := by
      have hend : lit "'" = quote :: [] := rfl
      simp only [readDelete, deletePkgText, hend, after_append, Option.bind_eq_bind,
        Option.bind_some]
      rw [readLiteral_escape pkg (by decide)]
      rfl
    simp only [hinsert, hread]
  exec_deleteProc db pkg proc _ _ := by
    have hinsert : readInsert (deleteProcText (escape pkg) (escape proc)) = none := rfl
    have hread : readDelete (deleteProcText (escape pkg) (escape proc)) =
        some (pkg, some proc) := by
      have hsep : lit "' AND process='" = quote :: lit " AND process='" := rfl
      have hend : lit "'" = quote :: [] := rfl
      simp only [readDelete, deleteProcText, hsep, hend, after_append, Option.bind_eq_bind,
        Option.bind_some, cons_append]
      rw [readLiteral_escape pkg]
      · simp only [Option.bind_some, after_append]
        rw [if_neg (by simp [lit, asBytes]), readLiteral_escape proc (by decide)]
        rfl
      · exact show some (32 : UInt8) ≠ some quote by decide
    simp only [hinsert, hread]

end Magisk.Deny
