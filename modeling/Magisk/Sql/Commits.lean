import Magisk.Sql.Tables

namespace Magisk.Sql

open List Option

namespace Stmt

def tables : Stmt → List Name
  | .createTable name _ _ => [name]
  | .dropTable name _ => [name]
  | .renameTable name new => [name, new]
  | .insert name _ _ => [name]
  | .insertSelect name source _ => [name, source]
  | .delete name _ => [name]
  | .setUserVersion _ => []

def keepsVersion : Stmt → Bool
  | .setUserVersion _ => false
  | _ => true

end Stmt

def tablesOf (u : List Stmt) : List Name := u.flatMap Stmt.tables

namespace Db

variable {db db' db₁ db₂ : Db} {u v : List Stmt} {F : List Name}

/-- The transactions that are committed until one fails, and whether none did. -/
def commits (db : Db) : List (List Stmt) → Bool × Db
  | [] => (true, db)
  | u :: us =>
    match db.transaction u with
    | none => (false, db)
    | some db' => db'.commits us

theorem ext_tables (ht : ∀ n : Name, db.tables[n]? = db'.tables[n]?)
    (hv : db.userVersion = db'.userVersion) : db = db' := by
  have htables : db.tables = db'.tables := Std.ExtTreeMap.ext_getElem? fun n => ht n
  cases db
  cases db'
  cases htables
  cases hv
  rfl

theorem set_self {name : Name} {t : Table} (h : db.tables[name]? = some t) : db.set name t = db := by
  refine ext_tables (fun n => ?_) rfl
  rw [set_tables]
  split_ifs with hn
  · rw [← hn, h]
  · rfl

def SameOn (F : List Name) (db₁ db₂ : Db) : Prop := ∀ n ∈ F, db₁.tables[n]? = db₂.tables[n]?

theorem SameOn.set (h : SameOn F db₁ db₂) (name : Name) (t : Table) :
    SameOn F (db₁.set name t) (db₂.set name t) := by
  intro n hn
  rw [set_tables, set_tables, h n hn]

theorem SameOn.erase (h : SameOn F db₁ db₂) (name : Name) :
    SameOn F (db₁.erase name) (db₂.erase name) := by
  intro n hn
  rw [erase_tables, erase_tables, h n hn]

variable {stmt : Stmt} {us : List (List Stmt)}

theorem exec_sameOn (h : SameOn F db₁ db₂) (hF : stmt.tables ⊆ F)
    (he : db₁.exec stmt = some db') : ∃ db'', db₂.exec stmt = some db'' ∧ SameOn F db' db'' := by
  cases stmt with
  | createTable name columns key =>
    have hn := h name (hF mem_cons_self)
    simp only [exec, ← hn] at he ⊢
    cases ht : db₁.tables[name]? with
    | none =>
      rw [ht] at he
      obtain rfl := some.inj he
      exact ⟨_, rfl, h.set _ _⟩
    | some t =>
      rw [ht] at he
      obtain rfl := some.inj he
      exact ⟨_, rfl, h⟩
  | dropTable name ifExists =>
    have hn := h name (hF mem_cons_self)
    simp only [exec, ← hn] at he ⊢
    cases ht : db₁.tables[name]? with
    | none =>
      simp only [ht] at he ⊢
      split_ifs at he ⊢
      obtain rfl := some.inj he
      exact ⟨_, rfl, h⟩
    | some t =>
      rw [ht] at he
      obtain rfl := some.inj he
      exact ⟨_, rfl, h.erase _⟩
  | renameTable name new =>
    have hn := h name (hF mem_cons_self)
    have hnew := h new (hF (mem_cons_of_mem _ mem_cons_self))
    simp only [exec, ← hn, ← hnew, bind_eq_bind, bind_eq_some_iff] at he ⊢
    obtain ⟨t, ht, he⟩ := he
    cases hs : db₁.tables[new]? with
    | some s => simp [hs] at he
    | none =>
      rw [hs] at he
      obtain rfl := some.inj he
      exact ⟨_, ⟨t, ht, rfl⟩, (h.erase _).set _ _⟩
  | insert name columns rows =>
    have hn := h name (hF mem_cons_self)
    simp only [exec, ← hn, bind_eq_bind, bind_eq_some_iff] at he ⊢
    obtain ⟨t, ht, he⟩ := he
    split_ifs at he with hc
    obtain ⟨t', ht', he⟩ := bind_eq_some_iff.mp he
    obtain rfl := some.inj he
    exact ⟨_, ⟨t, ht, by rw [if_pos hc, ht']; rfl⟩, h.set _ _⟩
  | insertSelect name source columns =>
    have hn := h name (hF mem_cons_self)
    have hs := h source (hF (mem_cons_of_mem _ mem_cons_self))
    simp only [exec, ← hn, ← hs, bind_eq_bind, bind_eq_some_iff] at he ⊢
    obtain ⟨t, ht, s, hs, he⟩ := he
    split_ifs at he with hc
    obtain ⟨t', ht', he⟩ := bind_eq_some_iff.mp he
    obtain rfl := some.inj he
    exact ⟨_, ⟨t, ht, s, hs, by rw [if_pos hc, ht']; rfl⟩, h.set _ _⟩
  | delete name conds =>
    have hn := h name (hF mem_cons_self)
    simp only [exec, ← hn, bind_eq_bind, bind_eq_some_iff] at he ⊢
    obtain ⟨t, ht, he⟩ := he
    split_ifs at he with hc
    obtain rfl := some.inj he
    exact ⟨_, ⟨t, ht, if_pos hc⟩, h.set _ _⟩
  | setUserVersion v =>
    obtain rfl := some.inj he
    exact ⟨_, rfl, h⟩

theorem exec_frame (he : db.exec stmt = some db') :
    (∀ n, n ∉ stmt.tables → db'.tables[n]? = db.tables[n]?) ∧
      (stmt.keepsVersion → db'.userVersion = db.userVersion) := by
  have hset : ∀ (name : Name) (t : Table) (n : Name), n ≠ name →
      (db.set name t).tables[n]? = db.tables[n]? :=
    fun name t n hn => by rw [set_tables, if_neg hn.symm]
  cases stmt with
  | createTable name columns key =>
    simp only [exec] at he
    split at he
    · obtain rfl := some.inj he
      exact ⟨fun _ _ => rfl, fun _ => rfl⟩
    · obtain rfl := some.inj he
      exact ⟨fun n hn => hset _ _ n (by simpa [Stmt.tables] using hn), fun _ => rfl⟩
  | dropTable name ifExists =>
    simp only [exec] at he
    split at he
    · obtain rfl := some.inj he
      refine ⟨fun n hn => ?_, fun _ => rfl⟩
      rw [erase_tables, if_neg (by simpa [Stmt.tables, eq_comm] using hn)]
    · split_ifs at he
      obtain rfl := some.inj he
      exact ⟨fun _ _ => rfl, fun _ => rfl⟩
  | renameTable name new =>
    simp only [exec, bind_eq_bind, bind_eq_some_iff] at he
    obtain ⟨t, -, he⟩ := he
    split at he
    · simp at he
    · obtain rfl := some.inj he
      refine ⟨fun n hn => ?_, fun _ => rfl⟩
      simp only [Stmt.tables, mem_cons, not_mem_nil, or_false, not_or] at hn
      rw [set_tables, if_neg (Ne.symm hn.2), erase_tables, if_neg (Ne.symm hn.1)]
  | insert name columns rows =>
    simp only [exec, bind_eq_bind, bind_eq_some_iff] at he
    obtain ⟨t, -, he⟩ := he
    split_ifs at he
    obtain ⟨t', -, he⟩ := bind_eq_some_iff.mp he
    obtain rfl := some.inj he
    exact ⟨fun n hn => hset _ _ n (by simpa [Stmt.tables] using hn), fun _ => rfl⟩
  | insertSelect name source columns =>
    simp only [exec, bind_eq_bind, bind_eq_some_iff] at he
    obtain ⟨t, -, s, -, he⟩ := he
    split_ifs at he
    obtain ⟨t', -, he⟩ := bind_eq_some_iff.mp he
    obtain rfl := some.inj he
    simp only [Stmt.tables, mem_cons, not_mem_nil, or_false, not_or]
    exact ⟨fun n hn => hset _ _ n hn.1, fun _ => rfl⟩
  | delete name conds =>
    simp only [exec, bind_eq_bind, bind_eq_some_iff] at he
    obtain ⟨t, -, he⟩ := he
    split_ifs at he
    obtain rfl := some.inj he
    exact ⟨fun n hn => hset _ _ n (by simpa [Stmt.tables] using hn), fun _ => rfl⟩
  | setUserVersion v =>
    obtain rfl := some.inj he
    exact ⟨fun _ _ => rfl, fun h => Bool.noConfusion h⟩

theorem transaction_cons :
    db.transaction (stmt :: u) = (db.exec stmt).bind fun db' => db'.transaction u := by
  simp [transaction]

theorem transaction_sameOn (h : SameOn F db₁ db₂) (hF : tablesOf u ⊆ F)
    (ht : db₁.transaction u = some db') :
    ∃ db'', db₂.transaction u = some db'' ∧ SameOn F db' db'' := by
  induction u generalizing db₁ db₂ with
  | nil =>
    obtain rfl := some.inj ht
    exact ⟨db₂, rfl, h⟩
  | cons stmt u ih =>
    rw [tablesOf, flatMap_cons, append_subset] at hF
    rw [transaction_cons, bind_eq_some_iff] at ht
    obtain ⟨mid, he, ht⟩ := ht
    obtain ⟨mid', he', hmid⟩ := exec_sameOn h hF.1 he
    obtain ⟨db'', ht', hend⟩ := ih hmid hF.2 ht
    exact ⟨db'', by rw [transaction_cons, he', bind_some, ht'], hend⟩

theorem transaction_frame (ht : db.transaction u = some db') :
    (∀ n, n ∉ tablesOf u → db'.tables[n]? = db.tables[n]?) ∧
      ((∀ stmt ∈ u, stmt.keepsVersion) → db'.userVersion = db.userVersion) := by
  induction u generalizing db with
  | nil =>
    obtain rfl := some.inj ht
    exact ⟨fun _ _ => rfl, fun _ => rfl⟩
  | cons stmt u ih =>
    rw [transaction_cons, bind_eq_some_iff] at ht
    obtain ⟨mid, he, ht⟩ := ht
    obtain ⟨htables, hversion⟩ := exec_frame he
    obtain ⟨htables', hversion'⟩ := ih ht
    refine ⟨fun n hn => ?_, fun hk => ?_⟩
    · rw [tablesOf, flatMap_cons, mem_append, not_or] at hn
      exact (htables' n hn.2).trans (htables n hn.1)
    · rw [forall_mem_cons] at hk
      exact (hversion' hk.2).trans (hversion hk.1)

theorem commits_append (h : db.commits us = (true, db'))
    (vs : List (List Stmt)) : db.commits (us ++ vs) = db'.commits vs := by
  induction us generalizing db with
  | nil => rw [(Prod.mk.inj h).2, nil_append]
  | cons u us ih =>
    rw [cons_append]
    simp only [commits] at h ⊢
    cases ht : db.transaction u with
    | none => simp [ht] at h
    | some mid =>
      rw [ht] at h
      exact ih h

theorem commits_of_append {us vs : List (List Stmt)} (h : (db.commits (us ++ vs)).1) :
    db.commits us = (true, (db.commits us).2) := by
  induction us generalizing db with
  | nil => rfl
  | cons u us ih =>
    rw [cons_append] at h
    simp only [commits] at h ⊢
    cases ht : db.transaction u with
    | none => simp [ht] at h
    | some mid =>
      rw [ht] at h
      exact ih h

theorem commits_frame (db : Db) (us : List (List Stmt)) :
    (∀ n, (∀ u ∈ us, n ∉ tablesOf u) → (db.commits us).2.tables[n]? = db.tables[n]?) ∧
      ((∀ u ∈ us, ∀ stmt ∈ u, stmt.keepsVersion) →
        (db.commits us).2.userVersion = db.userVersion) := by
  induction us generalizing db with
  | nil => exact ⟨fun _ _ => rfl, fun _ => rfl⟩
  | cons u us ih =>
    simp only [commits, forall_mem_cons]
    cases ht : db.transaction u with
    | none => exact ⟨fun _ _ => rfl, fun _ => rfl⟩
    | some mid =>
      obtain ⟨htables, hversion⟩ := transaction_frame ht
      obtain ⟨htables', hversion'⟩ := ih mid
      exact ⟨fun n hn => (htables' n hn.2).trans (htables n hn.1),
        fun hk => (hversion' hk.2).trans (hversion hk.1)⟩

theorem commits_of_disjoint (h : ∀ u ∈ us, ∃ db', db.transaction u = some db')
    (hd : us.Pairwise fun u v => ∀ n ∈ tablesOf u, n ∉ tablesOf v) : (db.commits us).1 := by
  induction us generalizing db with
  | nil => rfl
  | cons u us ih =>
    rw [forall_mem_cons] at h
    rw [pairwise_cons] at hd
    obtain ⟨⟨mid, ht⟩, h⟩ := h
    rw [commits, ht]
    apply ih _ hd.2
    intro v hv
    obtain ⟨db', hv'⟩ := h v hv
    have hsame : SameOn (tablesOf v) db mid := by
      intro n hn
      rw [(transaction_frame ht).1 n fun hu => hd.1 v hv n hu hn]
    obtain ⟨db'', ht', -⟩ := transaction_sameOn hsame (List.Subset.refl _) hv'
    exact ⟨db'', ht'⟩

/-- Nothing is left to do for the transaction. -/
def Done (db : Db) (u : List Stmt) : Prop := db.transaction u = some db

theorem Done.sameOn (h : db.Done u) (hk : ∀ stmt ∈ u, stmt.keepsVersion)
    (hs : SameOn (tablesOf u) db db') : db'.Done u := by
  obtain ⟨db'', ht, hend⟩ := transaction_sameOn hs (List.Subset.refl _) h
  obtain ⟨htables, hversion⟩ := transaction_frame ht
  have heq : db'' = db' := by
    apply ext_tables _ (hversion hk)
    intro n
    by_cases hn : n ∈ tablesOf u
    · rw [← hend n hn, hs n hn]
    · exact htables n hn
  rw [Done, ht, heq]

theorem commits_done (h : ∀ u ∈ us, db.Done u) : db.commits us = (true, db) := by
  induction us with
  | nil => rfl
  | cons u us ih =>
    rw [forall_mem_cons] at h
    simp only [commits]
    rw [h.1]
    exact ih h.2

end Db

open Db

/-- Once the transaction has been committed it is done. -/
def Idempotent (u : List Stmt) : Prop := ∀ db db' : Db, db.transaction u = some db' → db'.Done u

/-- Transactions that can be repeated as a whole. -/
structure Restartable (us : List (List Stmt)) : Prop where
  keepsVersion : ∀ u ∈ us, ∀ stmt ∈ u, stmt.keepsVersion
  idempotent : ∀ u ∈ us, Idempotent u
  disjoint : us.Pairwise fun u v => ∀ n ∈ tablesOf u, n ∉ tablesOf v

namespace Restartable

variable {us : List (List Stmt)} {db db' : Db}

theorem sublist {vs : List (List Stmt)} (h : Restartable us) (hs : vs.Sublist us) :
    Restartable vs where
  keepsVersion u hu := h.keepsVersion u (hs.subset hu)
  idempotent u hu := h.idempotent u (hs.subset hu)
  disjoint := h.disjoint.sublist hs

theorem done (h : Restartable us) (hrun : db.commits us = (true, db')) : ∀ u ∈ us, db'.Done u := by
  induction us generalizing db with
  | nil => simp
  | cons u us ih =>
    have hdis := pairwise_cons.mp h.disjoint
    simp only [commits] at hrun
    cases ht : db.transaction u with
    | none => simp [ht] at hrun
    | some mid =>
      rw [ht] at hrun
      rw [forall_mem_cons]
      refine ⟨?_, ih (h.sublist (sublist_cons_self u us)) hrun⟩
      -- What comes behind does not touch the tables of the first transaction.
      apply (h.idempotent u mem_cons_self db mid ht).sameOn
        (h.keepsVersion u mem_cons_self)
      intro n hn
      have hframe := (commits_frame mid us).1 n fun v hv hmem =>
        hdis.1 v hv n hn hmem
      rw [← hframe, show mid.commits us = (true, db') from hrun]

theorem resume (h : Restartable us) (hrun : db.commits us = (true, db')) (vs : List (List Stmt)) :
    db'.commits (us ++ vs) = db.commits (us ++ vs) := by
  rw [commits_append (commits_done (h.done hrun)), commits_append hrun]

end Restartable

theorem transaction_drop {db db' : Db} {name : Name}
    (h : db.transaction [.dropTable name true] = some db') : db'.tables[name]? = none := by
  simp only [transaction_cons, exec] at h
  cases ht : db.tables[name]? with
  | none =>
    simp only [ht, if_true] at h
    obtain rfl := some.inj h
    exact ht
  | some t =>
    simp only [ht] at h
    obtain rfl := some.inj h
    rw [erase_tables, if_pos rfl]

theorem idempotent_drop (name : Name) : Idempotent [.dropTable name true] := by
  intro db db' h
  simp [Done, exec, transaction_drop h, transaction]

theorem idempotent_create (name : Name) (columns key : List Name) :
    Idempotent [.createTable name columns key] := by
  intro db db' h
  have hsome : ∃ t, db'.tables[name]? = some t := by
    simp only [transaction_cons, exec] at h
    cases ht : db.tables[name]? with
    | none =>
      simp only [ht] at h
      obtain rfl := some.inj h
      exact ⟨_, by rw [set_tables, if_pos rfl]⟩
    | some t =>
      simp only [ht] at h
      obtain rfl := some.inj h
      exact ⟨t, ht⟩
  obtain ⟨t, ht⟩ := hsome
  simp [Done, exec, ht, transaction]

theorem idempotent_delete (name : Name) (conds : List (Name × Value)) :
    Idempotent [.delete name conds] := by
  intro db db' h
  simp only [transaction_cons, exec, bind_eq_bind, bind_eq_some_iff] at h
  obtain ⟨db₁, ⟨t, ht, he⟩, h⟩ := h
  obtain rfl := some.inj h
  split_ifs at he with hc
  obtain rfl := some.inj he
  let t' : Table := { t with rows := t.rows.filter fun row => !t.selects conds row }
  have hrows : { t' with rows := t'.rows.filter fun row => !t'.selects conds row } = t' := by
    have hfilter : t'.rows.filter (fun row => !t'.selects conds row) = t'.rows := by
      apply filter_eq_self.mpr
      intro row hrow
      exact (mem_filter.mp hrow).2
    rw [hfilter]
  have hget : (db.set name t').tables[name]? = some t' := by rw [set_tables, if_pos rfl]
  have hexec : (db.set name t').exec (.delete name conds) = some (db.set name t') := by
    simp only [exec, hget, bind_eq_bind, bind_some]
    rw [if_pos hc, hrows, set_self hget]
    rfl
  rw [Done, transaction_cons, hexec]
  rfl

section Rebuild

/-- A table is moved away and filled again from there, with columns of its own. -/
def rebuild (name tmp : Name) (columns key : List Name) (selected : Option (List Name)) : List Stmt :=
  [.renameTable name tmp, .createTable name columns key, .insertSelect name tmp selected,
    .dropTable tmp false]

variable {name tmp : Name} {columns key : List Name} {selected : Option (List Name)} {db db' : Db}

theorem rebuild_iff (hne : name ≠ tmp) :
    db.transaction (rebuild name tmp columns key selected) = some db' ↔
      ∃ t t', db.tables[name]? = some t ∧ db.tables[tmp]? = none ∧
        (selected.getD t.columns).all (· ∈ t.columns) ∧
        (selected.getD t.columns).length = columns.length ∧
        (⟨columns, key, []⟩ : Table).insertAll
          (t.rows.map fun row => (selected.getD t.columns).map (t.get row)) = some t' ∧
        db' = db.set name t' := by
  have hend : ∀ (t s t' : Table), db.tables[tmp]? = none →
      ((((db.erase name).set tmp t).set name s).set name t').erase tmp = db.set name t' := by
    intro t s t' htmp
    refine ext_tables (fun n => ?_) rfl
    simp only [erase_tables, set_tables]
    split_ifs with h₁ h₂ h₃
    · exact absurd (h₂.trans h₁.symm) hne
    · rw [← h₁, htmp]
    · rfl
    · rfl
  simp only [rebuild, transaction_cons, exec, bind_eq_bind, bind_eq_some_iff]
  constructor
  · rintro ⟨db₁, ⟨t, ht, h₁⟩, db₂, h₂, db₃, ⟨s, hs, t₂, ht₂, h₃⟩, db₄, h₄, h⟩
    split at h₁
    · simp at h₁
    next htmp =>
    obtain rfl := some.inj h₁
    simp only [set_tables, erase_tables, if_neg hne.symm, if_true] at h₂
    obtain rfl := some.inj h₂
    simp only [set_tables, if_true, if_neg hne, some.injEq] at hs ht₂
    subst hs ht₂
    split_ifs at h₃ with hc
    obtain ⟨t', hins, h₃⟩ := bind_eq_some_iff.mp h₃
    obtain rfl := some.inj h₃
    simp only [set_tables, if_true, if_neg hne] at h₄
    obtain rfl := some.inj h₄
    obtain rfl := some.inj h
    rw [Bool.and_eq_true, decide_eq_true_eq] at hc
    exact ⟨t, t', ht, htmp, hc.1, hc.2, hins, hend t _ t' htmp⟩
  · rintro ⟨t, t', ht, htmp, hcols, hlen, hins, rfl⟩
    refine ⟨(db.erase name).set tmp t, ⟨t, ht, by rw [htmp]; rfl⟩,
      ((db.erase name).set tmp t).set name ⟨columns, key, []⟩, ?_,
      (((db.erase name).set tmp t).set name ⟨columns, key, []⟩).set name t',
      ⟨⟨columns, key, []⟩, ?_, t, ?_, ?_⟩, db.set name t', ?_, rfl⟩
    · simp only [set_tables, erase_tables, if_neg hne.symm, if_true]
    · simp only [set_tables, if_true]
    · simp only [set_tables, if_true, if_neg hne]
    · rw [if_pos (by rw [hcols, Bool.true_and]; exact decide_eq_true hlen), hins]
      rfl
    · simp only [set_tables, if_true, if_neg hne]
      rw [hend t _ t' htmp]

theorem rebuild_of_keyed {t : Table} (hne : name ≠ tmp) (ht : db.tables[name]? = some t)
    (htmp : db.tables[tmp]? = none) (hcols : (selected.getD t.columns).all (· ∈ t.columns))
    (hlen : (selected.getD t.columns).length = columns.length) (hkeyed : t.Keyed)
    (hkeys : ∀ r r', .null ∈ t.keyOf r' ∨ t.keyOf r ≠ t.keyOf r' →
      let s : Table := ⟨columns, key, []⟩
      let select := fun row => s.keyOf ((selected.getD t.columns).map (t.get row))
      .null ∈ select r' ∨ select r ≠ select r') :
    ∃ db', db.transaction (rebuild name tmp columns key selected) = some db' := by
  let rows := t.rows.map fun row => (selected.getD t.columns).map (t.get row)
  have hrows : (⟨columns, key, [] ++ rows⟩ : Table).Keyed :=
    pairwise_map.mpr (hkeyed.imp fun {r r'} h => hkeys r r' h)
  have hins := Table.insertAll_of_keyed (t := ⟨columns, key, []⟩) hrows
  exact ⟨_, (rebuild_iff hne).mpr ⟨t, _, ht, htmp, hcols, hlen, hins, rfl⟩⟩

theorem idempotent_rebuild (hne : name ≠ tmp)
    (hcols : (selected.getD columns).all (· ∈ columns))
    (hlen : (selected.getD columns).length = columns.length)
    (hfix : ∀ (t : Table) (row : List Value), (selected.getD t.columns).length = columns.length →
      (selected.getD columns).map ((⟨columns, key, []⟩ : Table).get
        ((selected.getD t.columns).map (t.get row))) = (selected.getD t.columns).map (t.get row)) :
    Idempotent (rebuild name tmp columns key selected) := by
  intro db db' h
  obtain ⟨t, t', ht, htmp, -, hlen', hins, rfl⟩ := (rebuild_iff hne).mp h
  have htable := Table.insertAll_eq_some hins
  have hself : (db.set name t').tables[name]? = some t' := by rw [set_tables, if_pos rfl]
  have hcolumns : t'.columns = columns := by rw [htable]
  have hrows : t'.rows.map (fun row => (selected.getD t'.columns).map (t'.get row)) =
      t.rows.map fun row => (selected.getD t.columns).map (t.get row) := by
    have hget : t'.get = (⟨columns, key, []⟩ : Table).get := by
      funext row c
      simp only [Table.get, hcolumns]
    rw [hget, hcolumns, htable, nil_append, List.map_map]
    apply map_congr_left
    intro row _
    exact hfix t row hlen'
  refine (rebuild_iff hne).mpr ⟨t', t', hself, ?_, ?_, ?_, ?_, (set_self hself).symm⟩
  · rw [set_tables, if_neg hne, htmp]
  · rw [hcolumns]
    exact hcols
  · rw [hcolumns]
    exact hlen
  · rw [hrows, hins]

theorem map_get_columns {t : Table} (hnd : t.columns.Nodup) {row : List Value}
    (hlen : row.length = t.columns.length) : t.columns.map (t.get row) = row := by
  unfold Table.get
  generalize t.columns = cs at hnd hlen ⊢
  induction cs generalizing row with
  | nil => exact (length_eq_zero_iff.mp hlen).symm
  | cons c cs ih =>
    cases row with
    | nil => simp at hlen
    | cons v row =>
      rw [nodup_cons] at hnd
      rw [map_cons, zip_cons_cons, lookup_cons_self, getD_some]
      congr 1
      calc cs.map (fun a => (((c, v) :: cs.zip row).lookup a).getD .null)
          = cs.map (fun a => ((cs.zip row).lookup a).getD .null) := by
            apply map_congr_left
            intro a ha
            have hac : a ≠ c := fun h => hnd.1 (h ▸ ha)
            rw [lookup_cons, beq_false_of_ne hac]
        _ = row := ih hnd.2 (by simpa using hlen)

end Rebuild

end Magisk.Sql
