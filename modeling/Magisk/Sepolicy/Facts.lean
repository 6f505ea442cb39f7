import Magisk.Sepolicy.Reread

namespace Magisk.Sepolicy

open List

/-- A permission or an ioctl code under the key of a rule. -/
inductive Fact where
  | perm (src tgt cls : UInt16) (effect : Effect) (bit : Fin 32)
  | code (src tgt cls : UInt16) (effect : XpermEffect) (code : UInt16)

/-- The table grants, audits or silences it. -/
def Avtab.Has (h : Avtab) : Fact → Prop
  | .perm s t c effect bit => effect.has (h.vector ⟨s, t, c, effect.specified⟩) bit
  | .code s t c effect code => Permitted (h.search ⟨s, t, c, effect.specified⟩) code

theorem not_has_empty (f : Fact) : ¬ Avtab.empty.Has f := by
  cases f with
  | perm s t c effect bit => exact effect.has_initialData bit.isLt
  | code s t c effect code =>
    rintro (⟨d, hd, -⟩ | ⟨d, hd, -⟩) <;> exact absurd hd not_mem_nil

/-- A line that only adds the facts of `S` to the table. -/
def Adds (other : OtherMethod → Policydb → Policydb) (db : Policydb) (line : Str)
    (S : Fact → Prop) : Prop :=
  ∀ h, ∃ h', parseStatement other { db with teAvtab := h } line = { db with teAvtab := h' } ∧
    ∀ f, h'.Has f ↔ h.Has f ∨ S f

section Adds

variable {other : OtherMethod → Policydb → Policydb} {db : Policydb}

theorem Adds.congr {line : Str} {S S' : Fact → Prop} (h : Adds other db line S)
    (hS : ∀ f, S f ↔ S' f) : Adds other db line S' := by
  intro t
  obtain ⟨t', he, hf⟩ := h t
  exact ⟨t', he, fun f => (hf f).trans (or_congr_right (hS f))⟩

theorem adds_of_error {line : Str} {S : Fact → Prop} (h : calledMethod line = none)
    (hS : ∀ f, ¬ S f) : Adds other db line S := by
  intro t
  refine ⟨t, by rw [parseStatement_eq, h]; rfl, fun f => ?_⟩
  simp [hS f]

theorem adds_filterMap {ι : Type} {nodes : List ι} {words : ι → Option (List Str)}
    {S : ι → Fact → Prop}
    (h : ∀ n ∈ nodes, ∀ w, words n = some w → Adds other db (printLine w) (S n)) (t : Avtab) :
    ∃ t', ((nodes.filterMap words).map printLine).foldl (parseStatement other)
        { db with teAvtab := t } = { db with teAvtab := t' } ∧
      ∀ f, t'.Has f ↔ t.Has f ∨ ∃ n ∈ nodes, (words n).isSome ∧ S n f := by
  induction nodes generalizing t with
  | nil => exact ⟨t, rfl, by simp⟩
  | cons n nodes ih =>
    rw [forall_mem_cons] at h
    cases hw : words n with
    | none =>
      obtain ⟨t', he, hf⟩ := ih h.2 t
      refine ⟨t', by rw [filterMap_cons_none hw, he], fun f => ?_⟩
      rw [hf]
      simp [hw]
    | some w =>
      obtain ⟨t₁, h₁, hf₁⟩ := h.1 w hw t
      obtain ⟨t₂, h₂, hf₂⟩ := ih h.2 t₁
      refine ⟨t₂, ?_, fun f => ?_⟩
      · rw [filterMap_cons_some hw, map_cons, foldl_cons, h₁, h₂]
      · rw [hf₂, hf₁, or_assoc]
        simp [hw]

end Adds

theorem Effect.specified_injective : Function.Injective Effect.specified := by
  intro a b h
  cases a <;> cases b <;> first | rfl | cases h

theorem XpermEffect.specified_injective : Function.Injective XpermEffect.specified := by
  intro a b h
  cases a <;> cases b <;> first | rfl | cases h

theorem Effect.specified_ne (e : Effect) (e' : XpermEffect) : e.specified ≠ e'.specified := by
  cases e <;> cases e' <;> simp [Effect.specified, XpermEffect.specified]

theorem search_runCalls_of_ne (db : Policydb) (all : List TypeDatum) (effect : Effect)
    (l : List Call) (h : Avtab) {a : Key} (ha : a.specified ≠ effect.specified) :
    (runCalls db all effect l h).search a = h.search a := by
  have hedit : ∀ perm invert (l : List (TypeDatum × TypeDatum × ClassDatum)) (h : Avtab),
      (editAll perm effect invert l h).search a = h.search a := by
    intro perm invert l
    induction l with
    | nil => exact fun h => rfl
    | cons n l ih =>
      intro h
      rw [editAll, foldl_cons]
      refine (ih _).trans ?_
      rw [addRuleKey, Avtab.edit, Avtab.search_update, if_neg]
      rintro rfl
      exact ha rfl
  induction l generalizing h with
  | nil => rfl
  | cons call l ih =>
    exact (ih _).trans (hedit _ _ _ h)

section Lines

variable {other : OtherMethod → Policydb → Policydb} {db : Policydb} (ht : Symbols db.types)
  (hcl : Symbols db.classes) {src tgt cls : Bytes} {s t : TypeDatum} {c : ClassDatum}
  (hs : (src, s) ∈ db.types) (htg : (tgt, t) ∈ db.types) (hc : (cls, c) ∈ db.classes)

theorem findOrAll_nameText {α : Type} {table : List (Bytes × α)} (ht : Symbols table)
    {name : Bytes} {a : α} (hm : (name, a) ∈ table) :
    findOrAll table (nameText name) = if name.length ≤ 255 then some (some a) else none := by
  rw [findOrAll, if_neg (nameText_ne_nil (ht.ident _ hm)), hashtabFind_nameText ht hm]
  split_ifs <;> rfl

include ht hcl hs htg hc

theorem resolve_nameText (hp : Symbols c.perms) {name : Bytes} {perm : PermDatum}
    (hm : (name, perm) ∈ c.perms) :
    resolve db ⟨nameText src, nameText tgt, nameText cls, nameText name⟩ =
      if (∀ n ∈ [src, tgt, cls], n.length ≤ 255) ∧ name.length ≤ 255 then
        some ⟨some s, some t, some c, some perm.bit⟩ else none := by
  have h0 := nameText_ne_nil (hp.ident _ hm)
  have hfind := hashtabFind_nameText hp hm
  simp only [resolve, findOrAll_nameText ht hs, findOrAll_nameText ht htg,
    findOrAll_nameText hcl hc, h0, if_false, findPerm_eq]
  by_cases h1 : src.length ≤ 255
  · by_cases h2 : tgt.length ≤ 255
    · by_cases h3 : cls.length ≤ 255
      · by_cases h4 : name.length ≤ 255
        · simp [h1, h2, h3, h4, hfind]
        · simp [h1, h2, h3, h4, hfind]
      · simp [h1, h2, h3]
    · simp [h1, h2]
  · simp [h1]

variable (hp : Symbols c.perms) {perms : List Bytes} (h0 : perms ≠ [])
  (hmem : ∀ name ∈ perms, ∃ perm, (name, perm) ∈ c.perms)

include hp h0 hmem

theorem mem_calls_nameText {call : Call} :
    call ∈ calls db [nameText src] [nameText tgt] [nameText cls] (perms.map nameText) ↔
      (∀ n ∈ [src, tgt, cls], n.length ≤ 255) ∧ ∃ name ∈ perms, ∃ perm,
        (name, perm) ∈ c.perms ∧ name.length ≤ 255 ∧
          call = ⟨some s, some t, some c, some perm.bit⟩ := by
  have hvec : expandVec (perms.map nameText) = perms.map nameText := by
    rw [expandVec, if_neg (by simpa using h0)]
  have hone : ∀ v : Str, expandVec [v] = [v] := fun _ => rfl
  have hcalls : call ∈ calls db [nameText src] [nameText tgt] [nameText cls]
      (perms.map nameText) ↔ ∃ name ∈ perms,
        resolve db ⟨nameText src, nameText tgt, nameText cls, nameText name⟩ = some call := by
    simp [calls, expandNames, hvec, hone, mem_filterMap]
  rw [hcalls]
  constructor
  · rintro ⟨name, hn, hr⟩
    obtain ⟨perm, hperm⟩ := hmem name hn
    rw [resolve_nameText ht hcl hs htg hc hp hperm] at hr
    split_ifs at hr with hlen
    exact ⟨hlen.1, name, hn, perm, hperm, hlen.2, (Option.some.inj hr).symm⟩
  · rintro ⟨hlen, name, hn, perm, hperm, hlen', rfl⟩
    exact ⟨name, hn, by rw [resolve_nameText ht hcl hs htg hc hp hperm, if_pos ⟨hlen, hlen'⟩]⟩

theorem has_calls (effect : Effect) (h : Avtab) (f : Fact) :
    (runCalls db db.attrs effect (calls db [nameText src] [nameText tgt] [nameText cls]
      (perms.map nameText)) h).Has f ↔ h.Has f ∨ (∀ n ∈ [src, tgt, cls], n.length ≤ 255) ∧
        ∃ name ∈ perms, ∃ perm, (name, perm) ∈ c.perms ∧ name.length ≤ 255 ∧
          f = .perm s.key t.key c.key effect perm.bit := by
  have hframe := fun a => search_runCalls_of_ne db db.attrs effect
    (calls db [nameText src] [nameText tgt] [nameText cls] (perms.map nameText)) h (a := a)
  cases f with
  | code x y z e code =>
    simp only [Avtab.Has, hframe ⟨x, y, z, e.specified⟩ (effect.specified_ne e).symm, reduceCtorEq,
      and_false, exists_false, or_false]
  | perm x y z e bit =>
    by_cases he : e = effect
    · subst he
      simp only [Avtab.Has, has_runCalls _ _ _ _ _ _ _ _ bit.isLt, mem_callTuples,
        mem_calls_nameText ht hcl hs htg hc hp h0 hmem]
      apply or_congr_right
      constructor
      · rintro ⟨call, ⟨hlen, name, hn, perm, hperm, hlen', rfl⟩, hbit, ⟨s', hs', rfl⟩, ⟨t', ht', rfl⟩,
          c', hc', rfl⟩
        simp only [orAll, mem_singleton] at hs' ht' hc'
        subst hs' ht' hc'
        have hb : perm.bit = bit := Fin.ext (by simpa [hasBit] using hbit)
        exact ⟨hlen, name, hn, perm, hperm, hlen', by rw [hb]⟩
      · rintro ⟨hlen, name, hn, perm, hperm, hlen', hf⟩
        simp only [Fact.perm.injEq, true_and] at hf
        obtain ⟨rfl, rfl, rfl, rfl⟩ := hf
        exact ⟨_, ⟨hlen, name, hn, perm, hperm, hlen', rfl⟩, by simp [hasBit],
          ⟨s, by simp [orAll], rfl⟩, ⟨t, by simp [orAll], rfl⟩, c, by simp [orAll], rfl⟩
    · have hsp : e.specified ≠ effect.specified := fun h => he (Effect.specified_injective h)
      have hv := hframe ⟨x, y, z, e.specified⟩ hsp
      simp only [Avtab.Has, Avtab.vector, hv, Fact.perm.injEq, he, false_and, and_false,
        exists_false, or_false]

theorem adds_avWords (effect : Effect) :
    Adds other db (printLine (avWords effect src tgt cls perms)) fun f =>
      (∀ n ∈ src :: tgt :: cls :: perms, IsName (nameText n)) ∧
      (∀ n ∈ [src, tgt, cls], n.length ≤ 255) ∧ ∃ name ∈ perms, ∃ perm,
        (name, perm) ∈ c.perms ∧ name.length ≤ 255 ∧
          f = .perm s.key t.key c.key effect perm.bit := by
  have hid : ∀ n ∈ src :: tgt :: cls :: perms, isIdentifier n := by
    simp only [forall_mem_cons]
    refine ⟨ht.ident _ hs, ht.ident _ htg, hcl.ident _ hc, fun n hn => ?_⟩
    obtain ⟨perm, hperm⟩ := hmem n hn
    exact hp.ident _ hperm
  by_cases hn : ∀ n ∈ src :: tgt :: cls :: perms, IsName (nameText n)
  · intro h
    have hcall : ∀ db' s t c p, (effect.method s t c p).call other db' =
        effect.statement db' s t c p := by
      cases effect <;> exact fun _ _ _ _ _ => rfl
    refine ⟨runCalls db db.attrs effect (calls db [nameText src] [nameText tgt] [nameText cls]
      (perms.map nameText)) h, ?_, fun f => ?_⟩
    · rw [parseStatement_eq, calledMethod_avWords effect hid hn, Option.elim_some, hcall,
        statement_eq]
      rfl
    · dsimp only
      rw [and_iff_right hn]
      exact has_calls ht hcl hs htg hc hp h0 hmem effect h f
  · exact adds_of_error (calledMethod_avWords_eq_none effect hid hn) fun f h => hn h.1

end Lines

theorem has_addXpermKey {x : Xperm} (hx : x.reset = false) (effect : XpermEffect)
    (s t : TypeDatum) (c : ClassDatum) (h : Avtab) (f : Fact) :
    (addXpermKey x effect s t h c).Has f ↔
      h.Has f ∨ ∃ code, x.Rounded code ∧ f = .code s.key t.key c.key effect code := by
  cases f with
  | perm u v w e bit =>
    have hk : (⟨u, v, w, e.specified⟩ : Key) ≠ xpermKey s t c effect := by
      intro h
      exact e.specified_ne effect (congrArg Key.specified h)
    simp only [Avtab.Has, Avtab.vector, addXpermKey, Avtab.search_update, if_neg hk, reduceCtorEq,
      and_false, exists_false, or_false]
  | code u v w e code =>
    by_cases hk : (⟨u, v, w, e.specified⟩ : Key) = xpermKey s t c effect
    · have he := XpermEffect.specified_injective (congrArg Key.specified hk)
      simp only [xpermKey, Key.mk.injEq] at hk
      obtain ⟨rfl, rfl, rfl, -⟩ := hk
      subst he
      have hsearch := search_addXpermKey x e s t c h
      rw [xpermKey] at hsearch
      simp only [Avtab.Has, hsearch, permitted_add hx, Fact.code.injEq, true_and]
      simp
    · have hne : ∀ code', ¬ Fact.code u v w e code = .code s.key t.key c.key effect code' := by
        intro code' hf
        obtain ⟨rfl, rfl, rfl, rfl, -⟩ := hf
        exact hk rfl
      simp only [Avtab.Has, addXpermKey, Avtab.search_update, if_neg hk, hne, and_false,
        exists_false, or_false]

section XpermLines

variable {other : OtherMethod → Policydb → Policydb} {db : Policydb} (ht : Symbols db.types)
  (hcl : Symbols db.classes) {src tgt cls : Bytes} {s t : TypeDatum} {c : ClassDatum}
  (hs : (src, s) ∈ db.types) (htg : (tgt, t) ∈ db.types) (hc : (cls, c) ∈ db.classes)
include ht hcl hs htg hc

theorem resolveXperm_nameText :
    resolveXperm db (nameText src) (nameText tgt) (nameText cls) =
      if ∀ n ∈ [src, tgt, cls], n.length ≤ 255 then some (some s, some t, some c) else none := by
  simp only [resolveXperm, findOrAll_nameText ht hs, findOrAll_nameText ht htg,
    findOrAll_nameText hcl hc]
  by_cases h1 : src.length ≤ 255
  · by_cases h2 : tgt.length ≤ 255
    · by_cases h3 : cls.length ≤ 255
      · simp [h1, h2, h3]
      · simp [h1, h2, h3]
    · simp [h1, h2]
  · simp [h1]

theorem addXpermNames_nameText (effect : XpermEffect) {x : Xperm} (hx : x.reset = false)
    (h : Avtab) : ∃ h', addXpermNames effect { db with teAvtab := h }
        (nameText src, nameText tgt, nameText cls, x) = { db with teAvtab := h' } ∧
      ∀ f, h'.Has f ↔ h.Has f ∨ ((∀ n ∈ [src, tgt, cls], n.length ≤ 255) ∧
        xpermsIoctlVersion ≤ db.policyvers) ∧ ∃ code, x.Rounded code ∧
          f = .code s.key t.key c.key effect code := by
  have hr : resolveXperm { db with teAvtab := h } (nameText src) (nameText tgt) (nameText cls) =
      resolveXperm db (nameText src) (nameText tgt) (nameText cls) := rfl
  rw [resolveXperm_nameText ht hcl hs htg hc] at hr
  unfold addXpermNames
  dsimp only
  rw [hr]
  by_cases hlen : ∀ n ∈ [src, tgt, cls], n.length ≤ 255
  · rw [if_pos hlen]
    by_cases hv : xpermsIoctlVersion ≤ db.policyvers
    · refine ⟨addXpermKey x effect s t h c, ?_, fun f => ?_⟩
      · dsimp only
        rw [@addXpermRule_concrete { db with teAvtab := h } hv]
      · rw [and_iff_right ⟨hlen, hv⟩]
        exact has_addXpermKey hx effect s t c h f
    · refine ⟨h, ?_, fun f => ?_⟩
      · dsimp only
        rw [addXpermRule, if_pos (not_le.mp hv)]
      · simp only [hv, and_false, false_and, or_false]
  · rw [if_neg hlen]
    refine ⟨h, rfl, fun f => ?_⟩
    simp only [hlen, false_and, or_false]

theorem expandXperm_nameText (effect : XpermEffect) {xs : List Xperm}
    (hx : ∀ x ∈ xs, x.reset = false) (h : Avtab) :
    ∃ h', expandXperm effect { db with teAvtab := h } [nameText src] [nameText tgt]
        [nameText cls] xs = { db with teAvtab := h' } ∧
      ∀ f, h'.Has f ↔ h.Has f ∨ ((∀ n ∈ [src, tgt, cls], n.length ≤ 255) ∧
        xpermsIoctlVersion ≤ db.policyvers) ∧ ∃ x ∈ xs, ∃ code, x.Rounded code ∧
          f = .code s.key t.key c.key effect code := by
  have hone : ∀ v : Str, expandVec [v] = [v] := fun _ => rfl
  simp only [expandXperm, hone, flatMap_singleton, foldl_map]
  induction xs generalizing h with
  | nil => exact ⟨h, rfl, by simp⟩
  | cons x xs ih =>
    rw [forall_mem_cons] at hx
    obtain ⟨h₁, he₁, hf₁⟩ := addXpermNames_nameText ht hcl hs htg hc effect hx.1 h
    obtain ⟨h₂, he₂, hf₂⟩ := ih hx.2 h₁
    refine ⟨h₂, by rw [foldl_cons, he₁, he₂], fun f => ?_⟩
    rw [hf₂, hf₁, or_assoc, ← and_or_left]
    simp only [mem_cons, exists_eq_or_imp]

theorem adds_xpermWords (effect : XpermEffect) {items : List SetItem} (h0 : items ≠ [])
    (hitems : ∀ i ∈ items, ∀ v ∈ i.values, IsDigits v) :
    Adds other db (printLine (xpermWords effect src tgt cls items)) fun f =>
      (∀ n ∈ [src, tgt, cls], IsName (nameText n)) ∧
      ((∀ n ∈ [src, tgt, cls], n.length ≤ 255) ∧ xpermsIoctlVersion ≤ db.policyvers) ∧
        ∃ i ∈ items, ∃ code, (i.element.xperm false).Rounded code ∧
          f = .code s.key t.key c.key effect code := by
  have hid : ∀ n ∈ [src, tgt, cls], isIdentifier n := by
    simp only [forall_mem_cons]
    exact ⟨ht.ident _ hs, ht.ident _ htg, hcl.ident _ hc, fun n hn => nomatch hn⟩
  by_cases hn : ∀ n ∈ [src, tgt, cls], IsName (nameText n)
  · intro h
    have hcall : ∀ db' s t c p, (effect.method s t c p).call other db' =
        expandXperm effect db' s t c p := by
      cases effect <;> exact fun _ _ _ _ _ => rfl
    have hreset : ∀ x ∈ items.map fun i => i.element.xperm false, x.reset = false := by
      intro x hx
      obtain ⟨i, -, rfl⟩ := List.mem_map.mp hx
      cases i <;> rfl
    obtain ⟨h', he, hf⟩ := expandXperm_nameText ht hcl hs htg hc effect hreset h
    refine ⟨h', ?_, fun f => ?_⟩
    · rw [parseStatement_eq, calledMethod_xpermWords effect hid hitems h0 hn, Option.elim_some,
        hcall, he]
    · dsimp only
      rw [hf, and_iff_right hn]
      simp only [List.mem_map, exists_exists_and_eq_and]
  · exact adds_of_error (calledMethod_xpermWords_eq_none effect hid hitems hn) fun f h => hn h.1

end XpermLines

end Magisk.Sepolicy
