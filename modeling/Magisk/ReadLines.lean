import Magisk.Bytes

namespace Magisk

open List

/-- The values up to the first element that has none. -/
def mapWhile {α β : Type*} (f : α → Option β) : List α → List β
  | [] => []
  | a :: l =>
    match f a with
    | none => []
    | some b => b :: mapWhile f l

section MapWhile

variable {α β : Type*} {f : α → Option β}

theorem mapWhile_cons_some {a : α} {b : β} (h : f a = some b) (l : List α) :
    mapWhile f (a :: l) = b :: mapWhile f l := by
  rw [mapWhile, h]

theorem mapWhile_cons_none {a : α} (h : f a = none) (l : List α) : mapWhile f (a :: l) = [] := by
  rw [mapWhile, h]

theorem mapWhile_mapWhile {γ : Type*} (g : β → Option γ) (l : List α) :
    mapWhile g (mapWhile f l) = mapWhile (fun a => (f a).bind g) l := by
  induction l with
  | nil => rfl
  | cons a l ih =>
    cases hf : f a with
    | none => rw [mapWhile_cons_none hf, mapWhile, mapWhile, hf, Option.bind_none]
    | some b =>
      rw [mapWhile_cons_some hf, mapWhile, mapWhile, hf, Option.bind_some, ih]

theorem mapWhile_map_eq_iff {γ : Type*} {g : γ → α} {v : β → γ} {l : List γ} :
    (mapWhile f (l.map g)).map v = l ↔ ∀ c ∈ l, (f (g c)).map v = some c := by
  induction l with
  | nil => simp [mapWhile]
  | cons c l ih =>
    rw [forall_mem_cons, ← ih, map_cons]
    cases hf : f (g c) with
    | none => simp [mapWhile_cons_none hf]
    | some b => simp [mapWhile_cons_some hf]

theorem map_mapWhile_append_drop {g : β → α} (h : ∀ a b, f a = some b → g b = a) (l : List α) :
    (mapWhile f l).map g ++ l.drop (mapWhile f l).length = l := by
  induction l with
  | nil => rfl
  | cons a l ih =>
    cases hf : f a with
    | none => simp [mapWhile_cons_none hf]
    | some b => simp [mapWhile_cons_some hf, h a b hf, ih]

end MapWhile

/-- The lines of a text with their ends; the last one may have none. -/
def splitLines : Bytes → List Bytes
  | [] => []
  | b :: s =>
    if b = 10 then [b] :: splitLines s
    else match splitLines s with
      | [] => [[b]]
      | l :: ls => (b :: l) :: ls

theorem splitLines_line {l : Bytes} (h : 10 ∉ l) (s : Bytes) :
    splitLines (l ++ 10 :: s) = (l ++ [10]) :: splitLines s := by
  induction l with
  | nil => rfl
  | cons b l ih =>
    rw [mem_cons, not_or] at h
    rw [cons_append, splitLines, if_neg (Ne.symm h.1), ih h.2, cons_append]

theorem splitLines_flatMap {α : Type*} {f : α → Bytes} {l : List α} (h : ∀ a ∈ l, 10 ∉ f a) :
    splitLines (l.flatMap fun a => f a ++ [10]) = l.map fun a => f a ++ [10] := by
  induction l with
  | nil => rfl
  | cons a l ih =>
    rw [forall_mem_cons] at h
    rw [flatMap_cons, append_assoc, singleton_append, splitLines_line h.1, ih h.2,
      map_cons]

/-- The lines that `for_each_line` comes to when its callback goes on. -/
def readLines (text : Bytes) : List Str := mapWhile fromUtf8 (splitLines text)

/-- The lines that are left when one is not valid UTF-8. -/
def unreadLines (text : Bytes) : List Bytes := (splitLines text).drop (readLines text).length

theorem readLines_append_unreadLines (text : Bytes) :
    (readLines text).map asBytes ++ unreadLines text = splitLines text :=
  map_mapWhile_append_drop (fun _ _ => asBytes_of_fromUtf8) _

end Magisk
