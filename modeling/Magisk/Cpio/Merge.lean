import Magisk.Cpio.Backup

namespace Magisk.Cpio

open List

abbrev Items := List (Str × CpioEntry)

/-- No item of `right` has the name and the data of `l`. -/
def changedIn (right : Items) (l : Str × CpioEntry) : Bool :=
  right.all fun r => decide (r.1 = l.1 → r.2.data ≠ l.2.data)

/-- No item of `left` has the name of `r`. -/
def newIn (left : Items) (r : Str × CpioEntry) : Bool := left.all fun l => decide (l.1 ≠ r.1)

def nulSeparated (names : List Str) : Str := names.flatMap (· ++ ['\x00'])

def MergeState.items (st : MergeState) : Items × Items :=
  (st.lhs.toList ++ st.left, st.rhs.toList ++ st.right)

abbrev Ascending (l : Items) : Prop := l.Pairwise fun a b => compare a.1 b.1 = .lt

/-- All that one round can do, in terms of the items not yet used. -/
inductive Round : Action → Items × Items → Items × Items → Prop
  | left {l left} : Round (.backup l.1 l.2) (l :: left, []) (left, [])
  | less {l left r right} : compare l.1 r.1 = .lt →
      Round (.backup l.1 l.2) (l :: left, r :: right) (left, r :: right)
  | right {r right} : Round (.record r.1) ([], r :: right) ([], right)
  | greater {l left r right} : compare l.1 r.1 = .gt →
      Round (.record r.1) (l :: left, r :: right) (l :: left, right)
  | differ {l left r right} : l.1 = r.1 → r.2.data ≠ l.2.data →
      Round (.backup l.1 l.2) (l :: left, r :: right) (left, right)
  | same {l left r right} : l.1 = r.1 → r.2.data = l.2.data →
      Round .noop (l :: left, r :: right) (left, right)

theorem items_advance (st : MergeState) : ∃ lhs left rhs right,
    advance st.lhs st.left = (lhs, left) ∧ advance st.rhs st.right = (rhs, right) ∧
    st.items = (lhs.toList ++ left, rhs.toList ++ right) ∧
    (lhs = none → left = []) ∧ (rhs = none → right = []) := by
  refine ⟨(advance st.lhs st.left).1, (advance st.lhs st.left).2, (advance st.rhs st.right).1,
    (advance st.rhs st.right).2, rfl, rfl, ?_, ?_, ?_⟩
  · rw [advance_toList, advance_toList, MergeState.items]
  · cases st.lhs <;> cases st.left <;> simp [advance]
  · cases st.rhs <;> cases st.right <;> simp [advance]

theorem mergeStep_round {st st' : MergeState} {a : Action} (h : mergeStep st = some (a, st')) :
    Round a st.items st'.items := by
  obtain ⟨lhs, left, rhs, right, hl, hr, hi, hln, hrn⟩ := items_advance st
  rw [hi]
  simp only [mergeStep, hl, hr] at h
  split at h
  · rename_i ln le rn re
    split at h
    · rename_i hc
      cases h
      exact Round.less (l := (ln, le)) (r := (rn, re)) hc
    · rename_i hc
      cases h
      exact Round.greater (l := (ln, le)) (r := (rn, re)) hc
    · rename_i hc
      have he : ln = rn := Std.LawfulEqCmp.eq_of_compare hc
      split_ifs at h with hd
      · cases h
        exact Round.differ (l := (ln, le)) (r := (rn, re)) he hd
      · cases h
        exact Round.same (l := (ln, le)) (r := (rn, re)) he (not_not.mp hd)
  · rename_i ln le
    cases h
    rw [hrn rfl]
    exact Round.left (l := (ln, le))
  · rename_i rn re
    cases h
    rw [hln rfl]
    exact Round.right (r := (rn, re))
  · cases h

theorem mergeStep_none {st : MergeState} (h : mergeStep st = none) : st.items = ([], []) := by
  obtain ⟨lhs, left, rhs, right, hl, hr, hi, hln, hrn⟩ := items_advance st
  simp only [mergeStep, hl, hr] at h
  split at h
  · split at h
    · cases h
    · cases h
    · split_ifs at h
  · cases h
  · cases h
  · rw [hi, hln rfl, hrn rfl]
    rfl

theorem ne_of_compare_lt {a b : Str} (h : compare a b = .lt) : a ≠ b := by
  rintro rfl
  have h' : compare a a = .eq := Std.ReflCmp.compare_self
  rw [h] at h'
  cases h'

variable {l r : Str × CpioEntry} {right left : Items}

theorem changedIn_of_lt (h : ∀ r ∈ right, compare l.1 r.1 = .lt) : changedIn right l := by
  simp only [changedIn, List.all_eq_true, decide_eq_true_eq]
  intro r hr he
  exact absurd he.symm (ne_of_compare_lt (h r hr))

theorem newIn_of_lt (h : ∀ l ∈ left, compare r.1 l.1 = .lt) : newIn left r := by
  simp only [newIn, List.all_eq_true, decide_eq_true_eq]
  intro l hl he
  exact ne_of_compare_lt (h l hl) he.symm

theorem changedIn_cons_of_ne (h : r.1 ≠ l.1) : changedIn (r :: right) l = changedIn right l := by
  simp [changedIn, h]

theorem newIn_cons_of_ne (h : l.1 ≠ r.1) : newIn (l :: left) r = newIn left r := by
  simp [newIn, h]

theorem lt_of_head (hs : Ascending (r :: right)) (h : compare l.1 r.1 = .lt) :
    ∀ x ∈ r :: right, compare l.1 x.1 = .lt := by
  intro x hx
  rcases mem_cons.mp hx with rfl | hx
  · exact h
  · exact Std.TransCmp.lt_trans h ((pairwise_cons.mp hs).1 x hx)

/-- The two scans of a state: changed items of the left, new names of the right. -/
def scans (i : Items × Items) : Items × List Str :=
  (i.1.filter (changedIn i.2), (i.2.filter (newIn i.1)).map Prod.fst)

theorem scans_tails (hl : Ascending (l :: left)) (hr : Ascending (r :: right)) (he : l.1 = r.1) :
    left.filter (changedIn (r :: right)) = left.filter (changedIn right) ∧
      (r :: right).filter (newIn (l :: left)) = right.filter (newIn left) := by
  constructor
  · refine filter_congr fun x hx => changedIn_cons_of_ne ?_
    rw [← he]
    exact ne_of_compare_lt ((pairwise_cons.mp hl).1 x hx)
  · rw [filter_cons_of_neg (by simp [newIn, he])]
    refine filter_congr fun x hx => newIn_cons_of_ne ?_
    rw [he]
    exact ne_of_compare_lt ((pairwise_cons.mp hr).1 x hx)

/-- What an action adds to the scans. -/
def Action.prepend (a : Action) (sc : Items × List Str) : Items × List Str :=
  match a with
  | .backup name entry => ((name, entry) :: sc.1, sc.2)
  | .record name => (sc.1, name :: sc.2)
  | .noop => sc

theorem Round.scans_eq {a : Action} {i i' : Items × Items} (h : Round a i i')
    (hl : Ascending i.1) (hr : Ascending i.2) :
    scans i = a.prepend (scans i') ∧ Ascending i'.1 ∧ Ascending i'.2 := by
  cases h with
  | @left l left =>
    exact ⟨by simp [scans, Action.prepend, changedIn], hl.tail, hr⟩
  | @less l left r right hc =>
    have hlt := lt_of_head hr hc
    refine ⟨?_, hl.tail, hr⟩
    have hn : (r :: right).filter (newIn (l :: left)) = (r :: right).filter (newIn left) :=
      filter_congr fun x hx => newIn_cons_of_ne (ne_of_compare_lt (hlt x hx))
    simp only [scans, Action.prepend, hn, filter_cons_of_pos (changedIn_of_lt hlt)]
  | @right r right =>
    exact ⟨by simp [scans, Action.prepend, newIn], hl, hr.tail⟩
  | @greater l left r right hc =>
    have hlt := lt_of_head hl (Std.OrientedCmp.lt_of_gt hc)
    refine ⟨?_, hl, hr.tail⟩
    have hn : (l :: left).filter (changedIn (r :: right)) = (l :: left).filter (changedIn right) :=
      filter_congr fun x hx => changedIn_cons_of_ne (ne_of_compare_lt (hlt x hx))
    simp only [scans, Action.prepend, hn, filter_cons_of_pos (newIn_of_lt hlt),
      map_cons]
  | @differ l left r right he hd =>
    have hc : changedIn (r :: right) l := by
      have h : changedIn right l := changedIn_of_lt fun x hx => by
        rw [he]
        exact (pairwise_cons.mp hr).1 x hx
      simp [changedIn, hd] at h ⊢
      exact h
    refine ⟨?_, hl.tail, hr.tail⟩
    simp only [scans, Action.prepend, filter_cons_of_pos hc,
      (scans_tails hl hr he).1, (scans_tails hl hr he).2]
  | @same l left r right he hd =>
    have hc : ¬ changedIn (r :: right) l := by simp [changedIn, he, hd]
    refine ⟨?_, hl.tail, hr.tail⟩
    simp only [scans, Action.prepend, filter_cons_of_neg hc,
      (scans_tails hl hr he).1, (scans_tails hl hr he).2]

theorem mergeLoop_eq (xz : Xz) (skipCompress : Bool) (st : MergeState) (acc : Entries × Str)
    (hl : Ascending st.items.1) (hr : Ascending st.items.2) :
    mergeLoop xz skipCompress st acc =
      (acc.1.insertMany ((scans st.items).1.map (backupEntry xz skipCompress)),
        acc.2 ++ nulSeparated (scans st.items).2) := by
  induction st, acc using mergeLoop.induct xz skipCompress with
  | case1 st acc h =>
    rw [mergeLoop_none h]
    simp [mergeStep_none h, scans, nulSeparated]
  | case2 st acc a st' h hlt ih =>
    obtain ⟨hs, hl', hr'⟩ := (mergeStep_round h).scans_eq hl hr
    rw [mergeLoop_some h, ih hl' hr', hs]
    cases a with
    | backup name entry =>
      rw [Action.prepend, map_cons,
        ← Prod.mk.eta (p := backupEntry xz skipCompress (name, entry)),
        Std.ExtTreeMap.insertMany_cons]
      rfl
    | record name => simp [Action.prepend, applyAction, nulSeparated]
    | noop => rfl

end Magisk.Cpio
