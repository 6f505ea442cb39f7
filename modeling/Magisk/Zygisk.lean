import Magisk.Bytes
import Magisk.Loops

namespace Magisk.Zygisk

def zygiskLdr : Str := "libzygisk.so".toList

structure ZygiskState where
  libName : Str := []
  sockets : Option ℕ × Option ℕ := (none, none)
  startCount : UInt32 := 1
deriving DecidableEq, Repr

/-- The state of Zygisk and the properties it writes. -/
structure Device where
  zygisk : ZygiskState := {}
  /-- `ro.dalvik.vm.native.bridge` -/
  nbProp : Str
  /-- `ro.maple.enable` -/
  mapleEnable : Str := []
deriving DecidableEq, Repr

inductive Call
  | setProp
  | restoreProp
  | reset (restore : Bool)
deriving DecidableEq, Repr

namespace Device

variable (d : Device)

def setProp : Device :=
  if d.zygisk.libName ≠ [] then d
  else
    let orig := d.nbProp
    let libName := if orig = [] ∨ orig = ['0'] then zygiskLdr else zygiskLdr ++ orig
    { zygisk := { d.zygisk with libName }
      nbProp := libName
      mapleEnable := if d.mapleEnable = ['1'] then ['0'] else d.mapleEnable }

def restoreProp : Device :=
  let libName := d.zygisk.libName
  let orig := if zygiskLdr.length < libName.length then libName.drop zygiskLdr.length else ['0']
  { d with zygisk := { d.zygisk with libName := [] }, nbProp := orig }

/-- Whether `reset` restores the property; a fourth start in a row makes it roll back. -/
def rollsBack (restore : Bool) : Bool := restore || 3 < d.zygisk.startCount + 1

def reset (restore : Bool) : Device :=
  let zygisk :=
    if restore then { d.zygisk with startCount := 1 }
    else { d.zygisk with sockets := (none, none), startCount := d.zygisk.startCount + 1 }
  let d' := { d with zygisk }
  if d.rollsBack restore then d'.restoreProp else d'.setProp

def call : Call → Device
  | .setProp => d.setProp
  | .restoreProp => d.restoreProp
  | .reset restore => d.reset restore

def step (c : Call) : Option Device := some (d.call c)

/-- A value that is restored as `"0"`. -/
def Unset (v : Str) : Prop := v = [] ∨ v = ['0']

instance (v : Str) : Decidable (Unset v) := inferInstanceAs (Decidable (v = [] ∨ v = ['0']))

/-- The property holds `v`; an empty value may have become `"0"`. -/
def Holds (v : Str) : Prop := d.nbProp = v ∨ v = [] ∧ d.nbProp = ['0']

/-- Without a `lib_name` the property holds its first value. -/
def Restored (v : Str) : Prop := d.zygisk.libName = [] → d.Holds v

/-- A `lib_name` carries the first value. -/
def Remembers (v : Str) : Prop :=
  d.zygisk.libName ≠ [] → d.zygisk.libName = zygiskLdr ++ if Unset v then [] else v

def Restores : Call → Prop
  | .setProp => False
  | .restoreProp => True
  | .reset restore => d.rollsBack restore

/-- The call does not restore the property again. -/
def Once (c : Call) : Prop := d.Restores c → d.zygisk.libName ≠ []

variable {d} {v : Str}

theorem zygiskLdr_ne_nil : zygiskLdr ≠ [] := by decide

theorem unset_of_holds (h : d.Holds v) : Unset d.nbProp ↔ Unset v := by
  rcases h with h | ⟨rfl, h⟩
  · rw [h]
  · simp [h, Unset]

theorem setProp_of_libName (h : d.zygisk.libName ≠ []) : d.setProp = d := if_pos h

theorem setProp_libName (h : d.zygisk.libName = []) :
    d.setProp.zygisk.libName = zygiskLdr ++ if Unset d.nbProp then [] else d.nbProp := by
  unfold setProp Unset
  rw [if_neg (not_not.mpr h)]
  by_cases hu : d.nbProp = [] ∨ d.nbProp = ['0']
  · simp [hu]
  · simp [hu]

theorem setProp_remembers (hr : d.Restored v) (hm : d.Remembers v) : d.setProp.Remembers v := by
  by_cases hlib : d.zygisk.libName = []
  · intro _
    have hh := hr hlib
    have hu := unset_of_holds hh
    rw [setProp_libName hlib]
    by_cases hv : Unset v
    · rw [if_pos hv, if_pos (hu.mpr hv)]
    · rw [if_neg hv, if_neg (mt hu.mp hv)]
      rcases hh with h | ⟨h, -⟩
      · rw [h]
      · exact absurd (Or.inl h) hv
  · rw [setProp_of_libName hlib]
    exact hm

theorem setProp_restored (hr : d.Restored v) : d.setProp.Restored v := by
  by_cases hlib : d.zygisk.libName = []
  · intro hnil
    rw [setProp_libName hlib] at hnil
    exact absurd (List.append_eq_nil_iff.mp hnil).1 zygiskLdr_ne_nil
  · rw [setProp_of_libName hlib]
    exact hr

theorem restoreProp_remembers (d : Device) (v : Str) : d.restoreProp.Remembers v :=
  fun h => absurd rfl h

theorem restoreProp_nbProp (hm : d.Remembers v) (hlib : d.zygisk.libName ≠ []) :
    d.restoreProp.nbProp = if Unset v then ['0'] else v := by
  unfold restoreProp
  rw [hm hlib]
  by_cases hv : Unset v
  · simp [hv]
  · have hne : v ≠ [] := fun h => hv (Or.inl h)
    simp [hv, List.length_pos_iff.mpr hne]

/-- A restore keeps the invariant exactly if there is something to restore from, or the first
value is restored as `"0"` anyway. -/
theorem restoreProp_restored_iff (hm : d.Remembers v) :
    d.restoreProp.Restored v ↔ Unset v ∨ d.zygisk.libName ≠ [] := by
  have hnil : d.restoreProp.zygisk.libName = [] := rfl
  have hzero : Unset v → ['0'] = v ∨ v = [] ∧ ['0'] = ['0'] := by
    rintro (rfl | rfl)
    · exact Or.inr ⟨rfl, rfl⟩
    · exact Or.inl rfl
  unfold Restored
  rw [hnil]
  simp only [true_imp_iff]
  by_cases hlib : d.zygisk.libName = []
  · have hprop : d.restoreProp.nbProp = ['0'] := by simp [restoreProp, hlib]
    have hno : ¬ d.zygisk.libName ≠ [] := not_not.mpr hlib
    unfold Holds
    rw [hprop, or_iff_left hno]
    constructor
    · rintro (h | ⟨h, -⟩)
      · exact Or.inr h.symm
      · exact Or.inl h
    · exact hzero
  · apply iff_of_true _ (Or.inr hlib)
    unfold Holds
    rw [restoreProp_nbProp hm hlib]
    by_cases hv : Unset v
    · rw [if_pos hv]
      exact hzero hv
    · rw [if_neg hv]
      exact Or.inl rfl

-- `reset` changes nothing that the invariants look at before it sets or restores.
theorem call_cases (d : Device) (c : Call) : ∃ d' : Device, d'.nbProp = d.nbProp ∧
    d'.zygisk.libName = d.zygisk.libName ∧
    (d.Restores c ∧ d.call c = d'.restoreProp ∨ ¬ d.Restores c ∧ d.call c = d'.setProp) := by
  cases c with
  | setProp => exact ⟨d, rfl, rfl, Or.inr ⟨id, rfl⟩⟩
  | restoreProp => exact ⟨d, rfl, rfl, Or.inl ⟨trivial, rfl⟩⟩
  | reset restore =>
    refine ⟨{ d with zygisk := if restore then { d.zygisk with startCount := 1 } else
      { d.zygisk with sockets := (none, none), startCount := d.zygisk.startCount + 1 } },
      rfl, by cases restore <;> rfl, ?_⟩
    simp only [call, reset, Restores]
    by_cases hb : d.rollsBack restore
    · exact Or.inl ⟨hb, if_pos hb⟩
    · exact Or.inr ⟨hb, if_neg hb⟩

theorem call_remembers (hr : d.Restored v) (hm : d.Remembers v) (c : Call) :
    (d.call c).Remembers v := by
  obtain ⟨d', hprop, hlib, ⟨-, hc⟩ | ⟨-, hc⟩⟩ := d.call_cases c
  · rw [hc]
    exact restoreProp_remembers d' v
  · rw [hc]
    apply setProp_remembers
    · unfold Restored Holds at hr ⊢
      rwa [hlib, hprop]
    · unfold Remembers at hm ⊢
      rwa [hlib]

theorem call_restored_iff (hr : d.Restored v) (hm : d.Remembers v) (c : Call) :
    (d.call c).Restored v ↔ Unset v ∨ d.Once c := by
  obtain ⟨d', hprop, hlib, ⟨hres, hc⟩ | ⟨hres, hc⟩⟩ := d.call_cases c
  · have hm' : d'.Remembers v := by
      unfold Remembers at hm ⊢
      rwa [hlib]
    rw [hc, restoreProp_restored_iff hm', hlib]
    simp only [Once, hres, true_imp_iff]
  · have hr' : d'.Restored v := by
      unfold Restored Holds at hr ⊢
      rwa [hlib, hprop]
    rw [hc]
    exact iff_of_true (setProp_restored hr') (Or.inr fun h => absurd h hres)

/-- Whenever `lib_name` is empty the property holds its first value again, exactly if that is
empty or `"0"`, or the property is never restored while `lib_name` is empty. -/
theorem restored_iff (v mapleEnable : Str) (calls : List Call) :
    Throughout step (·.Restored v) { nbProp := v, mapleEnable } calls ↔
      Unset v ∨ Along step Once { nbProp := v, mapleEnable } calls := by
  have hr : Restored { nbProp := v, mapleEnable } v := fun _ => Or.inl rfl
  have hm : Remembers { nbProp := v, mapleEnable } v := fun h => absurd rfl h
  rw [← along_or]
  refine throughout_iff_along (I := (Remembers · v)) (P := (Restored · v))
    ?_ ?_ hm hr calls
  · intro d c d' hm hr h
    rw [← Option.some.inj h]
    exact call_remembers hr hm c
  · intro d c d' hm hr h
    rw [← Option.some.inj h]
    exact call_restored_iff hr hm c

/-- A stop of the daemon without Zygisk loses the native bridge. -/
theorem restored_stop : ¬ Throughout step (·.Restored "libhoudini.so".toList)
    { nbProp := "libhoudini.so".toList } [.restoreProp] := by
  rintro ⟨-, h⟩
  have hholds : Holds (restoreProp { nbProp := "libhoudini.so".toList }) "libhoudini.so".toList :=
    h _ rfl rfl
  revert hholds
  unfold Holds
  decide

-- Four starts of zygote in a row roll back, and the fifth does so once more.
example : (runAll step { nbProp := "libhoudini.so".toList }
    [.setProp, .reset false, .reset false, .reset false, .reset false]).map nbProp =
      some ['0'] := by
  decide

end Device

end Magisk.Zygisk
