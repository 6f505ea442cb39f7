import Magisk.ReadLines
import Magisk.Stream

namespace Magisk.Init

open List

/-- `string::find` and `replace` from left to right; `skip` bytes belong to the last match. -/
def replaceFrom (pat new : Bytes) : ℕ → Bytes → Bytes
  | _, [] => []
  | skip + 1, _ :: s => replaceFrom pat new skip s
  | 0, b :: s =>
    if pat.isPrefixOf (b :: s) then new ++ replaceFrom pat new (pat.length - 1) s
    else b :: replaceFrom pat new 0 s

def replaceAll (s pat new : Bytes) : Bytes := replaceFrom pat new 0 s

/-- What `%s` prints of a string. -/
def cStr (s : Bytes) : Bytes := s.takeWhile (· ≠ 0)

/-- What is printed for a line that is not copied. -/
def specialLine (line : Bytes) : Option Bytes :=
  -- Do not start vaultkeeper
  if lit "start vaultkeeper" <:+: line then some []
  -- Do not run flash_recovery
  else if lit "service flash_recovery" <+: line then
    some (lit "service flash_recovery /system/bin/true\n")
  -- Samsung's persist.sys.zygote.early will cause Zygote to start before post-fs-data
  else if lit "on property:persist.sys.zygote.early=" <+: line then
    some (lit "on property:persist.sys.zygote.early.xxxxx=true\n")
  else none

def printedLine (line : Bytes) : Bytes := (specialLine line).getD (cStr line)

def scriptText (tmp script : Bytes) : Bytes := replaceAll script (lit "$\x7bMAGISKTMP\x7d") tmp

def printedScript (tmp script : Bytes) : Bytes := lit "\n" ++ cStr (scriptText tmp script) ++ lit "\n"

def execMagisk (tmp : Bytes) (arg : String) : Bytes :=
  lit "    exec u:r:magisk:s0 0 0 -- " ++ tmp ++ lit "/magisk --" ++ lit arg ++ lit "\n"

def magiskRc (tmp : Bytes) : Bytes :=
  lit "\non post-fs-data\n" ++ execMagisk tmp "post-fs-data" ++
  lit "\non property:vold.decrypt=trigger_restart_framework\n" ++ execMagisk tmp "service" ++
  lit "\non nonencrypted\n" ++ execMagisk tmp "service" ++
  lit "\non property:sys.boot_completed=1\n" ++ execMagisk tmp "boot-complete"

/-- The `init.rc` that is written with a buffer of `size` bytes. -/
def patchInitRc (size : ℕ) (src : Bytes) (rcList : List Bytes) (tmp : Bytes) : Bytes :=
  let dest := Stream.create size
  let dest := (readLines src).foldl (fun dest line => dest.print (printedLine (asBytes line))) dest
  let dest := dest.print (lit "\n")
  let dest := rcList.foldl (fun dest script => dest.print (printedScript tmp script)) dest
  let dest := dest.writeFd (magiskRc tmp)
  dest.close

def patchedLine (line : Bytes) : Bytes := (specialLine line).getD line

/-- The lines, a newline and the overlay scripts. -/
def patchedText (src : Bytes) (rcList : List Bytes) (tmp : Bytes) : Bytes :=
  (splitLines src).flatMap patchedLine ++ lit "\n" ++
    rcList.flatMap fun script => lit "\n" ++ scriptText tmp script ++ lit "\n"

/-- All of it comes to the stream: `%s` cuts nothing off, and no line that counts is behind one
that is not valid UTF-8. -/
structure PrintedWhole (src : Bytes) (rcList : List Bytes) (tmp : Bytes) : Prop where
  lines : ∀ line ∈ (readLines src).map asBytes, specialLine line = none → 0 ∉ line
  unread : ∀ line ∈ unreadLines src, patchedLine line = []
  scripts : ∀ script ∈ rcList, 0 ∉ scriptText tmp script

def printedText (src : Bytes) (rcList : List Bytes) (tmp : Bytes) : Bytes :=
  ((readLines src).map asBytes).flatMap printedLine ++ lit "\n" ++
    rcList.flatMap (printedScript tmp)

theorem patchInitRc_eq (size : ℕ) (src : Bytes) (rcList : List Bytes) (tmp : Bytes) :
    patchInitRc size src rcList tmp =
      (((Stream.create size).print (printedText src rcList tmp)).writeFd (magiskRc tmp)).close := by
  simp only [patchInitRc, printedText, Stream.foldl_print, Stream.print_append, flatMap_map]

theorem cStr_length_le (s : Bytes) : (cStr s).length ≤ s.length :=
  (takeWhile_sublist _).length_le

theorem cStr_eq_self {s : Bytes} (h : 0 ∉ s) : cStr s = s := by
  rw [cStr, takeWhile_eq_self_iff]
  intro b hb
  simp only [decide_eq_true_eq]
  rintro rfl
  exact h hb

theorem zero_not_mem_of_length {s : Bytes} (h : s.length ≤ (cStr s).length) : 0 ∉ s := by
  have he : cStr s = s := (takeWhile_sublist _).eq_of_length_le h
  intro h0
  rw [← he] at h0
  simpa using mem_takeWhile_imp h0

section Lengths

variable {α : Type*} {f g : α → Bytes} {l : List α}

theorem length_flatMap_le (h : ∀ a ∈ l, (f a).length ≤ (g a).length) :
    (l.flatMap f).length ≤ (l.flatMap g).length := by
  induction l with
  | nil => exact le_refl _
  | cons a l ih =>
    rw [forall_mem_cons] at h
    simp only [flatMap_cons, length_append]
    exact Nat.add_le_add h.1 (ih h.2)

theorem length_le_of_flatMap (h : ∀ a ∈ l, (f a).length ≤ (g a).length)
    (hle : (l.flatMap g).length ≤ (l.flatMap f).length) : ∀ a ∈ l, (g a).length ≤ (f a).length := by
  induction l with
  | nil => exact forall_mem_nil _
  | cons a l ih =>
    rw [forall_mem_cons] at h ⊢
    have hl := length_flatMap_le h.2
    simp only [flatMap_cons, length_append] at hle
    exact ⟨by omega, ih h.2 (by omega)⟩

end Lengths

theorem printedLine_length_le (line : Bytes) :
    (printedLine line).length ≤ (patchedLine line).length := by
  unfold printedLine patchedLine
  cases specialLine line with
  | none => exact cStr_length_le line
  | some text => exact le_refl _

theorem patchedText_eq (src : Bytes) (rcList : List Bytes) (tmp : Bytes) :
    patchedText src rcList tmp =
      ((readLines src).map asBytes).flatMap patchedLine ++ (unreadLines src).flatMap patchedLine ++
        lit "\n" ++ rcList.flatMap fun script => lit "\n" ++ scriptText tmp script ++ lit "\n" := by
  rw [patchedText, ← readLines_append_unreadLines, flatMap_append]

theorem PrintedWhole.printedText_eq {src : Bytes} {rcList : List Bytes} {tmp : Bytes}
    (h : PrintedWhole src rcList tmp) : printedText src rcList tmp = patchedText src rcList tmp := by
  have hlines : ∀ line ∈ (readLines src).map asBytes, printedLine line = patchedLine line := by
    intro line hline
    unfold printedLine patchedLine
    cases hs : specialLine line with
    | none => exact cStr_eq_self (h.lines line hline hs)
    | some text => rfl
  have hscripts : ∀ script ∈ rcList,
      printedScript tmp script = lit "\n" ++ scriptText tmp script ++ lit "\n" := by
    intro script hscript
    rw [printedScript, cStr_eq_self (h.scripts script hscript)]
  have hunread : (unreadLines src).flatMap patchedLine = [] :=
    flatMap_eq_nil_iff.mpr h.unread
  rw [patchedText_eq, printedText, flatMap_congr hlines, flatMap_congr hscripts, hunread,
    append_nil]

theorem printedWhole_of_length {src : Bytes} {rcList : List Bytes} {tmp : Bytes}
    (h : (patchedText src rcList tmp).length ≤ (printedText src rcList tmp).length) :
    PrintedWhole src rcList tmp := by
  have hlines : ∀ line ∈ (readLines src).map asBytes,
      (printedLine line).length ≤ (patchedLine line).length := fun line _ => printedLine_length_le line
  have hscripts : ∀ script ∈ rcList, (printedScript tmp script).length ≤
      (lit "\n" ++ scriptText tmp script ++ lit "\n").length := by
    intro script _
    have hc := cStr_length_le (scriptText tmp script)
    rw [printedScript, length_append, length_append, length_append,
      length_append]
    omega
  have hl := length_flatMap_le hlines
  have hs := length_flatMap_le hscripts
  rw [patchedText_eq, printedText] at h
  simp only [length_append] at h
  refine ⟨?_, ?_, ?_⟩
  · intro line hline hspecial
    have hle := length_le_of_flatMap hlines (by omega) line hline
    rw [printedLine, patchedLine, hspecial] at hle
    exact zero_not_mem_of_length hle
  · have h0 : ((unreadLines src).flatMap patchedLine).length = 0 := by omega
    exact flatMap_eq_nil_iff.mp (length_eq_zero_iff.mp h0)
  · intro script hscript
    have hle := length_le_of_flatMap hscripts (by omega) script hscript
    rw [printedScript, length_append, length_append, length_append,
      length_append] at hle
    exact zero_not_mem_of_length (by omega)

/-- The `init.rc` is written as it is meant exactly when all is printed, and what the buffer holds
at the end can be exchanged with the text that is written past it. -/
theorem patchInitRc_eq_iff (size : ℕ) (src : Bytes) (rcList : List Bytes) (tmp : Bytes) :
    patchInitRc size src rcList tmp = patchedText src rcList tmp ++ magiskRc tmp ↔
      PrintedWhole src rcList tmp ∧
        magiskRc tmp ++ Stream.held size (patchedText src rcList tmp) =
          Stream.held size (patchedText src rcList tmp) ++ magiskRc tmp := by
  rw [patchInitRc_eq]
  constructor
  · intro h
    have hl := congrArg List.length h
    rw [Stream.length_close_writeFd, length_append] at hl
    have hw : PrintedWhole src rcList tmp := printedWhole_of_length (by omega)
    rw [hw.printedText_eq, Stream.close_writeFd_eq_iff] at h
    exact ⟨hw, h⟩
  · rintro ⟨hw, h⟩
    rw [hw.printedText_eq, Stream.close_writeFd_eq_iff]
    exact h

/-- Where the buffer is empty at the end, the text is in its place. -/
theorem PrintedWhole.patchInitRc_of_held {src : Bytes} {rcList : List Bytes} {tmp : Bytes}
    (h : PrintedWhole src rcList tmp) {size : ℕ}
    (hheld : Stream.rest size (patchedText src rcList tmp).length = 0) :
    patchInitRc size src rcList tmp = patchedText src rcList tmp ++ magiskRc tmp := by
  rw [patchInitRc_eq, h.printedText_eq, Stream.close_writeFd_eq_iff,
    length_eq_zero_iff.mp ((Stream.held_length _ _).trans hheld), append_nil, nil_append]

/-- With a buffer of eight bytes, the text that is written past it splits the second line. -/
theorem patchInitRc_split :
    patchInitRc 8 (lit "# ab\non init\n") [] (lit "/debug_ramdisk") =
        lit "# ab\non " ++ magiskRc (lit "/debug_ramdisk") ++ lit "init\n\n" ∧
      patchInitRc 8 (lit "# ab\non init\n") [] (lit "/debug_ramdisk") ≠
        patchedText (lit "# ab\non init\n") [] (lit "/debug_ramdisk") ++
          magiskRc (lit "/debug_ramdisk") := by
  decide +kernel

end Magisk.Init
