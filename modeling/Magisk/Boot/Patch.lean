import Magisk.Memory

namespace Magisk.Boot

/-- `match_patterns!`: how many bytes are to go, a comma in front and a value behind included. -/
def matchPatterns (patterns : List Bytes) (buf : Bytes) : Option ℕ :=
  let comma := if buf.head? = some 44 then 1 else 0
  match patterns.find? fun p => p.isPrefixOf (buf.drop comma) with
  | none => none
  | some p =>
    let len := comma + p.length
    let b := buf.drop len
    if b.head? = some 61 then some (len + (b.takeWhile fun c => c ∉ [32, 10, 0]).length)
    else some len

/-- The bytes that are kept and the number of those removed, when `skip` more bytes belong to a
pattern. What is still to be read is not yet written to. -/
def removeLoop (matcher : Bytes → Option ℕ) : ℕ → Bytes → Bytes × ℕ
  | _, [] => ([], 0)
  | skip + 1, _ :: b =>
    let r := removeLoop matcher skip b
    (r.1, r.2 + 1)
  | 0, c :: b =>
    match matcher (c :: b) with
    -- a pattern is not empty
    | some len =>
      let r := removeLoop matcher (len - 1) b
      (r.1, r.2 + 1)
    | none =>
      let r := removeLoop matcher 0 b
      (c :: r.1, r.2)

/-- The new content of the buffer, and how much of it is text. -/
def removePattern (buf : Bytes) (matcher : Bytes → Option ℕ) : Bytes × ℕ :=
  let r := removeLoop matcher 0 buf
  (r.1 ++ zeros r.2, buf.length - r.2)

def verityPatterns : List Bytes :=
  [lit "verifyatboot", lit "verify", lit "avb_keys", lit "avb", lit "support_scfs", lit "fsverity"]

def patchVerity (buf : Bytes) : Bytes × ℕ := removePattern buf (matchPatterns verityPatterns)

def encryptionPatterns : List Bytes :=
  [lit "forceencrypt", lit "forcefdeorfbe", lit "fileencryption"]

def patchEncryption (buf : Bytes) : Bytes × ℕ :=
  removePattern buf (matchPatterns encryptionPatterns)

theorem removeLoop_length (matcher : Bytes → Option ℕ) (skip : ℕ) (buf : Bytes) :
    (removeLoop matcher skip buf).1.length + (removeLoop matcher skip buf).2 = buf.length := by
  fun_induction removeLoop matcher skip buf with
  | case1 skip => rfl
  | case2 skip c b r ih =>
    dsimp only
    rw [List.length_cons, ← ih]
    rfl
  | case3 c b len hm r ih =>
    dsimp only
    rw [List.length_cons, ← ih]
    rfl
  | case4 c b hm r ih =>
    rw [List.length_cons, List.length_cons, ← ih]
    exact Nat.add_right_comm _ _ _

@[simp] theorem removePattern_length (buf : Bytes) (matcher : Bytes → Option ℕ) :
    (removePattern buf matcher).1.length = buf.length := by
  rw [removePattern, List.length_append, zeros_length]
  exact removeLoop_length matcher 0 buf

example : patchVerity (lit "wait,verify=/dev/x,slot") = (lit "wait" ++ zeros 19, 4) := by
  decide

end Magisk.Boot
