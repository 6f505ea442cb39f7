import Magisk.Boot.Parse
import Magisk.Search
import Magisk.Tiling

namespace Magisk.Boot

open List

section Patch

variable (sz : ℕ) (pattern repl : Bytes)

/-- The window at `q` cleared, and the replacement written to it. -/
def writeWindow (mem : Bytes) (q : ℕ) : Bytes :=
  overwrite (overwrite mem q (zeros pattern.length)) q repl

/-- The loop of `patch` from `p` on, with the offsets so far. -/
def patchLoop : ℕ → ℕ → Bytes → List ℕ → Except Stop (Bytes × List ℕ)
  | 0, _, _, _ => .error .hang
  | fuel + 1, p, mem, v =>
    if p < sz then
      match find (view mem p (sz - p)) pattern with
      | none => .ok (mem, v)
      | some i =>
        let q := p + i
        if q + repl.length ≤ mem.length then
          patchLoop fuel (q + pattern.length) (writeWindow pattern repl mem q) (v ++ [q])
        else .error .segv
    else .ok (mem, v)

/-- `byte_data::patch`, of the first `sz` bytes of `mem`. -/
def patch (mem : Bytes) : Except Stop (Bytes × List ℕ) := patchLoop sz pattern repl (sz + 1) 0 mem []

end Patch

def toAsciiUppercase (b : UInt8) : UInt8 := if 97 ≤ b ∧ b ≤ 122 then b - 32 else b

/-- The value of a digit. Other characters have some value, too. -/
def hexDigit (b : UInt8) : UInt8 :=
  let d := toAsciiUppercase b - 48
  if 9 < d then d - 7 else d

def hex2byte : Bytes → Bytes
  | a :: b :: hex => (hexDigit a <<< 4 ||| hexDigit b) :: hex2byte hex
  | _ => []

/-- The file afterwards and whether something was patched. An empty file cannot be mapped. -/
def hexpatch (env : Env) (file hexFrom hexTo : Bytes) : Except Stop (Bytes × Bool) :=
  if file = [] then .ok (file, false)
  else
    (patch file.length (hex2byte hexFrom) (hex2byte hexTo) (env.mapped file)).map fun r =>
      (r.1.take file.length, r.2 ≠ [])

/-- `hexpatch_init_for_second_stage` on `/init`. -/
def hexpatchInit (env : Env) (init : Bytes) : Except Stop (Bytes × List ℕ) :=
  patch init.length (lit "/system/bin/init") (lit "/data/magiskinit") (env.mapped init)

theorem length_hex2byte (hex : Bytes) : (hex2byte hex).length = hex.length / 2 := by
  fun_induction hex2byte hex with
  | case1 a b hex ih =>
    rw [length_cons, ih, length_cons, length_cons]
    omega
  | case2 hex h =>
    match hex with
    | [] => rfl
    | [_] => simp
    | a :: b :: l => exact absurd rfl (h a b l)

section Loop

variable {sz : ℕ} {pattern repl mem : Bytes}

theorem view_eq_drop (mem : Bytes) (p sz : ℕ) : view mem p (sz - p) = (mem.take sz).drop p := by
  rw [view, drop_take]

@[simp] theorem length_writeWindow (mem : Bytes) (q : ℕ) :
    (writeWindow pattern repl mem q).length = mem.length := by
  rw [writeWindow, overwrite_length, overwrite_length]

theorem patchLoop_ne_hang (hne : pattern ≠ []) {fuel p : ℕ} (hfuel : sz - p < fuel) (mem : Bytes)
    (v : List ℕ) : patchLoop sz pattern repl fuel p mem v ≠ .error .hang := by
  have hpos := length_pos_iff.mpr hne
  induction fuel generalizing p mem v with
  | zero => omega
  | succ fuel ih =>
    rw [patchLoop]
    split_ifs with hp
    · cases hfind : find (view mem p (sz - p)) pattern with
      | none => nofun
      | some i =>
        dsimp only
        split_ifs
        · exact ih (by omega) _ _
        · nofun
    · nofun

theorem patchLoop_nil (hsz : 0 < sz) (fuel : ℕ) (hto : repl.length ≤ mem.length) (v : List ℕ) :
    patchLoop sz [] repl fuel 0 mem v = .error .hang := by
  induction fuel generalizing mem v with
  | zero => rfl
  | succ fuel ih =>
    have hfit : 0 + 0 + repl.length ≤ mem.length := by omega
    rw [patchLoop, if_pos hsz, find_of_at_zero (at_nil _ 0)]
    dsimp only
    rw [if_pos hfit]
    exact ih (by rw [length_writeWindow]; exact hto) _

theorem patchLoop_nil_segv (hsz : 0 < sz) (fuel : ℕ) (hrepl : mem.length < repl.length)
    (v : List ℕ) : patchLoop sz [] repl (fuel + 1) 0 mem v = .error .segv := by
  have hfit : ¬ 0 + 0 + repl.length ≤ mem.length := by omega
  rw [patchLoop, if_pos hsz, find_of_at_zero (at_nil _ 0)]
  dsimp only
  rw [if_neg hfit]

theorem patch_eq_hang_iff : patch sz pattern repl mem = .error .hang ↔
    pattern = [] ∧ 0 < sz ∧ repl.length ≤ mem.length := by
  constructor
  · intro h
    by_cases hne : pattern = []
    · subst hne
      by_cases hsz : 0 < sz
      · refine ⟨rfl, hsz, not_lt.mp fun hrepl => ?_⟩
        rw [patch, patchLoop_nil_segv hsz sz hrepl] at h
        cases h
      · rw [patch, patchLoop, if_neg hsz] at h
        cases h
    · exact absurd h (patchLoop_ne_hang hne (by omega) mem [])
  · rintro ⟨rfl, hsz, hrepl⟩
    exact patchLoop_nil hsz _ hrepl []

/-- `patch` ends exactly if the pattern has bytes, the buffer has none, or the replacement does not
fit into the memory, so that the first write is a fault. -/
theorem patchLoop_ends_iff : (∃ fuel, patchLoop sz pattern repl fuel 0 mem [] ≠ .error .hang) ↔
    pattern ≠ [] ∨ sz = 0 ∨ mem.length < repl.length := by
  constructor
  · rintro ⟨fuel, h⟩
    by_contra hno
    simp only [not_or, not_not, not_lt] at hno
    obtain ⟨rfl, hsz, hrepl⟩ := hno
    exact h (patchLoop_nil (Nat.pos_of_ne_zero hsz) fuel hrepl [])
  · intro h
    refine ⟨sz + 1, fun hhang => ?_⟩
    obtain ⟨hnil, hsz, hrepl⟩ := patch_eq_hang_iff.mp hhang
    rcases h with h | h | h
    · exact h hnil
    · omega
    · omega

/-- With the empty pattern, which `hex2byte` also makes of a single digit, no byte is enough. -/
theorem patchLoop_hangs_hex2byte : hex2byte [] = [] ∧ hex2byte (lit "F") = [] ∧
    ∀ fuel, patchLoop 1 [] [] fuel 0 [0x41] [] = .error .hang :=
  ⟨rfl, rfl, fun fuel => patchLoop_nil Nat.one_pos fuel (Nat.zero_le _) []⟩

end Loop

section Windows

variable {sz : ℕ} {pattern repl : Bytes}

theorem getElem?_writeWindow (hle : repl.length ≤ pattern.length) (mem : Bytes) {q k : ℕ}
    (hk : k < q ∨ q + pattern.length ≤ k) : (writeWindow pattern repl mem q)[k]? = mem[k]? := by
  rw [writeWindow, getElem?_overwrite_of_not_mem _ (by omega),
    getElem?_overwrite_of_not_mem _ (by rw [zeros_length]; exact hk)]

variable {mem : Bytes} {vs : List ℕ}

theorem view_writeWindow (hle : repl.length ≤ pattern.length) {q : ℕ}
    (hq : q + pattern.length ≤ mem.length) :
    view (writeWindow pattern repl mem q) q pattern.length =
      repl ++ zeros (pattern.length - repl.length) := by
  obtain ⟨d, hd⟩ := Nat.exists_eq_add_of_le hle
  have hclear : view (overwrite mem q (zeros pattern.length)) q pattern.length =
      zeros pattern.length := by
    have hfit : q + (zeros pattern.length).length ≤ mem.length := by rwa [zeros_length]
    have hself := view_overwrite_self hfit
    rwa [zeros_length] at hself
  have hrest : view (overwrite mem q (zeros pattern.length)) (q + repl.length) d = zeros d := by
    rw [← view_view _ _ (n := pattern.length) (by omega), hclear, view, zeros, drop_replicate,
      take_replicate, hd, Nat.add_sub_cancel_left, min_self, zeros]
  rw [writeWindow, hd, Nat.add_sub_cancel_left, view_add, view_overwrite_self, ← hd,
    view_overwrite_of_disjoint (by omega), hrest]
  rw [overwrite_length]
  omega

theorem getElem?_foldl_writeWindow (hle : repl.length ≤ pattern.length) {k : ℕ}
    (hk : ∀ v ∈ vs, k < v ∨ v + pattern.length ≤ k) (mem : Bytes) :
    (vs.foldl (writeWindow pattern repl) mem)[k]? = mem[k]? := by
  induction vs generalizing mem with
  | nil => rfl
  | cons v vs ih =>
    rw [forall_mem_cons] at hk
    rw [foldl_cons, ih hk.2, getElem?_writeWindow hle mem hk.1]

theorem view_foldl_writeWindow (hle : repl.length ≤ pattern.length)
    (hdisjoint : vs.Pairwise fun v w => v + pattern.length ≤ w)
    (hin : ∀ v ∈ vs, v + pattern.length ≤ mem.length) {v : ℕ} (hv : v ∈ vs) :
    view (vs.foldl (writeWindow pattern repl) mem) v pattern.length =
      repl ++ zeros (pattern.length - repl.length) := by
  induction vs generalizing mem with
  | nil => cases hv
  | cons w vs ih =>
    rw [forall_mem_cons] at hin
    rw [pairwise_cons] at hdisjoint
    rw [foldl_cons]
    rcases mem_cons.mp hv with rfl | hv
    · rw [← view_writeWindow hle hin.1]
      apply view_ext
      intro x hx hlt
      refine getElem?_foldl_writeWindow hle (fun u hu => .inl ?_) _
      exact lt_of_lt_of_le hlt (hdisjoint.1 u hu)
    · refine ih hdisjoint.2 (fun u hu => ?_) hv
      rw [length_writeWindow]
      exact hin.2 u hu

/-- The loop writes a window at each place that the pattern has in the buffer before, from left to
right. -/
theorem patchLoop_eq (hne : pattern ≠ []) (hle : repl.length ≤ pattern.length) {fuel p : ℕ}
    (hfuel : sz - p < fuel) (hsz : sz ≤ mem.length) (v : List ℕ) :
    ∃ vs, Leftmost (mem.take sz) pattern p vs ∧ patchLoop sz pattern repl fuel p mem v =
      .ok (vs.foldl (writeWindow pattern repl) mem, v ++ vs) := by
  have hpos := length_pos_iff.mpr hne
  have hin : ∀ {m : Bytes} {j}, At (m.take sz) j pattern → j + pattern.length ≤ sz := by
    intro m j hj
    have := hj.le_length hne
    rw [length_take] at this
    omega
  induction fuel generalizing p mem v with
  | zero => omega
  | succ fuel ih =>
    rw [patchLoop]
    split_ifs with hp
    · rw [view_eq_drop]
      cases hfind : find ((mem.take sz).drop p) pattern with
      | none => exact ⟨[], .nil (find_drop_eq_none_iff.mp hfind), by simp⟩
      | some i =>
        have hleast := find_drop_eq_some_iff.mp hfind
        have hq := hin hleast.1.2
        dsimp only
        rw [if_pos (by omega)]
        -- behind the window the buffer is what it was
        have hsame : ∀ j, p + i + pattern.length ≤ j → (At (mem.take sz) j pattern ↔
            At ((writeWindow pattern repl mem (p + i)).take sz) j pattern) := by
          intro j hj
          refine forall₂_congr fun k _ => ?_
          rw [getElem?_take, getElem?_take, getElem?_writeWindow hle _ (by omega)]
        have hsz' : sz ≤ (writeWindow pattern repl mem (p + i)).length := by
          rwa [length_writeWindow]
        obtain ⟨vs, hvs, hrun⟩ := ih (p := p + i + pattern.length) (by omega) hsz' (v ++ [p + i])
        refine ⟨(p + i) :: vs, .cons hleast (hvs.congr hsame), ?_⟩
        rw [hrun, append_assoc, singleton_append, foldl_cons]
    · exact ⟨[], .nil fun j hj hat => by have := hin hat; omega, by simp⟩

/-- What `patch` should do to the first `sz` bytes of `mem`. -/
structure Patched (sz : ℕ) (pattern repl mem mem' : Bytes) (vs : List ℕ) : Prop where
  found : Leftmost (mem.take sz) pattern 0 vs
  occurs : ∀ v ∈ vs, At (mem.take sz) v pattern
  disjoint : vs.Pairwise fun v w => v + pattern.length ≤ w
  window : ∀ v ∈ vs, view mem' v pattern.length = repl ++ zeros (pattern.length - repl.length)
  frame : ∀ k, (∀ v ∈ vs, k < v ∨ v + pattern.length ≤ k) → mem'[k]? = mem[k]?
  behind : mem'.drop sz = mem.drop sz

theorem patched_of_foldl (hne : pattern ≠ []) (hle : repl.length ≤ pattern.length)
    (h : Leftmost (mem.take sz) pattern 0 vs) :
    Patched sz pattern repl mem (vs.foldl (writeWindow pattern repl) mem) vs := by
  have hin : ∀ v ∈ vs, v + pattern.length ≤ min sz mem.length := by
    intro v hv
    have hlen := (h.at_of_mem hv).le_length hne
    rwa [length_take] at hlen
  have hframe : ∀ k, (∀ v ∈ vs, k < v ∨ v + pattern.length ≤ k) →
      (vs.foldl (writeWindow pattern repl) mem)[k]? = mem[k]? := fun k hk =>
    getElem?_foldl_writeWindow hle hk mem
  refine ⟨h, fun v hv => h.at_of_mem hv, h.pairwise, fun v hv => ?_, hframe, ?_⟩
  · exact view_foldl_writeWindow hle h.pairwise (fun w hw => (hin w hw).trans (min_le_right _ _)) hv
  · apply ext_getElem?
    intro k
    rw [getElem?_drop, getElem?_drop]
    apply hframe
    intro v hv
    have := hin v hv
    omega

theorem exists_patched (hne : pattern ≠ []) (hle : repl.length ≤ pattern.length)
    (hsz : sz ≤ mem.length) : ∃ mem' vs, patch sz pattern repl mem = .ok (mem', vs) ∧
      Patched sz pattern repl mem mem' vs := by
  obtain ⟨vs, hvs, hrun⟩ := patchLoop_eq hne hle (p := 0) (Nat.lt_succ_self sz) hsz []
  exact ⟨_, vs, hrun, patched_of_foldl hne hle hvs⟩

theorem patch_of_not_at (h : ∀ j, ¬ At (mem.take sz) j pattern) :
    patch sz pattern repl mem = .ok (mem, []) := by
  have hfind : find (view mem 0 (sz - 0)) pattern = none := by
    rw [view_eq_drop]
    exact find_drop_eq_none_iff.mpr fun j _ => h j
  rw [patch, patchLoop, hfind]
  exact ite_self _

/-- `patch` replaces the pattern and nothing else exactly if the replacement is not longer than the
pattern, or the pattern is not there. -/
theorem patch_patched_iff (hne : pattern ≠ []) {mem : Bytes} (hsz : sz ≤ mem.length) :
    (∃ mem' vs, patch sz pattern repl mem = .ok (mem', vs) ∧ Patched sz pattern repl mem mem' vs) ↔
      repl.length ≤ pattern.length ∨ ∀ j, ¬ At (mem.take sz) j pattern := by
  constructor
  · rintro ⟨mem', vs, -, h⟩
    cases vs with
    | nil =>
      cases h.found with
      | nil hnone => exact .inr fun j => hnone j (Nat.zero_le j)
    | cons v vs =>
      -- a longer replacement is no content of a window
      have hlen := congrArg List.length (h.window v mem_cons_self)
      rw [view_length, length_append] at hlen
      exact .inl (by omega)
  · rintro (hle | hnone)
    · exact exists_patched hne hle hsz
    · refine ⟨mem, [], patch_of_not_at hnone, .nil fun j _ => hnone j, ?_, .nil, ?_, ?_, rfl⟩
      · exact forall_mem_nil _
      · exact forall_mem_nil _
      · exact fun k _ => rfl

theorem patch_patched_sample : ([0x41] : Bytes) ≠ [] ∧
    3 ≤ ([0x41, 0x20, 0x41, 0x7a] : Bytes).length ∧
    ∃ mem' vs, patch 3 [0x41] [0x42] [0x41, 0x20, 0x41, 0x7a] = .ok (mem', vs) ∧
      Patched 3 [0x41] [0x42] [0x41, 0x20, 0x41, 0x7a] mem' vs :=
  ⟨by decide, by decide, (patch_patched_iff (by decide) (by decide)).mpr (.inl le_rfl)⟩

/-- A replacement of two bytes for a buffer of one is written behind the buffer. -/
theorem patch_not_patched_longer :
    patch 1 [0x41] [0x42, 0x43] [0x41, 0x7a] = .ok ([0x42, 0x43], [0]) ∧
    ([0x42, 0x43] : Bytes).drop 1 ≠ ([0x41, 0x7a] : Bytes).drop 1 ∧
    ¬ Patched 1 [0x41] [0x42, 0x43] [0x41, 0x7a] [0x42, 0x43] [0] := by
  have hdiff : ([0x42, 0x43] : Bytes).drop 1 ≠ ([0x41, 0x7a] : Bytes).drop 1 := by decide
  exact ⟨by decide, hdiff, fun h => hdiff h.behind⟩

theorem Patched.take {mem mem' : Bytes} (h : Patched sz pattern repl mem mem' vs)
    (hne : pattern ≠ []) : Patched sz pattern repl (mem.take sz) (mem'.take sz) vs := by
  have hbuf : (mem.take sz).take sz = mem.take sz := by rw [take_take, min_self]
  refine ⟨by rw [hbuf]; exact h.found, by rw [hbuf]; exact h.occurs, h.disjoint, ?_, ?_, ?_⟩
  · intro v hv
    have hlen := (h.occurs v hv).le_length hne
    rw [length_take] at hlen
    rw [← h.window v hv]
    apply view_ext
    intro x _ hx
    rw [getElem?_take, if_pos (by omega)]
  · intro k hk
    rw [getElem?_take, getElem?_take, h.frame k hk]
  · rw [drop_eq_nil_of_le (length_take_le _ _), drop_eq_nil_of_le
      (length_take_le _ _)]

end Windows

/-- `hexpatch` with a replacement that is not longer than the pattern. -/
theorem hexpatch_patched (env : Env) {file hexFrom hexTo : Bytes} (hfile : file ≠ [])
    (hfrom : 2 ≤ hexFrom.length) (hle : hexTo.length / 2 ≤ hexFrom.length / 2) :
    ∃ file' vs, hexpatch env file hexFrom hexTo = .ok (file', vs ≠ []) ∧
      Patched file.length (hex2byte hexFrom) (hex2byte hexTo) file file' vs := by
  have hne : hex2byte hexFrom ≠ [] := by
    rw [← length_pos_iff, length_hex2byte]
    omega
  have hshort : (hex2byte hexTo).length ≤ (hex2byte hexFrom).length := by
    rwa [length_hex2byte, length_hex2byte]
  obtain ⟨mem', vs, hrun, hp⟩ := exists_patched hne hshort (length_le_mapped env file)
  have hbuf : (env.mapped file).take file.length = file := by
    rw [Env.mapped, padded, take_left]
  have htake := hp.take hne
  rw [hbuf] at htake
  exact ⟨mem'.take file.length, vs, by rw [hexpatch, if_neg hfile, hrun]; rfl, htake⟩

/-- Pages of 16 KiB, and nothing that `hexpatch` does not use. -/
def plainEnv : Env where
  pageSize := 16384
  pageSize_pos := by decide
  mapAddr := 0x7000000000
  verify := fun _ _ => false
  signPayload := fun _ => []
  sha := fun useSha1 _ => zeros (if useSha1 then 20 else 32)
  sha_length := fun _ _ => zeros_length _
  compress := fun _ b => b
  decompress := fun _ b => b
  patchVbmetaFlag := false

theorem hexpatch_patched_letters : ∃ file' vs,
    hexpatch plainEnv (lit "banana") (lit "616E") (lit "41") = .ok (file', vs ≠ []) ∧
      Patched 6 (hex2byte (lit "616E")) (hex2byte (lit "41")) (lit "banana") file' vs :=
  hexpatch_patched plainEnv (by decide) (by decide) (by decide)

theorem hexpatchInit_patched (env : Env) (init : Bytes) : ∃ mem' vs,
    hexpatchInit env init = .ok (mem', vs) ∧ Patched init.length (lit "/system/bin/init")
      (lit "/data/magiskinit") (env.mapped init) mem' vs :=
  exists_patched (by decide) (by decide) (length_le_mapped env init)

end Magisk.Boot
