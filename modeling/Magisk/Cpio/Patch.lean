import Magisk.Boot.FstabFlags
import Magisk.Cpio.Backup
import Magisk.OrderedMap

namespace Magisk.Cpio

open Option
open Boot OrderedMap

/-- Whether the entry is an fstab file that is to be patched. -/
def isFstab (keepVerity keepForceEncrypt : Bool) (name : Str) (entry : CpioEntry) : Bool :=
  (!keepVerity || !keepForceEncrypt) && entry.regular && !".backup".toList.isPrefixOf name &&
    !"twrp".toList.isPrefixOf name && !"recovery".toList.isPrefixOf name &&
    "fstab".toList.isPrefixOf name

/-- `Vec::resize(len, 0)` -/
def resize (data : Bytes) (len : ℕ) : Bytes := data.take len ++ zeros (len - data.length)

/-- Runs `f` on the data in place and cuts them to the length that it returns. -/
def patchData (f : Bytes → Bytes × ℕ) (entry : CpioEntry) : CpioEntry :=
  let (data, len) := f entry.data
  { entry with data := if len ≠ data.length then resize data len else data }

/-- The closure of `retain`: the entry as it stays, or `none` when it goes. -/
def patchEntry (keepVerity keepForceEncrypt : Bool) (name : Str) (entry : CpioEntry) :
    Option CpioEntry :=
  let fstab := isFstab keepVerity keepForceEncrypt name entry
  if !keepVerity && !fstab && name = "verity_key".toList then none
  else
    let entry := if !keepVerity && fstab then patchData patchVerity entry else entry
    some (if !keepForceEncrypt && fstab then patchData patchEncryption entry else entry)

/-- `keepVerity` and `keepForceEncrypt` are the variables `KEEPVERITY` and `KEEPFORCEENCRYPT`. -/
def patch (keepVerity keepForceEncrypt : Bool) (self : Cpio) : Cpio :=
  ⟨self.entries.filterMap (patchEntry keepVerity keepForceEncrypt)⟩

def verityLeft (data : Bytes) : Bytes := dropMatches (matchPatterns verityPatterns) data

def encryptionLeft (data : Bytes) : Bytes := dropMatches (matchPatterns encryptionPatterns) data

def fstabLeft (data : Bytes) : Bytes := encryptionLeft (verityLeft data)

theorem patchData_removePattern (matcher : Bytes → Option ℕ) (entry : CpioEntry) :
    patchData (fun b => removePattern b matcher) entry =
      { entry with data := dropMatches matcher entry.data } := by
  have htake := removePattern_take entry.data matcher
  have hle : (removePattern entry.data matcher).2 ≤ (removePattern entry.data matcher).1.length := by
    rw [removePattern_length, removePattern_eq]
    exact dropMatches_length_le matcher entry.data
  unfold patchData resize
  dsimp only
  rw [← htake]
  split_ifs with hlen
  · rw [Nat.sub_eq_zero_of_le hle, zeros_zero, List.append_nil]
  · rw [not_not] at hlen
    rw [hlen, List.take_length]

theorem patchEntry_eq (name : Str) (entry : CpioEntry) :
    patchEntry false false name entry =
      if isFstab false false name entry then some { entry with data := fstabLeft entry.data }
      else if name = "verity_key".toList then none
      else some entry := by
  have hv := patchData_removePattern (matchPatterns verityPatterns) entry
  have he := patchData_removePattern (matchPatterns encryptionPatterns)
    { entry with data := verityLeft entry.data }
  unfold patchEntry
  generalize "verity_key".toList = key
  cases isFstab false false name entry with
  | false => simp
  | true =>
    show some (patchData patchEncryption (patchData patchVerity entry)) = _
    unfold patchEncryption patchVerity
    rw [hv]
    exact congrArg some he

theorem getElem?_patch (c : Cpio) (name : Str) :
    (patch false false c).entries[name]? =
      c.entries[name]?.bind (patchEntry false false name) :=
  Std.ExtTreeMap.getElem?_filterMap'

theorem isFstab_data (keepVerity keepForceEncrypt : Bool) (name : Str) (entry : CpioEntry)
    (data : Bytes) : isFstab keepVerity keepForceEncrypt name { entry with data } =
      isFstab keepVerity keepForceEncrypt name entry := rfl

def NoKeyword (data : Bytes) : Prop :=
  ∀ p ∈ verityPatterns ++ encryptionPatterns, ¬p <:+: data

def KeywordFree (c : Cpio) : Prop :=
  ∀ name entry, c.entries[name]? = some entry → isFstab false false name entry →
    NoKeyword entry.data

theorem dropMatches_eq_self_of_keywords {ps : List Bytes} (hps : IsKeywords ps) {data : Bytes} :
    dropMatches (matchPatterns ps) data = data ↔ ∀ p ∈ ps, ¬p <:+: data := by
  have hex := exists_match_iff hps.ne_nil hps.comma (l := data)
  rw [dropMatches_eq_self_iff]
  constructor
  · intro h p hp hin
    obtain ⟨t, ht, hs, hm⟩ := hex.mpr ⟨p, hp, hin⟩
    exact hm (h t ht hs)
  · intro h t ht hs
    by_contra hm
    obtain ⟨p, hp, hin⟩ := hex.mp ⟨t, ht, hs, hm⟩
    exact h p hp hin

theorem fstabLeft_eq_self {data : Bytes} : fstabLeft data = data ↔ NoKeyword data := by
  have hv : verityLeft data = data ↔ ∀ p ∈ verityPatterns, ¬p <:+: data :=
    dropMatches_eq_self_of_keywords isKeywords_verity
  have he : encryptionLeft data = data ↔ ∀ p ∈ encryptionPatterns, ¬p <:+: data :=
    dropMatches_eq_self_of_keywords isKeywords_encryption
  have hno : NoKeyword data ↔ verityLeft data = data ∧ encryptionLeft data = data := by
    rw [hv, he, NoKeyword, List.forall_mem_append]
  rw [hno, fstabLeft]
  constructor
  · intro h
    -- no scan adds a byte, so neither of them has removed one
    have h1 : (encryptionLeft (verityLeft data)).length ≤ (verityLeft data).length :=
      dropMatches_length_le _ _
    have h2 : (verityLeft data).length ≤ data.length := dropMatches_length_le _ _
    have hsub : verityLeft data = data := by
      rw [h] at h1
      exact (dropMatches_sublist _ _).eq_of_length (le_antisymm h2 h1)
    rw [hsub] at h
    exact ⟨hsub, h⟩
  · rintro ⟨h1, h2⟩
    rw [h1, h2]

theorem patchEntry_patchEntry_iff {name : Str} {entry entry' : CpioEntry}
    (h : patchEntry false false name entry = some entry') :
    patchEntry false false name entry' = some entry' ↔
      (isFstab false false name entry → NoKeyword (fstabLeft entry.data)) := by
  rw [patchEntry_eq] at h
  rw [patchEntry_eq]
  split_ifs at h with hf hk
  · cases h
    rw [isFstab_data, if_pos hf, some.injEq, CpioEntry.mk.injEq, ← fstabLeft_eq_self]
    simp [hf]
  · cases h
    rw [if_neg hf, if_neg hk]
    exact iff_of_true rfl fun h => absurd h hf

theorem keywordFree_patch_iff (c : Cpio) : KeywordFree (patch false false c) ↔
    ∀ name entry, c.entries[name]? = some entry → isFstab false false name entry →
      NoKeyword (fstabLeft entry.data) := by
  unfold KeywordFree
  constructor
  · intro h name entry he hf
    refine h name { entry with data := fstabLeft entry.data } ?_ hf
    rw [getElem?_patch, he, bind_some, patchEntry_eq, if_pos hf]
  · intro h name entry' he hf
    rw [getElem?_patch] at he
    obtain ⟨entry, hc, hp⟩ := bind_eq_some_iff.mp he
    rw [patchEntry_eq] at hp
    split_ifs at hp with hf'
    · cases hp
      exact h name entry hc hf'
    · cases hp
      exact absurd hf hf'

theorem patch_eq_self_iff (c : Cpio) : patch false false c = c ↔
    ∀ name entry, c.entries[name]? = some entry → patchEntry false false name entry = some entry := by
  constructor
  · intro h name entry he
    have hn := getElem?_patch c name
    rw [h, he] at hn
    exact hn.symm
  · intro h
    apply Cpio.ext
    apply Std.ExtTreeMap.ext_getElem?
    intro name
    rw [getElem?_patch]
    cases he : c.entries[name]? with
    | none => rfl
    | some entry => exact h name entry he

/-- Another `patch` changes nothing exactly when taking the matches out of an fstab file never makes
a keyword of what is around them. -/
theorem patch_patch_iff (c : Cpio) :
    patch false false (patch false false c) = patch false false c ↔
      ∀ name entry, c.entries[name]? = some entry → isFstab false false name entry →
        NoKeyword (fstabLeft entry.data) := by
  rw [patch_eq_self_iff]
  constructor
  · intro h name entry he hf
    have hp : patchEntry false false name entry =
        some { entry with data := fstabLeft entry.data } := by
      rw [patchEntry_eq, if_pos hf]
    have hn := h name { entry with data := fstabLeft entry.data } (by
      rw [getElem?_patch, he, bind_some, hp])
    exact (patchEntry_patchEntry_iff hp).mp hn hf
  · intro h name entry' he
    rw [getElem?_patch] at he
    obtain ⟨entry, hc, hp⟩ := bind_eq_some_iff.mp he
    exact (patchEntry_patchEntry_iff hp).mpr (h name entry hc)

theorem noKeyword_fstabLeft {data : Bytes} (hv : KeywordsEnd verityPatterns data)
    (he : KeywordsEnd encryptionPatterns data) : NoKeyword (fstabLeft data) := by
  have hvbytes : ∀ p ∈ verityPatterns, ∀ c ∈ p, c ∈ keywordBytes := fun p hp =>
    mem_keywordBytes (List.mem_append_left _ hp)
  have hebytes : ∀ p ∈ encryptionPatterns, ∀ c ∈ p, c ∈ keywordBytes := fun p hp =>
    mem_keywordBytes (List.mem_append_right _ hp)
  have hleft : KeywordsEnd encryptionPatterns (verityLeft data) :=
    hv.left_by_scan isKeywords_verity.ne_nil hebytes (by decide) he
  refine List.forall_mem_append.mpr ⟨fun p hp hin => ?_, ?_⟩
  · exact hv.not_infix isKeywords_verity.ne_nil isKeywords_verity.comma hvbytes p hp
      (hleft.infix_of_dropMatches isKeywords_encryption.ne_nil (hvbytes p hp) hin)
  · exact hleft.not_infix isKeywords_encryption.ne_nil isKeywords_encryption.comma hebytes

def fstabOnly (data : Bytes) : Cpio :=
  ⟨(∅ : Entries).insert "fstab.qcom".toList ⟨sIFREG ||| 0o644, 0, 0, 0, 0, data⟩⟩

theorem patch_fstabOnly (data : Bytes) :
    patch false false (fstabOnly data) = fstabOnly (fstabLeft data) := by
  apply Cpio.ext
  apply Std.ExtTreeMap.ext_getElem?
  intro name
  rw [getElem?_patch, fstabOnly, fstabOnly, getElem?_insert_eq, getElem?_insert_eq]
  split_ifs with hn
  · have hf : isFstab false false "fstab.qcom".toList ⟨sIFREG ||| 0o644, 0, 0, 0, 0, data⟩ = true :=
      (isFstab_data false false "fstab.qcom".toList ⟨sIFREG ||| 0o644, 0, 0, 0, 0, []⟩ data).trans
        (by decide)
    rw [← hn, bind_some, patchEntry_eq, if_pos hf]
  · rw [Std.ExtTreeMap.getElem?_empty]
    rfl

theorem fstabLeft_eq (data : Bytes) : fstabLeft data =
    let v := (patchVerity data).1.take (patchVerity data).2
    (patchEncryption v).1.take (patchEncryption v).2 := by
  unfold patchVerity patchEncryption
  rw [removePattern_take, removePattern_take]
  rfl

end Magisk.Cpio
