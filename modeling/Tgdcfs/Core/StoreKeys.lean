import Tgdcfs.Core.Version

/-!
# Store keys

A key that `make_store_key` built from a prefix of letters is split into the
same prefix and channel again.  Every other key is taken for a Telegram
channel, and its normal form is a key that was built.
-/

namespace Tgdcfs

open Lib

theorem separator_not_letter : isLetter KEY_SEPARATOR = false := by
  decide +kernel

variable {family : List Char}

theorem separator_not_mem_letters (letters : family.all isLetter = true) :
    KEY_SEPARATOR ∉ family := by
  intro member
  have letter := List.all_eq_true.mp letters _ member
  rw [separator_not_letter] at letter
  cases letter

theorem parseStoreKey_makeStoreKey (channel : List Char)
    (nonempty : family ≠ []) (letters : family.all isLetter = true) :
    parseStoreKey (makeStoreKey family channel) = (family, channel) := by
  have ahead : ∀ character ∈ family,
      decide (character ≠ KEY_SEPARATOR) = true := by
    intro character member
    refine decide_eq_true ?_
    rintro rfl
    exact separator_not_mem_letters letters member
  unfold parseStoreKey makeStoreKey
  rw [List.takeWhile_append_of_pos ahead, List.dropWhile_append_of_pos ahead,
    List.takeWhile_cons_of_neg (by simp), List.append_nil,
    List.dropWhile_cons_of_neg (by simp)]
  dsimp only
  rw [letters]
  simp [nonempty]

theorem parseStoreKey_family (key : List Char) :
    (parseStoreKey key).1 ≠ [] ∧ (parseStoreKey key).1.all isLetter := by
  have telegram : DEFAULT_PREFIX ≠ [] ∧ DEFAULT_PREFIX.all isLetter := by
    decide +kernel
  unfold parseStoreKey
  dsimp only
  split
  · exact telegram
  · split
    · exact telegram
    · rename_i named
      simp only [Bool.or_eq_true, Bool.not_eq_true', not_or,
        Bool.not_eq_false, List.isEmpty_iff] at named
      exact named

theorem normalizeStoreKey_makeStoreKey (channel : List Char)
    (nonempty : family ≠ []) (letters : family.all isLetter = true) :
    normalizeStoreKey (String.ofList (makeStoreKey family channel)) =
      String.ofList (makeStoreKey family channel) := by
  rw [normalizeStoreKey, String.toList_ofList,
    parseStoreKey_makeStoreKey channel nonempty letters]

theorem normalizeStoreKey_idem (key : String) :
    normalizeStoreKey (normalizeStoreKey key) = normalizeStoreKey key := by
  obtain ⟨nonempty, letters⟩ := parseStoreKey_family key.toList
  exact normalizeStoreKey_makeStoreKey _ nonempty letters

end Tgdcfs
