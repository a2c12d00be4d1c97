import SurvivalGame.Decoding

/-! # Counting characters

`utf8_to_unicode` on valid UTF-8.  The number it returns is the one that the limit of
`CursorTextField` is checked against (`returns_encode_iff`), the sum of what each
character counts for.  It is additive, and grows with the text.  It is the number of
characters as long as none has four bytes, for which the loop has no branch: their
bytes are passed over one by one (`counts_characters_iff`).
-/
namespace SurvivalGame.MyCharSet
open Loops Utf8

theorem zero_not_mem_encode {cs : List Char} (hnul : '\x00' ∉ cs) : 0 ∉ encode cs :=
  fun h => hnul (zero_mem_encode_iff.mp h)

theorem counted_encode {cs : List Char} (hnul : '\x00' ∉ cs) :
    SurvivalGame.utf8ToUnicode 0 (encode cs ++ [0]) = .ok (cs.map weight).sum := by
  have hend : SurvivalGame.utf8ToUnicode 0 [0] = .ok 0 := rfl
  rw [utf8ToUnicode_encode hnul, hend]
  exact congrArg Except.ok (Nat.zero_add _)

/-- **What is returned for a text**: what each of its characters counts for, as an
`int`. -/
theorem returns_encode_iff {cs : List Char} (hnul : '\x00' ∉ cs) {n : Int} :
    Returns (encode cs) n ↔ n = (BitVec.ofNat 32 (cs.map weight).sum).toInt := by
  have hiff := returns_iff_counted (zero_not_mem_encode hnul) 1 (n := n)
  rw [List.replicate_one, counted_encode hnul] at hiff
  refine hiff.trans ?_
  constructor
  · rintro ⟨m, hm, hn⟩
    cases hm
    exact hn
  · intro hn
    exact ⟨_, rfl, hn⟩

/-- `utf8_to_unicode` returns the number of characters of the text; the numbers of two
parts of it add up to it, and that of a beginning is no larger. -/
def CountsCharacters (cs : List Char) : Prop :=
  Returns (encode cs) cs.length ∧
    ∀ as bs, as ++ bs = cs → ∃ k m n, Returns (encode cs) k ∧ Returns (encode as) m ∧
      Returns (encode bs) n ∧ k = m + n ∧ m ≤ k

/-- Up to 2^31 characters the numbers of two texts add up, whatever they count for. -/
theorem returns_append {as bs : List Char} (ha : '\x00' ∉ as) (hb : '\x00' ∉ bs)
    (hlt : (as ++ bs).length < 2 ^ 31) : ∃ k m n, Returns (encode (as ++ bs)) k ∧
      Returns (encode as) m ∧ Returns (encode bs) n ∧ k = m + n ∧ m ≤ k := by
  have hab : '\x00' ∉ as ++ bs := fun h => (List.mem_append.mp h).elim ha hb
  have hle := sum_weight_le as
  have hle' := sum_weight_le bs
  rw [List.length_append] at hlt
  refine ⟨_, _, _, (returns_encode_iff hab).mpr rfl, (returns_encode_iff ha).mpr rfl,
    (returns_encode_iff hb).mpr rfl, ?_⟩
  rw [List.map_append, List.sum_append, toInt_ofNat_of_lt (by omega), toInt_ofNat_of_lt (by omega),
    toInt_ofNat_of_lt (by omega)]
  omega

/-- **When characters are counted.**  For every text without NULs: exactly when none of
its characters has four bytes, and their number fits an `int`. -/
theorem counts_characters_iff {cs : List Char} (hnul : '\x00' ∉ cs) :
    CountsCharacters cs ↔ (∀ c ∈ cs, c.utf8Size ≠ 4) ∧ cs.length < 2 ^ 31 := by
  have hle := sum_weight_le cs
  rw [← sum_weight_eq_length_iff]
  constructor
  · rintro ⟨hret, -⟩
    have hint := (returns_encode_iff hnul).mp hret
    have hlt : cs.length < 2 ^ 31 := by
      have := (BitVec.ofNat 32 (cs.map weight).sum).toInt_lt
      omega
    rw [toInt_ofNat_of_lt (by omega)] at hint
    exact ⟨by omega, hlt⟩
  · rintro ⟨hsum, hlt⟩
    refine ⟨?_, ?_⟩
    · rw [returns_encode_iff hnul, hsum, toInt_ofNat_of_lt hlt]
    · rintro as bs rfl
      rw [List.mem_append, not_or] at hnul
      exact returns_append hnul.1 hnul.2 hlt

/-- A letter, an accented one, and a Chinese character. -/
theorem counts_characters_mixed : CountsCharacters ['a', 'é', '中'] ↔
    (∀ c ∈ ['a', 'é', '中'], c.utf8Size ≠ 4) ∧ ['a', 'é', '中'].length < 2 ^ 31 :=
  counts_characters_iff (by decide)

/-- U+1F600 is counted as no character. -/
theorem counts_characters_fails : '\x00' ∉ [Char.ofNat 0x1f600] ∧
    Returns (encode [Char.ofNat 0x1f600]) 0 ∧ ¬ CountsCharacters [Char.ofNat 0x1f600] := by
  have hzero : Returns (encode [Char.ofNat 0x1f600]) 0 := ⟨4, _, rfl⟩
  refine ⟨by decide, hzero, ?_⟩
  rintro ⟨⟨fuel, result, h⟩, -⟩
  obtain ⟨fuel', result', h'⟩ := hzero
  have hsame : (1 : Int) = 0 := congrArg Prod.snd (utf8ToUnicode_unique h h')
  cases hsame

end SurvivalGame.MyCharSet
