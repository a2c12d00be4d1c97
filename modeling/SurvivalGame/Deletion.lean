import SurvivalGame.Bookkeeping
import SurvivalGame.TailWindow

/-! # When a deletion returns

After a deletion the text may still be too wide.  The loop then moves the window to
the left, one character at a time, until what is shown fits; but moving to the
left uncovers a character, and what is shown gets wider.  So the loop ends in its
first iteration or not at all: it reads `codeNumType[startCur - 1]` with
`startCur` at 0.

`delete_returns_iff` says when it is the first: what remains fits as a whole, or it
fits from the character before the window's start.  Texts of one width always meet
this; a narrow character deleted behind a wide one that was just pushed out does
not.
-/
namespace SurvivalGame
open Loops Utf8 Transition TailWindow

namespace TextField

section Deletion
variable {α : Type*} [LinearOrder α] {S : FieldSettings α} {fuel : Nat} {f f' : TextField}
  {cs : List Char} {c : Char} {p : Nat}

/-- The label gets no narrower when a character is added at either end. -/
def WidensByCharacter (S : FieldSettings α) : Prop := Widening fun cs => S.width (encode cs)

/-- What is left of the text when its last `nLen` bytes are deleted. -/
def remaining (f : TextField) (nLen : Nat) : List CChar :=
  f.pInputText.take (f.pInputText.length - nLen)

/-- Of what is left, the part from the character before the window's start. -/
def uncovered (f : TextField) (nLen : Nat) : List CChar :=
  (f.remaining nLen).drop
    (f.nLenCount - f.codeNumType.toList.getD (f.startCur - 1).toNat 0).toNat

theorem remaining_eq (h : WindowAt f (cs ++ [c]) p) : f.remaining c.utf8Size = encode cs := by
  rw [remaining, h.text, take_erased]

theorem uncovered_eq (h : WindowAt f (cs ++ [c]) (p + 1)) (hp : p < cs.length) :
    f.uncovered c.utf8Size = encode (cs.drop p) := by
  have hlt : p < (cs ++ [c]).length := by rw [List.length_append]; omega
  have hcode : f.codeNumType.toList.getD (f.startCur - 1).toNat 0 =
      ((cs ++ [c])[p].utf8Size : Int) := by
    have hstart : (f.startCur - 1).toNat = p := by rw [h.startCur]; omega
    have h50 := Nat.lt_of_lt_of_le hlt h.sizes.length_le
    rw [hstart, List.getD_eq_getElem?_getD, List.getElem?_eq_getElem (by simpa using h50),
      Vector.getElem_toList]
    exact h.sizes.get hlt
  have hcount : (f.nLenCount - ((cs ++ [c])[p].utf8Size : Int)).toNat =
      (encode (cs.take p)).length := by
    rw [h.nLenCount, length_encode_take_succ hlt, List.take_append_of_le_length (Nat.le_of_lt hp)]
    omega
  rw [uncovered, remaining_eq h, hcode, hcount, drop_encode_take]

section Returns
variable {ds : List Char} {d : Char}

theorem WindowAt.write_erased (h : WindowAt f (ds ++ [d]) p) (hn : ds.length + 1 < 50) :
    writeCode f.codeNumType f.codeCur 0 = .ok (f.codeNumType.set (ds.length + 1) 0) := by
  rw [h.codeCur, List.length_append]
  exact writeCode_natCast hn

theorem WindowAt.size_le (h : WindowAt f (ds ++ [d]) p) : d.utf8Size ≤ f.pInputText.length := by
  rw [h.text, encode_append, List.length_append]
  simp

/-- What is left fits. -/
theorem WindowAt.delete_whole (h : WindowAt f (ds ++ [d]) p) (hn : ds.length + 1 < 50)
    (hfits : S.width (encode ds) ≤ S.inputFrameWidth) :
    ∃ f', f.onTextFieldDeleteBackward S fuel d.utf8Size = .ok f' := by
  refine ⟨_, onTextFieldDeleteBackward_eq_ok.mpr
    ⟨h.size_le, _, h.write_erased hn, Or.inl ⟨?_, rfl⟩⟩⟩
  rw [show f.pInputText.take _ = encode ds from remaining_eq h]
  exact decide_eq_false (not_lt.mpr hfits)

/-- What is left does not fit, and fits from the character before the window's start:
one iteration of the loop. -/
theorem WindowAt.delete_uncovered {r : Nat} (h : WindowAt f (ds ++ [d]) (r + 1))
    (hp : r + 1 ≤ ds.length) (hn : ds.length + 1 < 50)
    (hwide : S.inputFrameWidth < S.width (encode ds))
    (hfits : S.width (encode (ds.drop r)) ≤ S.inputFrameWidth) :
    ∃ f', f.onTextFieldDeleteBackward S 1 d.utf8Size = .ok f' := by
  have hat := h.erased hp hn
  have hwide : S.tooWide (encode ds) = true := decide_eq_true hwide
  refine ⟨(f.erased (f.codeNumType.set (ds.length + 1) 0 hn) d.utf8Size).moved ds r,
    onTextFieldDeleteBackward_eq_ok.mpr ⟨h.size_le, _, h.write_erased hn, Or.inr ⟨?_, ?_⟩⟩⟩
  · rw [show f.pInputText.take _ = encode ds from remaining_eq h]
    exact hwide
  · rw [whileM_succ (by rwa [← remaining_eq h] at hwide), slideLeft_windowAt hat hp]
    exact whileM_of_not (decide_eq_false (not_lt.mpr hfits))

end Returns

/-- When a deletion returns, in a state in order. -/
theorem InOrder.delete_ok_iff (h : InOrder S f cs) (hwiden : WidensByCharacter S) {nLen : Nat}
    (hlast : lastLength f.shown = some nLen) :
    (∃ k f', f.onTextFieldDeleteBackward S k nLen = .ok f') ↔
      f.codeCur < 50 ∧ (S.width (f.remaining nLen) ≤ S.inputFrameWidth ∨
        (1 ≤ f.startCur ∧ S.width (f.uncovered nLen) ≤ S.inputFrameWidth)) := by
  obtain ⟨ds, d, p, rfl, rfl, hat, hp⟩ := delete_plain h.booked h.endsAlike hlast
  have hcur : f.codeCur = (ds.length + 1 : Nat) := by rw [hat.codeCur, List.length_append]; rfl
  rw [remaining_eq hat]
  constructor
  · rintro ⟨k, f', hdel⟩
    refine ⟨?_, ?_⟩
    · obtain ⟨-, codes, hcodes, -⟩ := onTextFieldDeleteBackward_eq_ok.mp hdel
      obtain ⟨n, hn, hcur, -⟩ := writeCode_eq_ok.mp hcodes
      omega
    · cases deleted_of_delete hat hp hdel with
      | fits hfits => exact Or.inl (not_lt.mp (of_decide_eq_false hfits))
      | @overflows codes q _ _ hq hfits =>
        -- what is shown is wider the further to the left the window begins
        obtain ⟨r, rfl⟩ : ∃ r, p = r + 1 := ⟨p - 1, by omega⟩
        refine Or.inr ⟨by rw [hat.startCur]; omega, ?_⟩
        rw [uncovered_eq hat hp]
        exact (hwiden.suffix (List.drop_suffix_drop_left ds (Nat.le_of_lt_succ hq))).trans
          (not_lt.mp (of_decide_eq_false hfits))
  · rintro ⟨h50, hcase⟩
    have hn : ds.length + 1 < 50 := by omega
    by_cases hwhole : S.width (encode ds) ≤ S.inputFrameWidth
    · exact ⟨0, hat.delete_whole hn hwhole⟩
    · obtain ⟨hstart, hfits⟩ := hcase.resolve_left hwhole
      obtain ⟨r, rfl⟩ : ∃ r, p = r + 1 := ⟨p - 1, by have := hat.startCur; omega⟩
      rw [uncovered_eq hat hp] at hfits
      exact ⟨1, hat.delete_uncovered hp hn (not_le.mp hwhole) hfits⟩

/-- **When a deletion returns**, in every state that typing and deleting lead to, for
every measure of width: exactly when fewer than fifty characters are stored, and
what is left fits, as a whole or from the character before the window's start. -/
theorem delete_returns_iff (hS : SingleFits S) (hwiden : WidensByCharacter S)
    {acts : List FieldAct} (hedit : ∀ a ∈ acts, IsEdit a)
    (hrun : run (step S fuel) init acts = some f) {nLen : Nat}
    (hlast : lastLength f.shown = some nLen) :
    (∃ k f', f.onTextFieldDeleteBackward S k nLen = .ok f') ↔
      f.codeCur < 50 ∧ (S.width (f.remaining nLen) ≤ S.inputFrameWidth ∨
        (1 ≤ f.startCur ∧ S.width (f.uncovered nLen) ≤ S.inputFrameWidth)) := by
  obtain ⟨cs, hcs⟩ := inOrder_run hS hedit hrun
  exact hcs.delete_ok_iff hwiden hlast

end Deletion

theorem widens_of_length (F : Nat) (n : ℚ) :
    WidensByCharacter (⟨List.length, F, n⟩ : FieldSettings Nat) where
  front c cs := by
    show (encode cs).length ≤ (encode (c :: cs)).length
    rw [encode_cons, List.length_append]
    exact Nat.le_add_left _ _
  back cs c := by
    show (encode cs).length ≤ (encode (cs ++ [c])).length
    rw [encode_append, List.length_append]
    exact Nat.le_add_right _ _

/-- The wide character at the end of `abc中` is deleted: what is left fits. -/
theorem delete_returns_iff_wide : ∃ k f', onTextFieldDeleteBackward smallField k
    ⟨2, codesOf [1, 1, 1, 3], 4, 2, encode ['a', 'b', 'c', '中'], encode ['c', '中'],
      encode ['c', '中']⟩ 3 = .ok f' :=
  have hrun : run (step smallField 9) init [.insert ['a', 'b', 'c', '中']] =
      some ⟨2, codesOf [1, 1, 1, 3], 4, 2, encode ['a', 'b', 'c', '中'], encode ['c', '中'],
        encode ['c', '中']⟩ := by rfl
  (delete_returns_iff singleFits_of_length (widens_of_length 4 49) (by decide) hrun
    (by decide)).mpr (by decide)

/-- A narrow character at the end of `中aaa` is deleted: what is left does not fit, nor
does it from the wide character that is uncovered. -/
theorem delete_hangs : ¬ ∀ (S : FieldSettings Nat) (fuel : Nat) (acts : List FieldAct)
    (f : TextField) (nLen : Nat), SingleFits S → WidensByCharacter S → (∀ a ∈ acts, IsEdit a) →
      run (step S fuel) init acts = some f → lastLength f.shown = some nLen →
      ∃ k f', f.onTextFieldDeleteBackward S k nLen = .ok f' := by
  intro h
  have hS := singleFits_of_length (n := 49)
  have hwiden := widens_of_length 4 49
  have hrun : run (step smallField 9) init [.insert ['中', 'a', 'a', 'a']] =
      some ⟨3, codesOf [3, 1, 1, 1], 4, 1, encode ['中', 'a', 'a', 'a'], encode ['a', 'a', 'a'],
        encode ['a', 'a', 'a']⟩ := by rfl
  obtain ⟨cs, hcs⟩ := inOrder_run hS (by decide) hrun
  have hok := h smallField 9 _ _ 1 hS hwiden (by decide) hrun (by decide)
  exact absurd ((hcs.delete_ok_iff hwiden (by decide)).mp hok) (by decide)

end TextField
end SurvivalGame
