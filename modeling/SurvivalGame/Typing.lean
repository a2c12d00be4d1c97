import SurvivalGame.Shown

/-! # While only typing, the longest tail that fits

From `init` on, insertions keep `inpuText` and what is shown at the text from the
window's start, and the window starts at the first character from which the text
fits (`ShowsTail`).  The branch for a text that fits does not break this: a text
that has once been too wide stays so while characters are only appended.

With room for fifty characters every insertion returns.  The text then has at
most 150 bytes, which `t` holds, and a loop runs at most once for each
character.
-/
namespace SurvivalGame
open Loops Utf8 Transition TailWindow

namespace TextField

section Typing
variable {α : Type*} [LinearOrder α] {S : FieldSettings α} {fuel : Nat} {f f' : TextField}
  {cs : List Char} {c : Char} {p : Nat}

/-- The text from character `p` is shown, and copied in `inpuText`, and `p` is the
first character from which it fits. -/
structure ShowsTail (S : FieldSettings α) (f : TextField) (cs : List Char) (p : Nat) : Prop where
  window : WindowAt f cs p
  inside : Inside cs p
  copy : f.inpuText = encode (cs.drop p)
  shown : f.shown = encode (cs.drop p)
  fits : S.width (encode (cs.drop p)) ≤ S.inputFrameWidth
  first : ∀ q < p, S.inputFrameWidth < S.width (encode (cs.drop q))

theorem showsTail_init (hS : SingleFits S) (hwiden : WidensByCharacter S) :
    ShowsTail S init [] 0 :=
  ⟨windowAt_init, Or.inr rfl, rfl, rfl, (showsText_init hS hwiden).fits, nofun⟩

/-- The window of the longer text begins no further to the left. -/
theorem ShowsTail.first_append (h : ShowsTail S f cs p) (hwiden : WidensByCharacter S) (c : Char) :
    ∀ q < p, S.inputFrameWidth < S.width (encode ((cs ++ [c]).drop q)) := fun q hq =>
  too_wide_concat hwiden (Nat.le_trans (Nat.le_of_lt hq) h.inside.le) (h.first q hq) c

theorem ShowsTail.typed_copy (h : ShowsTail S f cs p) (c : Char) :
    f.inpuText ++ bytes c = encode ((cs ++ [c]).drop p) := by
  rw [h.copy, List.drop_append_of_le_length h.inside.le]
  simp

/-- **The step lemma**: an appended character leaves the longest tail shown. -/
theorem ShowsTail.appended (h : ShowsTail S f cs p) (hwiden : WidensByCharacter S)
    (happ : Appended S f cs c p f') : ∃ q, ShowsTail S f' (cs ++ [c]) q := by
  have hfirst := h.first_append hwiden c
  have hcopy := h.typed_copy c
  cases happ with
  | fits hfits hat =>
    -- a text that fits has not been too wide before
    have hfits := tooWide_eq_false_iff.mp hfits
    obtain rfl : p = 0 := by
      by_contra hp
      exact absurd hfits (not_le_of_gt (hfirst 0 (Nat.pos_of_ne_zero hp)))
    exact ⟨0, hat.whole _, Or.inr rfl, hcopy, rfl, hfits, nofun⟩
  | overflows _ hat hp hslid =>
    cases hslid with
    | stays hfits =>
      have hfits := tooWide_eq_false_iff.mp hfits
      exact ⟨p, hat, Or.inl (Nat.lt_of_succ_lt hp), hcopy, hcopy, hcopy ▸ hfits, hfirst⟩
    | @moves q hwide hpq hq hfits hbetween =>
      refine ⟨q, hat.moved q, Or.inl hq, rfl, rfl, tooWide_eq_false_iff.mp hfits, fun r hr => ?_⟩
      rcases Nat.lt_trichotomy r p with hlt | rfl | hgt
      · exact hfirst r hlt
      · rw [← hcopy]
        exact of_decide_eq_true hwide
      · exact of_decide_eq_true (hbetween r hgt hr)

/-! ## Every insertion returns -/

/-- A text of the field with at most fifty characters fits `t`. -/
theorem WindowAt.characterCount (h : WindowAt f cs p) :
    SurvivalGame.characterCount f.pInputText = .ok cs.length := by
  rw [h.text]
  refine characterCount_eq_length h.sizes.length_le (fun c hc => ?_) fun h0 => (h.chars _ h0).2 rfl
  rcases (h.chars c hc).1 with h1 | h3 <;> omega

theorem WindowAt.appendUnit_total (h : WindowAt f cs p) (hp : Inside cs p) (hS : SingleFits S)
    (hfuel : 50 ≤ fuel) (hc : Plain c) (hlt : cs.length < 50) :
    ∃ f', appendUnit S fuel f (bytes c) = .ok f' := by
  have hwrite : writeCode f.codeNumType f.codeCur (bytes c).length =
      .ok (f.codeNumType.set cs.length (bytes c).length) := by
    rw [h.codeCur, writeCode_natCast hlt]
  have hat := h.typed hp.le hc hlt
  cases hwide : S.tooWide (f.pInputText ++ bytes c) with
  | false => exact ⟨_, appendUnit_eq_ok.mpr ⟨_, hwrite, Or.inl ⟨hwide, rfl⟩⟩⟩
  | true =>
    have hwide' : S.tooWide (encode (cs ++ [c])) = true := by
      rw [h.text] at hwide
      simpa using hwide
    obtain ⟨f', hf'⟩ := insertLoop_terminates hS hat (hp.succ_lt hS hwide') (bytes c)
      (Nat.le_trans hat.sizes.length_le hfuel)
    exact ⟨f', appendUnit_eq_ok.mpr ⟨_, hwrite, Or.inr ⟨hwide, hf'⟩⟩⟩

theorem ShowsTail.unitStep (h : ShowsTail S f cs p) (hS : SingleFits S)
    (hwiden : WidensByCharacter S) (hlimit : S.inputMaxLength ≤ 50) (hfuel : 50 ≤ fuel)
    (hc : Plain c) : ∃ f', TextField.unitStep S fuel f (bytes c) = .ok f' ∧
      ∃ ds q, ShowsTail S f' ds q := by
  by_cases happs : Appends S f (bytes c)
  · have hlt : cs.length < 50 := by
      have := (h.window.lt_of_appends happs).trans_le hlimit
      exact_mod_cast this
    obtain ⟨f', hf'⟩ := h.window.appendUnit_total h.inside hS hfuel hc hlt
    exact ⟨f', unitStep_eq_ok.mpr (Or.inl ⟨happs, hf'⟩), cs ++ [c],
      h.appended hwiden (appended_of_appendUnit hS h.window h.inside hc hf')⟩
  · exact ⟨f, unitStep_eq_ok.mpr (Or.inr ⟨happs, ⟨_, h.window.characterCount⟩, rfl⟩), cs, p, h⟩

theorem ShowsTail.insert (h : ShowsTail S f cs p) (hS : SingleFits S)
    (hwiden : WidensByCharacter S) (hlimit : S.inputMaxLength ≤ 50) (hfuel : 50 ≤ fuel)
    {text : List Char} (htext : ∀ c ∈ text, OneOrThree c) :
    ∃ f', onTextFieldInsertText S fuel f (encode text) = .ok f' ∧
      ∃ ds q, ShowsTail S f' ds q := by
  obtain ⟨ds, hds, hcuts⟩ := cuts_of_oneOrThree htext
  rw [onTextFieldInsertText_eq_foldlM, hcuts]
  clear hcuts
  induction ds generalizing f cs p with
  | nil => exact ⟨f, rfl, cs, p, h⟩
  | cons c ds ih =>
    obtain ⟨g, hg, es, q, htail⟩ := h.unitStep hS hwiden hlimit hfuel (hds c List.mem_cons_self)
    obtain ⟨f', hf', hend⟩ := ih htail fun d hd => hds d (List.mem_cons_of_mem c hd)
    exact ⟨f', foldlM_cons_eq_ok.mpr ⟨g, hg, hf'⟩, hend⟩

theorem ShowsTail.run (h : ShowsTail S f cs p) (hS : SingleFits S)
    (hwiden : WidensByCharacter S) (hlimit : S.inputMaxLength ≤ 50) (hfuel : 50 ≤ fuel)
    {texts : List (List Char)} (htexts : ∀ text ∈ texts, ∀ c ∈ text, OneOrThree c) :
    ∃ f', Transition.run (step S fuel) f (texts.map .insert) = some f' ∧
      ∃ ds q, ShowsTail S f' ds q := by
  induction texts generalizing f cs p with
  | nil => exact ⟨f, rfl, cs, p, h⟩
  | cons text texts ih =>
    obtain ⟨g, hg, es, q, htail⟩ := h.insert hS hwiden hlimit hfuel (htexts text List.mem_cons_self)
    obtain ⟨f', hf', hend⟩ := ih htail fun t ht => htexts t (List.mem_cons_of_mem text ht)
    exact ⟨f', run_cons_eq_some.mpr ⟨g, toOption_eq_some.mpr hg, hf'⟩, hend⟩

/-- The field shows the longest end of the text `cs` that fits the frame: the bytes
behind the first `nLenCount`, which are those of the first `startCur`
characters. -/
structure ShowsLongest (S : FieldSettings α) (f : TextField) (cs : List Char) : Prop where
  text : f.pInputText = encode cs
  longest : ∃ t, f.shown = encode t ∧
    IsLongest (fun cs => S.width (encode cs)) S.inputFrameWidth cs t
  substr : substr f.pInputText f.nLenCount = .ok f.shown
  nLenCount : f.nLenCount = (f.codeNumType.toList.take f.startCur.toNat).sum

theorem ShowsTail.showsLongest (h : ShowsTail S f cs p) : ShowsLongest S f cs where
  text := h.window.text
  longest := ⟨cs.drop p, h.shown, isLongest_drop h.fits h.first⟩
  substr := by
    rw [h.window.nLenCount, h.window.text, substr_natCast (length_encode_take_le cs p),
      drop_encode_take, h.shown]
  nLenCount := by
    rw [h.window.startCur, Int.toNat_natCast, h.window.sizes.sum_take h.inside.le,
      h.window.nLenCount]

/-- **While only typing, the field shows the longest tail that fits**, whatever is
typed in whatever pieces, and every call returns. -/
theorem typing_shows_longest (hS : SingleFits S) (hwiden : WidensByCharacter S)
    (hlimit : S.inputMaxLength ≤ 50) (hfuel : 50 ≤ fuel) {texts : List (List Char)}
    (htexts : ∀ text ∈ texts, ∀ c ∈ text, OneOrThree c) :
    ∃ f, Transition.run (step S fuel) init (texts.map .insert) = some f ∧
      ∃ cs, ShowsLongest S f cs := by
  obtain ⟨f, hrun, cs, p, h⟩ := (showsTail_init hS hwiden).run hS hwiden hlimit hfuel htexts
  exact ⟨f, hrun, cs, h.showsLongest⟩

end Typing

theorem typing_shows_longest_mixed :
    ∃ f, Transition.run (step smallField 50) init
        ([['a', '中', 'b'], [], ['\n', '中']].map .insert) = some f ∧
      ∃ cs, ShowsLongest smallField f cs :=
  typing_shows_longest singleFits_of_length (widens_of_length 4 49) (by decide) (by decide)
    (by decide)

end TextField
end SurvivalGame
