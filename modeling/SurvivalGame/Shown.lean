import SurvivalGame.Deletion

/-! # What the text field shows

The field should show the end of its text, as much as fits.  While only inserting it
does: `inpuText` is the shown part, and the window begins at the first character
from which the text fits (`typing_shows_longest`).

A deletion that leaves a text which fits resets the counters and not `inpuText`.
The stale copy is shown again when a later character makes the text too wide and
the copy does not get too wide with it.  Where that does not happen, what is shown
is an end of the text, over every run of insertions and deletions
(`shows_text_of_freshCopy`).
-/
namespace SurvivalGame
open Loops Utf8 Transition TailWindow

/-- A suffix of the text that begins at a character boundary. -/
def CharSuffix (s text : List CChar) : Prop := s <:+ text ∧ ∀ b ∈ s.head?, ¬ IsTail b

instance (s text : List CChar) : Decidable (CharSuffix s text) :=
  have := Option.decidableForallMem (p := (¬ IsTail ·)) s.head?
  inferInstanceAs (Decidable (_ ∧ _))

theorem head_encode (cs : List Char) : ∀ b ∈ (encode cs).head?, ¬ IsTail b := by
  cases cs with
  | nil => nofun
  | cons c cs =>
    obtain ⟨b, xs, heq, hb, -⟩ := (shape_bytes c).eq_cons
    rw [encode_cons, heq]
    rintro _ ⟨⟩
    exact hb

theorem charSuffix_encode_drop (cs : List Char) (p : Nat) :
    CharSuffix (encode (cs.drop p)) (encode cs) :=
  ⟨TextField.encode_drop_suffix cs p, head_encode _⟩

theorem CharSuffix.append {s text : List CChar} (h : CharSuffix s text) (c : Char) :
    CharSuffix (s ++ bytes c) (text ++ bytes c) := by
  obtain ⟨⟨r, rfl⟩, hhead⟩ := h
  refine ⟨⟨r, by rw [List.append_assoc]⟩, ?_⟩
  cases s with
  | nil => simpa using head_encode [c]
  | cons b s => exact hhead

namespace TextField

section Shown
variable {α : Type*} [LinearOrder α] {S : FieldSettings α} {fuel : Nat} {f f' : TextField}
  {cs : List Char} {c : Char} {p : Nat}

/-! ## Typing and deleting -/

/-- What is shown is an end of the text, and fits the frame. -/
structure ShowsText (S : FieldSettings α) (f : TextField) : Prop where
  suffix : CharSuffix f.shown f.pInputText
  fits : S.width f.shown ≤ S.inputFrameWidth

instance (f : TextField) (ss : List CChar) : Decidable (Appends S f ss) :=
  match hcou : characterCount f.pInputText with
  | .error _ => isFalse fun ⟨_, h, _⟩ => by rw [hcou] at h; cases h
  | .ok cou => decidable_of_iff (cou < S.inputMaxLength ∧ ss ≠ [newline])
      ⟨fun h => ⟨cou, hcou, h⟩, fun ⟨_, h, h'⟩ => by rw [hcou] at h; cases h; exact h'⟩

/-- A cut that is not shown behind a stale copy: if it is appended and makes the text
too wide but not the copy, the copy is an end of the text. -/
def FreshCopy (S : FieldSettings α) (f : TextField) (ss : List CChar) : Prop :=
  Appends S f ss → S.tooWide (f.pInputText ++ ss) = true →
    S.tooWide (f.inpuText ++ ss) = false → CharSuffix f.inpuText f.pInputText

instance (f : TextField) (ss : List CChar) : Decidable (FreshCopy S f ss) :=
  inferInstanceAs (Decidable (_ → _ → _ → _))

/-- The condition on a call: all its cuts are of that kind. -/
def CopiesFresh (S : FieldSettings α) (fuel : Nat) (f : TextField) : FieldAct → Prop
  | .insert text => AlongCuts S fuel (FreshCopy S) f text
  | _ => True

instance (f : TextField) : ∀ a, Decidable (CopiesFresh S fuel f a)
  | .insert _ => inferInstanceAs (Decidable (Along _ (FreshCopy S) f _))
  | .delete | .openIME | .closeIME | .setInpuntText _ => inferInstanceAs (Decidable True)

theorem tooWide_eq_false_iff {s : List CChar} :
    S.tooWide s = false ↔ S.width s ≤ S.inputFrameWidth := by
  rw [FieldSettings.tooWide, decide_eq_false_iff_not, not_lt]

theorem WindowAt.showsText_whole (h : WindowAt f cs p) (hfits : S.tooWide (encode cs) = false) :
    ShowsText S (f.whole (encode cs)) := by
  refine ⟨?_, tooWide_eq_false_iff.mp hfits⟩
  rw [show (f.whole (encode cs)).pInputText = encode cs from h.text]
  exact charSuffix_encode_drop cs 0

theorem WindowAt.showsText_moved (h : WindowAt f cs p) {q : Nat}
    (hfits : S.tooWide (encode (cs.drop q)) = false) : ShowsText S (f.moved cs q) := by
  refine ⟨?_, tooWide_eq_false_iff.mp hfits⟩
  rw [show (f.moved cs q).pInputText = encode cs from h.text]
  exact charSuffix_encode_drop cs q

theorem Appended.showsText (h : Appended S f cs c p f') (htext : f.pInputText = encode cs)
    (hfresh : S.tooWide (f.pInputText ++ bytes c) = true →
      S.tooWide (f.inpuText ++ bytes c) = false → CharSuffix f.inpuText f.pInputText) :
    ShowsText S f' := by
  cases h with
  | fits hfits hat => exact hat.showsText_whole hfits
  | overflows hwide hat _ hslid =>
    cases hslid with
    | stays hfits =>
      -- the copy is shown, with the new character behind it
      have hwide : S.tooWide (f.pInputText ++ bytes c) = true := by
        rw [htext]
        simpa using hwide
      exact ⟨(hfresh hwide hfits).append c, tooWide_eq_false_iff.mp hfits⟩
    | moves _ _ _ hfits => exact hat.showsText_moved hfits

theorem Deleted.showsText (h : Deleted S f cs c p f') : ShowsText S f' := by
  cases h with
  | fits hfits hat => exact hat.showsText_whole hfits
  | overflows _ hat _ hfits => exact hat.showsText_moved hfits

/-- The empty text fits. -/
theorem showsText_init (hS : SingleFits S) (hwiden : WidensByCharacter S) : ShowsText S init := by
  refine ⟨charSuffix_encode_drop [] 0, (hwiden.nil ['a']).trans ?_⟩
  simpa using hS 'a'

/-- What holds between two insertions or deletions: the books are right, and what is
shown is stored. -/
def OnShow (S : FieldSettings α) (f : TextField) : Prop :=
  (∃ cs, InOrder S f cs) ∧ ShowsText S f

theorem onShow_unitStep (hS : SingleFits S) (h : OnShow S f) (hc : Plain c)
    (hfresh : FreshCopy S f (bytes c)) (hunit : unitStep S fuel f (bytes c) = .ok f') :
    OnShow S f' := by
  obtain ⟨⟨cs, hcs⟩, hshow⟩ := h
  obtain ⟨p, hat, hp⟩ := hcs.booked
  rcases unitStep_eq_ok.mp hunit with ⟨happs, happ⟩ | ⟨-, -, rfl⟩
  · have hdone := appended_of_appendUnit hS hat hp hc happ
    exact ⟨⟨cs ++ [c], hdone.inOrder (hat.lt_of_appends happs)⟩,
      hdone.showsText hat.text (hfresh happs)⟩
  · exact ⟨⟨cs, hcs⟩, hshow⟩

/-- **The step lemma.** -/
theorem onShow_step (hS : SingleFits S) {a : FieldAct} (h : OnShow S f)
    (hedit : IsEdit a ∧ a ≠ .openIME) (hfresh : CopiesFresh S fuel f a)
    (hstep : step S fuel f a = some f') : OnShow S f' := by
  cases a with
  | insert text =>
    exact insert_invariant (fun _ _ _ hf hc hfresh hunit => onShow_unitStep hS hf hc hfresh hunit)
      hedit.1 hfresh (toOption_eq_some.mp hstep) h
  | delete =>
    refine ⟨inOrder_step hS hedit.1 h.1 hstep, ?_⟩
    obtain ⟨cs, hcs⟩ := h.1
    obtain ⟨nLen, hlast, hdel⟩ := Option.bind_eq_some_iff.mp hstep
    obtain ⟨ds, d, p, rfl, rfl, hat, hp⟩ := delete_plain hcs.booked hcs.endsAlike hlast
    exact (deleted_of_delete hat hp (toOption_eq_some.mp hdel)).showsText
  | openIME => exact absurd rfl hedit.2
  | closeIME => cases hedit.1
  | setInpuntText => cases hedit.1

/-- **What is shown is what is stored**, over every run of insertions and deletions
that shows no stale copy. -/
theorem shows_text_of_freshCopy (hS : SingleFits S) (hwiden : WidensByCharacter S)
    {acts : List FieldAct} (hedit : ∀ a ∈ acts, IsEdit a ∧ a ≠ .openIME)
    (hfresh : Along (step S fuel) (CopiesFresh S fuel) init acts)
    (hrun : run (step S fuel) init acts = some f) : ShowsText S f :=
  (((Along.of_forall_mem hedit).and hfresh).invariant (I := OnShow S)
    (fun _ _ _ hf hC hstep => onShow_step hS hf hC.1 hC.2 hstep) hrun
    ⟨⟨[], inOrder_init S⟩, showsText_init hS hwiden⟩).2

end Shown

/-- After the deletion in `abc中` the copy is stale, and the next wide character does
not show it. -/
theorem shows_text_of_freshCopy_wide : ShowsText smallField
    ⟨2, codesOf [1, 1, 1, 3], 4, 2, encode ['a', 'b', 'c', '中'], encode ['c', '中'],
      encode ['c', '中']⟩ :=
  have hrun : run (step smallField 9) init
      [.insert ['a', 'b', 'c', '中'], .delete, .insert ['中']] =
        some ⟨2, codesOf [1, 1, 1, 3], 4, 2, encode ['a', 'b', 'c', '中'], encode ['c', '中'],
          encode ['c', '中']⟩ := by rfl
  shows_text_of_freshCopy singleFits_of_length (widens_of_length 4 49) (by decide) (by decide) hrun

/-- After the deletion in `中ab` the copy is `ab`; a `c` makes the text too wide and not
the copy, and the field shows `abc`. -/
theorem shows_stale_copy : ¬ ∀ (S : FieldSettings Nat) (fuel : Nat) (acts : List FieldAct)
    (f : TextField), SingleFits S → WidensByCharacter S →
      (∀ a ∈ acts, IsEdit a ∧ a ≠ .openIME) → run (step S fuel) init acts = some f →
      ShowsText S f := by
  intro h
  have hrun : run (step smallField 9) init [.insert ['中', 'a', 'b'], .delete, .insert ['c']] =
      some ⟨0, codesOf [3, 1, 1], 3, 0, encode ['中', 'a', 'c'], encode ['a', 'b', 'c'],
        encode ['a', 'b', 'c']⟩ := by rfl
  have hshow := h smallField 9 _ _ singleFits_of_length (widens_of_length 4 49) (by decide) hrun
  exact absurd hshow.suffix (by decide)

end TextField
end SurvivalGame
