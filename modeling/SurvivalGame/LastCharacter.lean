import SurvivalGame.Bookkeeping

/-! # The last character

The base class takes the length of the character to delete from what is shown, and
the field takes that many bytes off the text.  The calls of `setString` keep the two
in step, except that `setInpuntText` shows its text and stores none.

For everything else the text may be any, also one that `split_text` cuts apart
inside a character: what is shown is the text, or a suffix of it, or `inpuText`,
and a character typed behind two byte strings that end alike leaves two that end
alike.  `delete_removes_last_iff` says that a deletion takes off exactly the last
character as long as there is one.
-/
namespace SurvivalGame
open Loops Utf8 Transition

theorem nul_free_of_suffix {s t : List CChar} (h : s <:+ t) (ht : 0 ∉ t) : 0 ∉ s :=
  fun h0 => ht (h.subset h0)

theorem nul_free_append {s t : List CChar} (hs : 0 ∉ s) (ht : 0 ∉ t) : 0 ∉ s ++ t := fun h0 =>
  (List.mem_append.mp h0).elim hs ht

theorem drop_suffix_of_substr {s t : List CChar} {start : Int} (h : substr s start = .ok t) :
    t <:+ s := by
  obtain ⟨-, -, rfl⟩ := substr_eq_ok.mp h
  exact List.drop_suffix _ _

namespace TextField

section Frames
variable {α : Type*} [LinearOrder α] {S : FieldSettings α} {fuel : Nat} {f g f' : TextField}
  {ss : List CChar} {nLen : Nat}

/-! ## What the loops leave alone -/

/-- The field with another window: the text, its lengths and their number are the
same, and a suffix of the text is shown and copied. -/
inductive Rewindowed (f : TextField) : TextField → Prop
  | same : Rewindowed f f
  | suffix {n p : Int} {s : List CChar} (h : s <:+ f.pInputText) :
      Rewindowed f { f with nLenCount := n, startCur := p, inpuText := s, shown := s }

theorem Rewindowed.trans (h : Rewindowed f g) (h' : Rewindowed g f') : Rewindowed f f' := by
  cases h with
  | same => exact h'
  | suffix hs =>
    cases h' with
    | same => exact .suffix hs
    | suffix hs' => exact .suffix hs'

theorem rewindowed_slideRight (hnul : 0 ∉ f.pInputText) (h : slideRight ss f = .ok f') :
    Rewindowed f f' := by
  obtain ⟨code, text, -, htext, rfl⟩ := slideRight_eq_ok.mp h
  have hs := drop_suffix_of_substr htext
  rw [cStr_of_nul_free (nul_free_of_suffix hs hnul)]
  exact .suffix hs

theorem rewindowed_slideLeft (h : slideLeft nLen f = .ok f') : Rewindowed f f' := by
  obtain ⟨code, text, -, htext, rfl⟩ := slideLeft_eq_ok.mp h
  exact .suffix (drop_suffix_of_substr htext)

theorem Rewindowed.pInputText (h : Rewindowed f f') : f'.pInputText = f.pInputText := by
  cases h <;> rfl

theorem rewindowed_insertLoop (hnul : 0 ∉ f.pInputText)
    (h : whileM (fun f => S.tooWide f.shown) (slideRight ss) .fuel fuel f = .ok f') :
    Rewindowed f f' :=
  (whileM_invariant (I := Rewindowed f) (fun _ _ hg _ hslide =>
    hg.trans (rewindowed_slideRight (hg.pInputText ▸ hnul) hslide)) h .same).1

theorem rewindowed_deleteLoop
    (h : whileM (fun f => S.tooWide f.shown) (slideLeft nLen) .fuel fuel f = .ok f') :
    Rewindowed f f' :=
  (whileM_invariant (I := Rewindowed f) (fun _ _ hg _ hslide =>
    hg.trans (rewindowed_slideLeft hslide)) h .same).1

/-! ## What ends alike -/

/-- What is shown, and the copy, end like the text. -/
structure Alike (f : TextField) : Prop where
  shown : EndsLike f.shown f.pInputText
  copy : EndsLike f.inpuText f.pInputText

theorem Alike.rewindowed (h : Alike f) (hf : Rewindowed f f') : Alike f' := by
  cases hf with
  | same => exact h
  | suffix hs => exact ⟨.of_suffix hs, .of_suffix hs⟩

/-- **Appending a cut**, whatever the bytes, if the copy with it ends like the text
with it. -/
theorem alike_appendUnit (hnul : 0 ∉ f.pInputText ++ ss)
    (hcopy : EndsLike (f.inpuText ++ ss) (f.pInputText ++ ss))
    (happ : appendUnit S fuel f ss = .ok f') : Alike f' := by
  obtain ⟨codes, -, ⟨-, rfl⟩ | ⟨-, hloop⟩⟩ := appendUnit_eq_ok.mp happ
  · exact ⟨.refl _, hcopy⟩
  · exact Alike.rewindowed (f := f.typed codes ss) ⟨hcopy, hcopy⟩ (rewindowed_insertLoop hnul hloop)

/-- After a deletion what is left is shown, or a suffix of it. -/
theorem endsLike_delete (hnul : 0 ∉ f.pInputText)
    (hdel : onTextFieldDeleteBackward S fuel f nLen = .ok f') :
    EndsLike f'.shown f'.pInputText := by
  obtain ⟨-, codes, -, ⟨-, rfl⟩ | ⟨-, hloop⟩⟩ := onTextFieldDeleteBackward_eq_ok.mp hdel
  · rw [cStr_of_nul_free fun h0 => hnul (List.mem_of_mem_take h0)]
    exact .refl _
  · cases rewindowed_deleteLoop hloop with
    | same => exact .refl _
    | suffix hs => exact .of_suffix hs

end Frames

/-! ## Inserting a text -/

section Insertion
variable {α : Type*} [LinearOrder α] {S : FieldSettings α} {fuel : Nat} {f f' : TextField}
  {ss : List CChar} {us : List (List CChar)} {text : List Char}

theorem alike_unitStep (h : Alike f) (hnul : 0 ∉ f.pInputText) (hss : 0 ∉ ss)
    (hunit : unitStep S fuel f ss = .ok f') : 0 ∉ f'.pInputText ∧ Alike f' := by
  rcases unitStep_eq_ok.mp hunit with ⟨-, happ⟩ | ⟨-, -, rfl⟩
  · have hboth := nul_free_append hnul hss
    exact ⟨(appendUnit_frame happ).1 ▸ hboth, alike_appendUnit hboth (h.copy.append ss) happ⟩
  · exact ⟨hnul, h⟩

/-- Once the copy ends like the text, it does so behind every cut. -/
theorem alike_foldlM (h : Alike f) (hnul : 0 ∉ f.pInputText) (hus : ∀ ss ∈ us, 0 ∉ ss)
    (hfold : us.foldlM (unitStep S fuel) f = .ok f') : 0 ∉ f'.pInputText ∧ Alike f' :=
  (Along.of_forall_mem hus).invariant (I := fun f => 0 ∉ f.pInputText ∧ Alike f)
    (fun _ _ _ hf hss hunit => alike_unitStep hf.2 hf.1 hss (toOption_eq_some.mp hunit))
    (run_of_foldlM hfold) ⟨hnul, h⟩

/-- The first cut of a text begins with the first byte of a character. -/
theorem exists_lead_take (c : Char) (text : List Char) :
    ∃ b ∈ (encode (c :: text)).take (reach c), ¬ IsTail b := by
  obtain ⟨b, xs, heq, hb, -⟩ := (shape_bytes c).eq_cons
  refine ⟨b, ?_, hb⟩
  rw [encode_cons, heq, reach]
  split <;> simp

/-- **An insertion, whatever was shown before**: nothing is appended, or the copy ends
like the text afterwards.  The first cut appended begins with a whole character's
first byte, so behind it the two end alike. -/
theorem same_or_alike_of_insert (hnul : 0 ∉ f.pInputText) (htext : '\x00' ∉ text)
    (hfold : (units (encode text)).foldlM (unitStep S fuel) f = .ok f') :
    f' = f ∨ (0 ∉ f'.pInputText ∧ Alike f') := by
  induction text with
  | nil => cases hfold; exact Or.inl rfl
  | cons c text ih =>
    have hfree : ∀ ss ∈ units (encode (c :: text)), 0 ∉ ss := fun ss hss h0 =>
      htext (zero_mem_encode_iff.mp (mem_of_mem_units hss h0))
    rw [units_encode_cons] at hfold hfree
    obtain ⟨g, hg, hrest⟩ := foldlM_cons_eq_ok.mp hfold
    have hss := hfree _ List.mem_cons_self
    rcases unitStep_eq_ok.mp hg with ⟨-, happ⟩ | ⟨hnot, ⟨cou, hcou⟩, rfl⟩
    · obtain ⟨k, hk⟩ := exists_lastLength (exists_lead_take c text)
      have hboth := nul_free_append hnul hss
      have hcopy : EndsLike (f.inpuText ++ (encode (c :: text)).take (reach c))
          (f.pInputText ++ (encode (c :: text)).take (reach c)) := by
        intro n hn
        rw [lastLength_append _ hk, ← hn, lastLength_append _ hk]
      exact Or.inr (alike_foldlM (alike_appendUnit hboth hcopy happ)
        ((appendUnit_frame happ).1 ▸ hboth) (fun ss h => hfree ss (List.mem_cons_of_mem _ h)) hrest)
    · by_cases hfull : S.inputMaxLength ≤ cou
      · rw [foldlM_unitStep_of_full hcou hfull] at hrest
        cases hrest
        exact Or.inl rfl
      · -- a newline is passed over
        have hnl : (encode (c :: text)).take (reach c) = [newline] := by
          by_contra hne
          exact hnot ⟨cou, hcou, lt_of_not_ge hfull, hne⟩
        obtain rfl := eq_newline_of_take hnl
        exact ih (fun h0 => htext (List.mem_cons_of_mem _ h0)) hrest

end Insertion

/-! ## Runs -/

section Runs
variable {α : Type*} [LinearOrder α] {S : FieldSettings α} {fuel : Nat} {f f' : TextField}
  {nLen : Nat}

/-- What holds between two calls: a text that is not empty ends like what is shown. -/
structure Tied (f : TextField) : Prop where
  nulFree : 0 ∉ f.pInputText
  shown : f.pInputText ≠ [] → EndsLike f.shown f.pInputText

theorem tied_init : Tied init := ⟨nofun, fun h => absurd rfl h⟩

/-- **The step lemma.** -/
theorem tied_step {a : FieldAct} (h : Tied f) (hstep : step S fuel f a = some f') : Tied f' := by
  cases a with
  | insert text =>
    have hins := toOption_eq_some.mp hstep
    rw [onTextFieldInsertText_eq_foldlM, cStr_encode] at hins
    rcases same_or_alike_of_insert h.nulFree (nul_not_mem_takeWhile text) hins with
      rfl | ⟨hnul, halike⟩
    · exact h
    · exact ⟨hnul, fun _ => halike.shown⟩
  | delete =>
    obtain ⟨nLen, -, hdel⟩ := Option.bind_eq_some_iff.mp hstep
    have hdel := toOption_eq_some.mp hdel
    refine ⟨fun h0 => h.nulFree ?_, fun _ => endsLike_delete h.nulFree hdel⟩
    rw [(delete_frame hdel).1] at h0
    exact List.mem_of_mem_take h0
  | openIME =>
    cases hstep
    exact ⟨h.nulFree, fun _ => .refl _⟩
  | closeIME =>
    cases hstep
    exact h
  | setInpuntText text =>
    cases hstep
    exact ⟨nofun, fun h => absurd rfl h⟩

theorem tied_run {acts : List FieldAct} (hrun : run (step S fuel) init acts = some f) : Tied f :=
  run_invariant (fun _ _ _ => tied_step) hrun tied_init

/-- A deletion of `nLen` bytes takes off exactly the last character of the text. -/
structure RemovesLast (S : FieldSettings α) (f : TextField) (nLen : Nat) : Prop where
  le : nLen ≤ f.pInputText.length
  last : lastLength f.pInputText = some nLen
  removed : ∀ fuel f', f.onTextFieldDeleteBackward S fuel nLen = .ok f' →
    f'.pInputText = f.pInputText.take (f.pInputText.length - nLen)

/-- **A deletion removes the last character, as long as there is one**: in every state
that any calls lead to. -/
theorem delete_removes_last_iff {acts : List FieldAct}
    (hrun : run (step S fuel) init acts = some f) (hlast : lastLength f.shown = some nLen) :
    RemovesLast S f nLen ↔ f.pInputText ≠ [] := by
  have h := tied_run hrun
  constructor
  · rintro ⟨-, hlast', -⟩ hnil
    rw [hnil] at hlast'
    cases hlast'
  · intro hne
    have hlast' := h.shown hne nLen hlast
    exact ⟨(lastLength_le hlast').2, hlast', fun n f' hdel => (delete_frame hdel).1⟩

end Runs

/-- The field is set and typed into, and loses and gets the focus. -/
theorem delete_removes_last_iff_typed : RemovesLast smallField
    ⟨0, codesOf [1, 3, 1], 2, 0, encode ['b', '中'], encode ['中', 'x'], encode ['b', '中']⟩ 3 :=
  have hrun : run (step smallField 9) init [.setInpuntText ['a'], .insert ['\n', 'b', '中', '\n'],
      .insert ['x'], .delete, .closeIME, .openIME] = some
        ⟨0, codesOf [1, 3, 1], 2, 0, encode ['b', '中'], encode ['中', 'x'],
          encode ['b', '中']⟩ := by rfl
  (delete_removes_last_iff hrun (by decide)).mpr (by decide)

/-- A text that has been set is shown and not stored. -/
theorem delete_wraps_size : ¬ ∀ (S : FieldSettings Nat) (fuel : Nat) (acts : List FieldAct)
    (f : TextField) (nLen : Nat), run (step S fuel) init acts = some f →
      lastLength f.shown = some nLen → RemovesLast S f nLen := by
  intro h
  have hset := h smallField 9 [.setInpuntText ['a', 'b', 'c']] _ 1 rfl (by decide)
  exact absurd hset.le (by decide)

end TextField
end SurvivalGame
