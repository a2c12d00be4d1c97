import SurvivalGame.LastCharacter
import SurvivalGame.Shown

/-! # The arrays of fixed size

`codeNumType` has fifty elements and `t` two hundred bytes.  The guard of an
insertion counts the characters of the text, `codeCur` the cuts that were appended
less the deletions; the two agree as long as every cut appended is a whole
character.  Then there are at most fifty characters of at most three bytes, and an
insertion writes behind neither array.

A deletion clears `codeNumType[codeCur]`, where an insertion would write next, and
with fifty characters that is the element behind the last (`delete_overruns`).
`arrays_hold` is about every run that keeps clear of the two.
-/
namespace SurvivalGame
open Loops Utf8 Transition

/-- The call writes behind `codeNumType` or `t`. -/
def Stop.Overruns (e : Stop) : Prop := e = .codeWrite ∨ e = .strcpy

instance : DecidablePred Stop.Overruns := fun _ => inferInstanceAs (Decidable (_ ∨ _))

theorem readCode_eq_error {codes : Vector Int 50} {i : Int} {e : Stop}
    (h : readCode codes i = .error e) : e = .codeRead := by
  rw [readCode] at h
  split at h
  · cases h
  · cases h; rfl

theorem substr_eq_error {s : List CChar} {start : Int} {e : Stop}
    (h : substr s start = .error e) : e = .substr := by
  rw [substr] at h
  split at h
  · cases h
  · cases h; rfl

namespace TextField

section Errors
variable {α : Type*} [LinearOrder α] {S : FieldSettings α} {fuel : Nat} {f f' : TextField}
  {ss : List CChar} {nLen : Nat} {e : Stop}

/-! ## Where an overrun can come from -/

/-- An iteration of either loop only reads. -/
theorem reads_not_overruns {codes : Vector Int 50} {i : Int} {s : List CChar}
    {start : Int → Int} {k : Int → List CChar → TextField}
    (h : (do let code ← readCode codes i
             let text ← substr s (start code)
             .ok (k code text)) = .error e) : ¬ e.Overruns := by
  rcases bind_eq_error.mp h with h | ⟨code, -, h⟩
  · rw [readCode_eq_error h]
    decide
  · rcases bind_eq_error.mp h with h | ⟨text, -, h⟩
    · rw [substr_eq_error h]
      decide
    · cases h

theorem slideRight_not_overruns (h : slideRight ss f = .error e) : ¬ e.Overruns :=
  reads_not_overruns h

theorem slideLeft_not_overruns (h : slideLeft nLen f = .error e) : ¬ e.Overruns :=
  reads_not_overruns h

/-- Appending a cut overruns nothing if there is an element for its length. -/
theorem appendUnit_not_overruns {n : Nat} (hcur : f.codeCur = n) (hn : n < 50)
    (h : appendUnit S fuel f ss = .error e) : ¬ e.Overruns := by
  rw [appendUnit, hcur, writeCode_natCast hn] at h
  rcases bind_eq_error.mp h with h | ⟨codes, -, h⟩
  · cases h
  · simp only at h
    split at h
    · exact whileM_error (E := fun e => ¬ e.Overruns) (by decide)
        (fun _ _ => slideRight_not_overruns) h
    · cases h

theorem delete_not_overruns {n : Nat} (hcur : f.codeCur = n) (hn : n < 50)
    (h : onTextFieldDeleteBackward S fuel f nLen = .error e) : ¬ e.Overruns := by
  rw [onTextFieldDeleteBackward, hcur, writeCode_natCast hn] at h
  split at h
  · cases h; decide
  · rcases bind_eq_error.mp h with h | ⟨codes, -, h⟩
    · cases h
    · simp only at h
      split at h
      · exact whileM_error (E := fun e => ¬ e.Overruns) (by decide)
          (fun _ _ => slideLeft_not_overruns) h
      · cases h

/-! ## What is stored -/

/-- `m_pInputText` is the text `cs` of at most fifty characters, none of them a NUL or of
four bytes, and `codeCur` counts them. -/
structure Stored (f : TextField) (cs : List Char) : Prop where
  text : f.pInputText = encode cs
  codeCur : f.codeCur = cs.length
  le : cs.length ≤ 50
  size : ∀ c ∈ cs, c.utf8Size ≤ 3
  nulFree : '\x00' ∉ cs

theorem stored_init : Stored init [] := ⟨rfl, rfl, by decide, nofun, nofun⟩

variable {cs : List Char} {c : Char}

theorem Stored.characterCount (h : Stored f cs) :
    SurvivalGame.characterCount f.pInputText = .ok cs.length := by
  rw [h.text]
  exact characterCount_eq_length h.le h.size h.nulFree

/-- A whole character is appended below the limit. -/
theorem Stored.appendUnit (h : Stored f cs) (hlt : cs.length < 50) (hsize : c.utf8Size ≤ 3)
    (hnul : c ≠ '\x00') (happ : TextField.appendUnit S fuel f (bytes c) = .ok f') :
    Stored f' (cs ++ [c]) := by
  have hfree : '\x00' ∉ cs ++ [c] := by
    simp only [List.mem_append, List.mem_singleton, not_or]
    exact ⟨h.nulFree, Ne.symm hnul⟩
  have htext : f.pInputText ++ bytes c = encode (cs ++ [c]) := by simp [h.text]
  obtain ⟨htext', hcur⟩ := appendUnit_frame happ
  refine ⟨htext'.trans htext, ?_, ?_, ?_, hfree⟩
  · rw [hcur, h.codeCur, List.length_append]
    rfl
  · rw [List.length_append]
    exact hlt
  · intro d hd
    rcases List.mem_append.mp hd with hd | hd
    · exact h.size d hd
    · exact List.mem_singleton.mp hd ▸ hsize

/-- A deletion that returns takes off a character. -/
theorem Stored.delete (h : Stored f cs) (htied : Tied f) (hlast : lastLength f.shown = some nLen)
    (hdel : onTextFieldDeleteBackward S fuel f nLen = .ok f') : ∃ ds, Stored f' ds := by
  obtain ⟨htext, hcur⟩ := delete_frame hdel
  have hne : f.pInputText ≠ [] := by
    intro hnil
    have hle := (onTextFieldDeleteBackward_eq_ok.mp hdel).1
    rw [hnil, List.length_nil] at hle
    exact absurd (lastLength_le hlast).1 (Nat.not_lt.mpr hle)
  have hlast' := htied.shown hne nLen hlast
  rcases List.eq_nil_or_concat cs with rfl | ⟨ds, d, rfl⟩
  · exact absurd h.text hne
  · rw [List.concat_eq_append] at h
    rw [h.text, lastLength_encode_concat] at hlast'
    cases hlast'
    have hlen : (ds ++ [d]).length = ds.length + 1 := by simp
    have hle := h.le
    refine ⟨ds, ?_, ?_, by omega, fun c hc => h.size c (List.mem_append_left _ hc),
      fun h0 => h.nulFree (List.mem_append_left _ h0)⟩
    · rw [htext, h.text, take_erased]
    · rw [hcur, h.codeCur, hlen]
      omega

/-! ## Runs -/

/-- A cut that is appended is a character of the text. -/
def WholeCut (S : FieldSettings α) (text : List Char) (f : TextField) (ss : List CChar) : Prop :=
  Appends S f ss → ∃ c ∈ text, ss = bytes c

instance (text : List Char) (f : TextField) (ss : List CChar) :
    Decidable (WholeCut S text f ss) :=
  inferInstanceAs (Decidable (_ → ∃ c ∈ text, _))

/-- The condition on a call: an insertion appends whole characters, and a deletion
does not meet a full `codeNumType`. -/
def KeepsClear (S : FieldSettings α) (fuel : Nat) (f : TextField) : FieldAct → Prop
  | .insert text => AlongCuts S fuel (WholeCut S text) f text
  | .delete => f.codeCur ≠ 50
  | _ => True

instance (f : TextField) : ∀ a, Decidable (KeepsClear S fuel f a)
  | .insert text => inferInstanceAs (Decidable (Along _ (WholeCut S text) f _))
  | .delete => inferInstanceAs (Decidable (f.codeCur ≠ 50))
  | .openIME | .closeIME | .setInpuntText _ => inferInstanceAs (Decidable True)

/-- The call writes behind no array, whether or not it returns. -/
def StaysInside (S : FieldSettings α) (fuel : Nat) (f : TextField) : FieldAct → Prop
  | .insert text => ∀ e, f.onTextFieldInsertText S fuel (encode text) = .error e → ¬ e.Overruns
  | .delete => ∀ nLen e, lastLength f.shown = some nLen →
      f.onTextFieldDeleteBackward S fuel nLen = .error e → ¬ e.Overruns
  | _ => True

/-- What is true of every cut of a text. -/
theorem cut_bounds {text : List Char} (h : ss ∈ units (cStr (encode text))) :
    ss.length ≤ 3 ∧ 0 ∉ ss := by
  refine ⟨(units_length h).2, fun h0 => ?_⟩
  have := mem_of_mem_units h h0
  rw [cStr_encode] at this
  exact nul_not_mem_takeWhile _ (zero_mem_encode_iff.mp this)

omit [LinearOrder α] in
theorem Stored.room (h : Stored f cs) (hlimit : S.inputMaxLength ≤ 50)
    (happs : Appends S f ss) : cs.length < 50 := by
  obtain ⟨cou, hcou, hlt, -⟩ := happs
  rw [h.characterCount] at hcou
  cases hcou
  exact_mod_cast hlt.trans_le hlimit

theorem Stored.unitStep_ok {text : List Char} (h : ∃ cs, Stored f cs)
    (hlimit : S.inputMaxLength ≤ 50) (hwhole : WholeCut S text f ss)
    (hss : ss.length ≤ 3 ∧ 0 ∉ ss) (hunit : unitStep S fuel f ss = .ok f') :
    ∃ cs, Stored f' cs := by
  obtain ⟨cs, h⟩ := h
  rcases unitStep_eq_ok.mp hunit with ⟨happs, happ⟩ | ⟨-, -, rfl⟩
  · obtain ⟨c, -, rfl⟩ := hwhole happs
    rw [length_bytes] at hss
    refine ⟨cs ++ [c], h.appendUnit (h.room hlimit happs) hss.1 ?_ happ⟩
    rintro rfl
    exact hss.2 (by decide)
  · exact ⟨cs, h⟩

theorem Stored.unitStep_not_overruns (h : Stored f cs) (hlimit : S.inputMaxLength ≤ 50)
    (hunit : unitStep S fuel f ss = .error e) : ¬ e.Overruns := by
  by_cases happs : Appends S f ss
  · rw [unitStep_of_appends happs] at hunit
    exact appendUnit_not_overruns h.codeCur (h.room hlimit happs) hunit
  · rw [unitStep_eq_ok.mpr (Or.inr ⟨happs, ⟨_, h.characterCount⟩, rfl⟩)] at hunit
    cases hunit

/-- Along the cuts of a text that are to be appended whole. -/
theorem alongCuts_bounds {text : List Char} (h : AlongCuts S fuel (WholeCut S text) f text) :
    Along (fun f ss => (unitStep S fuel f ss).toOption)
      (fun f ss => WholeCut S text f ss ∧ ss.length ≤ 3 ∧ 0 ∉ ss) f
      (units (cStr (encode text))) :=
  Along.and h (Along.of_forall_mem fun _ => cut_bounds)

theorem Stored.insert {text : List Char} (h : Stored f cs) (hlimit : S.inputMaxLength ≤ 50)
    (hwhole : AlongCuts S fuel (WholeCut S text) f text)
    (hins : onTextFieldInsertText S fuel f (encode text) = .ok f') : ∃ ds, Stored f' ds := by
  rw [onTextFieldInsertText_eq_foldlM] at hins
  exact (alongCuts_bounds hwhole).invariant (I := fun f => ∃ ds, Stored f ds)
    (fun _ _ _ hf hC hunit => Stored.unitStep_ok hf hlimit hC.1 hC.2 (toOption_eq_some.mp hunit))
    (run_of_foldlM hins) ⟨cs, h⟩

theorem Stored.insert_not_overruns {text : List Char} (h : Stored f cs)
    (hlimit : S.inputMaxLength ≤ 50) (hwhole : AlongCuts S fuel (WholeCut S text) f text)
    (hins : onTextFieldInsertText S fuel f (encode text) = .error e) : ¬ e.Overruns := by
  intro he
  rw [onTextFieldInsertText_eq_foldlM] at hins
  refine foldlM_ne_error (I := fun f => ∃ ds, Stored f ds) ?_ ?_ (alongCuts_bounds hwhole) ⟨cs, h⟩
    hins
  · exact fun _ _ _ hf hC hunit => Stored.unitStep_ok hf hlimit hC.1 hC.2 hunit
  · rintro g ss ⟨ds, hds⟩ - hunit
    exact hds.unitStep_not_overruns hlimit hunit he

/-- **The step lemma.** -/
theorem stored_step {a : FieldAct} (hlimit : S.inputMaxLength ≤ 50)
    (h : Tied f ∧ ∃ cs, Stored f cs) (hclear : KeepsClear S fuel f a)
    (hstep : step S fuel f a = some f') : Tied f' ∧ ∃ cs, Stored f' cs := by
  refine ⟨tied_step h.1 hstep, ?_⟩
  obtain ⟨htied, cs, hcs⟩ := h
  cases a with
  | insert text => exact hcs.insert hlimit hclear (toOption_eq_some.mp hstep)
  | delete =>
    obtain ⟨nLen, hlast, hdel⟩ := Option.bind_eq_some_iff.mp hstep
    exact hcs.delete htied hlast (toOption_eq_some.mp hdel)
  | openIME =>
    cases hstep
    exact ⟨cs, hcs.text, hcs.codeCur, hcs.le, hcs.size, hcs.nulFree⟩
  | closeIME =>
    cases hstep
    exact ⟨cs, hcs⟩
  | setInpuntText text =>
    cases hstep
    exact ⟨[], rfl, rfl, by decide, nofun, nofun⟩

theorem Stored.staysInside {a : FieldAct} (h : Stored f cs) (hlimit : S.inputMaxLength ≤ 50)
    (hclear : KeepsClear S fuel f a) : StaysInside S fuel f a := by
  cases a with
  | insert text => exact fun e => h.insert_not_overruns hlimit hclear
  | delete =>
    have hlt : cs.length < 50 := by
      have hne : f.codeCur ≠ 50 := hclear
      have := h.codeCur
      have := h.le
      omega
    exact fun nLen e _ => delete_not_overruns h.codeCur hlt
  | openIME | closeIME | setInpuntText => trivial

/-- **The arrays hold**, in every run whose insertions append whole characters and
whose deletions come when fewer than fifty are stored. -/
theorem arrays_hold {acts : List FieldAct} (hlimit : S.inputMaxLength ≤ 50)
    (hclear : Along (step S fuel) (KeepsClear S fuel) init acts) :
    Along (step S fuel) (StaysInside S fuel) init acts :=
  hclear.strengthen (I := fun f => Tied f ∧ ∃ cs, Stored f cs)
    (fun _ _ _ hI hC hstep => stored_step hlimit hI hC hstep)
    (fun _ _ ⟨_, _, hcs⟩ hC => hcs.staysInside hlimit hC) ⟨tied_init, [], stored_init⟩

end Errors

/-- A two-byte character behind the others, and a deletion of it. -/
theorem arrays_hold_mixed : Along (step smallField 9) (StaysInside smallField 9) init
    [.insert ['中', 'a', '\n', 'é'], .delete, .insert ['b']] :=
  arrays_hold (by norm_num [smallField]) (by decide)

/-- Fifty characters, and a deletion. -/
theorem delete_overruns : ¬ ∀ (S : FieldSettings Nat) (fuel : Nat) (acts : List FieldAct),
    S.inputMaxLength ≤ 50 → Along (step S fuel) (StaysInside S fuel) init acts := by
  intro h
  have hrun : run (step ⟨fun _ => 0, 0, 50⟩ 0) init [.insert (List.replicate 50 'a')] =
      some ⟨0, Vector.replicate 50 1, 50, 0, List.replicate 50 97, List.replicate 50 97,
        List.replicate 50 97⟩ := by decide +kernel
  obtain ⟨-, hrest⟩ := h ⟨fun _ => 0, 0, 50⟩ 0 [.insert (List.replicate 50 'a'), .delete] le_rfl
  obtain ⟨f, hf, hf'⟩ := run_cons_eq_some.mp hrun
  cases hf'
  exact (hrest _ hf).1 1 .codeWrite (by decide) rfl (Or.inl rfl)

end TextField
end SurvivalGame
