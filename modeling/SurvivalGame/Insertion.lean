import SurvivalGame.Cuts

/-! # What an operation on the text field does

Each operation has one lemma that says when it returns and with what
(`appendUnit_eq_ok`, `unitStep_eq_ok`, `onTextFieldDeleteBackward_eq_ok` and those
for the iterations of the loops); everything else about the field is proved from
these.

The `for` loop of `onTextFieldInsertText` is a fold over the cuts of the text: an
early return leaves a state in which the rest of the text would be passed over
too (`insertUnits_eq_foldlM`).  So a text can be inserted in any number of pieces
(`insert_append_iff`), as long as the cuts of the pieces are those of the whole.
-/
namespace SurvivalGame
open Loops Utf8

theorem writeCode_eq_ok {codes codes' : Vector Int 50} {i v : Int} :
    writeCode codes i v = .ok codes' ↔
      ∃ (n : Nat) (h : n < 50), i = n ∧ codes' = codes.set n v h := by
  rw [writeCode]
  constructor
  · intro h
    split at h
    · rename_i hi
      cases h
      exact ⟨i.toNat, by omega, by omega, rfl⟩
    · cases h
  · rintro ⟨n, hn, rfl, rfl⟩
    rw [dif_pos (by omega)]
    rfl

theorem writeCode_natCast {codes : Vector Int 50} {n : Nat} {v : Int} (h : n < 50) :
    writeCode codes n v = .ok (codes.set n v h) :=
  writeCode_eq_ok.mpr ⟨n, h, rfl, rfl⟩

theorem readCode_natCast {codes : Vector Int 50} {n : Nat} (h : n < 50) :
    readCode codes n = .ok (codes.get ⟨n, h⟩) := by
  rw [readCode, dif_pos (by omega)]
  rfl

theorem readCode_neg {codes : Vector Int 50} {i : Int} (h : i < 0) :
    readCode codes i = .error .codeRead :=
  dif_neg (by omega)

theorem substr_eq_ok {s t : List CChar} {start : Int} :
    substr s start = .ok t ↔ 0 ≤ start ∧ start ≤ s.length ∧ t = s.drop start.toNat := by
  rw [substr]
  split
  · rename_i h
    exact ⟨fun ht => by cases ht; exact ⟨h.1, h.2, rfl⟩, fun ht => by rw [ht.2.2]⟩
  · rename_i h
    exact ⟨nofun, fun ht => absurd ⟨ht.1, ht.2.1⟩ h⟩

theorem substr_natCast {s : List CChar} {n : Nat} (h : n ≤ s.length) :
    substr s n = .ok (s.drop n) :=
  substr_eq_ok.mpr ⟨by omega, by omega, rfl⟩

namespace TextField

/-! ## Iterations -/

/-- The field after `m_pInputText` and `inpuText` have got the string `ss`, before
the window is looked at. -/
def typed (f : TextField) (codes : Vector Int 50) (ss : List CChar) : TextField :=
  { f with
    pInputText := f.pInputText ++ ss
    inpuText := f.inpuText ++ ss
    codeNumType := codes
    codeCur := f.codeCur + 1
    shown := f.inpuText ++ ss }

/-- The field after `m_pInputText` has lost its last `nLen` bytes. -/
def erased (f : TextField) (codes : Vector Int 50) (nLen : Nat) : TextField :=
  { f with
    pInputText := f.pInputText.take (f.pInputText.length - nLen)
    codeNumType := codes
    codeCur := f.codeCur - 1
    shown := f.pInputText.take (f.pInputText.length - nLen) }

/-- All of the text is shown. -/
def whole (f : TextField) (shown : List CChar) : TextField :=
  { f with nLenCount := 0, startCur := 0, shown := shown }

/-- An iteration of either loop reads a length and takes a suffix of the text. -/
theorem reads_eq_ok {codes : Vector Int 50} {i : Int} {s : List CChar} {start : Int → Int}
    {k : Int → List CChar → TextField} {f' : TextField} :
    (do let code ← readCode codes i
        let text ← substr s (start code)
        .ok (k code text)) = .ok f' ↔
      ∃ code text, readCode codes i = .ok code ∧ substr s (start code) = .ok text ∧
        f' = k code text := by
  simp only [bind_eq_ok, Except.ok.injEq]
  constructor
  · rintro ⟨code, hcode, text, htext, rfl⟩
    exact ⟨code, text, hcode, htext, rfl⟩
  · rintro ⟨code, text, hcode, htext, rfl⟩
    exact ⟨code, hcode, text, htext, rfl⟩

theorem slideRight_eq_ok {ss : List CChar} {f f' : TextField} : slideRight ss f = .ok f' ↔
    ∃ code text, readCode f.codeNumType f.startCur = .ok code ∧
      substr f.pInputText (f.nLenCount + nnLen code ss.length) = .ok text ∧
      f' = { f with
        startCur := f.startCur + 1
        nLenCount := f.nLenCount + nnLen code ss.length
        inpuText := text
        shown := cStr text } :=
  reads_eq_ok

theorem slideLeft_eq_ok {nLen : Nat} {f f' : TextField} : slideLeft nLen f = .ok f' ↔
    ∃ code text, readCode f.codeNumType (f.startCur - 1) = .ok code ∧
      substr f.pInputText (max 0 (f.nLenCount - nnLen code nLen)) = .ok text ∧
      f' = { f with
        startCur := max 0 (f.startCur - 1)
        nLenCount := max 0 (f.nLenCount - nnLen code nLen)
        inpuText := text
        shown := text } :=
  reads_eq_ok

section Settings
variable {α : Type*} [LinearOrder α] {S : FieldSettings α} {fuel : Nat} {f f' : TextField}
  {ss : List CChar}

/-- **What appending a cut does.** -/
theorem appendUnit_eq_ok : appendUnit S fuel f ss = .ok f' ↔
    ∃ codes, writeCode f.codeNumType f.codeCur ss.length = .ok codes ∧
      ((S.tooWide (f.pInputText ++ ss) = false ∧
          f' = (f.typed codes ss).whole (f.pInputText ++ ss)) ∨
        (S.tooWide (f.pInputText ++ ss) = true ∧
          whileM (fun f => S.tooWide f.shown) (slideRight ss) .fuel fuel (f.typed codes ss) =
            .ok f')) := by
  rw [appendUnit, bind_eq_ok]
  refine exists_congr fun codes => and_congr_right fun _ => ?_
  cases hwide : S.tooWide (f.pInputText ++ ss) with
  | false => simp [setString, hwide, whole, typed, eq_comm]
  | true => simp [setString, hwide, typed]

/-- **What a deletion does.** -/
theorem onTextFieldDeleteBackward_eq_ok {nLen : Nat} :
    onTextFieldDeleteBackward S fuel f nLen = .ok f' ↔ nLen ≤ f.pInputText.length ∧
    ∃ codes, writeCode f.codeNumType f.codeCur 0 = .ok codes ∧
      let text := f.pInputText.take (f.pInputText.length - nLen)
      ((S.tooWide text = false ∧ f' = (f.erased codes nLen).whole (cStr text)) ∨
        (S.tooWide text = true ∧
          whileM (fun f => S.tooWide f.shown) (slideLeft nLen) .fuel fuel (f.erased codes nLen) =
            .ok f')) := by
  rw [onTextFieldDeleteBackward]
  split
  · rename_i hlt
    exact ⟨nofun, fun h => absurd h.1 (Nat.not_le_of_lt hlt)⟩
  · rename_i hle
    rw [bind_eq_ok, and_iff_right (Nat.le_of_not_lt hle)]
    refine exists_congr fun codes => and_congr_right fun _ => ?_
    cases hwide : S.tooWide (f.pInputText.take (f.pInputText.length - nLen)) with
    | false => simp [setString, hwide, whole, erased, eq_comm]
    | true => simp [setString, hwide, erased]

/-! ## Text and number of characters

The window is moved by the loops alone, and the loops leave the text alone. -/

theorem slideRight_frame (h : slideRight ss f = .ok f') :
    f'.pInputText = f.pInputText ∧ f'.codeCur = f.codeCur := by
  obtain ⟨code, text, -, -, rfl⟩ := slideRight_eq_ok.mp h
  exact ⟨rfl, rfl⟩

theorem slideLeft_frame {nLen : Nat} (h : slideLeft nLen f = .ok f') :
    f'.pInputText = f.pInputText ∧ f'.codeCur = f.codeCur := by
  obtain ⟨code, text, -, -, rfl⟩ := slideLeft_eq_ok.mp h
  exact ⟨rfl, rfl⟩

theorem loop_frame {cond : TextField → Bool} {body : TextField → Except Stop TextField}
    (hbody : ∀ {g g'}, body g = .ok g' →
      g'.pInputText = g.pInputText ∧ g'.codeCur = g.codeCur)
    (h : whileM cond body .fuel fuel f = .ok f') :
    f'.pInputText = f.pInputText ∧ f'.codeCur = f.codeCur := by
  refine (whileM_invariant (I := fun g => g.pInputText = f.pInputText ∧ g.codeCur = f.codeCur)
    (fun g g' hg _ hslide => ?_) h ⟨rfl, rfl⟩).1
  obtain ⟨htext, hcur⟩ := hbody hslide
  exact ⟨htext.trans hg.1, hcur.trans hg.2⟩

theorem appendUnit_frame (h : appendUnit S fuel f ss = .ok f') :
    f'.pInputText = f.pInputText ++ ss ∧ f'.codeCur = f.codeCur + 1 := by
  obtain ⟨codes, -, ⟨-, rfl⟩ | ⟨-, hloop⟩⟩ := appendUnit_eq_ok.mp h
  · exact ⟨rfl, rfl⟩
  · exact loop_frame slideRight_frame hloop

theorem delete_frame {nLen : Nat} (h : onTextFieldDeleteBackward S fuel f nLen = .ok f') :
    f'.pInputText = f.pInputText.take (f.pInputText.length - nLen) ∧
      f'.codeCur = f.codeCur - 1 := by
  obtain ⟨-, codes, -, ⟨-, rfl⟩ | ⟨-, hloop⟩⟩ := onTextFieldDeleteBackward_eq_ok.mp h
  · exact ⟨rfl, rfl⟩
  · exact loop_frame slideLeft_frame hloop

/-! ## The `for` loop as a fold -/

/-- A cut is appended: the limit is not reached, and it is not a newline. -/
def Appends (S : FieldSettings α) (f : TextField) (ss : List CChar) : Prop :=
  ∃ cou : Nat, characterCount f.pInputText = .ok cou ∧ cou < S.inputMaxLength ∧ ss ≠ [newline]

/-- An iteration of the `for` loop; instead of the early return it does nothing. -/
def unitStep (S : FieldSettings α) (fuel : Nat) (f : TextField) (ss : List CChar) :
    Except Stop TextField := do
  let cou ← characterCount f.pInputText
  if S.inputMaxLength ≤ cou then .ok f
  else if ss = [newline] then .ok f
  else appendUnit S fuel f ss

theorem unitStep_eq_ok : unitStep S fuel f ss = .ok f' ↔
    (Appends S f ss ∧ appendUnit S fuel f ss = .ok f') ∨
      (¬ Appends S f ss ∧ (∃ cou, characterCount f.pInputText = .ok cou) ∧ f' = f) := by
  rw [unitStep]
  unfold Appends
  cases hc : characterCount f.pInputText with
  | error e => simp [bind, Except.bind]
  | ok cou =>
    by_cases hfull : S.inputMaxLength ≤ cou
    · simp [bind, Except.bind, hfull, eq_comm]
    · by_cases hnl : ss = [newline]
      · simp [bind, Except.bind, hfull, hnl, eq_comm]
      · simp [bind, Except.bind, hfull, hnl, lt_of_not_ge hfull]

theorem unitStep_of_appends (h : Appends S f ss) :
    unitStep S fuel f ss = appendUnit S fuel f ss := by
  obtain ⟨cou, hcou, hlt, hnl⟩ := h
  simp [unitStep, hcou, bind, Except.bind, not_le_of_gt hlt, hnl]

theorem foldlM_unitStep_of_full {us : List (List CChar)} {cou : Nat}
    (hcou : characterCount f.pInputText = .ok cou) (hfull : S.inputMaxLength ≤ cou) :
    us.foldlM (unitStep S fuel) f = .ok f := by
  induction us with
  | nil => rfl
  | cons ss us ih =>
    have hstep : unitStep S fuel f ss = .ok f := by
      simp [unitStep, hcou, bind, Except.bind, hfull]
    rw [List.foldlM_cons, hstep]
    exact ih

theorem insertUnits_eq_foldlM (us : List (List CChar)) :
    insertUnits S fuel f us = us.foldlM (unitStep S fuel) f := by
  induction us generalizing f with
  | nil => rfl
  | cons ss us ih =>
    rw [insertUnits, List.foldlM_cons]
    cases hc : characterCount f.pInputText with
    | error e => simp [unitStep, hc, bind, Except.bind]
    | ok cou =>
      by_cases hfull : S.inputMaxLength ≤ cou
      · have hstep : unitStep S fuel f ss = .ok f := by
          simp [unitStep, hc, bind, Except.bind, hfull]
        rw [hstep]
        show (if S.inputMaxLength ≤ cou then _ else _) = us.foldlM (unitStep S fuel) f
        rw [if_pos hfull, foldlM_unitStep_of_full hc hfull]
      · by_cases hnl : ss = [newline]
        · simp [unitStep, hc, bind, Except.bind, hfull, hnl, ih]
        · simp [unitStep, hc, bind, Except.bind, hfull, hnl, ih]

theorem onTextFieldInsertText_eq_foldlM (text : List CChar) :
    onTextFieldInsertText S fuel f text = (units (cStr text)).foldlM (unitStep S fuel) f :=
  insertUnits_eq_foldlM _

/-! ## Texts in pieces -/

theorem appendUnit_mono {n k : Nat} (h : appendUnit S n f ss = .ok f') (hle : n ≤ k) :
    appendUnit S k f ss = .ok f' := by
  obtain ⟨codes, hcodes, hfit | ⟨hwide, hloop⟩⟩ := appendUnit_eq_ok.mp h
  · exact appendUnit_eq_ok.mpr ⟨codes, hcodes, Or.inl hfit⟩
  · exact appendUnit_eq_ok.mpr ⟨codes, hcodes, Or.inr ⟨hwide, whileM_mono hloop hle⟩⟩

theorem unitStep_mono {n k : Nat} (h : unitStep S n f ss = .ok f') (hle : n ≤ k) :
    unitStep S k f ss = .ok f' := by
  rcases unitStep_eq_ok.mp h with ⟨happ, h⟩ | h
  · exact unitStep_eq_ok.mpr (Or.inl ⟨happ, appendUnit_mono h hle⟩)
  · exact unitStep_eq_ok.mpr (Or.inr h)

theorem foldlM_unitStep_mono {n k : Nat} {us : List (List CChar)}
    (h : us.foldlM (unitStep S n) f = .ok f') (hle : n ≤ k) :
    us.foldlM (unitStep S k) f = .ok f' := by
  induction us generalizing f with
  | nil => exact h
  | cons ss us ih =>
    obtain ⟨g, hg, h⟩ := foldlM_cons_eq_ok.mp h
    exact foldlM_cons_eq_ok.mpr ⟨g, unitStep_mono hg hle, ih h⟩

/-- `onTextFieldInsertText` with the text returns, and leaves the field in the state
`f'`. -/
def InsertEnds (S : FieldSettings α) (f : TextField) (text : List Char) (f' : TextField) : Prop :=
  ∃ fuel, f.onTextFieldInsertText S fuel (encode text) = .ok f'

/-- **Pasting equals typing.**  A text whose first part has characters of one and
three bytes, inserted at once and in two parts: both end in the same state, or
neither returns. -/
theorem insert_append_iff {t₁ : List Char} (t₂ : List Char) (hnul : '\x00' ∉ t₁)
    (h : ∀ c ∈ t₁, OneOrThree c) : InsertEnds S f (t₁ ++ t₂) f' ↔
      ∃ g, InsertEnds S f t₁ g ∧ InsertEnds S g t₂ f' := by
  have hcuts : units (cStr (encode (t₁ ++ t₂))) =
      units (cStr (encode t₁)) ++ units (cStr (encode t₂)) := by
    have hall : ∀ c ∈ t₁, decide (c ≠ '\x00') = true := fun c hc =>
      decide_eq_true fun h0 => hnul (h0 ▸ hc)
    rw [cStr_encode, cStr_encode, cStr_encode, List.takeWhile_append_of_pos hall, encode_append,
      takeWhile_nul_free hnul, units_encode_append h, units_encode h]
  have hfold (n : Nat) : f.onTextFieldInsertText S n (encode (t₁ ++ t₂)) = .ok f' ↔
      ∃ g, f.onTextFieldInsertText S n (encode t₁) = .ok g ∧
        g.onTextFieldInsertText S n (encode t₂) = .ok f' := by
    simp only [onTextFieldInsertText_eq_foldlM]
    rw [hcuts, List.foldlM_append, bind_eq_ok]
  constructor
  · rintro ⟨n, hn⟩
    obtain ⟨g, hg, hf'⟩ := (hfold n).mp hn
    exact ⟨g, ⟨n, hg⟩, ⟨n, hf'⟩⟩
  · rintro ⟨g, ⟨n, hg⟩, ⟨k, hf'⟩⟩
    rw [onTextFieldInsertText_eq_foldlM] at hg hf'
    refine ⟨max n k, (hfold _).mpr ⟨g, ?_, ?_⟩⟩
    · rw [onTextFieldInsertText_eq_foldlM]
      exact foldlM_unitStep_mono hg (Nat.le_max_left n k)
    · rw [onTextFieldInsertText_eq_foldlM]
      exact foldlM_unitStep_mono hf' (Nat.le_max_right n k)

end Settings

/-- A field as wide as four bytes, for five characters. -/
def narrowField : FieldSettings Nat := ⟨List.length, 4, 5⟩

/-- The byte lengths of the first characters, with zeros behind. -/
def codesOf (lengths : List Int) : Vector Int 50 := Vector.ofFn fun i => lengths.getD i 0

/-- The field with `中a` typed into it. -/
def halfTyped : TextField :=
  ⟨0, codesOf [3, 1], 2, 0, encode ['中', 'a'], encode ['中', 'a'], encode ['中', 'a']⟩

/-- The limit is reached inside the second part. -/
theorem insert_append_iff_word :
    InsertEnds narrowField init (['中', 'a', '\n'] ++ ['b', 'c', 'd', 'e'])
      ⟨3, codesOf [3, 1, 1, 1, 1], 5, 1, encode ['中', 'a', 'b', 'c', 'd'],
        encode ['a', 'b', 'c', 'd'], encode ['a', 'b', 'c', 'd']⟩ :=
  (insert_append_iff _ (by decide) (by decide)).mpr
    ⟨halfTyped, ⟨9, by rfl⟩, ⟨9, by rfl⟩⟩

end TextField
end SurvivalGame
