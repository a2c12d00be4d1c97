import SurvivalGame.Window

/-! # The books of the text field over whole runs

What an insertion of a character and a deletion can end in is `Appended` and
`Deleted`, in terms of the window.  The last character shown is the last of the
text (`EndsAlike`), also when what is shown is a stale copy.  So a deletion takes
off one character, and the books stay right over every run of insertions,
deletions and `openIME` (`bookkeeping`): `codeCur` counts the characters,
`codeNumType` has their lengths although a deletion clears the element behind the
one it gives up, and the window begins at a character.

The limit is a `float` and the number of characters is not: `codeCur` stays at most
at the limit rounded up.
-/
namespace SurvivalGame
open Loops Utf8 Transition

namespace TextField

/-! ## The operations -/

/-- The last character shown is the last character of the text. -/
def EndsAlike (f : TextField) : Prop := EndsLike f.shown f.pInputText

section Operations
variable {α : Type*} [LinearOrder α] {S : FieldSettings α} {fuel : Nat} {f f' : TextField}
  {cs : List Char} {c : Char} {p : Nat}

/-- What appending the character `c` to the text `cs` can end in. -/
inductive Appended (S : FieldSettings α) (f : TextField) (cs : List Char) (c : Char) (p : Nat) :
    TextField → Prop
  | fits {codes : Vector Int 50} (hfits : S.tooWide (encode (cs ++ [c])) = false)
      (hat : WindowAt (f.typed codes (bytes c)) (cs ++ [c]) p) :
      Appended S f cs c p ((f.typed codes (bytes c)).whole (encode (cs ++ [c])))
  | overflows {codes : Vector Int 50} {f' : TextField}
      (hwide : S.tooWide (encode (cs ++ [c])) = true)
      (hat : WindowAt (f.typed codes (bytes c)) (cs ++ [c]) p) (hp : p + 1 < (cs ++ [c]).length)
      (hslid : Slid S (cs ++ [c]) p (f.typed codes (bytes c)) f') : Appended S f cs c p f'

/-- What deleting the last character of the text `cs ++ [c]` can end in. -/
inductive Deleted (S : FieldSettings α) (f : TextField) (cs : List Char) (c : Char) (p : Nat) :
    TextField → Prop
  | fits {codes : Vector Int 50} (hfits : S.tooWide (encode cs) = false)
      (hat : WindowAt (f.erased codes c.utf8Size) cs p) :
      Deleted S f cs c p ((f.erased codes c.utf8Size).whole (encode cs))
  | overflows {codes : Vector Int 50} {q : Nat} (hwide : S.tooWide (encode cs) = true)
      (hat : WindowAt (f.erased codes c.utf8Size) cs p) (hq : q < p)
      (hfits : S.tooWide (encode (cs.drop q)) = false) :
      Deleted S f cs c p ((f.erased codes c.utf8Size).moved cs q)

/-- The window begins at a character, or the text is empty. -/
def Inside (cs : List Char) (p : Nat) : Prop := p < cs.length ∨ p = 0

theorem Inside.le (h : Inside cs p) : p ≤ cs.length := by
  unfold Inside at h
  omega

/-- A text that has become too wide had a character before the new one. -/
theorem Inside.succ_lt (h : Inside cs p) (hS : SingleFits S)
    (hwide : S.tooWide (encode (cs ++ [c])) = true) : p + 1 < (cs ++ [c]).length := by
  cases cs with
  | nil =>
    rw [List.nil_append, encode_cons, encode_nil, List.append_nil, hS.fits] at hwide
    cases hwide
  | cons d cs =>
    unfold Inside at h
    simp only [List.cons_append, List.length_cons, List.length_append, List.length_nil] at h ⊢
    omega

theorem appended_of_appendUnit (hS : SingleFits S) (h : WindowAt f cs p) (hp : Inside cs p)
    (hc : Plain c) (happ : appendUnit S fuel f (bytes c) = .ok f') : Appended S f cs c p f' := by
  obtain ⟨codes, hcodes, hcase⟩ := appendUnit_eq_ok.mp happ
  obtain ⟨n, hn, hcur, rfl⟩ := writeCode_eq_ok.mp hcodes
  obtain rfl : cs.length = n := Int.ofNat.inj (h.codeCur.symm.trans hcur)
  have hat := h.typed hp.le hc hn
  have htext : f.pInputText ++ bytes c = encode (cs ++ [c]) := by simp [h.text]
  rw [htext] at hcase
  rcases hcase with ⟨hfits, rfl⟩ | ⟨hwide, hloop⟩
  · exact .fits hfits hat
  · have hlt := hp.succ_lt hS hwide
    exact .overflows hwide hat hlt (insertLoop_spec hS hat hlt hloop)

theorem deleted_of_delete (h : WindowAt f (cs ++ [c]) p) (hp : p ≤ cs.length)
    (hdel : onTextFieldDeleteBackward S fuel f c.utf8Size = .ok f') : Deleted S f cs c p f' := by
  obtain ⟨-, codes, hcodes, hcase⟩ := onTextFieldDeleteBackward_eq_ok.mp hdel
  obtain ⟨n, hn, hcur, rfl⟩ := writeCode_eq_ok.mp hcodes
  obtain rfl : cs.length + 1 = n := by
    have := h.codeCur.symm.trans hcur
    rw [List.length_append] at this
    exact Int.ofNat.inj this
  have hat := h.erased hp hn
  have htext := take_erased cs c
  rw [← h.text] at htext
  simp only [htext] at hcase
  rcases hcase with ⟨hfits, rfl⟩ | ⟨hwide, hloop⟩
  · rw [cStr_of_nul_free (nul_free_of_plain hat.chars)]
    exact .fits hfits hat
  · obtain ⟨q, hq, rfl, hfits⟩ := deleteLoop_spec hat hp (by rwa [← htext] at hwide) hloop
    exact .overflows hwide hat hq hfits

/-- The books are right, wherever the window is. -/
def Booked (f : TextField) (cs : List Char) : Prop := ∃ p, WindowAt f cs p ∧ Inside cs p

theorem Appended.booked (h : Appended S f cs c p f') : Booked f' (cs ++ [c]) := by
  cases h with
  | fits _ hat => exact ⟨0, hat.whole _, Or.inr rfl⟩
  | overflows _ hat hp hslid =>
    cases hslid with
    | stays => exact ⟨p, hat, Or.inl (Nat.lt_of_succ_lt hp)⟩
    | moves _ _ hq => exact ⟨_, hat.moved _, Or.inl hq⟩

theorem Deleted.booked (h : Deleted S f cs c p f') (hp : p ≤ cs.length) : Booked f' cs := by
  cases h with
  | fits _ hat => exact ⟨0, hat.whole _, Or.inr rfl⟩
  | overflows _ hat hq => exact ⟨_, hat.moved _, Or.inl (Nat.lt_of_lt_of_le hq hp)⟩

theorem encode_drop_suffix (cs : List Char) (p : Nat) : encode (cs.drop p) <:+ encode cs := by
  refine ⟨encode (cs.take p), ?_⟩
  rw [← encode_append, List.take_append_drop]

theorem WindowAt.endsAlike_moved (h : WindowAt f cs p) (q : Nat) : EndsAlike (f.moved cs q) := by
  intro n hn
  rw [show (f.moved cs q).pInputText = encode cs from h.text]
  exact lastLength_suffix (encode_drop_suffix cs q) hn

theorem WindowAt.endsAlike_whole (h : WindowAt f cs p) : EndsAlike (f.whole (encode cs)) := by
  intro n hn
  rw [show (f.whole (encode cs)).pInputText = encode cs from h.text]
  exact hn

/-- Whatever was shown before, it now ends in the new character. -/
theorem Appended.endsAlike (h : Appended S f cs c p f') : EndsAlike f' := by
  cases h with
  | fits _ hat => exact hat.endsAlike_whole
  | overflows _ hat _ hslid =>
    cases hslid with
    | stays =>
      intro n hn
      rw [hat.text, lastLength_encode_concat, ← hn]
      exact (lastLength_append f.inpuText (lastLength_bytes c)).symm
    | moves => exact hat.endsAlike_moved _

theorem Deleted.endsAlike (h : Deleted S f cs c p f') : EndsAlike f' := by
  cases h with
  | fits _ hat => exact hat.endsAlike_whole
  | overflows _ hat => exact hat.endsAlike_moved _

end Operations

/-! ## Runs -/

/-- The calls of a user who types and deletes: texts have characters of one and three
bytes. -/
def IsEdit : FieldAct → Prop
  | .insert text => ∀ c ∈ text, OneOrThree c
  | .delete | .openIME => True
  | .closeIME | .setInpuntText _ => False

instance : DecidablePred IsEdit
  | .insert text => inferInstanceAs (Decidable (∀ c ∈ text, OneOrThree c))
  | .delete | .openIME => inferInstanceAs (Decidable True)
  | .closeIME | .setInpuntText _ => inferInstanceAs (Decidable False)

section Runs
variable {α : Type*} [LinearOrder α] {S : FieldSettings α} {fuel : Nat} {f f' : TextField}
  {cs : List Char} {c : Char} {p : Nat}

/-- A text of one- and three-byte characters is cut into characters of which none is
a NUL. -/
theorem cuts_of_oneOrThree {text : List Char} (h : ∀ c ∈ text, OneOrThree c) :
    ∃ ds : List Char, (∀ c ∈ ds, Plain c) ∧ units (cStr (encode text)) = ds.map bytes := by
  refine ⟨text.takeWhile (· ≠ '\x00'), fun c hc => ?_, ?_⟩
  · exact ⟨h c ((List.takeWhile_prefix _).subset hc), by simpa using List.mem_takeWhile_imp hc⟩
  · rw [cStr_encode, units_encode fun c hc => h c ((List.takeWhile_prefix _).subset hc)]

/-- Every cut that an insertion of the text comes to is made in a state that meets
the condition. -/
def AlongCuts (S : FieldSettings α) (fuel : Nat) (C : TextField → List CChar → Prop)
    (f : TextField) (text : List Char) : Prop :=
  Along (fun f ss => (unitStep S fuel f ss).toOption) C f (units (cStr (encode text)))

/-- What inserting preserves character by character under a condition, it
preserves. -/
theorem insert_invariant {I : TextField → Prop} {C : TextField → List CChar → Prop}
    {text : List Char}
    (hstep : ∀ f c f', I f → Plain c → C f (bytes c) → unitStep S fuel f (bytes c) = .ok f' → I f')
    (htext : ∀ c ∈ text, OneOrThree c) (hC : AlongCuts S fuel C f text)
    (hins : onTextFieldInsertText S fuel f (encode text) = .ok f') (h : I f) : I f' := by
  obtain ⟨ds, hds, hcuts⟩ := cuts_of_oneOrThree htext
  unfold AlongCuts at hC
  rw [onTextFieldInsertText_eq_foldlM, hcuts] at hins
  rw [hcuts] at hC
  have hplain : ∀ ss ∈ ds.map bytes, ∃ c, Plain c ∧ ss = bytes c := by
    intro ss hss
    obtain ⟨c, hc, rfl⟩ := List.mem_map.mp hss
    exact ⟨c, hds c hc, rfl⟩
  refine (hC.and (Along.of_forall_mem hplain)).invariant (I := I) ?_ (run_of_foldlM hins) h
  rintro f ss f' hf ⟨hCf, c, hc, rfl⟩ hunit
  exact hstep f c f' hf hc hCf (toOption_eq_some.mp hunit)

/-- A text of the field is counted in characters. -/
theorem WindowAt.counted (h : WindowAt f cs p) {cou : Nat}
    (hcou : characterCount f.pInputText = .ok cou) : cou = cs.length := by
  rw [h.text] at hcou
  rw [eq_counted hcou, counted_eq_length (fun h0 => (h.chars _ h0).2 rfl)]
  intro d hd h4
  rcases (h.chars d hd).1 with h1 | h3
  · rw [h1] at h4; cases h4
  · rw [h3] at h4; cases h4

omit [LinearOrder α] in
/-- A character is appended only below the limit. -/
theorem WindowAt.lt_of_appends (h : WindowAt f cs p) {ss : List CChar} (happs : Appends S f ss) :
    cs.length < S.inputMaxLength := by
  obtain ⟨cou, hcou, hlt, -⟩ := happs
  rwa [h.counted hcou] at hlt

/-- A character that is inserted is passed over, or appended below the limit. -/
theorem unitStep_plain (hS : SingleFits S) (h : WindowAt f cs p) (hp : Inside cs p)
    (hc : Plain c) (hstep : unitStep S fuel f (bytes c) = .ok f') :
    f' = f ∨ (cs.length < S.inputMaxLength ∧ Appended S f cs c p f') := by
  rcases unitStep_eq_ok.mp hstep with ⟨happs, happ⟩ | ⟨-, -, hsame⟩
  · exact Or.inr ⟨h.lt_of_appends happs, appended_of_appendUnit hS h hp hc happ⟩
  · exact Or.inl hsame

/-- A deletion takes off the last character of the text. -/
theorem delete_plain (hbook : Booked f cs) (hends : EndsAlike f) {nLen : Nat}
    (hlast : lastLength f.shown = some nLen) :
    ∃ ds d p, cs = ds ++ [d] ∧ nLen = d.utf8Size ∧ WindowAt f (ds ++ [d]) p ∧ p ≤ ds.length := by
  obtain ⟨p, hat, hp⟩ := hbook
  have hlast := hends nLen hlast
  rw [hat.text] at hlast
  rcases List.eq_nil_or_concat cs with rfl | ⟨ds, d, rfl⟩
  · cases hlast
  · rw [List.concat_eq_append] at hat hp hlast ⊢
    rw [lastLength_encode_concat] at hlast
    refine ⟨ds, d, p, rfl, (Option.some.inj hlast).symm, hat, ?_⟩
    unfold Inside at hp
    simp only [List.length_append, List.length_singleton] at hp
    omega

/-- What holds between two calls: the books are right, the text is within the limit,
and what is shown ends in the last character of the text. -/
structure InOrder (S : FieldSettings α) (f : TextField) (cs : List Char) : Prop where
  booked : Booked f cs
  endsAlike : EndsAlike f
  limit : cs.length ≤ ⌈S.inputMaxLength⌉₊

omit [LinearOrder α] in
theorem inOrder_init (S : FieldSettings α) : InOrder S init [] :=
  ⟨⟨0, windowAt_init, Or.inr rfl⟩, nofun, Nat.zero_le _⟩

theorem Appended.inOrder (h : Appended S f cs c p f') (hlt : cs.length < S.inputMaxLength) :
    InOrder S f' (cs ++ [c]) :=
  ⟨h.booked, h.endsAlike, by
    rw [List.length_append]
    exact Nat.lt_ceil.mpr hlt⟩

/-- **The step lemma.** -/
theorem inOrder_step (hS : SingleFits S) {a : FieldAct} (hedit : IsEdit a)
    (h : ∃ cs, InOrder S f cs) (hstep : step S fuel f a = some f') : ∃ cs, InOrder S f' cs := by
  obtain ⟨cs, h⟩ := h
  cases a with
  | insert text =>
    refine insert_invariant (I := fun f => ∃ cs, InOrder S f cs) (C := fun _ _ => True)
      (fun f c f' hf hc _ hunit => ?_) hedit (Along.of_forall (fun _ _ => trivial) _ _)
      (toOption_eq_some.mp hstep) ⟨cs, h⟩
    obtain ⟨cs, hcs⟩ := hf
    obtain ⟨p, hat, hp⟩ := hcs.booked
    rcases unitStep_plain hS hat hp hc hunit with rfl | ⟨hlt, happ⟩
    · exact ⟨cs, hcs⟩
    · exact ⟨cs ++ [c], happ.inOrder hlt⟩
  | delete =>
    obtain ⟨nLen, hlast, hdel⟩ := Option.bind_eq_some_iff.mp hstep
    obtain ⟨ds, d, p, rfl, rfl, hat, hp⟩ := delete_plain h.booked h.endsAlike hlast
    have hdone := deleted_of_delete hat hp (toOption_eq_some.mp hdel)
    refine ⟨ds, hdone.booked hp, hdone.endsAlike, ?_⟩
    have := h.limit
    rw [List.length_append] at this
    omega
  | openIME =>
    cases hstep
    obtain ⟨p, hat, hp⟩ := h.booked
    exact ⟨cs, ⟨p, ⟨hat.text, hat.chars, hat.sizes, hat.codeCur, hat.startCur, hat.nLenCount⟩, hp⟩,
      fun n hn => hn, h.limit⟩
  | closeIME => cases hedit
  | setInpuntText => cases hedit

theorem inOrder_run (hS : SingleFits S) {acts : List FieldAct} (hedit : ∀ a ∈ acts, IsEdit a)
    (hrun : run (step S fuel) init acts = some f) : ∃ cs, InOrder S f cs :=
  (Along.of_forall_mem hedit).invariant (I := fun f => ∃ cs, InOrder S f cs)
    (fun _ _ _ h ha hstep => inOrder_step hS ha h hstep) hrun ⟨[], inOrder_init S⟩

/-- The counters of the field as they should be for the text `cs`. -/
structure GoodBooks (S : FieldSettings α) (f : TextField) (cs : List Char) : Prop where
  text : f.pInputText = encode cs
  codeCur : f.codeCur = cs.length
  codeNumType : ∀ i (hi : i < cs.length), f.codeNumType.toList[i]? = some (cs[i].utf8Size : Int)
  sum : (f.codeNumType.toList.take cs.length).sum = (f.pInputText.length : Int)
  startCur : 0 ≤ f.startCur ∧ f.startCur ≤ f.codeCur
  limit : f.codeCur ≤ ⌈S.inputMaxLength⌉₊
  nLenCount : f.nLenCount = (f.codeNumType.toList.take f.startCur.toNat).sum

omit [LinearOrder α] in
theorem InOrder.goodBooks (h : InOrder S f cs) : GoodBooks S f cs := by
  obtain ⟨p, hat, hp⟩ := h.booked
  refine ⟨hat.text, hat.codeCur, fun i hi => ?_, ?_, ?_, ?_, ?_⟩
  · rw [List.getElem?_eq_getElem (by simpa using Nat.lt_of_lt_of_le hi hat.sizes.length_le),
      Vector.getElem_toList]
    exact congrArg some (hat.sizes.get hi)
  · rw [hat.sizes.sum_take (Nat.le_refl _), List.take_length, hat.text]
  · rw [hat.startCur, hat.codeCur]
    have := hp.le
    omega
  · rw [hat.codeCur]
    exact Int.ofNat_le.mpr h.limit
  · rw [hat.nLenCount, hat.startCur, Int.toNat_natCast, hat.sizes.sum_take hp.le]

/-- **The books are right after every run** of insertions, deletions and `openIME`,
whatever the label measures: `codeCur` counts the characters, `codeNumType` has
their lengths, and the window begins at one of them.  With a limit of at most 49,
`codeCur` stays an index of `codeNumType`, which a deletion writes at. -/
theorem bookkeeping (hlimit : S.inputMaxLength ≤ 49) (hS : SingleFits S) {acts : List FieldAct}
    (hedit : ∀ a ∈ acts, IsEdit a) (hrun : run (step S fuel) init acts = some f) :
    ∃ cs, GoodBooks S f cs ∧ f.codeCur < 50 := by
  obtain ⟨cs, h⟩ := inOrder_run hS hedit hrun
  have hbooks := h.goodBooks
  have hceil : ⌈S.inputMaxLength⌉₊ ≤ 49 := Nat.ceil_le.mpr (by exact_mod_cast hlimit)
  have hcodeCur := hbooks.limit
  exact ⟨cs, hbooks, by omega⟩

end Runs

/-- A field as wide as four bytes, for 49 characters. -/
def smallField : FieldSettings Nat := ⟨List.length, 4, 49⟩

theorem singleFits_of_length {n : ℚ} : SingleFits (⟨List.length, 4, n⟩ : FieldSettings Nat) :=
  fun c => by
    show (bytes c).length ≤ 4
    rw [length_bytes]
    exact c.utf8Size_le_four

/-- The window is moved, the field is touched, and the wide last character deleted:
what is left fits, and `inpuText` is stale. -/
theorem bookkeeping_mixed : ∃ cs, GoodBooks smallField
    ⟨0, codesOf [1, 1, 1, 3], 3, 0, encode ['a', 'b', 'c'], encode ['c', '中'],
      encode ['a', 'b', 'c']⟩ cs ∧ (3 : Int) < 50 :=
  have hrun : run (step smallField 9) init
      [.insert ['a', 'b', 'c', '中'], .openIME, .insert ['\n'], .delete] =
        some ⟨0, codesOf [1, 1, 1, 3], 3, 0, encode ['a', 'b', 'c'], encode ['c', '中'],
          encode ['a', 'b', 'c']⟩ := by rfl
  bookkeeping (by norm_num [smallField]) singleFits_of_length (by decide) hrun

/-- With room for half a character, one is stored. -/
theorem codeCur_exceeds_fraction : ¬ ∀ (S : FieldSettings Nat) (fuel : Nat) (acts : List FieldAct)
    (f : TextField), S.inputMaxLength ≤ 49 → SingleFits S → (∀ a ∈ acts, IsEdit a) →
      run (step S fuel) init acts = some f → (f.codeCur : ℚ) ≤ S.inputMaxLength := by
  intro h
  have hrun : run (step ⟨List.length, 4, 1 / 2⟩ 9) init [.insert ['a']] =
      some ⟨0, codesOf [1], 1, 0, encode ['a'], encode ['a'], encode ['a']⟩ := by decide +kernel
  have hle := h ⟨List.length, 4, 1 / 2⟩ 9 [.insert ['a']] _ (by norm_num) singleFits_of_length
    (by decide) hrun
  norm_num at hle

end TextField
end SurvivalGame
