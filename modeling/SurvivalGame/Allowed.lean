import SurvivalGame.Shown

/-! # The characters an insertion appends

`allowed` says what typing is for: the characters of the text are appended, without
newlines, as long as there are fewer than the limit.  `onTextFieldInsertText` cuts
and counts bytes instead.  A cut begun by a character of two bytes takes a byte of
the next one along, also if that is a newline or beyond the limit; a character of
four bytes is taken in two cuts and counts for nothing.

`CutsAgree` reads a text character by character and says whether the cuts come to
the same as `allowed`: an insertion that returns ends in the allowed text exactly
then (`insert_allowed_iff`).
-/
namespace SurvivalGame
open Loops Utf8 Transition

/-! ## Specification -/

/-- The text `cs` after typing: newlines are left out, and as soon as there are as
many characters as the limit allows nothing is appended. -/
def allowed (limit : ℚ) : List Char → List Char → List Char
  | cs, [] => cs
  | cs, c :: text =>
    if limit ≤ cs.length then cs
    else if c = '\n' then allowed limit cs text
    else allowed limit (cs ++ [c]) text

/-- How far the cut reaches that the character's last bytes are in, if `u` bytes from
its first are taken already. -/
def taken (u : Nat) (c : Char) : Nat := if u = 0 then reach c else u

/-- The cuts of the text append what is allowed behind `cs`, if the last of them has
already taken `u` bytes of the text. -/
def CutsAgree (limit : ℚ) : List Char → Nat → List Char → Prop
  | _, _, [] => True
  | cs, u, c :: text =>
    if limit ≤ cs.length then
      -- nothing may have been taken, and nothing but newlines is left to be
      u = 0 ∧ (limit ≤ counted cs ∨ (c = '\n' ∧ CutsAgree limit cs 0 text))
    else if c = '\n' then u = 0 ∧ CutsAgree limit cs 0 text
    else if c.utf8Size ≤ taken u c then
      CutsAgree limit (cs ++ [c]) (taken u c - c.utf8Size) text
    else
      -- the count has to let another cut take the rest of the character
      counted (cs ++ [c]) < limit ∧ CutsAgree limit (cs ++ [c]) (taken u c + 3 - c.utf8Size) text

instance CutsAgree.decidable (limit : ℚ) : ∀ cs u text, Decidable (CutsAgree limit cs u text)
  | _, _, [] => inferInstanceAs (Decidable True)
  | cs, _, c :: text =>
    have := fun cs u => CutsAgree.decidable limit cs u text
    inferInstanceAs (Decidable (if limit ≤ cs.length then _ else if c = '\n' then _ else
      if c.utf8Size ≤ _ then _ else _))

section Specification
variable {limit : ℚ} {cs text : List Char} {c : Char} {u : Nat}

theorem allowed_of_le (h : limit ≤ cs.length) : allowed limit cs text = cs := by
  cases text with
  | nil => rfl
  | cons c text => exact if_pos h

theorem allowed_newline (h : cs.length < limit) :
    allowed limit cs ('\n' :: text) = allowed limit cs text := by
  rw [allowed, if_neg (not_le_of_gt h), if_pos rfl]

theorem allowed_cons (h : cs.length < limit) (hc : c ≠ '\n') :
    allowed limit cs (c :: text) = allowed limit (cs ++ [c]) text := by
  rw [allowed, if_neg (not_le_of_gt h), if_neg hc]

/-- What is appended has no newlines. -/
theorem exists_allowed_eq_append (limit : ℚ) (cs text : List Char) :
    ∃ ds, allowed limit cs text = cs ++ ds ∧ '\n' ∉ ds := by
  induction text generalizing cs with
  | nil => exact ⟨[], (List.append_nil cs).symm, nofun⟩
  | cons c text ih =>
    by_cases hfull : limit ≤ cs.length
    · exact ⟨[], by rw [allowed_of_le hfull, List.append_nil], nofun⟩
    · by_cases hc : c = '\n'
      · subst hc
        rw [allowed_newline (lt_of_not_ge hfull)]
        exact ih cs
      · obtain ⟨ds, heq, hds⟩ := ih (cs ++ [c])
        refine ⟨c :: ds, ?_, ?_⟩
        · rw [allowed_cons (lt_of_not_ge hfull) hc, heq, List.append_assoc]
          rfl
        · rw [List.mem_cons, not_or]
          exact ⟨Ne.symm hc, hds⟩

/-- The limit, rounded up to a whole number, is kept. -/
theorem length_allowed_le (h : cs.length ≤ ⌈limit⌉₊) :
    (allowed limit cs text).length ≤ ⌈limit⌉₊ := by
  induction text generalizing cs with
  | nil => exact h
  | cons c text ih =>
    by_cases hfull : limit ≤ cs.length
    · rwa [allowed_of_le hfull]
    · have hlt := lt_of_not_ge hfull
      by_cases hc : c = '\n'
      · subst hc
        rw [allowed_newline hlt]
        exact ih h
      · rw [allowed_cons hlt hc]
        refine ih ?_
        rw [List.length_append]
        exact Nat.lt_ceil.mpr hlt

end Specification

namespace TextField

section Allowed
variable {α : Type*} [LinearOrder α] {S : FieldSettings α} {fuel : Nat} {f f' : TextField}
  {ss : List CChar} {us : List (List CChar)} {cs text : List Char} {c : Char} {u : Nat}

/-! ## The `for` loop and the text -/

/-- What the loop does with the text at a cut: the limit is reached and nothing more
happens, the cut is a newline and passed over, or it is appended. -/
theorem foldlM_cons_text (h : (ss :: us).foldlM (unitStep S fuel) f = .ok f') :
    ∃ n : Nat, characterCount f.pInputText = .ok n ∧
      ((S.inputMaxLength ≤ n ∧ f' = f) ∨
        (n < S.inputMaxLength ∧ ss = [newline] ∧ us.foldlM (unitStep S fuel) f = .ok f') ∨
        (n < S.inputMaxLength ∧ ss ≠ [newline] ∧ ∃ g, g.pInputText = f.pInputText ++ ss ∧
          us.foldlM (unitStep S fuel) g = .ok f')) := by
  obtain ⟨g, hg, hrest⟩ := foldlM_cons_eq_ok.mp h
  rcases unitStep_eq_ok.mp hg with ⟨⟨n, hn, hlt, hnl⟩, happ⟩ | ⟨hnot, ⟨n, hn⟩, rfl⟩
  · exact ⟨n, hn, Or.inr (Or.inr ⟨hlt, hnl, g, (appendUnit_frame happ).1, hrest⟩)⟩
  · refine ⟨n, hn, ?_⟩
    by_cases hfull : S.inputMaxLength ≤ n
    · rw [foldlM_unitStep_of_full hn hfull] at hrest
      exact Or.inl ⟨hfull, by cases hrest; rfl⟩
    · have hlt := lt_of_not_ge hfull
      exact Or.inr (Or.inl ⟨hlt, by_contra fun hnl => hnot ⟨n, hn, hlt, hnl⟩, hrest⟩)

/-- The text only grows. -/
theorem text_prefix_of_foldlM (h : us.foldlM (unitStep S fuel) f = .ok f') :
    f.pInputText <+: f'.pInputText := by
  refine run_invariant (I := fun g => f.pInputText <+: g.pInputText) ?_ (run_of_foldlM h)
    (List.prefix_refl _)
  intro g ss g' hg hunit
  rcases unitStep_eq_ok.mp (toOption_eq_some.mp hunit) with ⟨-, happ⟩ | ⟨-, -, rfl⟩
  · rw [(appendUnit_frame happ).1]
    exact hg.trans (List.prefix_append _ _)
  · exact hg

/-- What has been taken beyond the text stays. -/
theorem text_ne_of_taken (hm : f.pInputText = encode cs ++ (encode (c :: text)).take u)
    (hu : 0 < u) (h : us.foldlM (unitStep S fuel) f = .ok f') :
    f'.pInputText ≠ encode cs := by
  intro heq
  have hle := (text_prefix_of_foldlM h).length_le
  have hpos := c.utf8Size_pos
  rw [heq, hm, List.length_append, List.length_take, encode_cons, List.length_append,
    length_bytes] at hle
  omega

/-- At a character. -/
theorem foldlM_text_start (hm : f.pInputText = encode cs)
    (h : (units (encode (c :: text))).foldlM (unitStep S fuel) f = .ok f') :
    (S.inputMaxLength ≤ counted cs ∧ f' = f) ∨
      (counted cs < S.inputMaxLength ∧ c = '\n' ∧
        (units (encode text)).foldlM (unitStep S fuel) f = .ok f') ∨
      (counted cs < S.inputMaxLength ∧ c ≠ '\n' ∧ ∃ g,
        g.pInputText = encode cs ++ (encode (c :: text)).take (reach c) ∧
        (units ((encode (c :: text)).drop (reach c))).foldlM (unitStep S fuel) g = .ok f') := by
  rw [units_encode_cons] at h
  obtain ⟨n, hn, hcase⟩ := foldlM_cons_text h
  rw [hm] at hn hcase
  obtain rfl := eq_counted hn
  rcases hcase with hfull | ⟨hlt, hnl, hrest⟩ | ⟨hlt, hnl, hrest⟩
  · exact Or.inl hfull
  · obtain rfl := eq_newline_of_take hnl
    exact Or.inr (Or.inl ⟨hlt, rfl, hrest⟩)
  · refine Or.inr (Or.inr ⟨hlt, ?_, hrest⟩)
    rintro rfl
    exact hnl rfl

/-- Inside a character. -/
theorem foldlM_text_inside (hm : f.pInputText = encode cs ++ (encode (c :: text)).take u)
    (h0 : 0 < u) (hlt : u < c.utf8Size)
    (h : (units ((encode (c :: text)).drop u)).foldlM (unitStep S fuel) f = .ok f') :
    (S.inputMaxLength ≤ counted (cs ++ [c]) ∧ f' = f) ∨
      (counted (cs ++ [c]) < S.inputMaxLength ∧ ∃ g,
        g.pInputText = encode cs ++ (encode (c :: text)).take (u + 3) ∧
        (units ((encode (c :: text)).drop (u + 3))).foldlM (unitStep S fuel) g = .ok f') := by
  obtain ⟨ss, hss, hnl, hcut⟩ := units_tail h0 hlt text
  rw [hcut] at h
  obtain ⟨n, hn, hcase⟩ := foldlM_cons_text h
  have hm' : f.pInputText = encode cs ++ (bytes c).take u := by
    rw [hm, encode_cons, List.take_append_of_le_length]
    rw [length_bytes]
    exact Nat.le_of_lt hlt
  rw [hm'] at hn
  obtain rfl := eq_counted_of_take h0 hlt hn
  rcases hcase with hfull | ⟨-, hnl', -⟩ | ⟨hlt, -, g, hg, hrest⟩
  · exact Or.inl hfull
  · exact absurd hnl' hnl
  · refine Or.inr ⟨hlt, g, ?_, hrest⟩
    rw [hg, hm, hss, List.append_assoc, ← List.take_add]

/-- A newline that has been taken stays. -/
theorem text_ne_of_newline {ds : List Char} (hds : '\n' ∉ ds)
    (hm : f.pInputText = encode cs ++ (encode ('\n' :: text)).take u) (hu : 0 < u)
    (h : us.foldlM (unitStep S fuel) f = .ok f') : f'.pInputText ≠ encode (cs ++ ds) := by
  intro heq
  obtain ⟨v, rfl⟩ := Nat.exists_eq_add_of_le' hu
  have hgrown := text_prefix_of_foldlM h
  rw [heq, hm, encode_append, List.prefix_append_right_inj, encode_cons, bytes_newline,
    List.singleton_append, List.take_succ_cons] at hgrown
  obtain ⟨c, hc, hmem⟩ := List.mem_flatMap.mp (hgrown.subset List.mem_cons_self)
  exact hds (newline_mem_bytes_iff.mp hmem ▸ hc)

omit [LinearOrder α] in
/-- A character that is not stored in full is missed. -/
theorem text_ne_of_inside (hm : f.pInputText = encode cs ++ (encode (c :: text)).take u)
    (hu : u < c.utf8Size) (ds : List Char) : f.pInputText ≠ encode (cs ++ [c] ++ ds) := by
  intro heq
  have hlen := congrArg List.length heq
  simp only [hm, encode_append, encode_cons, encode_nil, List.length_append, List.length_take,
    length_bytes, List.length_nil] at hlen
  omega

theorem take_encode_cons (h : c.utf8Size ≤ u) :
    (encode (c :: text)).take u = bytes c ++ (encode text).take (u - c.utf8Size) := by
  rw [encode_cons, List.take_append, length_bytes, List.take_of_length_le]
  rwa [length_bytes]

theorem drop_encode_cons (h : c.utf8Size ≤ u) :
    (encode (c :: text)).drop u = (encode text).drop (u - c.utf8Size) := by
  rw [encode_cons, List.drop_append, length_bytes, List.drop_of_length_le]
  · rfl
  · rwa [length_bytes]

theorem taken_pos (u : Nat) (c : Char) : 0 < taken u c := by
  unfold taken reach
  split
  · split <;> decide
  · omega

/-- With the limit reached nothing may be appended: `utf8_to_unicode` has to see it, or
only newlines are left. -/
theorem text_eq_iff_of_full (hfull : S.inputMaxLength ≤ cs.length)
    (hm : f.pInputText = encode cs)
    (h : (units (encode text)).foldlM (unitStep S fuel) f = .ok f') :
    f'.pInputText = encode cs ↔ CutsAgree S.inputMaxLength cs 0 text := by
  induction text with
  | nil =>
    cases h
    exact iff_of_true hm trivial
  | cons c text ih =>
    rw [CutsAgree, if_pos hfull, and_iff_right rfl]
    rcases foldlM_text_start hm h with ⟨hcount, rfl⟩ | ⟨hlt, rfl, hrest⟩ | ⟨hlt, hc, g, hg, hrest⟩
    · exact iff_of_true hm (Or.inl hcount)
    · rw [or_iff_right (not_le_of_gt hlt), and_iff_right rfl]
      exact ih hrest
    · refine iff_of_false (text_ne_of_taken hg (taken_pos 0 c) hrest) ?_
      rintro (hcount | ⟨hnl, -⟩)
      · exact not_le_of_gt hlt hcount
      · exact hc hnl

/-- Below the limit the cut that the character begins in is made, if none before
reaches into it. -/
theorem exists_cut (hm : f.pInputText = encode cs ++ (encode (c :: text)).take u)
    (h : (units ((encode (c :: text)).drop u)).foldlM (unitStep S fuel) f = .ok f')
    (hcount : counted cs < S.inputMaxLength) (hc : c ≠ '\n') :
    ∃ g : TextField, g.pInputText = encode cs ++ (encode (c :: text)).take (taken u c) ∧
      (units ((encode (c :: text)).drop (taken u c))).foldlM (unitStep S fuel) g = .ok f' := by
  rcases Nat.eq_zero_or_pos u with rfl | hu
  · rcases foldlM_text_start (by simpa using hm) h with ⟨hle, -⟩ | ⟨-, hnl, -⟩ | ⟨-, -, hcut⟩
    · exact absurd hle (not_le_of_gt hcount)
    · exact absurd hnl hc
    · exact hcut
  · rw [taken, if_neg (by omega)]
    exact ⟨f, hm, h⟩

/-- **The text after the loop**, when its last cut before has taken `u` bytes of the
text: what is allowed, exactly if the cuts agree.  By induction on the text, along
which the cuts are followed. -/
theorem text_eq_allowed_iff (hm : f.pInputText = encode cs ++ (encode text).take u)
    (h : (units ((encode text).drop u)).foldlM (unitStep S fuel) f = .ok f') :
    f'.pInputText = encode (allowed S.inputMaxLength cs text) ↔
      CutsAgree S.inputMaxLength cs u text := by
  induction text generalizing f cs u with
  | nil =>
    rw [encode_nil, List.drop_nil] at h
    cases h
    rw [encode_nil, List.take_nil, List.append_nil] at hm
    exact iff_of_true hm trivial
  | cons c text ih =>
    by_cases hfull : S.inputMaxLength ≤ cs.length
    · rw [allowed_of_le hfull]
      rcases Nat.eq_zero_or_pos u with rfl | hu
      · exact text_eq_iff_of_full hfull (by simpa using hm) h
      · rw [CutsAgree, if_pos hfull]
        exact iff_of_false (text_ne_of_taken hm hu h) fun hagree => absurd hagree.1 (by omega)
    · have hroom := lt_of_not_ge hfull
      have hcount : counted cs < S.inputMaxLength :=
        (Nat.cast_le.mpr (counted_le cs)).trans_lt hroom
      by_cases hc : c = '\n'
      · subst hc
        rw [allowed_newline hroom, CutsAgree, if_neg hfull, if_pos rfl]
        rcases Nat.eq_zero_or_pos u with rfl | hu
        · have hm : f.pInputText = encode cs := by simpa using hm
          rcases foldlM_text_start hm h with ⟨hle, -⟩ | ⟨-, -, hrest⟩ | ⟨-, hne, -⟩
          · exact absurd hle (not_le_of_gt hcount)
          · rw [and_iff_right rfl]
            exact ih (by simpa using hm) hrest
          · exact absurd rfl hne
        · obtain ⟨ds, heq, hds⟩ := exists_allowed_eq_append S.inputMaxLength cs text
          rw [heq]
          exact iff_of_false (text_ne_of_newline hds hm hu h) fun hagree =>
            absurd hagree.1 (by omega)
      · rw [allowed_cons hroom hc, CutsAgree, if_neg hfull, if_neg hc]
        obtain ⟨g, hg, hrest⟩ := exists_cut hm h hcount hc
        by_cases hk : c.utf8Size ≤ taken u c
        · rw [take_encode_cons hk] at hg
          rw [drop_encode_cons hk] at hrest
          rw [if_pos hk]
          exact ih (by simp [hg]) hrest
        · rw [if_neg hk]
          have hlt := Nat.lt_of_not_le hk
          rcases foldlM_text_inside hg (taken_pos u c) hlt hrest with
            ⟨hle, rfl⟩ | ⟨hlt', g', hg', hrest'⟩
          · obtain ⟨ds, heq, -⟩ := exists_allowed_eq_append S.inputMaxLength (cs ++ [c]) text
            rw [heq]
            exact iff_of_false (text_ne_of_inside hg hlt ds) fun hagree =>
              not_le_of_gt hagree.1 hle
          · -- three more bytes are enough for the rest of any character
            have hk' : c.utf8Size ≤ taken u c + 3 := by
              have := c.utf8Size_le_four
              have := taken_pos u c
              omega
            rw [take_encode_cons hk'] at hg'
            rw [drop_encode_cons hk'] at hrest'
            rw [and_iff_right hlt']
            exact ih (by simp [hg']) hrest'

/-! ## Calls and runs -/

theorem insert_text_iff (hm : f.pInputText = encode cs) (hnul : '\x00' ∉ text)
    (h : f.onTextFieldInsertText S fuel (encode text) = .ok f') :
    f'.pInputText = encode (allowed S.inputMaxLength cs text) ↔
      CutsAgree S.inputMaxLength cs 0 text := by
  rw [onTextFieldInsertText_eq_foldlM, cStr_encode, takeWhile_nul_free hnul] at h
  exact text_eq_allowed_iff (by rw [hm, List.take_zero, List.append_nil]) h

/-- Typing as it should be: the labels are the texts. -/
def typing (limit : ℚ) (cs text : List Char) : Option (List Char) := some (allowed limit cs text)

/-- Insertions whose cuts agree are typing. -/
theorem run_text_eq {texts : List (List Char)} (hnul : ∀ text ∈ texts, '\x00' ∉ text)
    (hagree : Along (typing S.inputMaxLength) (CutsAgree S.inputMaxLength · 0 ·) cs texts)
    (hm : f.pInputText = encode cs)
    (hrun : run (step S fuel) f (texts.map .insert) = some f') :
    ∃ ds, run (typing S.inputMaxLength) cs texts = some ds ∧ f'.pInputText = encode ds := by
  induction texts generalizing f cs with
  | nil => cases hrun; exact ⟨cs, rfl, hm⟩
  | cons text texts ih =>
    obtain ⟨g, hg, hrun⟩ := run_cons_eq_some.mp hrun
    have hg := (insert_text_iff hm (hnul text List.mem_cons_self) (toOption_eq_some.mp hg)).mpr
      hagree.1
    exact ih (fun t ht => hnul t (List.mem_cons_of_mem text ht)) (hagree.2 _ rfl) hg hrun

/-- What typing leads to is within the limit and has no newlines. -/
theorem run_typing {limit : ℚ} {texts : List (List Char)} {ds : List Char}
    (hrun : run (typing limit) [] texts = some ds) : ds.length ≤ ⌈limit⌉₊ ∧ '\n' ∉ ds := by
  refine run_invariant (I := fun ds => ds.length ≤ ⌈limit⌉₊ ∧ '\n' ∉ ds) ?_ hrun
    ⟨Nat.zero_le _, nofun⟩
  rintro cs text _ ⟨hlen, hnl⟩ ⟨⟩
  obtain ⟨ds, heq, hds⟩ := exists_allowed_eq_append limit cs text
  refine ⟨length_allowed_le hlen, ?_⟩
  rw [heq, List.mem_append, not_or]
  exact ⟨hnl, hds⟩

/-- **An insertion appends exactly the allowed characters if and only if the cuts
agree**, in whatever state.  So the text stays valid, free of newlines and within the
limit over every run of such insertions: within the limit rounded up, that is, which is
the limit if that is a whole number. -/
theorem insert_allowed_iff (S : FieldSettings α) (fuel : Nat) :
    (∀ (f f' : TextField) (cs text : List Char), f.pInputText = encode cs → '\x00' ∉ text →
      f.onTextFieldInsertText S fuel (encode text) = .ok f' →
      (f'.pInputText = encode (allowed S.inputMaxLength cs text) ↔
        CutsAgree S.inputMaxLength cs 0 text)) ∧
    ∀ (texts : List (List Char)) (f : TextField), (∀ text ∈ texts, '\x00' ∉ text) →
      Along (typing S.inputMaxLength) (CutsAgree S.inputMaxLength · 0 ·) [] texts →
      run (step S fuel) init (texts.map .insert) = some f →
      ∃ cs, f.pInputText = encode cs ∧ '\n' ∉ cs ∧ cs.length ≤ ⌈S.inputMaxLength⌉₊ ∧
        (⌈S.inputMaxLength⌉₊ = S.inputMaxLength → cs.length ≤ S.inputMaxLength) := by
  refine ⟨fun f f' cs text => insert_text_iff, fun texts f hnul hagree hrun => ?_⟩
  obtain ⟨cs, hcs, htext⟩ := run_text_eq hnul hagree rfl hrun
  obtain ⟨hlen, hnl⟩ := run_typing hcs
  refine ⟨cs, htext, hnl, hlen, fun hwhole => ?_⟩
  rw [← hwhole]
  exact Nat.cast_le.mpr hlen

end Allowed

/-- The field with `éab` typed into it: the accented letter takes the next along. -/
def accented : TextField :=
  ⟨0, codesOf [3, 1], 2, 0, encode ['é', 'a', 'b'], encode ['é', 'a', 'b'], encode ['é', 'a', 'b']⟩

theorem insert_allowed_iff_accented :
    accented.pInputText =
      encode (allowed smallField.inputMaxLength [] ['\n', 'é', 'a', '\n', 'b']) ∧
    ∃ cs, accented.pInputText = encode cs ∧ '\n' ∉ cs ∧
      cs.length ≤ ⌈smallField.inputMaxLength⌉₊ ∧
      (⌈smallField.inputMaxLength⌉₊ = smallField.inputMaxLength →
        cs.length ≤ smallField.inputMaxLength) := by
  obtain ⟨hcall, hruns⟩ := insert_allowed_iff smallField 9
  exact ⟨(hcall init accented [] _ rfl (by decide) (by rfl)).mpr (by decide),
    hruns [['\n', 'é', 'a'], ['b', '\n']] accented (by decide) (by decide) (by rfl)⟩

/-- A newline behind an accented letter is stored. -/
theorem insert_stores_newline : ¬ ∀ (S : FieldSettings Nat) (fuel : Nat) (f f' : TextField)
    (cs text : List Char), f.pInputText = encode cs → '\x00' ∉ text →
      f.onTextFieldInsertText S fuel (encode text) = .ok f' →
      f'.pInputText = encode (allowed S.inputMaxLength cs text) := by
  intro h
  have htext := h smallField 9 init
    ⟨0, codesOf [3], 1, 0, encode ['é', '\n'], encode ['é', '\n'], encode ['é', '\n']⟩
    [] ['é', '\n'] rfl (by decide) (by rfl)
  exact absurd htext (by decide)

end TextField
end SurvivalGame
