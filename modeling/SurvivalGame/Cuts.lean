import SurvivalGame.TextField

/-! # How a text is cut and counted

`onTextFieldInsertText` looks at the text in two ways: `split_text` cuts off one
byte, or three if the first has its top bit set, and `utf8_to_unicode` counts the
characters of what there is already.  Both are right about characters of one and
three bytes (`units_encode`, `counted_eq_length`).  A character of two bytes takes
the byte behind it along, and one of four is cut in two and counts for nothing.
-/
namespace SurvivalGame
open Loops Utf8

/-! ## Cutting a text -/

theorem toInt_neg_iff : ∀ b : CChar, b.toInt < 0 ↔ 0x80 ≤ b.toNat := by decide

theorem units_eq_splitText {text : List CChar} (h : text ≠ []) :
    units text = splitText text 0 :: units (text.drop (splitText text 0).length) := by
  match text with
  | [] => exact absurd rfl h
  | [b] => by_cases hb : b.toInt < 0 <;> simp [units, splitText, hb]
  | [b, x] => by_cases hb : b.toInt < 0 <;> simp [units, splitText, hb]
  | b :: x :: y :: rest => by_cases hb : b.toInt < 0 <;> simp [units, splitText, hb]

/-- The cuts are those of `split_text`, each where the one before has ended. -/
theorem units_eq {text : List CChar} {j : Nat} (h : j < text.length) :
    units (text.drop j) =
      splitText text j :: units (text.drop (j + (splitText text j).length)) := by
  have hsplit : splitText (text.drop j) 0 = splitText text j := by
    simp [splitText, List.getD_eq_getElem?_getD]
  have hne : text.drop j ≠ [] := by
    rw [← List.length_pos_iff, List.length_drop]
    omega
  rw [units_eq_splitText hne, hsplit, List.drop_drop]

/-- Cutting loses nothing. -/
theorem flatten_units (text : List CChar) : (units text).flatten = text := by
  fun_induction units text <;> simp_all

/-- The cuts are not empty, and of three bytes at most. -/
theorem units_length {text ss : List CChar} (h : ss ∈ units text) :
    0 < ss.length ∧ ss.length ≤ 3 := by
  fun_induction units text <;> grind

theorem mem_of_mem_units {text ss : List CChar} {b : CChar} (h : ss ∈ units text) (hb : b ∈ ss) :
    b ∈ text := by
  rw [← flatten_units text]
  exact List.mem_flatten.mpr ⟨ss, h, hb⟩

/-- A character that `split_text` takes for one: of one byte or of three. -/
def OneOrThree (c : Char) : Prop := c.utf8Size = 1 ∨ c.utf8Size = 3

instance : DecidablePred OneOrThree := fun _ => inferInstanceAs (Decidable (_ ∨ _))

theorem units_ascii {b : CChar} (h : b.toNat < 0x80) (rest : List CChar) :
    units (b :: rest) = [b] :: units rest := by
  have hb : ¬ b.toInt < 0 := by rw [toInt_neg_iff]; omega
  match rest with
  | [] => rfl
  | [x] => simp [units, hb]
  | x :: y :: rest => simp [units, hb]

theorem units_three {b : CChar} (h : 0x80 ≤ b.toNat) (x y : CChar) (rest : List CChar) :
    units (b :: x :: y :: rest) = [b, x, y] :: units rest := by
  simp [units, (toInt_neg_iff b).mpr h]

theorem units_bytes {c : Char} (h : OneOrThree c) (rest : List CChar) :
    units (bytes c ++ rest) = bytes c :: units rest := by
  have hshape := shape_bytes c
  have hlen := length_bytes c
  generalize bytes c = s at hshape hlen
  unfold OneOrThree at h
  rw [← hlen] at h
  cases hshape with
  | one hb => exact units_ascii hb rest
  | three hb => exact units_three (by omega) _ _ rest
  | two | four => simp at h

/-- A cut takes one byte or three, by its first. -/
theorem units_cons (b : CChar) (rest : List CChar) :
    units (b :: rest) = (b :: rest).take (if b.toNat < 0x80 then 1 else 3) ::
      units ((b :: rest).drop (if b.toNat < 0x80 then 1 else 3)) := by
  have hsplit : splitText (b :: rest) 0 =
      (b :: rest).take (if b.toNat < 0x80 then 1 else 3) := by
    by_cases hb : b.toNat < 0x80
    · simp [splitText, toInt_neg_iff, hb]
    · simp [splitText, toInt_neg_iff, hb, Nat.le_of_not_lt hb]
  have hpos : 0 < (b :: rest).length := Nat.succ_pos _
  have hcut := units_eq hpos
  rw [List.drop_zero, hsplit, Nat.zero_add] at hcut
  rw [hcut, List.length_take]
  rcases Nat.le_total (if b.toNat < 0x80 then 1 else 3) (b :: rest).length with h | h
  · rw [Nat.min_eq_left h]
  · rw [Nat.min_eq_right h, List.drop_of_length_le (Nat.le_refl _), List.drop_of_length_le h]

/-- The bytes that a cut takes which begins with the character. -/
def reach (c : Char) : Nat := if c.utf8Size = 1 then 1 else 3

theorem units_encode_cons (c : Char) (text : List Char) :
    units (encode (c :: text)) = (encode (c :: text)).take (reach c) ::
      units ((encode (c :: text)).drop (reach c)) := by
  have hshape := shape_bytes c
  have hlen := length_bytes c
  rw [encode_cons, reach, ← hlen]
  generalize bytes c = s at hshape
  cases hshape with
  | @one b h =>
    have hcut := units_cons b (encode text)
    rwa [if_pos h] at hcut
  | two h | three h | four h =>
    rw [List.cons_append, units_cons, if_neg (by omega)]
    rfl

/-- Inside a character three bytes are taken. -/
theorem units_tail {c : Char} {u : Nat} (h0 : 0 < u) (hlt : u < c.utf8Size)
    (text : List Char) :
    ∃ ss, ss = ((encode (c :: text)).drop u).take 3 ∧ ss ≠ [newline] ∧
      units ((encode (c :: text)).drop u) = ss :: units ((encode (c :: text)).drop (u + 3)) := by
  obtain ⟨b, xs, heq, -, hxs⟩ := (shape_bytes c).eq_cons
  rw [← length_bytes, heq, List.length_cons] at hlt
  obtain ⟨v, rfl⟩ := Nat.exists_eq_add_of_le' h0
  have hv : v < xs.length := Nat.lt_of_succ_lt_succ hlt
  have hdrop : (encode (c :: text)).drop (v + 1) = xs[v] :: (xs.drop (v + 1) ++ encode text) := by
    rw [encode_cons, heq, List.cons_append, List.drop_succ_cons,
      List.drop_append_of_le_length (Nat.le_of_lt hv), List.drop_eq_getElem_cons hv]
    rfl
  have htail : ¬ xs[v].toNat < 0x80 := Nat.not_lt.mpr (hxs _ (List.getElem_mem hv)).1
  refine ⟨_, rfl, ?_, ?_⟩
  · rw [hdrop]
    intro hnl
    rw [List.take_succ_cons] at hnl
    exact htail (by rw [(List.cons.inj hnl).1]; decide)
  · have hrest : (encode (c :: text)).drop (v + 1 + 3) =
        ((encode (c :: text)).drop (v + 1)).drop 3 := by rw [List.drop_drop]
    rw [hrest, hdrop, units_cons, if_neg htail]

/-- A cut that is a newline begins with the character. -/
theorem eq_newline_of_take {c : Char} {text : List Char} {k : Nat}
    (h : (encode (c :: text)).take k = [newline]) : c = '\n' := by
  obtain ⟨b, xs, heq, -, -⟩ := (shape_bytes c).eq_cons
  have hb : newline = b := by
    cases k with
    | zero => cases h
    | succ k =>
      rw [encode_cons, heq, List.cons_append, List.take_succ_cons] at h
      exact (List.cons.inj h).1.symm
  exact newline_mem_bytes_iff.mp (by rw [heq, hb]; exact List.mem_cons_self)

/-- Text of one- and three-byte characters is cut into its characters. -/
theorem units_encode_append {text : List Char} (h : ∀ c ∈ text, OneOrThree c)
    (rest : List CChar) : units (encode text ++ rest) = text.map bytes ++ units rest := by
  induction text with
  | nil => rfl
  | cons c text ih =>
    rw [encode_cons, List.append_assoc, units_bytes (h c List.mem_cons_self),
      ih fun d hd => h d (List.mem_cons_of_mem c hd)]
    rfl

theorem units_encode {text : List Char} (h : ∀ c ∈ text, OneOrThree c) :
    units (encode text) = text.map bytes := by
  simpa [units] using units_encode_append h []

/-- A text up to its first NUL. -/
theorem cStr_encode (text : List Char) :
    cStr (encode text) = encode (text.takeWhile (· ≠ '\x00')) := by
  induction text with
  | nil => rfl
  | cons c text ih =>
    rw [cStr] at ih
    by_cases hc : c = '\x00'
    · subst hc
      rw [encode_cons, cStr, show bytes '\x00' = [0] by decide]
      simp
    · have hb : ∀ b ∈ bytes c, decide (b ≠ 0) = true := by
        intro b hb
        refine decide_eq_true fun h0 => hc ?_
        have h0 : 0 ∈ encode [c] := List.mem_append_left _ (h0 ▸ hb)
        exact (List.mem_singleton.mp (zero_mem_encode_iff.mp h0)).symm
      rw [encode_cons, cStr, List.takeWhile_append_of_pos hb, ih, List.takeWhile_cons_of_pos
        (by simpa using hc), encode_cons]

/-! ## Counting characters -/

/-- What `utf8_to_unicode` counts a character as. -/
def weight (c : Char) : Nat := if c.utf8Size = 4 then 0 else 1

/-- What `utf8_to_unicode` makes of a text: the characters before the first NUL, less
those of four bytes. -/
def counted (cs : List Char) : Nat := ((cs.takeWhile (· ≠ '\x00')).map weight).sum

theorem lead_two_iff : ∀ b : CChar, b &&& 0xe0 = 0xc0 ↔ 0xc0 ≤ b.toNat ∧ b.toNat < 0xe0 := by
  decide

theorem lead_three_iff : ∀ b : CChar, b &&& 0xf0 = 0xe0 ↔ 0xe0 ≤ b.toNat ∧ b.toNat < 0xf0 := by
  decide

theorem utf8ToUnicode_tail {x : CChar} (hx : IsTail x) (p : List CChar) :
    utf8ToUnicode 0 (x :: p) = utf8ToUnicode 0 p := by
  obtain ⟨hle, hlt⟩ := hx
  rw [utf8ToUnicode, if_neg (by rintro rfl; exact absurd hle (by decide)), if_neg (by omega),
    if_neg (by rw [lead_two_iff]; omega), if_neg (by rw [lead_three_iff]; omega)]

/-- A first byte, by its kind. -/
theorem utf8ToUnicode_lead {b : CChar} (h0 : b ≠ 0) (hb : ¬ IsTail b) (p : List CChar) :
    utf8ToUnicode 0 (b :: p) =
      if b.toNat < 0x80 then (· + 1) <$> utf8ToUnicode 0 p
      else if b.toNat < 0xe0 then (· + 1) <$> utf8ToUnicode 1 p
      else if b.toNat < 0xf0 then (· + 1) <$> utf8ToUnicode 2 p
      else utf8ToUnicode 0 p := by
  unfold IsTail at hb
  rw [utf8ToUnicode, if_neg h0]
  simp only [lead_two_iff, lead_three_iff]
  by_cases h1 : b.toNat < 0x80
  · rw [if_pos h1, if_pos (by omega)]
  · rw [if_neg h1, if_neg (by omega)]
    by_cases h2 : b.toNat < 0xe0
    · rw [if_pos h2, if_pos (by omega)]
    · rw [if_neg h2, if_neg (by omega)]
      by_cases h3 : b.toNat < 0xf0
      · rw [if_pos h3, if_pos (by omega)]
      · rw [if_neg h3, if_neg (by omega)]

theorem utf8ToUnicode_bytes {c : Char} (hc : c ≠ '\x00') (p : List CChar) :
    utf8ToUnicode 0 (bytes c ++ p) = (· + weight c) <$> utf8ToUnicode 0 p := by
  have hshape := shape_bytes c
  have h0 : (0 : CChar) ∉ bytes c := by
    intro h
    refine hc (List.mem_singleton.mp (zero_mem_encode_iff.mp ?_)).symm
    rwa [encode_cons, encode_nil, List.append_nil]
  unfold weight
  rw [← length_bytes]
  generalize bytes c = s at hshape h0
  cases hshape with
  | one h =>
    rw [List.singleton_append, utf8ToUnicode_lead (by grind) (by unfold IsTail; omega), if_pos h]
    rfl
  | two h hx =>
    rw [List.cons_append, utf8ToUnicode_lead (by grind) (by unfold IsTail; omega),
      if_neg (by omega), if_pos h.2]
    rfl
  | three h hx hy =>
    rw [List.cons_append, utf8ToUnicode_lead (by grind) (by unfold IsTail; omega),
      if_neg (by omega), if_neg (by omega), if_pos h.2]
    rfl
  | four h hx hy hz =>
    rw [List.cons_append, utf8ToUnicode_lead (by grind) (by unfold IsTail; omega),
      if_neg (by omega), if_neg (by omega), if_neg (by omega)]
    simp [utf8ToUnicode_tail, hx, hy, hz]

/-- A NUL-free text in front is counted in full. -/
theorem utf8ToUnicode_encode {cs : List Char} (h : '\x00' ∉ cs) (p : List CChar) :
    utf8ToUnicode 0 (encode cs ++ p) = (· + (cs.map weight).sum) <$> utf8ToUnicode 0 p := by
  induction cs with
  | nil => simp
  | cons c cs ih =>
    rw [List.mem_cons, not_or] at h
    rw [encode_cons, List.append_assoc, utf8ToUnicode_bytes (Ne.symm h.1), ih h.2,
      List.map_cons, List.sum_cons, Nat.add_comm (weight c)]
    simp [Nat.add_assoc]

/-! ## `cou` -/

theorem characterCount_eq_ok {m : List CChar} {n : Nat} : characterCount m = .ok n ↔
    (cStr m).length < 200 ∧
      utf8ToUnicode 0 (cStr m ++ List.replicate (200 - (cStr m).length) 0) = .ok n := by
  rw [characterCount, bind_eq_ok]
  constructor
  · rintro ⟨t, ht, h⟩
    rw [strcpy] at ht
    split at ht
    · cases ht; exact ⟨‹_›, h⟩
    · cases ht
  · rintro ⟨hlt, h⟩
    exact ⟨_, if_pos hlt, h⟩

theorem nul_not_mem_takeWhile (cs : List Char) : '\x00' ∉ cs.takeWhile (· ≠ '\x00') := by
  intro h
  simpa using List.mem_takeWhile_imp h

theorem utf8ToUnicode_nul {k : Nat} (h : 0 < k) :
    utf8ToUnicode 0 (List.replicate k 0) = .ok 0 := by
  obtain ⟨k, rfl⟩ := Nat.exists_eq_add_of_le' h
  rfl

/-- The count of a text that fits `t`. -/
theorem characterCount_encode {cs : List Char} (h : (encode cs).length < 200) :
    characterCount (encode cs) = .ok (counted cs) := by
  have hlt : (cStr (encode cs)).length < 200 :=
    Nat.lt_of_le_of_lt (List.takeWhile_prefix _).length_le h
  refine characterCount_eq_ok.mpr ⟨hlt, ?_⟩
  rw [cStr_encode] at hlt ⊢
  rw [utf8ToUnicode_encode (nul_not_mem_takeWhile cs), utf8ToUnicode_nul (by omega)]
  simp [counted]

theorem eq_counted {cs : List Char} {n : Nat} (h : characterCount (encode cs) = .ok n) :
    n = counted cs := by
  obtain ⟨hlt, h⟩ := characterCount_eq_ok.mp h
  rw [cStr_encode] at hlt h
  rw [utf8ToUnicode_encode (nul_not_mem_takeWhile cs), utf8ToUnicode_nul (by omega)] at h
  obtain ⟨a, ha, rfl⟩ := map_eq_ok.mp h
  cases ha
  exact Nat.zero_add _

theorem weight_le (c : Char) : weight c ≤ 1 := by
  unfold weight
  split <;> decide

theorem sum_weight_le (cs : List Char) : (cs.map weight).sum ≤ cs.length := by
  induction cs with
  | nil => exact Nat.le_refl 0
  | cons c cs ih =>
    have := weight_le c
    rw [List.map_cons, List.sum_cons, List.length_cons]
    omega

/-- Every character counts, except those of four bytes. -/
theorem sum_weight_eq_length_iff {cs : List Char} :
    (cs.map weight).sum = cs.length ↔ ∀ c ∈ cs, c.utf8Size ≠ 4 := by
  induction cs with
  | nil => simp
  | cons c cs ih =>
    have hle := sum_weight_le cs
    have hw : weight c = 1 ↔ c.utf8Size ≠ 4 := by
      unfold weight
      split <;> simp [*]
    have hc := weight_le c
    rw [List.forall_mem_cons, ← ih, ← hw, List.map_cons, List.sum_cons, List.length_cons]
    omega

theorem counted_le (cs : List Char) : counted cs ≤ cs.length :=
  Nat.le_trans (sum_weight_le _) (List.takeWhile_prefix _).length_le

theorem takeWhile_nul_free {cs : List Char} (h : '\x00' ∉ cs) :
    cs.takeWhile (· ≠ '\x00') = cs :=
  List.takeWhile_eq_self_iff.mpr fun c hc => by
    rw [decide_eq_true_eq]
    rintro rfl
    exact h hc

/-- A text without NULs and four-byte characters is counted right. -/
theorem counted_eq_length {cs : List Char} (hnul : '\x00' ∉ cs) (h : ∀ c ∈ cs, c.utf8Size ≠ 4) :
    counted cs = cs.length := by
  rw [counted, takeWhile_nul_free hnul]
  exact sum_weight_eq_length_iff.mpr h

/-- Fifty characters of up to three bytes fit `t`, and are counted right. -/
theorem characterCount_eq_length {cs : List Char} (hle : cs.length ≤ 50)
    (hsize : ∀ c ∈ cs, c.utf8Size ≤ 3) (hnul : '\x00' ∉ cs) :
    characterCount (encode cs) = .ok cs.length := by
  have hbytes : (encode cs).length ≤ 3 * cs.length := length_encode_le hsize
  rw [characterCount_encode (by omega), counted_eq_length hnul]
  intro c hc h4
  have := hsize c hc
  omega

/-! ## Counting an incomplete character -/

theorem utf8ToUnicode_zeros {skip j n : Nat}
    (h : utf8ToUnicode skip (List.replicate j 0) = .ok n) : n = 0 := by
  induction j generalizing skip with
  | zero => cases skip <;> cases h
  | succ j ih =>
    cases skip with
    | zero => cases h; rfl
    | succ skip => exact ih h

theorem utf8ToUnicode_skip {skip : Nat} {xs : List CChar} (h : xs.length ≤ skip)
    (p : List CChar) : utf8ToUnicode skip (xs ++ p) = utf8ToUnicode (skip - xs.length) p := by
  induction xs generalizing skip with
  | nil => rfl
  | cons x xs ih =>
    obtain ⟨k, rfl⟩ := Nat.exists_eq_add_of_le' (Nat.zero_lt_of_lt h)
    rw [List.length_cons, Nat.succ_sub_succ]
    exact ih (Nat.le_of_succ_le_succ h)

theorem utf8ToUnicode_tails {xs : List CChar} (h : ∀ x ∈ xs, IsTail x) (p : List CChar) :
    utf8ToUnicode 0 (xs ++ p) = utf8ToUnicode 0 p := by
  induction xs with
  | nil => rfl
  | cons x xs ih =>
    rw [List.cons_append, utf8ToUnicode_tail (h x List.mem_cons_self)]
    exact ih fun y hy => h y (List.mem_cons_of_mem x hy)

/-- A first byte of more than one. -/
theorem utf8ToUnicode_lead_multi {b : CChar} (h : 0xc0 ≤ b.toNat) (p : List CChar) :
    utf8ToUnicode 0 (b :: p) =
      if b.toNat < 0xe0 then (· + 1) <$> utf8ToUnicode 1 p
      else if b.toNat < 0xf0 then (· + 1) <$> utf8ToUnicode 2 p
      else utf8ToUnicode 0 p := by
  have h0 : b ≠ 0 := by
    rintro rfl
    exact absurd h (by decide)
  rw [utf8ToUnicode_lead h0 (by unfold IsTail; omega), if_neg (by omega)]

/-- The first bytes of a character, at the end of what is counted, count as the
character. -/
theorem utf8ToUnicode_take {c : Char} {v j n : Nat} (hlt : v + 1 < c.utf8Size)
    (h : utf8ToUnicode 0 ((bytes c).take (v + 1) ++ List.replicate j 0) = .ok n) :
    n = weight c := by
  have hshape := shape_bytes c
  rw [weight]
  rw [← length_bytes] at hlt ⊢
  generalize bytes c = s at hshape hlt h
  -- a counted lead makes the scan skip all bytes that may follow it
  have hskipped {xs : List CChar} {skip : Nat} (hxs : xs.length ≤ skip)
      (hok : (· + 1) <$> utf8ToUnicode skip (xs.take v ++ List.replicate j 0) = .ok n) :
      n = 1 := by
    obtain ⟨k, hk, rfl⟩ := map_eq_ok.mp hok
    rw [utf8ToUnicode_skip (Nat.le_trans (List.length_take_le' v xs) hxs)] at hk
    rw [utf8ToUnicode_zeros hk]
  cases hshape with
  | one => exact absurd hlt (by simp)
  | two hb hx =>
    rw [List.take_succ_cons, List.cons_append, utf8ToUnicode_lead_multi hb.1, if_pos hb.2] at h
    exact hskipped (Nat.le_refl 1) h
  | three hb hx hy =>
    rw [List.take_succ_cons, List.cons_append, utf8ToUnicode_lead_multi (by omega),
      if_neg (by omega), if_pos hb.2] at h
    exact hskipped (Nat.le_refl 2) h
  | four hb hx hy hz =>
    rw [List.take_succ_cons, List.cons_append, utf8ToUnicode_lead_multi (by omega),
      if_neg (by omega), if_neg (by omega), utf8ToUnicode_tails] at h
    · exact utf8ToUnicode_zeros h
    · intro w hw
      have := List.mem_of_mem_take hw
      simp only [List.mem_cons, List.not_mem_nil, or_false] at this
      rcases this with rfl | rfl | rfl <;> assumption

theorem takeWhile_append_of_mem {α : Type*} {p : α → Bool} {xs : List α} {x : α} (hx : x ∈ xs)
    (hp : p x = false) (ys : List α) : (xs ++ ys).takeWhile p = xs.takeWhile p := by
  rw [List.takeWhile_append, if_neg]
  intro hall
  have heq := (List.takeWhile_prefix p).eq_of_length hall
  rw [List.takeWhile_eq_self_iff.mp heq x hx] at hp
  cases hp

/-- `cou` when the last character is not stored in full. -/
theorem eq_counted_of_take {cs : List Char} {c : Char} {u n : Nat} (h0 : 0 < u)
    (hlt : u < c.utf8Size) (h : characterCount (encode cs ++ (bytes c).take u) = .ok n) :
    n = counted (cs ++ [c]) := by
  by_cases hnul : '\x00' ∈ cs
  · -- nothing behind a NUL counts
    have hc := takeWhile_append_of_mem (zero_mem_encode_iff.mpr hnul) (p := (· ≠ 0)) (by decide)
      ((bytes c).take u)
    rw [characterCount, cStr, hc] at h
    rw [counted, takeWhile_append_of_mem hnul (by decide)]
    exact eq_counted h
  · have hbytes : (0 : CChar) ∉ bytes c := by
      intro h0
      have := (shape_bytes c).length_eq_one h0 (by decide)
      rw [length_bytes] at this
      omega
    have hfree : 0 ∉ encode cs ++ (bytes c).take u := by
      rw [List.mem_append, not_or]
      exact ⟨mt zero_mem_encode_iff.mp hnul, fun h0 => hbytes (List.mem_of_mem_take h0)⟩
    obtain ⟨-, h⟩ := characterCount_eq_ok.mp h
    rw [cStr_of_nul_free hfree, List.append_assoc, utf8ToUnicode_encode hnul] at h
    obtain ⟨k, hk, rfl⟩ := map_eq_ok.mp h
    obtain ⟨v, rfl⟩ := Nat.exists_eq_add_of_le' h0
    have hc : c ≠ '\x00' := by
      rintro rfl
      exact hbytes (by decide)
    rw [counted, takeWhile_nul_free (by simp [hnul, Ne.symm hc]), utf8ToUnicode_take hlt hk]
    simp [Nat.add_comm]

end SurvivalGame
