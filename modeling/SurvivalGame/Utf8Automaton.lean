import SurvivalGame.Utf8

/-! # The automaton of UTF-8

`WellFormed` are the byte strings that are one character: no over-long spelling,
no surrogate, nothing above 10FFFF.  They are the `bytes` of the characters
(`WellFormed.exists_bytes`, `wellFormed_bytes`).

`State` is what a reader has to remember between two bytes, and `advance` reads
until it is between two characters again.  It finds a character exactly if one is
there (`advance_start_eq_some_iff`), so no character is the beginning of another,
and every byte string has one longest beginning that is text (`LongestText`).
-/
namespace Utf8

/-! ## The byte strings of one character -/

/-- The byte strings that are one character. -/
inductive WellFormed : List (BitVec 8) → Prop
  | one {b : BitVec 8} (h : b.toNat < 0x80) : WellFormed [b]
  | two {b x : BitVec 8} (h : 0xc2 ≤ b.toNat ∧ b.toNat < 0xe0) (hx : IsTail x) :
      WellFormed [b, x]
  | three {b x y : BitVec 8} (h : 0xe0 ≤ b.toNat ∧ b.toNat < 0xf0) (hx : IsTail x)
      (hy : IsTail y) (hlow : b.toNat = 0xe0 → 0xa0 ≤ x.toNat)
      (hsurrogate : b.toNat = 0xed → x.toNat < 0xa0) : WellFormed [b, x, y]
  | four {b x y z : BitVec 8} (h : 0xf0 ≤ b.toNat ∧ b.toNat < 0xf5) (hx : IsTail x)
      (hy : IsTail y) (hz : IsTail z) (hlow : b.toNat = 0xf0 → 0x90 ≤ x.toNat)
      (hhigh : b.toNat = 0xf4 → x.toNat < 0x90) : WellFormed [b, x, y, z]

theorem valid_toNat (c : Char) :
    c.val.toNat < 0xd800 ∨ 0xdfff < c.val.toNat ∧ c.val.toNat < 0x110000 := c.valid

theorem wellFormed_bytes (c : Char) : WellFormed (bytes c) := by
  have hvalid := valid_toNat c
  unfold bytes String.utf8EncodeChar
  simp only
  split
  · refine .one ?_
    rw [toNat_toBitVec_ofNat (by omega)]
    omega
  · split
    · refine .two ?_ (isTail_ofNat _)
      rw [toNat_toBitVec_ofNat (by omega)]
      omega
    · split
      · refine .three ?_ (isTail_ofNat _) (isTail_ofNat _) ?_ ?_
        · rw [toNat_toBitVec_ofNat (by omega)]
          omega
        all_goals
          rw [toNat_toBitVec_ofNat (by omega), toNat_toBitVec_ofNat (by omega)]
          omega
      · refine .four ?_ (isTail_ofNat _) (isTail_ofNat _) (isTail_ofNat _) ?_ ?_
        · rw [toNat_toBitVec_ofNat (by omega)]
          omega
        all_goals
          rw [toNat_toBitVec_ofNat (by omega), toNat_toBitVec_ofNat (by omega)]
          omega

theorem exists_char {n : Nat} (h : n < 0xd800 ∨ 0xdfff < n ∧ n < 0x110000) :
    ∃ c : Char, c.val.toNat = n :=
  ⟨Char.ofNatAux n h, by
    change (BitVec.ofNatLT n _).toNat = n
    rw [BitVec.toNat_ofNatLT]⟩

theorem toBitVec_ofNat_eq {n : Nat} {b : BitVec 8} (h : n = b.toNat) :
    (UInt8.ofNat n).toBitVec = b := by
  refine BitVec.eq_of_toNat_eq ?_
  rw [toNat_toBitVec_ofNat (by omega), h]

theorem WellFormed.exists_bytes {s : List (BitVec 8)} (h : WellFormed s) :
    ∃ c, bytes c = s := by
  unfold bytes String.utf8EncodeChar
  cases h with
  | @one b h =>
    obtain ⟨c, hc⟩ := exists_char (n := b.toNat) (by omega)
    refine ⟨c, ?_⟩
    simp only [hc]
    rw [if_pos (by omega), List.map_singleton, toBitVec_ofNat_eq rfl]
  | @two b x h hx =>
    unfold IsTail at hx
    obtain ⟨c, hc⟩ := exists_char (n := b.toNat % 32 * 64 + x.toNat % 64) (by omega)
    refine ⟨c, ?_⟩
    simp only [hc]
    rw [if_neg (by omega), if_pos (by omega)]
    simp only [List.map_cons, List.map_nil, List.cons.injEq, and_true]
    exact ⟨toBitVec_ofNat_eq (by omega), toBitVec_ofNat_eq (by omega)⟩
  | @three b x y h hx hy hlow hsurrogate =>
    unfold IsTail at hx hy
    obtain ⟨c, hc⟩ := exists_char
      (n := b.toNat % 16 * 4096 + x.toNat % 64 * 64 + y.toNat % 64) (by omega)
    refine ⟨c, ?_⟩
    simp only [hc]
    rw [if_neg (by omega), if_neg (by omega), if_pos (by omega)]
    simp only [List.map_cons, List.map_nil, List.cons.injEq, and_true]
    exact ⟨toBitVec_ofNat_eq (by omega), toBitVec_ofNat_eq (by omega),
      toBitVec_ofNat_eq (by omega)⟩
  | @four b x y z h hx hy hz hlow hhigh =>
    unfold IsTail at hx hy hz
    obtain ⟨c, hc⟩ := exists_char (n := b.toNat % 8 * 262144 + x.toNat % 64 * 4096 +
      y.toNat % 64 * 64 + z.toNat % 64) (by omega)
    refine ⟨c, ?_⟩
    simp only [hc]
    rw [if_neg (by omega), if_neg (by omega), if_neg (by omega)]
    simp only [List.map_cons, List.map_nil, List.cons.injEq, and_true]
    exact ⟨toBitVec_ofNat_eq (by omega), toBitVec_ofNat_eq (by omega),
      toBitVec_ofNat_eq (by omega), toBitVec_ofNat_eq (by omega)⟩

/-! ## Reading byte by byte -/

/-- What is known after some bytes: that a character may begin, or what the one that
has begun still needs.  From `surrogate` there is no way back. -/
inductive State
  | start | one | afterE0 | two | afterF0 | three | afterF4 | afterED | surrogate
  deriving DecidableEq

/-- One byte read. -/
def State.step : State → BitVec 8 → Option State
  | .start, b =>
    if b.toNat < 0x80 then some .start
    else if b.toNat < 0xc2 then none
    else if b.toNat < 0xe0 then some .one
    else if b.toNat < 0xf0 then
      if b.toNat = 0xe0 then some .afterE0
      else if b.toNat = 0xed then some .afterED else some .two
    else if b.toNat < 0xf5 then
      if b.toNat = 0xf0 then some .afterF0
      else if b.toNat = 0xf4 then some .afterF4 else some .three
    else none
  | .one, b => if IsTail b then some .start else none
  | .two, b => if IsTail b then some .one else none
  | .three, b => if IsTail b then some .two else none
  | .afterE0, b => if IsTail b ∧ 0xa0 ≤ b.toNat then some .one else none
  | .afterED, b =>
    if IsTail b then if b.toNat < 0xa0 then some .one else some .surrogate else none
  | .afterF0, b => if IsTail b ∧ 0x90 ≤ b.toNat then some .two else none
  | .afterF4, b => if IsTail b ∧ b.toNat < 0x90 then some .two else none
  | .surrogate, _ => none

/-- Inside a character, only tail bytes are read. -/
theorem State.isTail_of_step {s t : State} {b : BitVec 8} (hs : s ≠ .start)
    (h : s.step b = some t) : IsTail b := by
  cases s <;> simp only [step] at h <;> grind

/-- No character begins with a tail byte. -/
theorem State.not_isTail_of_step_start {t : State} {b : BitVec 8}
    (h : State.start.step b = some t) : ¬ IsTail b := by
  intro ht
  have hb := ht
  unfold IsTail at hb
  rw [step, if_neg (by omega), if_pos (by omega)] at h
  cases h

/-- The number of bytes until a character may begin again. -/
def advance : State → List (BitVec 8) → Option Nat
  | _, [] => none
  | s, b :: str =>
    match s.step b with
    | none => none
    | some .start => some 1
    | some t => (advance t str).map (· + 1)

/-- What a state waits for. -/
def State.Awaits : State → List (BitVec 8) → Prop
  | .start, s => WellFormed s
  | .one, s => ∃ x, s = [x] ∧ IsTail x
  | .two, s => ∃ x y, s = [x, y] ∧ IsTail x ∧ IsTail y
  | .three, s => ∃ x y z, s = [x, y, z] ∧ IsTail x ∧ IsTail y ∧ IsTail z
  | .afterE0, s => ∃ x y, s = [x, y] ∧ (IsTail x ∧ 0xa0 ≤ x.toNat) ∧ IsTail y
  | .afterED, s => ∃ x y, s = [x, y] ∧ (IsTail x ∧ x.toNat < 0xa0) ∧ IsTail y
  | .afterF0, s => ∃ x y z, s = [x, y, z] ∧ (IsTail x ∧ 0x90 ≤ x.toNat) ∧ IsTail y ∧ IsTail z
  | .afterF4, s => ∃ x y z, s = [x, y, z] ∧ (IsTail x ∧ x.toNat < 0x90) ∧ IsTail y ∧ IsTail z
  | .surrogate, _ => False

theorem State.not_awaits_nil (s : State) : ¬ s.Awaits [] := by
  cases s <;> simp only [Awaits] <;> rintro ⟨⟩ <;> simp_all

/-- A character, split at its first byte. -/
theorem State.awaits_cons {s : State} {b : BitVec 8} {str : List (BitVec 8)} :
    s.Awaits (b :: str) ↔
      ∃ t, s.step b = some t ∧ if t = .start then str = [] else t.Awaits str := by
  cases s with
  | start =>
    constructor
    · intro h
      cases h with
      | one h => exact ⟨.start, by rw [step, if_pos h], rfl⟩
      | two h hx =>
        refine ⟨.one, ?_, _, rfl, hx⟩
        rw [step, if_neg (by omega), if_neg (by omega), if_pos (by omega)]
      | three h hx hy hlow hsurrogate =>
        rw [step, if_neg (by omega), if_neg (by omega), if_neg (by omega), if_pos (by omega)]
        split
        · exact ⟨_, rfl, _, _, rfl, ⟨hx, hlow ‹_›⟩, hy⟩
        · split
          · exact ⟨_, rfl, _, _, rfl, ⟨hx, hsurrogate ‹_›⟩, hy⟩
          · exact ⟨_, rfl, _, _, rfl, hx, hy⟩
      | four h hx hy hz hlow hhigh =>
        rw [step, if_neg (by omega), if_neg (by omega), if_neg (by omega), if_neg (by omega),
          if_pos (by omega)]
        split
        · exact ⟨_, rfl, _, _, _, rfl, ⟨hx, hlow ‹_›⟩, hy, hz⟩
        · split
          · exact ⟨_, rfl, _, _, _, rfl, ⟨hx, hhigh ‹_›⟩, hy, hz⟩
          · exact ⟨_, rfl, _, _, _, rfl, hx, hy, hz⟩
    · rintro ⟨t, ht, h⟩
      simp only [step] at ht
      split_ifs at ht <;> cases ht
      · obtain rfl : str = [] := h
        exact .one ‹_›
      · obtain ⟨x, rfl, hx⟩ := h
        exact .two (by omega) hx
      · obtain ⟨x, y, rfl, hx, hy⟩ := h
        exact .three (by omega) hx.1 hy (fun _ => hx.2) (by omega)
      · obtain ⟨x, y, rfl, hx, hy⟩ := h
        exact .three (by omega) hx.1 hy (by omega) (fun _ => hx.2)
      · obtain ⟨x, y, rfl, hx, hy⟩ := h
        exact .three (by omega) hx hy (by omega) (by omega)
      · obtain ⟨x, y, z, rfl, hx, hy, hz⟩ := h
        exact .four (by omega) hx.1 hy hz (fun _ => hx.2) (by omega)
      · obtain ⟨x, y, z, rfl, hx, hy, hz⟩ := h
        exact .four (by omega) hx.1 hy hz (by omega) (fun _ => hx.2)
      · obtain ⟨x, y, z, rfl, hx, hy, hz⟩ := h
        exact .four (by omega) hx hy hz (by omega) (by omega)
  | surrogate => simp [step, Awaits]
  | one | two | three => by_cases hb : IsTail b <;> simp [step, Awaits, hb]
  | afterE0 =>
    by_cases hb : IsTail b <;> by_cases hlow : 0xa0 ≤ b.toNat <;> simp [step, Awaits, hb, hlow]
  | afterF0 =>
    by_cases hb : IsTail b <;> by_cases hlow : 0x90 ≤ b.toNat <;> simp [step, Awaits, hb, hlow]
  | afterF4 =>
    by_cases hb : IsTail b <;> by_cases hlt : b.toNat < 0x90 <;> simp [step, Awaits, hb, hlt]
  | afterED =>
    by_cases hb : IsTail b <;> by_cases hlt : b.toNat < 0xa0 <;> simp [step, Awaits, hb, hlt]

/-- A character is read as soon as it is whole, and nothing behind it matters. -/
theorem advance_eq_some_iff {s : State} {str : List (BitVec 8)} {k : Nat} :
    advance s str = some k ↔ ∃ t rest, s.Awaits t ∧ str = t ++ rest ∧ k = t.length := by
  induction str generalizing s k with
  | nil =>
    constructor
    · nofun
    · rintro ⟨t, rest, h, heq, -⟩
      obtain ⟨rfl, -⟩ := List.nil_eq_append_iff.mp heq
      exact absurd h s.not_awaits_nil
  | cons b str ih =>
    constructor
    · intro h
      rw [advance] at h
      split at h
      · cases h
      · cases h
        exact ⟨[b], str, State.awaits_cons.mpr ⟨.start, ‹_›, rfl⟩, rfl, rfl⟩
      · rename_i t hne hstep
        obtain ⟨j, hj, rfl⟩ := Option.map_eq_some_iff.mp h
        obtain ⟨u, rest, hu, rfl, rfl⟩ := ih.mp hj
        refine ⟨b :: u, rest, State.awaits_cons.mpr ⟨t, hstep, ?_⟩, rfl, rfl⟩
        rwa [if_neg fun h => hne h]
    · rintro ⟨_ | ⟨a, t⟩, rest, h, heq, rfl⟩
      · exact absurd h s.not_awaits_nil
      · obtain ⟨rfl, rfl⟩ := List.cons.inj heq
        obtain ⟨u, hstep, hu⟩ := State.awaits_cons.mp h
        rw [advance, hstep]
        by_cases hstart : u = .start
        · subst hstart
          rw [if_pos rfl] at hu
          rw [hu]
          rfl
        · rw [if_neg hstart] at hu
          have hrest := ih.mpr ⟨t, rest, hu, rfl, rfl⟩
          cases u with
          | start => exact absurd rfl hstart
          | _ => exact congrArg (Option.map (· + 1)) hrest

/-- **`advance` finds a character exactly if one is there.** -/
theorem advance_start_eq_some_iff {str : List (BitVec 8)} {k : Nat} :
    advance .start str = some k ↔ ∃ c rest, str = bytes c ++ rest ∧ k = c.utf8Size := by
  rw [advance_eq_some_iff]
  constructor
  · rintro ⟨t, rest, h, rfl, rfl⟩
    obtain ⟨c, rfl⟩ := h.exists_bytes
    exact ⟨c, rest, rfl, length_bytes c⟩
  · rintro ⟨c, rest, rfl, rfl⟩
    exact ⟨bytes c, rest, wellFormed_bytes c, rfl, (length_bytes c).symm⟩

/-- Two byte strings that begin with a character and agree, agree behind it. -/
theorem suffix_eq_of_bytes_append_eq {c d : Char} {s t : List (BitVec 8)}
    (h : bytes c ++ s = bytes d ++ t) : c.utf8Size = d.utf8Size ∧ s = t := by
  have hc := advance_start_eq_some_iff.mpr ⟨c, s, rfl, rfl⟩
  have hd := advance_start_eq_some_iff.mpr ⟨d, t, rfl, rfl⟩
  rw [h, hd] at hc
  have hsize : c.utf8Size = d.utf8Size := (Option.some.inj hc).symm
  exact ⟨hsize, (List.append_inj h (by rw [length_bytes, length_bytes, hsize])).2⟩

/-! ## The longest beginning that is text -/

/-- The first `n` bytes are text, and no longer beginning is. -/
structure LongestText (str : List (BitVec 8)) (n : Nat) : Prop where
  le_length : n ≤ str.length
  text : ∃ cs, str.take n = encode cs
  le_of_text : ∀ cs, encode cs <+: str → (encode cs).length ≤ n

namespace LongestText

variable {str : List (BitVec 8)} {n m : Nat}

theorem unique (h : LongestText str n) (h' : LongestText str m) : n = m := by
  have hle {k j : Nat} (h : LongestText str k) (h' : LongestText str j) : k ≤ j := by
    obtain ⟨cs, hcs⟩ := h.text
    have := h'.le_of_text cs (hcs ▸ List.take_prefix k str)
    rwa [← hcs, List.length_take, Nat.min_eq_left h.le_length] at this
  exact Nat.le_antisymm (hle h h') (hle h' h)

theorem nil : LongestText [] 0 where
  le_length := Nat.le_refl 0
  text := ⟨[], rfl⟩
  le_of_text cs h := by rw [List.prefix_nil.mp h]; exact Nat.le_refl 0

/-- Where no character is, the longest text is empty. -/
theorem zero (h : advance .start str = none) : LongestText str 0 where
  le_length := Nat.zero_le _
  text := ⟨[], rfl⟩
  le_of_text cs hcs := by
    cases cs with
    | nil => exact Nat.le_refl 0
    | cons c cs =>
      obtain ⟨rest, rfl⟩ := hcs
      rw [encode_cons, List.append_assoc,
        advance_start_eq_some_iff.mpr ⟨c, encode cs ++ rest, rfl, rfl⟩] at h
      cases h

theorem bytes_append (c : Char) (h : LongestText str n) :
    LongestText (bytes c ++ str) (c.utf8Size + n) where
  le_length := by
    rw [List.length_append, length_bytes]
    exact Nat.add_le_add_left h.le_length _
  text := by
    obtain ⟨cs, hcs⟩ := h.text
    refine ⟨c :: cs, ?_⟩
    rw [← length_bytes c, List.take_length_add_append, hcs, encode_cons]
  le_of_text cs hcs := by
    cases cs with
    | nil => exact Nat.zero_le _
    | cons d cs =>
      obtain ⟨rest, hrest⟩ := hcs
      rw [encode_cons, List.append_assoc] at hrest
      obtain ⟨hsize, rfl⟩ := suffix_eq_of_bytes_append_eq hrest
      rw [encode_cons, List.length_append, length_bytes, hsize]
      exact Nat.add_le_add_left (h.le_of_text cs (List.prefix_append _ _)) _

theorem ascii_append {s : List (BitVec 8)} (hs : ∀ b ∈ s, b.toNat < 0x80)
    (h : LongestText str n) : LongestText (s ++ str) (s.length + n) := by
  induction s with
  | nil => simpa using h
  | cons b s ih =>
    obtain ⟨c, hc⟩ := (WellFormed.one (hs b List.mem_cons_self)).exists_bytes
    have := (ih fun x hx => hs x (List.mem_cons_of_mem b hx)).bytes_append c
    rwa [← length_bytes, hc, List.length_singleton, ← Nat.add_assoc, Nat.add_comm 1] at this

/-- All of it is text exactly if it is the bytes of some text. -/
theorem eq_length_iff (h : LongestText str n) : n = str.length ↔ ∃ cs, str = encode cs := by
  constructor
  · rintro rfl
    obtain ⟨cs, hcs⟩ := h.text
    exact ⟨cs, by rwa [List.take_length] at hcs⟩
  · rintro ⟨cs, rfl⟩
    exact Nat.le_antisymm h.le_length (h.le_of_text cs (List.prefix_refl _))

/-- Behind it, no text begins. -/
theorem drop (h : LongestText str n) : LongestText (str.drop n) 0 where
  le_length := Nat.zero_le _
  text := ⟨[], rfl⟩
  le_of_text cs hcs := by
    obtain ⟨rest, hrest⟩ := hcs
    obtain ⟨ds, hds⟩ := h.text
    have hprefix : encode (ds ++ cs) <+: str :=
      ⟨rest, by rw [encode_append, List.append_assoc, hrest, ← hds, List.take_append_drop]⟩
    have := h.le_of_text _ hprefix
    rw [encode_append, List.length_append, ← hds, List.length_take,
      Nat.min_eq_left h.le_length] at this
    omega

end LongestText

end Utf8
