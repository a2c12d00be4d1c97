import SurvivalGame.CharSet

/-! # The loop of `utf8_to_unicode` on any bytes

An iteration looks at one byte and, in two of its branches, at one or two bytes
behind it.  It does not ask whether there are any: a first byte of two or three
that stands too near to the end takes the loop over the terminating NUL.  `Whole`
says that this does not happen, and then nothing else goes wrong either
(`in_bounds_iff`).  Two bytes for each byte of the string, and two more, are room
enough for what is written.

The number that is returned is the one that `onTextFieldInsertText` is modelled to
count (`characterCount_eq_ok_iff_returns`).
-/
namespace SurvivalGame.MyCharSet
open Loops Utf8

/-! ## One iteration -/

/-- The branches of the loop. -/
inductive Lead (b : CChar) : Prop
  | one (h : b.toNat ≤ 0x7f)
  | two (h : 0xc0 ≤ b.toNat ∧ b.toNat < 0xe0)
  | three (h : 0xe0 ≤ b.toNat ∧ b.toNat < 0xf0)
  /-- A byte that no branch is for: a tail byte, or a first byte of four. -/
  | other (h : 0x80 ≤ b.toNat) (h' : b.toNat < 0xc0 ∨ 0xf0 ≤ b.toNat)

theorem lead (b : CChar) : Lead b := by
  by_cases h1 : b.toNat ≤ 0x7f
  · exact .one h1
  · by_cases h2 : b.toNat < 0xc0
    · exact .other (by omega) (Or.inl h2)
    · by_cases h3 : b.toNat < 0xe0
      · exact .two ⟨by omega, h3⟩
      · by_cases h4 : b.toNat < 0xf0
        · exact .three ⟨by omega, h4⟩
        · exact .other (by omega) (Or.inr (by omega))

/-- The number of bytes that are taken along behind a byte. -/
def follow (b : CChar) : ℕ :=
  if b.toNat < 0xc0 then 0 else if b.toNat < 0xe0 then 1 else if b.toNat < 0xf0 then 2 else 0

/-- What a first byte adds to the number of characters. -/
def counts (b : CChar) : ℕ := if b.toNat ≤ 0x7f ∨ (0xc0 ≤ b.toNat ∧ b.toNat < 0xf0) then 1 else 0

theorem follow_two {b : CChar} (h : 0xc0 ≤ b.toNat ∧ b.toNat < 0xe0) : follow b = 1 := by
  rw [follow, if_neg (by omega), if_pos h.2]

theorem follow_three {b : CChar} (h : 0xe0 ≤ b.toNat ∧ b.toNat < 0xf0) : follow b = 2 := by
  rw [follow, if_neg (by omega), if_neg (by omega), if_pos h.2]

theorem follow_other {b : CChar} (h : b.toNat < 0xc0 ∨ 0xf0 ≤ b.toNat) : follow b = 0 := by
  unfold follow
  split
  · rfl
  · rw [if_neg (by omega), if_neg (by omega)]

/-- What the decoder has come to when `out` is written and `p` is to be read. -/
def Decoder.wrote (size : ℕ) (p out : List CChar) (n : CUInt) : Decoder := ⟨p, .wrote 0 size out, n⟩

section Branches
variable {size : ℕ} {p out : List CChar} {n : CUInt} {b x y : CChar}

/-- A byte by itself leaves `tmp` in front of its zero. -/
theorem Decoder.next_one (h : b.toNat ≤ 0x7f) (hroom : out.length + 2 ≤ size) :
    (Decoder.wrote size (b :: p) out n).next = .ok (Decoder.wrote size p (out ++ [b]) (n + 1)) := by
  apply bind_eq_ok.mpr
  refine ⟨b, rfl, ?_⟩
  rw [if_pos h]
  apply bind_eq_ok.mpr
  refine ⟨_, Cursor.push_wrote _ (by omega), ?_⟩
  apply bind_eq_ok.mpr
  have hlt : (out ++ [b]).length < size := by
    rw [List.length_append, List.length_singleton]
    omega
  exact ⟨_, Cursor.poke_wrote_zero _ hlt, rfl⟩

theorem Decoder.next_two (h : 0xc0 ≤ b.toNat ∧ b.toNat < 0xe0) (hroom : out.length + 2 ≤ size) :
    (Decoder.wrote size (b :: x :: p) out n).next = .ok (Decoder.wrote size p
      (out ++ [(x &&& 0x3f#8) ||| (b &&& 0x1f#8 &&& 0x03#8) <<< 6,
        (b &&& 0x1f#8) >>> 2]) (n + 1)) := by
  apply bind_eq_ok.mpr
  refine ⟨b, rfl, ?_⟩
  rw [if_neg (by omega), if_pos ((lead_two_iff b).mpr h)]
  apply bind_eq_ok.mpr
  refine ⟨x, rfl, ?_⟩
  apply bind_eq_ok.mpr
  refine ⟨_, Cursor.push_wrote _ (by omega), ?_⟩
  apply bind_eq_ok.mpr
  refine ⟨_, Cursor.push_wrote _ (by rw [List.length_append, List.length_singleton]; omega), ?_⟩
  rw [List.append_assoc]
  rfl

theorem Decoder.next_three (h : 0xe0 ≤ b.toNat ∧ b.toNat < 0xf0) (hroom : out.length + 2 ≤ size) :
    (Decoder.wrote size (b :: x :: y :: p) out n).next = .ok (Decoder.wrote size p
      (out ++ [(x &&& 0x3f#8 &&& 0x03#8) <<< 6 ||| (y &&& 0x3f#8),
        (b &&& 0x1f#8) <<< 4 ||| (x &&& 0x3f#8) >>> 2]) (n + 1)) := by
  apply bind_eq_ok.mpr
  refine ⟨b, rfl, ?_⟩
  rw [if_neg (by omega), if_neg (by rw [lead_two_iff]; omega), if_pos ((lead_three_iff b).mpr h)]
  apply bind_eq_ok.mpr
  refine ⟨x, rfl, ?_⟩
  apply bind_eq_ok.mpr
  refine ⟨y, rfl, ?_⟩
  apply bind_eq_ok.mpr
  refine ⟨_, Cursor.push_wrote _ (by omega), ?_⟩
  apply bind_eq_ok.mpr
  refine ⟨_, Cursor.push_wrote _ (by rw [List.length_append, List.length_singleton]; omega), ?_⟩
  rw [List.append_assoc]
  rfl

theorem Decoder.next_other (h : 0x80 ≤ b.toNat) (h' : b.toNat < 0xc0 ∨ 0xf0 ≤ b.toNat) :
    (Decoder.wrote size (b :: p) out n).next = .ok (Decoder.wrote size p out n) := by
  apply bind_eq_ok.mpr
  refine ⟨b, rfl, ?_⟩
  rw [if_neg (by omega), if_neg (by rw [lead_two_iff]; omega),
    if_neg (by rw [lead_three_iff]; omega)]
  rfl

/-- **What an iteration does**, whichever branch it takes, when the bytes it takes along
are there: it writes two bytes at most. -/
theorem Decoder.next_wrote (hfit : follow b ≤ p.length) (hroom : out.length + 2 ≤ size) :
    ∃ bs, bs.length ≤ 2 ∧ (Decoder.wrote size (b :: p) out n).next =
      .ok (Decoder.wrote size (p.drop (follow b)) (out ++ bs)
        (n + BitVec.ofNat 32 (counts b))) := by
  cases lead b with
  | one h =>
    rw [follow_other (by omega), counts, if_pos (Or.inl h)]
    exact ⟨[b], by simp, next_one h hroom⟩
  | two h =>
    rw [follow_two h] at hfit ⊢
    rw [counts, if_pos (by omega)]
    match p, hfit with
    | x :: p, _ => exact ⟨[_, _], Nat.le_refl 2, next_two h hroom⟩
  | three h =>
    rw [follow_three h] at hfit ⊢
    rw [counts, if_pos (by omega)]
    match p, hfit with
    | x :: y :: p, _ => exact ⟨[_, _], Nat.le_refl 2, next_three h hroom⟩
  | other h h' =>
    rw [follow_other h', counts, if_neg (by omega)]
    refine ⟨[], Nat.zero_le 2, ?_⟩
    rw [List.append_nil, next_other h h']
    simp

end Branches

theorem lt_length_of_deref {p : List CChar} {k : ℕ} {b : CChar} (h : deref (p.drop k) = .ok b) :
    k < p.length := by
  by_contra hle
  rw [List.drop_of_length_le (Nat.not_lt.mp hle)] at h
  cases h

/-- An iteration that does not fail has found the bytes it takes along. -/
theorem Decoder.next_eq_ok {s t : Decoder} (h : s.next = .ok t) :
    ∃ b p, s.p = b :: p ∧ follow b ≤ p.length ∧ t.p = p.drop (follow b) := by
  obtain ⟨b, hb, h⟩ := bind_eq_ok.mp h
  cases hp : s.p with
  | nil => rw [hp] at hb; cases hb
  | cons c p =>
    rw [hp] at hb h
    cases hb
    refine ⟨b, p, rfl, ?_⟩
    cases lead b with
    | one hlead =>
      rw [if_pos hlead] at h
      obtain ⟨_, -, h⟩ := bind_eq_ok.mp h
      obtain ⟨_, -, h⟩ := bind_eq_ok.mp h
      cases h
      rw [follow_other (by omega)]
      exact ⟨Nat.zero_le _, rfl⟩
    | two hlead =>
      rw [if_neg (by omega), if_pos ((lead_two_iff b).mpr hlead)] at h
      obtain ⟨x, hx, h⟩ := bind_eq_ok.mp h
      obtain ⟨_, -, h⟩ := bind_eq_ok.mp h
      obtain ⟨_, -, h⟩ := bind_eq_ok.mp h
      cases h
      rw [follow_two hlead]
      exact ⟨Nat.le_of_lt_succ (lt_length_of_deref hx), rfl⟩
    | three hlead =>
      rw [if_neg (by omega), if_neg (by rw [lead_two_iff]; omega),
        if_pos ((lead_three_iff b).mpr hlead)] at h
      obtain ⟨x, -, h⟩ := bind_eq_ok.mp h
      obtain ⟨y, hy, h⟩ := bind_eq_ok.mp h
      obtain ⟨_, -, h⟩ := bind_eq_ok.mp h
      obtain ⟨_, -, h⟩ := bind_eq_ok.mp h
      cases h
      rw [follow_three hlead]
      exact ⟨Nat.le_of_lt_succ (lt_length_of_deref hy), rfl⟩
    | other h1 h2 =>
      rw [if_neg (by omega), if_neg (by rw [lead_two_iff]; omega),
        if_neg (by rw [lead_three_iff]; omega)] at h
      cases h
      rw [follow_other h2]
      exact ⟨Nat.zero_le _, rfl⟩

/-! ## Strings of whole characters -/

/-- A byte string in which every character is as long as its first byte says. -/
inductive Whole : List CChar → Prop
  | nil : Whole []
  | cons {b : CChar} {s : List CChar} (hfit : follow b ≤ s.length)
      (h : Whole (s.drop (follow b))) : Whole (b :: s)

/-- The same, read from the left, with `k` bytes of a character still to come. -/
def wholeFrom : ℕ → List CChar → Bool
  | k, [] => k == 0
  | 0, b :: s => wholeFrom (follow b) s
  | k + 1, _ :: s => wholeFrom k s

theorem wholeFrom_iff {k : ℕ} {s : List CChar} :
    wholeFrom k s = true ↔ k ≤ s.length ∧ Whole (s.drop k) := by
  induction s generalizing k with
  | nil =>
    cases k with
    | zero => exact iff_of_true rfl ⟨Nat.le_refl 0, .nil⟩
    | succ k => exact iff_of_false nofun fun h => absurd h.1 (Nat.not_succ_le_zero k)
  | cons b s ih =>
    cases k with
    | zero =>
      rw [wholeFrom, ih]
      constructor
      · rintro ⟨hfit, h⟩
        exact ⟨Nat.zero_le _, .cons hfit h⟩
      · rintro ⟨-, h⟩
        cases h with
        | cons hfit h => exact ⟨hfit, h⟩
    | succ k => rw [wholeFrom, ih, List.length_cons, Nat.succ_le_succ_iff, List.drop_succ_cons]

instance : DecidablePred Whole := fun s =>
  decidable_of_iff (wholeFrom 0 s = true) (by
    rw [wholeFrom_iff]
    exact and_iff_right (Nat.zero_le _))

/-! ## The count of the text field

`onTextFieldInsertText` asks for the number alone, and is modelled with a count of its
own (`SurvivalGame.utf8ToUnicode`).
-/

/-- How the bytes of a branch are counted. -/
theorem utf8ToUnicode_cons {b : CChar} (h0 : b ≠ 0) (p : List CChar) :
    SurvivalGame.utf8ToUnicode 0 (b :: p) =
      (· + counts b) <$> SurvivalGame.utf8ToUnicode (follow b) p := by
  rw [SurvivalGame.utf8ToUnicode, if_neg h0]
  simp only [lead_two_iff, lead_three_iff]
  cases lead b with
  | one h => rw [if_pos h, follow_other (by omega), counts, if_pos (Or.inl h)]
  | two h => rw [if_neg (by omega), if_pos h, follow_two h, counts, if_pos (by omega)]
  | three h =>
    rw [if_neg (by omega), if_neg (by omega), if_pos h, follow_three h, counts, if_pos (by omega)]
  | other h h' =>
    rw [if_neg (by omega), if_neg (by omega), if_neg (by omega), follow_other h', counts,
      if_neg (by omega)]
    simp

/-- The bytes that are taken along are to be there. -/
theorem utf8ToUnicode_skip_eq_ok {skip m : ℕ} {p : List CChar} :
    SurvivalGame.utf8ToUnicode skip p = .ok m ↔
      skip ≤ p.length ∧ SurvivalGame.utf8ToUnicode 0 (p.drop skip) = .ok m := by
  induction p generalizing skip with
  | nil =>
    cases skip with
    | zero => exact (and_iff_right (Nat.le_refl 0)).symm
    | succ skip => exact iff_of_false nofun fun h => absurd h.1 (Nat.not_succ_le_zero skip)
  | cons b p ih =>
    cases skip with
    | zero => exact (and_iff_right (Nat.zero_le _)).symm
    | succ skip =>
      rw [List.length_cons, Nat.succ_le_succ_iff, List.drop_succ_cons]
      exact ih

theorem utf8ToUnicode_cons_eq_ok {b : CChar} (h0 : b ≠ 0) {p : List CChar} {m : ℕ} :
    SurvivalGame.utf8ToUnicode 0 (b :: p) = .ok m ↔ follow b ≤ p.length ∧
      ∃ k, SurvivalGame.utf8ToUnicode 0 (p.drop (follow b)) = .ok k ∧ k + counts b = m := by
  rw [utf8ToUnicode_cons h0, map_eq_ok]
  constructor
  · rintro ⟨k, hk, hm⟩
    obtain ⟨hfit, hk⟩ := utf8ToUnicode_skip_eq_ok.mp hk
    exact ⟨hfit, k, hk, hm⟩
  · rintro ⟨hfit, k, hk, hm⟩
    exact ⟨k, utf8ToUnicode_skip_eq_ok.mpr ⟨hfit, hk⟩, hm⟩

theorem wholeFrom_iff_counted {k : ℕ} {s : List CChar} (h0 : 0 ∉ s) :
    wholeFrom k s = true ↔ ∃ m, SurvivalGame.utf8ToUnicode k (s ++ [0]) = .ok m := by
  induction s generalizing k with
  | nil =>
    cases k with
    | zero => exact iff_of_true rfl ⟨0, rfl⟩
    | succ k =>
      refine iff_of_false nofun ?_
      rintro ⟨m, hm⟩
      cases k <;> cases hm
  | cons b s ih =>
    rw [List.mem_cons, not_or] at h0
    cases k with
    | zero =>
      rw [wholeFrom, ih h0.2, List.cons_append, utf8ToUnicode_cons (Ne.symm h0.1)]
      simp [map_eq_ok]
    | succ k => exact ih h0.2

/-- A string is whole when its characters can be counted without a look behind the
terminating NUL. -/
theorem whole_iff_counted {s : List CChar} (h0 : 0 ∉ s) :
    Whole s ↔ ∃ m, SurvivalGame.utf8ToUnicode 0 (s ++ [0]) = .ok m := by
  rw [← wholeFrom_iff_counted h0, wholeFrom_iff]
  exact (and_iff_right (Nat.zero_le _)).symm

/-! ## The loop -/

theorem Decoder.more_eq_false {s : Decoder} : s.more = false ↔ s.p.head? = some 0 := by
  rw [more, decide_eq_false_iff_not, not_not]

theorem Decoder.more_of_ne {s : Decoder} {b : CChar} {p : List CChar} (hp : s.p = b :: p)
    (h0 : b ≠ 0) : s.more = true := by
  rw [more, hp]
  exact decide_eq_true fun h => h0 (Option.some.inj h)

theorem counts_le_one (b : CChar) : counts b ≤ 1 := by
  unfold counts
  split <;> omega

/-- **The loop on a string with zeros behind it** stops at one of them, with the number
that `onTextFieldInsertText` is modelled to get. -/
theorem Decoder.iterates_of_counted {s : List CChar} (h0 : 0 ∉ s) {zeros m size : ℕ}
    {out : List CChar} (hm : SurvivalGame.utf8ToUnicode 0 (s ++ List.replicate zeros 0) = .ok m)
    (hroom : out.length + 2 * s.length + 2 ≤ size) (n : CUInt) :
    ∃ k rest out', m ≤ k ∧ k ≤ s.length ∧
      Iterates more next k (Decoder.wrote size (s ++ List.replicate zeros 0) out n)
        (Decoder.wrote size (0 :: rest) out' (n + BitVec.ofNat 32 m)) := by
  induction hlen : s.length using Nat.strong_induction_on generalizing s zeros m out n with
  | _ len ih =>
    subst hlen
    cases s with
    | nil =>
      cases zeros with
      | zero => cases hm
      | succ zeros =>
        cases hm
        refine ⟨0, List.replicate zeros 0, out, Nat.le_refl 0, Nat.le_refl 0, ?_⟩
        rw [show n + BitVec.ofNat 32 0 = n from BitVec.add_zero n]
        exact .zero
    | cons b s =>
      rw [List.mem_cons, not_or] at h0
      rw [List.length_cons] at hroom ih ⊢
      rw [List.cons_append] at hm ⊢
      obtain ⟨hfit, m', hm', rfl⟩ := (utf8ToUnicode_cons_eq_ok (Ne.symm h0.1)).mp hm
      obtain ⟨bs, hbs, hnext⟩ := next_wrote (n := n) hfit (show out.length + 2 ≤ size by omega)
      rw [List.drop_append, List.drop_replicate] at hm' hnext
      have hroom' : (out ++ bs).length + 2 * (s.drop (follow b)).length + 2 ≤ size := by
        rw [List.length_append, List.length_drop]
        omega
      have hlt : (s.drop (follow b)).length < s.length + 1 := by
        rw [List.length_drop]
        omega
      obtain ⟨k, rest, out', hmk, hk, hiter⟩ :=
        ih _ hlt (fun h => h0.2 (List.mem_of_mem_drop h)) hm' hroom' _ rfl
      have hcount := counts_le_one b
      refine ⟨k + 1, rest, out', by omega, by omega, ?_⟩
      rw [BitVec.ofNat_add, BitVec.add_comm (BitVec.ofNat 32 m'), ← BitVec.add_assoc]
      exact .succ (more_of_ne rfl (Ne.symm h0.1)) hnext hiter

/-- A loop that ends has counted. -/
theorem Decoder.counted_of_iterates {k : ℕ} {d t : Decoder} (h : Iterates more next k d t)
    (hend : t.more = false) : ∃ m, SurvivalGame.utf8ToUnicode 0 d.p = .ok m := by
  induction h with
  | @zero d =>
    obtain ⟨rest, hp⟩ := List.head?_eq_some_iff.mp (more_eq_false.mp hend)
    rw [hp]
    exact ⟨0, rfl⟩
  | @succ k d u t hc hu hiter ih =>
    obtain ⟨m, hm⟩ := ih hend
    obtain ⟨b, p, hp, hfit, hup⟩ := next_eq_ok hu
    have hb : b ≠ 0 := by
      rintro rfl
      rw [more_eq_false.mpr (by rw [hp]; rfl)] at hc
      cases hc
    rw [hup] at hm
    rw [hp]
    exact ⟨_, (utf8ToUnicode_cons_eq_ok hb).mpr ⟨hfit, m, hm, rfl⟩⟩

/-! ## The call -/

/-- `utf8_to_unicode` returns `n` for the string `s`, and has then read nothing behind the
terminating NUL and written nothing behind its buffer. -/
def Returns (s : List CChar) (n : Int) : Prop :=
  ∃ fuel result, utf8ToUnicode fuel (s ++ [0]) = .ok (result, n)

theorem utf8ToUnicode_eq_ok {fuel : ℕ} {input result : List CChar} {n : Int} :
    utf8ToUnicode fuel input = .ok (result, n) ↔
      ∃ s, whileM Decoder.more Decoder.next .fuel fuel (Decoder.start input) = .ok s ∧
        result = s.tmp.buf ∧ n = s.resultsize.toInt := by
  rw [utf8ToUnicode, bind_eq_ok]
  constructor
  · rintro ⟨s, hs, h⟩
    cases h
    exact ⟨s, hs, rfl, rfl⟩
  · rintro ⟨s, hs, rfl, rfl⟩
    exact ⟨s, hs, rfl⟩

/-- The result does not depend on the bound. -/
theorem utf8ToUnicode_unique {fuel fuel' : ℕ} {input : List CChar} {r r' : List CChar × Int}
    (h : utf8ToUnicode fuel input = .ok r) (h' : utf8ToUnicode fuel' input = .ok r') : r = r' := by
  obtain ⟨t, ht, hbuf, hsize⟩ := utf8ToUnicode_eq_ok.mp h
  obtain ⟨t', ht', hbuf', hsize'⟩ := utf8ToUnicode_eq_ok.mp h'
  obtain rfl := whileM_unique ht ht'
  exact Prod.ext (hbuf.trans hbuf'.symm) (hsize.trans hsize'.symm)

theorem Decoder.start_eq {s : List CChar} (h0 : 0 ∉ s) (zeros : ℕ) :
    Decoder.start (s ++ List.replicate zeros 0) =
      Decoder.wrote (s.length * 2 + 2) (s ++ List.replicate zeros 0) [] 0 := by
  have hlen : strlen (s ++ List.replicate zeros 0) = s.length := by
    cases zeros with
    | zero => rw [List.replicate_zero, List.append_nil, strlen_of_nul_free h0]
    | succ zeros => rw [List.replicate_succ, strlen_append_nul, strlen_of_nul_free h0]
  rw [start, hlen]
  rfl

/-- The call on a string whose characters are counted. -/
theorem returns_of_counted {s : List CChar} (h0 : 0 ∉ s) {zeros m : ℕ}
    (hm : SurvivalGame.utf8ToUnicode 0 (s ++ List.replicate zeros 0) = .ok m) :
    m ≤ s.length ∧ ∃ fuel result, utf8ToUnicode fuel (s ++ List.replicate zeros 0) =
      .ok (result, (BitVec.ofNat 32 m).toInt) := by
  have hroom : ([] : List CChar).length + 2 * s.length + 2 ≤ s.length * 2 + 2 := by
    rw [List.length_nil]
    omega
  obtain ⟨k, rest, out, hmk, hk, hiter⟩ := Decoder.iterates_of_counted h0 hm hroom 0
  rw [show (0 : CUInt) + BitVec.ofNat 32 m = BitVec.ofNat 32 m from BitVec.zero_add _,
    ← Decoder.start_eq h0] at hiter
  exact ⟨Nat.le_trans hmk hk, k, _,
    utf8ToUnicode_eq_ok.mpr ⟨_, whileM_eq_ok.mpr ⟨k, Nat.le_refl k, hiter, rfl⟩, rfl, rfl⟩⟩

/-- **What the call returns**, on a string with zeros behind it: the number that
`onTextFieldInsertText` is modelled to get, as an `int`. -/
theorem returns_iff_counted {s : List CChar} (h0 : 0 ∉ s) (zeros : ℕ) {n : Int} :
    (∃ fuel result, utf8ToUnicode fuel (s ++ List.replicate zeros 0) = .ok (result, n)) ↔
      ∃ m, SurvivalGame.utf8ToUnicode 0 (s ++ List.replicate zeros 0) = .ok m ∧
        n = (BitVec.ofNat 32 m).toInt := by
  constructor
  · rintro ⟨fuel, result, h⟩
    obtain ⟨t, ht, -⟩ := utf8ToUnicode_eq_ok.mp h
    obtain ⟨k, -, hiter, hend⟩ := whileM_eq_ok.mp ht
    obtain ⟨m, hm⟩ := Decoder.counted_of_iterates hiter hend
    obtain ⟨-, fuel', result', h'⟩ := returns_of_counted h0 hm
    exact ⟨m, hm, congrArg Prod.snd (utf8ToUnicode_unique h h')⟩
  · rintro ⟨m, hm, rfl⟩
    exact (returns_of_counted h0 hm).2

/-- **The count of `onTextFieldInsertText`** is what its call of `utf8_to_unicode` on the
array `t` returns. -/
theorem characterCount_eq_ok_iff_returns {text : List CChar} {n : ℕ} :
    characterCount text = .ok n ↔
      ∃ t, strcpy (cStr text) = .ok t ∧ ∃ fuel result, utf8ToUnicode fuel t = .ok (result, n) := by
  have h0 : 0 ∉ cStr text := zero_not_mem_cStr text
  rw [characterCount_eq_ok]
  constructor
  · rintro ⟨hlt, h⟩
    obtain ⟨hle, hcall⟩ := returns_of_counted h0 h
    rw [toInt_ofNat_of_lt (by omega)] at hcall
    exact ⟨_, if_pos hlt, hcall⟩
  · rintro ⟨t, ht, hcall⟩
    rw [strcpy] at ht
    split at ht
    · rename_i hlt
      cases ht
      obtain ⟨m, hm, hn⟩ := (returns_iff_counted h0 _).mp hcall
      obtain ⟨hle, -⟩ := returns_of_counted h0 hm
      rw [toInt_ofNat_of_lt (by omega), Int.natCast_inj] at hn
      exact ⟨hlt, hn ▸ hm⟩
    · cases ht

/-- **When `utf8_to_unicode` stays in bounds.**  For every NUL-terminated byte string:
the loop ends, without reading behind the NUL or writing outside the `strlen * 2 + 2`
bytes of `result`, exactly when every first byte of two or three that it comes upon has
its tail bytes in front of the NUL. -/
theorem in_bounds_iff {s : List CChar} (h0 : 0 ∉ s) : (∃ n, Returns s n) ↔ Whole s := by
  rw [whole_iff_counted h0]
  constructor
  · rintro ⟨n, hn⟩
    obtain ⟨m, hm, -⟩ := (returns_iff_counted h0 1).mp hn
    exact ⟨m, hm⟩
  · rintro ⟨m, hm⟩
    exact ⟨_, (returns_iff_counted h0 1).mpr ⟨m, hm, rfl⟩⟩

/-- A first byte of two with a letter behind it, and half a character of four bytes. -/
theorem in_bounds_cut : (∃ n, Returns [0xc3, 0x61, 0x80, 0xf0, 0x9f] n) ↔
    Whole [0xc3, 0x61, 0x80, 0xf0, 0x9f] :=
  in_bounds_iff (by decide)

/-- The first byte of a Chinese character, as a text ends in after the last two bytes
were cut off: the loop reads behind the NUL. -/
theorem reads_behind_nul : (0 : CChar) ∉ [0xe4] ∧ ¬ ∃ n, Returns [0xe4] n := by
  refine ⟨by decide, ?_⟩
  rintro ⟨n, fuel, result, h⟩
  cases fuel with
  | zero => cases h
  | succ fuel => cases h

end SurvivalGame.MyCharSet
