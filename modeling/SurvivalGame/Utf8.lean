import Mathlib.Data.BitVec
import Mathlib.Data.List.TakeWhile
import Mathlib.Tactic.Common

/-! # UTF-8 text as bytes

`encode` is the byte string of a list of characters, by the standard library's
encoding of one character.  What byte-wise code can see of a character is in
`Shape`: a first byte that tells the length, and then tail bytes, which no other
character starts with.

`lastLength` is the length of the last character of a byte string, read from the
end: the tail bytes there and the byte before them.  It does not change when
something is put in front (`lastLength_append`), so all suffixes of a text that
contain a whole character agree about it.
-/
namespace Utf8

/-- The bytes of a character. -/
def bytes (c : Char) : List (BitVec 8) := (String.utf8EncodeChar c).map UInt8.toBitVec

/-- The bytes of a text. -/
def encode (cs : List Char) : List (BitVec 8) := cs.flatMap bytes

@[simp] theorem encode_nil : encode [] = [] := rfl

@[simp] theorem encode_cons (c : Char) (cs : List Char) :
    encode (c :: cs) = bytes c ++ encode cs := List.flatMap_cons

@[simp] theorem encode_append (cs ds : List Char) :
    encode (cs ++ ds) = encode cs ++ encode ds := List.flatMap_append

@[simp] theorem length_bytes (c : Char) : (bytes c).length = c.utf8Size := by
  simp [bytes]

theorem length_encode (cs : List Char) :
    (encode cs).length = (cs.map Char.utf8Size).sum := by
  induction cs with
  | nil => rfl
  | cons c cs ih => simp [ih]

theorem length_encode_le {cs : List Char} {k : Nat} (h : ∀ c ∈ cs, c.utf8Size ≤ k) :
    (encode cs).length ≤ k * cs.length := by
  induction cs with
  | nil => exact Nat.zero_le _
  | cons c cs ih =>
    have hc := h c List.mem_cons_self
    have hcs := ih fun d hd => h d (List.mem_cons_of_mem c hd)
    rw [encode_cons, List.length_append, length_bytes, List.length_cons, Nat.mul_succ]
    omega

/-- What is said of all characters of a text is decided along the text, not over all
characters there are. -/
instance (priority := 2000) decidableForallMem (p : Char → Prop) [DecidablePred p]
    (cs : List Char) : Decidable (∀ c ∈ cs, p c) := List.decidableBAll p cs

instance (priority := 2000) decidableExistsMem (p : Char → Prop) [DecidablePred p]
    (cs : List Char) : Decidable (∃ c ∈ cs, p c) := List.decidableBEx p cs

/-! ## The shape of a character -/

/-- A tail byte: 10xxxxxx. -/
def IsTail (b : BitVec 8) : Prop := 0x80 ≤ b.toNat ∧ b.toNat < 0xc0

instance : DecidablePred IsTail := fun _ => inferInstanceAs (Decidable (_ ∧ _))

/-- The bytes of one character, as far as their lengths tell. -/
inductive Shape : List (BitVec 8) → Prop
  | one {b : BitVec 8} (h : b.toNat < 0x80) : Shape [b]
  | two {b x : BitVec 8} (h : 0xc0 ≤ b.toNat ∧ b.toNat < 0xe0) (hx : IsTail x) : Shape [b, x]
  | three {b x y : BitVec 8} (h : 0xe0 ≤ b.toNat ∧ b.toNat < 0xf0) (hx : IsTail x)
      (hy : IsTail y) : Shape [b, x, y]
  | four {b x y z : BitVec 8} (h : 0xf0 ≤ b.toNat) (hx : IsTail x) (hy : IsTail y)
      (hz : IsTail z) : Shape [b, x, y, z]

theorem toNat_toBitVec_ofNat {n : Nat} (h : n < 256) : (UInt8.ofNat n).toBitVec.toNat = n := by
  simpa using h

theorem isTail_ofNat (n : Nat) : IsTail (UInt8.ofNat (n % 64 + 128)).toBitVec := by
  have h : n % 64 < 64 := Nat.mod_lt _ (by decide)
  unfold IsTail
  rw [toNat_toBitVec_ofNat (by omega)]
  omega

/-- **Every character has a shape.** -/
theorem shape_bytes (c : Char) : Shape (bytes c) := by
  unfold bytes String.utf8EncodeChar
  have hlead2 : c.val.toNat / 64 % 32 < 32 := Nat.mod_lt _ (by decide)
  have hlead3 : c.val.toNat / 4096 % 16 < 16 := Nat.mod_lt _ (by decide)
  have hlead4 : c.val.toNat / 262144 % 8 < 8 := Nat.mod_lt _ (by decide)
  simp only
  split
  · refine .one ?_
    rw [toNat_toBitVec_ofNat (by omega)]
    omega
  · split
    · refine .two ?_ (isTail_ofNat _)
      rw [toNat_toBitVec_ofNat (by omega)]
      omega
    · split
      · refine .three ?_ (isTail_ofNat _) (isTail_ofNat _)
        rw [toNat_toBitVec_ofNat (by omega)]
        omega
      · refine .four ?_ (isTail_ofNat _) (isTail_ofNat _) (isTail_ofNat _)
        rw [toNat_toBitVec_ofNat (by omega)]
        omega

/-- A first byte and tail bytes. -/
theorem Shape.eq_cons {s : List (BitVec 8)} (h : Shape s) :
    ∃ b xs, s = b :: xs ∧ ¬ IsTail b ∧ ∀ x ∈ xs, IsTail x := by
  cases h with
  | one h => exact ⟨_, _, rfl, fun ht => by unfold IsTail at ht; omega, by simp⟩
  | two h hx => exact ⟨_, _, rfl, fun ht => by unfold IsTail at ht; omega, by simpa using hx⟩
  | three h hx hy =>
    exact ⟨_, _, rfl, fun ht => by unfold IsTail at ht; omega, by simpa using ⟨hx, hy⟩⟩
  | four h hx hy hz =>
    exact ⟨_, _, rfl, fun ht => by unfold IsTail at ht; omega, by simpa using ⟨hx, hy, hz⟩⟩

theorem bytes_of_lt {c : Char} (h : c.toNat < 128) : bytes c = [BitVec.ofNat 8 c.toNat] := by
  have h : c.val.toNat ≤ 127 := Nat.le_of_lt_succ h
  unfold bytes String.utf8EncodeChar
  simp only [h, if_true]
  rfl

theorem Shape.length_eq_one {s : List (BitVec 8)} {b : BitVec 8} (h : Shape s) (hb : b ∈ s)
    (hlt : b.toNat < 0x80) : s.length = 1 := by
  have hlow : ∀ x, IsTail x → 0x80 ≤ x.toNat := fun x hx => hx.1
  cases h with
  | one => rfl
  | two h hx | three h hx | four h hx => grind

/-- A byte below 0x80 in a character is all of it. -/
theorem bytes_eq_singleton_of_mem {c : Char} {b : BitVec 8} (hb : b ∈ bytes c)
    (hlt : b.toNat < 0x80) : bytes c = [b] ∧ c.toNat = b.toNat := by
  have hsize := (shape_bytes c).length_eq_one hb hlt
  have hc : c.toNat < 128 := by
    rw [length_bytes, Char.utf8Size_eq_one_iff, UInt32.le_iff_toNat_le] at hsize
    exact Nat.lt_succ_of_le hsize
  rw [bytes_of_lt hc] at hb ⊢
  obtain rfl := List.mem_singleton.mp hb
  refine ⟨rfl, ?_⟩
  rw [BitVec.toNat_ofNat, Nat.mod_eq_of_lt (by omega)]

theorem char_eq_of_toNat {c d : Char} (h : c.toNat = d.toNat) : c = d :=
  Char.ext (UInt32.toNat_inj.mp h)

/-- A byte string holds a NUL exactly if the text does. -/
theorem zero_mem_encode_iff {cs : List Char} : 0 ∈ encode cs ↔ '\x00' ∈ cs := by
  rw [encode, List.mem_flatMap]
  constructor
  · rintro ⟨c, hc, h⟩
    obtain ⟨-, heq⟩ := bytes_eq_singleton_of_mem h (by decide)
    rwa [show c = '\x00' from char_eq_of_toNat heq] at hc
  · intro h
    exact ⟨_, h, by decide⟩

/-- The byte of a newline. -/
def newline : BitVec 8 := 10

theorem newline_mem_bytes_iff {c : Char} : newline ∈ bytes c ↔ c = '\n' := by
  constructor
  · intro h
    exact char_eq_of_toNat (bytes_eq_singleton_of_mem h (by decide)).2
  · rintro rfl
    decide

@[simp] theorem bytes_newline : bytes '\n' = [newline] := by decide

/-! ## The last character -/

/-- The length of the last character of a byte string: its trailing tail bytes and
the byte before them. -/
def lastLength (s : List (BitVec 8)) : Option Nat :=
  let tails := (s.reverse.takeWhile IsTail).length
  if tails < s.length then some (tails + 1) else none

/-- What a byte string ends in: some bytes, a byte that is no tail byte, and `n`
tail bytes. -/
theorem lastLength_eq_some_iff {s : List (BitVec 8)} {n : Nat} : lastLength s = some n ↔
    ∃ p b xs, s = p ++ b :: xs ∧ ¬ IsTail b ∧ (∀ x ∈ xs, IsTail x) ∧ n = xs.length + 1 := by
  have key (p : List (BitVec 8)) (b : BitVec 8) (xs : List (BitVec 8)) (hb : ¬ IsTail b)
      (hxs : ∀ x ∈ xs, IsTail x) : lastLength (p ++ b :: xs) = some (xs.length + 1) := by
    have htake : (p ++ b :: xs).reverse.takeWhile IsTail = xs.reverse := by
      rw [List.reverse_append, List.reverse_cons, List.append_assoc, List.takeWhile_append_of_pos]
      · simp [hb]
      · simpa using hxs
    rw [lastLength, htake]
    simp only [List.length_reverse, List.length_append, List.length_cons]
    rw [if_pos (by omega)]
  constructor
  · intro h
    rw [lastLength] at h
    split at h
    · rename_i hlt
      cases h
      -- the string read from the end is not all tail bytes
      cases hdrop : s.reverse.dropWhile IsTail with
      | nil =>
        have hall := List.takeWhile_append_dropWhile (p := IsTail) (l := s.reverse)
        have hlen := congrArg List.length hall
        rw [hdrop, List.append_nil, List.length_reverse] at hlen
        omega
      | cons b p =>
        have hb : ¬ IsTail b := by
          have := List.head_dropWhile_not (p := IsTail) (l := s.reverse) (by rw [hdrop]; nofun)
          simpa [hdrop] using this
        refine ⟨p.reverse, b, (s.reverse.takeWhile IsTail).reverse, ?_, hb, ?_, by simp⟩
        · have hsplit := List.takeWhile_append_dropWhile (p := IsTail) (l := s.reverse)
          rw [hdrop] at hsplit
          calc s = (s.reverse.takeWhile IsTail ++ b :: p).reverse := by
                rw [hsplit, List.reverse_reverse]
            _ = _ := by simp
        · intro x hx
          simpa using List.mem_takeWhile_imp (List.mem_reverse.mp hx)
    · cases h
  · rintro ⟨p, b, xs, rfl, hb, hxs, rfl⟩
    exact key p b xs hb hxs

theorem lastLength_append {s : List (BitVec 8)} {n : Nat} (p : List (BitVec 8))
    (h : lastLength s = some n) : lastLength (p ++ s) = some n := by
  obtain ⟨q, b, xs, rfl, hb, hxs, rfl⟩ := lastLength_eq_some_iff.mp h
  exact lastLength_eq_some_iff.mpr ⟨p ++ q, b, xs, by simp, hb, hxs, rfl⟩

theorem lastLength_suffix {s t : List (BitVec 8)} {n : Nat} (hst : s <:+ t)
    (h : lastLength s = some n) : lastLength t = some n := by
  obtain ⟨p, rfl⟩ := hst
  exact lastLength_append p h

/-- The last character of a text. -/
theorem lastLength_encode_concat (cs : List Char) (c : Char) :
    lastLength (encode (cs ++ [c])) = some c.utf8Size := by
  obtain ⟨b, xs, heq, hb, hxs⟩ := (shape_bytes c).eq_cons
  refine lastLength_eq_some_iff.mpr ⟨encode cs, b, xs, by simp [heq], hb, hxs, ?_⟩
  rw [← length_bytes, heq]
  rfl

theorem lastLength_bytes (c : Char) : lastLength (bytes c) = some c.utf8Size := by
  simpa using lastLength_encode_concat [] c

theorem lastLength_le {s : List (BitVec 8)} {n : Nat} (h : lastLength s = some n) :
    0 < n ∧ n ≤ s.length := by
  obtain ⟨p, b, xs, rfl, -, -, rfl⟩ := lastLength_eq_some_iff.mp h
  simp

theorem exists_lastLength {s : List (BitVec 8)} (h : ∃ b ∈ s, ¬ IsTail b) :
    ∃ n, lastLength s = some n := by
  induction s with
  | nil => obtain ⟨b, hb, -⟩ := h; cases hb
  | cons a s ih =>
    by_cases hs : ∃ b ∈ s, ¬ IsTail b
    · obtain ⟨n, hn⟩ := ih hs
      exact ⟨n, lastLength_append [a] hn⟩
    · obtain ⟨b, hb, hlead⟩ := h
      rcases List.mem_cons.mp hb with rfl | hb
      · refine ⟨s.length + 1, lastLength_eq_some_iff.mpr ⟨[], b, s, rfl, hlead, ?_, rfl⟩⟩
        exact fun x hx => by_contra fun hxt => hs ⟨x, hx, hxt⟩
      · exact absurd ⟨b, hb, hlead⟩ hs

/-- If the one byte string has a last character, it is that of the other. -/
def EndsLike (s t : List (BitVec 8)) : Prop := ∀ n, lastLength s = some n → lastLength t = some n

theorem EndsLike.refl (s : List (BitVec 8)) : EndsLike s s := fun _ hn => hn

theorem EndsLike.of_suffix {s t : List (BitVec 8)} (h : s <:+ t) : EndsLike s t :=
  fun _ hn => lastLength_suffix h hn

/-- Bytes put behind both, whatever they are. -/
theorem EndsLike.append {s t : List (BitVec 8)} (h : EndsLike s t) (u : List (BitVec 8)) :
    EndsLike (s ++ u) (t ++ u) := by
  intro n hn
  by_cases hu : ∃ b ∈ u, ¬ IsTail b
  · obtain ⟨k, hk⟩ := exists_lastLength hu
    rw [lastLength_append s hk] at hn
    rw [lastLength_append t hk, hn]
  · -- the last character begins in front of `u`, which is all tail bytes
    have htails : ∀ x ∈ u, IsTail x := fun x hx => by_contra fun hxt => hu ⟨x, hx, hxt⟩
    obtain ⟨p, b, xs, heq, hb, hxs, rfl⟩ := lastLength_eq_some_iff.mp hn
    rcases List.append_eq_append_iff.mp heq with ⟨r, -, hr⟩ | ⟨r, hs, hr⟩
    · exact absurd (htails b (by rw [hr]; simp)) hb
    · cases r with
      | nil =>
        rw [List.nil_append] at hr
        exact absurd (htails b (by rw [← hr]; simp)) hb
      | cons a r =>
        rw [List.cons_append] at hr
        obtain ⟨rfl, rfl⟩ := List.cons.inj hr
        have hlast : lastLength s = some (r.length + 1) := lastLength_eq_some_iff.mpr
          ⟨p, b, r, hs, hb, fun x hx => hxs x (List.mem_append_left _ hx), rfl⟩
        obtain ⟨q, d, ys, rfl, hd, hys, hlen⟩ := lastLength_eq_some_iff.mp (h _ hlast)
        refine lastLength_eq_some_iff.mpr ⟨q, d, ys ++ u, by simp, hd, ?_, ?_⟩
        · exact fun x hx => (List.mem_append.mp hx).elim (hys x) (htails x)
        · rw [List.length_append, List.length_append]
          omega

end Utf8
