import SurvivalGame.Insertion

/-! # The window of the text field

`WindowAt f cs p` says that the counters of the field are right: `cs` is the text,
`codeNumType` begins with its byte lengths, and the window begins at character
`p`.  Both `while` loops keep it, whatever is displayed and however wide it is:
an iteration moves the window by one character (`slideRight_windowAt`,
`slideLeft_windowAt`), and what a loop ends in is the field with its window moved
(`insertLoop_spec`, `deleteLoop_spec`).

An insertion cannot run past the text, because a single character fits the frame.
A deletion makes wider what it shows, so that it may come to the first character
and read before `codeNumType` (`slideLeft_zero`).
-/
namespace SurvivalGame
open Loops Utf8

/-! ## The table of byte lengths -/

/-- `codeNumType` begins with the byte lengths of the characters. -/
def Sizes (codes : Vector Int 50) (cs : List Char) : Prop :=
  cs.map (fun c => (c.utf8Size : Int)) <+: codes.toList

namespace Sizes
variable {codes : Vector Int 50} {cs ds : List Char}

theorem length_le (h : Sizes codes cs) : cs.length ≤ 50 := by
  simpa using List.IsPrefix.length_le h

theorem get (h : Sizes codes cs) {i : Nat} (hi : i < cs.length) :
    codes.get ⟨i, Nat.lt_of_lt_of_le hi h.length_le⟩ = (cs[i].utf8Size : Int) := by
  have hget := h.getElem (i := i) (by simpa using hi)
  rw [List.getElem_map, Vector.getElem_toList] at hget
  exact hget.symm

theorem of_append (h : Sizes codes (cs ++ ds)) : Sizes codes cs := by
  unfold Sizes at h
  rw [List.map_append] at h
  exact (List.prefix_append _ _).trans h

/-- Elements behind the lengths may be anything. -/
theorem set_of_le (h : Sizes codes cs) {i : Nat} {v : Int} (hi : i < 50) (hle : cs.length ≤ i) :
    Sizes (codes.set i v hi) cs := by
  obtain ⟨rest, hrest⟩ := h
  refine ⟨rest.set (i - cs.length) v, ?_⟩
  rw [Vector.toList_set, ← hrest, List.set_append_right (h := by simpa using hle)]
  simp

/-- The length of a new character is written behind the others. -/
theorem set_append (h : Sizes codes cs) (hlt : cs.length < 50) (c : Char) :
    Sizes (codes.set cs.length c.utf8Size hlt) (cs ++ [c]) := by
  obtain ⟨rest, hrest⟩ := h
  cases rest with
  | nil =>
    have := congrArg List.length hrest
    simp at this
    omega
  | cons x rest =>
    refine ⟨rest, ?_⟩
    rw [Vector.toList_set, ← hrest, List.set_append_right (h := by simp)]
    simp

/-- The sum of the first lengths is the number of bytes before a character. -/
theorem sum_take (h : Sizes codes cs) {p : Nat} (hp : p ≤ cs.length) :
    (codes.toList.take p).sum = ((encode (cs.take p)).length : Int) := by
  obtain ⟨rest, hrest⟩ := h
  rw [← hrest, List.take_append_of_le_length (by simpa using hp), ← List.map_take, length_encode]
  induction cs.take p with
  | nil => rfl
  | cons c cs ih => simp [ih]

end Sizes

/-! ## The window -/

/-- A character that can be in the text: `split_text` cuts it off whole, and it is
not a NUL. -/
def Plain (c : Char) : Prop := OneOrThree c ∧ c ≠ '\x00'

instance : DecidablePred Plain := fun _ => inferInstanceAs (Decidable (_ ∧ _))

theorem nul_free_of_plain {cs : List Char} (h : ∀ c ∈ cs, Plain c) : 0 ∉ encode cs :=
  fun h0 => (h _ (zero_mem_encode_iff.mp h0)).2 rfl

theorem nnLen_of_plain {c : Char} (h : OneOrThree c) (len : Nat) :
    nnLen c.utf8Size len = c.utf8Size := by
  unfold nnLen
  rcases h with h | h <;> rw [h] <;> rfl

/-- Bytes up to one character further. -/
theorem length_encode_take_succ {cs : List Char} {p : Nat} (hp : p < cs.length) :
    (encode (cs.take (p + 1))).length = (encode (cs.take p)).length + cs[p].utf8Size := by
  rw [List.take_succ_eq_append_getElem hp, encode_append, List.length_append, encode_cons,
    encode_nil, List.append_nil, length_bytes]

theorem drop_encode_take (cs : List Char) (p : Nat) :
    (encode cs).drop (encode (cs.take p)).length = encode (cs.drop p) := by
  conv_lhs => rw [← List.take_append_drop p cs, encode_append]
  rw [List.take_append_drop, List.drop_left]

theorem length_encode_take_le (cs : List Char) (p : Nat) :
    (encode (cs.take p)).length ≤ (encode cs).length := by
  conv_rhs => rw [← List.take_append_drop p cs, encode_append, List.length_append]
  exact Nat.le_add_right _ _

namespace TextField

/-- The books are right: the text is `cs`, and the window begins at its character
`p`. -/
structure WindowAt (f : TextField) (cs : List Char) (p : Nat) : Prop where
  text : f.pInputText = encode cs
  chars : ∀ c ∈ cs, Plain c
  sizes : Sizes f.codeNumType cs
  codeCur : f.codeCur = cs.length
  startCur : f.startCur = p
  nLenCount : f.nLenCount = (encode (cs.take p)).length

/-- The field with its window at character `p`, and the text from there shown. -/
def moved (f : TextField) (cs : List Char) (p : Nat) : TextField :=
  { f with
    startCur := p
    nLenCount := (encode (cs.take p)).length
    inpuText := encode (cs.drop p)
    shown := encode (cs.drop p) }

section Window
variable {f f' : TextField} {cs : List Char} {c : Char} {p q : Nat}

theorem windowAt_init : WindowAt init [] 0 :=
  ⟨rfl, nofun, List.nil_prefix, rfl, rfl, rfl⟩

theorem WindowAt.moved (h : WindowAt f cs p) (q : Nat) : WindowAt (f.moved cs q) cs q :=
  ⟨h.text, h.chars, h.sizes, h.codeCur, rfl, rfl⟩

theorem WindowAt.whole (h : WindowAt f cs p) (s : List CChar) : WindowAt (f.whole s) cs 0 :=
  ⟨h.text, h.chars, h.sizes, h.codeCur, rfl, rfl⟩

theorem WindowAt.typed (h : WindowAt f cs p) (hp : p ≤ cs.length) (hc : Plain c)
    (hlt : cs.length < 50) : WindowAt
      (f.typed (f.codeNumType.set cs.length (bytes c).length) (bytes c)) (cs ++ [c]) p where
  text := by simp [TextField.typed, h.text]
  chars := by simpa [or_imp, forall_and] using ⟨h.chars, hc⟩
  sizes := by
    rw [length_bytes]
    exact h.sizes.set_append hlt c
  codeCur := by simp [TextField.typed, h.codeCur]
  startCur := h.startCur
  nLenCount := by rw [List.take_append_of_le_length hp]; exact h.nLenCount

theorem take_erased (cs : List Char) (c : Char) :
    (encode (cs ++ [c])).take ((encode (cs ++ [c])).length - c.utf8Size) = encode cs := by
  rw [encode_append, List.length_append]
  simp

theorem WindowAt.erased (h : WindowAt f (cs ++ [c]) p) (hp : p ≤ cs.length)
    (hlt : cs.length + 1 < 50) : WindowAt
      (f.erased (f.codeNumType.set (cs.length + 1) 0) c.utf8Size) cs p where
  text := by simp only [TextField.erased, h.text, take_erased]
  chars := fun d hd => h.chars d (List.mem_append_left _ hd)
  sizes := h.sizes.of_append.set_of_le hlt (Nat.le_succ _)
  codeCur := by simp [TextField.erased, h.codeCur]
  startCur := h.startCur
  nLenCount := by
    have := h.nLenCount
    rwa [List.take_append_of_le_length hp] at this

/-- An iteration of the loop of an insertion moves the window one character to the
right. -/
theorem slideRight_windowAt (h : WindowAt f cs p) (hp : p < cs.length) (ss : List CChar) :
    slideRight ss f = .ok (f.moved cs (p + 1)) := by
  have hlen := length_encode_take_succ hp
  refine slideRight_eq_ok.mpr ⟨cs[p].utf8Size, encode (cs.drop (p + 1)), ?_, ?_, ?_⟩
  · rw [h.startCur, readCode_natCast (Nat.lt_of_lt_of_le hp h.sizes.length_le), h.sizes.get hp]
  · rw [nnLen_of_plain (h.chars _ (List.getElem_mem hp)).1, h.nLenCount, ← Nat.cast_add, ← hlen,
      h.text, substr_natCast (length_encode_take_le cs _), drop_encode_take]
  · rw [nnLen_of_plain (h.chars _ (List.getElem_mem hp)).1, cStr_of_nul_free
      (nul_free_of_plain fun c hc => h.chars c (List.mem_of_mem_drop hc)), h.startCur, h.nLenCount,
      ← Nat.cast_add, ← hlen]
    rfl

/-- An iteration of the loop of a deletion moves it one character to the left. -/
theorem slideLeft_windowAt (h : WindowAt f cs (p + 1)) (hp : p < cs.length) (nLen : Nat) :
    slideLeft nLen f = .ok (f.moved cs p) := by
  have hlen := length_encode_take_succ hp
  have hstart : f.startCur - 1 = p := by rw [h.startCur]; omega
  have hcount : max 0 (f.nLenCount - nnLen cs[p].utf8Size nLen) = (encode (cs.take p)).length := by
    rw [nnLen_of_plain (h.chars _ (List.getElem_mem hp)).1, h.nLenCount, hlen]
    omega
  refine slideLeft_eq_ok.mpr ⟨cs[p].utf8Size, encode (cs.drop p), ?_, ?_, ?_⟩
  · rw [hstart, readCode_natCast (Nat.lt_of_lt_of_le hp h.sizes.length_le), h.sizes.get hp]
  · rw [hcount, h.text, substr_natCast (length_encode_take_le cs _), drop_encode_take]
  · rw [hcount, hstart, Int.max_eq_right (Int.natCast_nonneg p)]
    rfl

/-- From the first character it reads `codeNumType[-1]`. -/
theorem slideLeft_zero (h : WindowAt f cs 0) (nLen : Nat) :
    slideLeft nLen f = .error .codeRead := by
  rw [slideLeft, h.startCur, readCode_neg (by decide)]
  rfl

end Window
/-! ## The loops -/

section Loops
variable {α : Type*} [LinearOrder α] {S : FieldSettings α} {fuel : Nat} {f f' : TextField}
  {cs : List Char} {c : Char} {p : Nat}

/-- Every single character fits the frame. -/
def SingleFits (S : FieldSettings α) : Prop := ∀ c, S.width (bytes c) ≤ S.inputFrameWidth

theorem SingleFits.fits (h : SingleFits S) (c : Char) : S.tooWide (bytes c) = false :=
  decide_eq_false (not_lt.mpr (h c))

/-- What is too wide has more than one character. -/
theorem succ_lt_of_tooWide (hS : SingleFits S) (hp : p < cs.length)
    (hwide : S.tooWide (encode (cs.drop p)) = true) : p + 1 < cs.length := by
  refine Nat.lt_of_le_of_ne hp fun hlast => ?_
  have hdrop : cs.drop p = [cs[p]] := by
    rw [List.drop_eq_getElem_cons hp, hlast, List.drop_length]
  rw [hdrop, encode_cons, encode_nil, List.append_nil, hS.fits] at hwide
  cases hwide

/-- What the loop of an insertion can end in: it makes no iteration, or it ends at
the first character behind the window's start from which the text fits. -/
inductive Slid (S : FieldSettings α) (cs : List Char) (p : Nat) (f : TextField) : TextField → Prop
  | stays (h : S.tooWide f.shown = false) : Slid S cs p f f
  | moves {q : Nat} (hwide : S.tooWide f.shown = true) (hpq : p < q) (hq : q < cs.length)
      (hfits : S.tooWide (encode (cs.drop q)) = false)
      (hbetween : ∀ r, p < r → r < q → S.tooWide (encode (cs.drop r)) = true) :
      Slid S cs p f (f.moved cs q)

/-- Where the loop of an insertion can be. -/
def Sliding (S : FieldSettings α) (cs : List Char) (p : Nat) (f g : TextField) : Prop :=
  g = f ∨ ∃ q, p < q ∧ q < cs.length ∧ g = f.moved cs q ∧
    ∀ r, p < r → r < q → S.tooWide (encode (cs.drop r)) = true

theorem sliding_step (hS : SingleFits S) (h : WindowAt f cs p) (hp : p + 1 < cs.length)
    {g : TextField} (hg : Sliding S cs p f g) (hwide : S.tooWide g.shown = true)
    (ss : List CChar) : ∃ g', slideRight ss g = .ok g' ∧ Sliding S cs p f g' ∧
      cs.length - g'.startCur.toNat < cs.length - g.startCur.toNat := by
  rcases hg with rfl | ⟨q, hpq, hq, rfl, hbetween⟩
  · refine ⟨_, slideRight_windowAt h (Nat.lt_of_succ_lt hp) ss, Or.inr ⟨p + 1, Nat.lt_succ_self p,
      hp, rfl, fun r _ _ => by omega⟩, ?_⟩
    rw [h.startCur]
    simp only [TextField.moved]
    omega
  · have hlt := succ_lt_of_tooWide hS hq hwide
    refine ⟨_, slideRight_windowAt (h.moved q) hq ss, Or.inr ⟨q + 1, Nat.lt_succ_of_lt hpq, hlt,
      rfl, fun r hr hrq => ?_⟩, ?_⟩
    · rcases Nat.lt_succ_iff_lt_or_eq.mp hrq with hrq | rfl
      · exact hbetween r hr hrq
      · exact hwide
    · simp only [TextField.moved]
      omega

theorem insertLoop_spec (hS : SingleFits S) (h : WindowAt f cs p) (hp : p + 1 < cs.length)
    {ss : List CChar}
    (hloop : whileM (fun f => S.tooWide f.shown) (slideRight ss) .fuel fuel f = .ok f') :
    Slid S cs p f f' := by
  obtain ⟨hf', hend⟩ := whileM_invariant (I := Sliding S cs p f) (fun g g' hg hwide hslide => by
    obtain ⟨g'', hslide', hg'', -⟩ := sliding_step hS h hp hg hwide ss
    rw [hslide] at hslide'
    cases hslide'
    exact hg'') hloop (Or.inl rfl)
  rcases hf' with rfl | ⟨q, hpq, hq, rfl, hbetween⟩
  · exact .stays hend
  · cases hwide : S.tooWide f.shown with
    | true => exact .moves hwide hpq hq hend hbetween
    | false =>
      -- a loop whose condition is false makes no iteration
      have hstop : whileM (fun f => S.tooWide f.shown) (slideRight ss) .fuel fuel f = .ok f :=
        whileM_of_not hwide
      rw [← Except.ok.inj (hstop.symm.trans hloop)]
      exact .stays hwide

theorem insertLoop_terminates (hS : SingleFits S) (h : WindowAt f cs p) (hp : p + 1 < cs.length)
    (ss : List CChar) (hfuel : cs.length ≤ fuel) :
    ∃ f', whileM (fun f => S.tooWide f.shown) (slideRight ss) .fuel fuel f = .ok f' :=
  whileM_terminates (I := Sliding S cs p f) (fun g => cs.length - g.startCur.toNat)
    (fun _ hg hwide => sliding_step hS h hp hg hwide ss) (Or.inl rfl)
    (Nat.le_trans (Nat.sub_le _ _) hfuel)

/-- The loop of a deletion ends at a character before the window's start from which
the text fits. -/
theorem deleteLoop_spec (h : WindowAt f cs p) (hp : p ≤ cs.length)
    (hwide : S.tooWide f.shown = true)
    {nLen : Nat}
    (hloop : whileM (fun f => S.tooWide f.shown) (slideLeft nLen) .fuel fuel f = .ok f') :
    ∃ q, q < p ∧ f' = f.moved cs q ∧ S.tooWide (encode (cs.drop q)) = false := by
  obtain ⟨hf', hend⟩ := whileM_invariant
    (I := fun g => g = f ∨ ∃ q, q < p ∧ g = f.moved cs q) (fun g g' hg _ hslide => by
      have hat : ∃ q, q ≤ p ∧ WindowAt g cs q ∧ f.moved cs = g.moved cs := by
        rcases hg with rfl | ⟨q, hq, rfl⟩
        · exact ⟨p, Nat.le_refl p, h, rfl⟩
        · exact ⟨q, Nat.le_of_lt hq, h.moved q, rfl⟩
      obtain ⟨q, hq, hg, hmoved⟩ := hat
      cases q with
      | zero => rw [slideLeft_zero hg] at hslide; cases hslide
      | succ q =>
        rw [slideLeft_windowAt hg (Nat.lt_of_lt_of_le hq hp)] at hslide
        cases hslide
        exact Or.inr ⟨q, hq, by rw [hmoved]⟩) hloop (Or.inl rfl)
  rcases hf' with rfl | ⟨q, hq, rfl⟩
  · rw [hwide] at hend; cases hend
  · exact ⟨q, hq, rfl, hend⟩

end Loops

end TextField
end SurvivalGame
