import Mathlib.Data.List.GetD
import SurvivalGame.StructurallyValid

/-! # What the UTF-8 check answers

The table is the automaton (`stateTable_eq`), the fast loops pass over nothing but
ASCII, and a scan that stops inside a character backs up to its first byte.  So the
bytes consumed are the longest text the string begins with, wherever in memory it is
(`longestText_utf8GenericScanFastAscii`).
-/
namespace SurvivalGame

open Utf8

/-! ## The table -/

theorem getD_flatten {rows : List (List Nat)} {n : Nat} (h : ∀ row ∈ rows, row.length = n)
    {i j : Nat} (hi : i < rows.length) (hj : j < n) :
    rows.flatten.getD (i * n + j) 0 = (rows.getD i []).getD j 0 := by
  induction rows generalizing i with
  | nil => cases hi
  | cons row rows ih =>
    have hrow := h row List.mem_cons_self
    rw [List.flatten_cons]
    cases i with
    | zero =>
      rw [Nat.zero_mul, Nat.zero_add, List.getD_append _ _ _ _ (by omega)]
      rfl
    | succ i =>
      have hn : (i + 1) * n + j - row.length = i * n + j := by
        rw [hrow, Nat.succ_mul]
        omega
      have hle : row.length ≤ (i + 1) * n + j := by
        rw [hrow, Nat.succ_mul]
        omega
      rw [List.getD_append_right _ _ _ _ hle, hn,
        ih (fun r hr => h r (List.mem_cons_of_mem _ hr)) (Nat.lt_of_succ_lt_succ hi)]
      rfl

/-- The number of a state: its row in the table. -/
def stateNumber : State → Nat
  | .start => 0
  | .one => 1
  | .afterE0 => 2
  | .two => 3
  | .afterF0 => 4
  | .three => 5
  | .afterF4 => 6
  | .afterED => 7
  | .surrogate => 8

/-- What the table has for a state and a byte. -/
def tableEntry (s : State) (b : CChar) : Nat :=
  match s.step b with
  | some t => stateNumber t
  | none => if s = .surrogate ∧ IsTail b then kExitReject else kExitIllegalStructure

theorem getD_entries_append (n entry : Nat) (row : List Nat) (i : Nat) :
    (entries n entry ++ row).getD i 0 = if i < n then entry else row.getD (i - n) 0 := by
  have hlength : (entries n entry).length = n := List.length_replicate
  split
  · rw [List.getD_append _ _ _ _ (by omega), List.getD_replicate _ ‹_›]
  · rw [List.getD_append_right _ _ _ _ (by omega), hlength]

theorem getD_entries (n entry i : Nat) :
    (entries n entry).getD i 0 = if i < n then entry else 0 := by
  rw [← List.append_nil (entries n entry), getD_entries_append, List.getD_nil]

theorem rows_eq (s : State) (b : CChar) :
    (utf8acceptnonsurrogatesRows.getD (stateNumber s) []).getD b.toNat 0 = tableEntry s b := by
  have hb := b.isLt
  cases s with
  | start =>
    simp only [utf8acceptnonsurrogatesRows, stateNumber, List.getD_cons_zero,
      List.append_assoc, getD_entries_append, getD_entries, tableEntry, State.step]
    by_cases h : b.toNat < 0xe0
    · grind [stateNumber]
    · by_cases h' : b.toNat < 0xf0 <;> grind [stateNumber]
  | _ =>
    simp only [utf8acceptnonsurrogatesRows, stateNumber, List.getD_cons_zero, List.getD_cons_succ,
      List.append_assoc, getD_entries_append, getD_entries, tableEntry, State.step]
    grind [IsTail, stateNumber]

/-- **The table is the automaton.** -/
theorem stateTable_eq (s : State) (b : CChar) :
    utf8acceptnonsurrogates.getD (stateNumber s * 256 + b.toNat) 0 = tableEntry s b := by
  have hlength : ∀ row ∈ utf8acceptnonsurrogatesRows, row.length = 256 := by
    simp [utf8acceptnonsurrogatesRows]
  have hnumber : stateNumber s < utf8acceptnonsurrogatesRows.length := by cases s <;> decide
  rw [utf8acceptnonsurrogates, getD_flatten hlength hnumber b.isLt, rows_eq]

theorem fast_eq_zero_iff {b : CChar} :
    utf8acceptnonsurrogatesObj.fast b = 0 ↔ b.toNat < 0x80 := by
  have hb := b.isLt
  change utf8acceptnonsurrogatesFast.getD b.toNat 0 = 0 ↔ _
  rw [utf8acceptnonsurrogatesFast, getD_entries_append, getD_entries]
  grind

theorem stateNumber_lt (s : State) : stateNumber s < 9 := by
  cases s <;> decide

theorem inStateZero_iff (s : State) :
    inStateZero utf8acceptnonsurrogatesObj (stateNumber s * 256) ↔ s = .start := by
  cases s <;> decide

theorem exit_le_tableEntry_iff {s : State} {b : CChar} :
    kExitIllegalStructure ≤ tableEntry s b ↔ s.step b = none := by
  rw [tableEntry]
  cases h : s.step b with
  | none =>
    simp only [iff_true]
    split <;> decide
  | some t =>
    have := stateNumber_lt t
    simp only [reduceCtorEq, iff_false, kExitIllegalStructure]
    omega

theorem tableEntry_ne_exitOK (s : State) (b : CChar) : tableEntry s b ≠ kExitOK := by
  rw [tableEntry]
  split
  · rename_i t _
    have := stateNumber_lt t
    simp only [kExitOK]
    omega
  · split <;> decide

/-! ## The fast loops -/

/-- The first `n` bytes are all there, and all ASCII. -/
def AsciiPrefix (str : List CChar) (n : Nat) : Prop :=
  n ≤ str.length ∧ ∀ b ∈ str.take n, b.toNat < 0x80

theorem AsciiPrefix.zero (str : List CChar) : AsciiPrefix str 0 := ⟨Nat.zero_le _, nofun⟩

theorem AsciiPrefix.append {s str : List CChar} {n : Nat} (hs : ∀ b ∈ s, b.toNat < 0x80)
    (h : AsciiPrefix str n) : AsciiPrefix (s ++ str) (s.length + n) := by
  refine ⟨by rw [List.length_append]; exact Nat.add_le_add_left h.1 _, ?_⟩
  rw [List.take_length_add_append]
  exact fun b hb => (List.mem_append.mp hb).elim (hs b) (h.2 b)

theorem AsciiPrefix.cons {b : CChar} {str : List CChar} {n : Nat} (hb : b.toNat < 0x80)
    (h : AsciiPrefix str n) : AsciiPrefix (b :: str) (n + 1) := by
  rw [Nat.add_comm]
  exact h.append (s := [b]) (by simpa using hb)

/-- Two loops one after the other. -/
theorem AsciiPrefix.add {str : List CChar} {n m : Nat} (h : AsciiPrefix str n)
    (h' : AsciiPrefix (str.drop n) m) : AsciiPrefix str (n + m) := by
  have hn : (str.take n).length = n := by rw [List.length_take, Nat.min_eq_left h.1]
  have := h'.append h.2
  rwa [hn, List.take_append_drop] at this

theorem asciiPrefix_untilAligned {passes : CChar → Bool}
    (h : ∀ b, passes b = true → b.toNat < 0x80) (src : Nat) (str : List CChar) :
    AsciiPrefix str (untilAligned passes src str) := by
  induction str generalizing src with
  | nil => exact .zero []
  | cons b str ih =>
    rw [untilAligned]
    split
    · rename_i hb
      exact (ih _).cons (h b hb.2)
    · exact .zero _

theorem asciiPrefix_asciiBytes (str : List CChar) : AsciiPrefix str (asciiBytes str) := by
  induction str with
  | nil => exact .zero []
  | cons b str ih =>
    rw [asciiBytes]
    split
    · exact ih.cons ‹_›
    · exact .zero _

theorem lt_of_getLsbD {b : CChar} (h : b.getLsbD 7 = false) : b.toNat < 0x80 := by
  have hmsb : b.msb = false := by rwa [BitVec.msb_eq_getLsbD_last]
  rw [BitVec.msb_eq_false_iff_two_mul_lt] at hmsb
  omega

/-- A word all of whose bits are in `temp` is four bytes of ASCII if `temp` has no
high bit. -/
theorem ascii_of_loadWord {b0 b1 b2 b3 : CChar} {temp : CUInt}
    (hsub : ∀ i, (loadWord b0 b1 b2 b3).getLsbD i = true → temp.getLsbD i = true)
    (h : temp &&& 0x80808080#32 = 0#32) : ∀ b ∈ [b0, b1, b2, b3], b.toNat < 0x80 := by
  have hbit (i : Nat) (hi : (0x80808080#32).getLsbD i = true) :
      (loadWord b0 b1 b2 b3).getLsbD i = false := by
    have := congrArg (BitVec.getLsbD · i) h
    simp only [BitVec.getLsbD_and, hi, Bool.and_true, BitVec.getLsbD_zero] at this
    exact Bool.eq_false_iff.mpr fun hword => by simp [hsub i hword] at this
  have h0 := hbit 7 rfl
  have h1 := hbit 15 rfl
  have h2 := hbit 23 rfl
  have h3 := hbit 31 rfl
  simp [loadWord, readLittleEndian32FromArray] at h0 h1 h2 h3
  simp [lt_of_getLsbD, *]

/-- A group of 8 bytes in front. -/
theorem AsciiPrefix.group {b0 b1 b2 b3 b4 b5 b6 b7 : CChar} {str : List CChar} {n : Nat}
    (hlow : ∀ b ∈ [b0, b1, b2, b3], b.toNat < 0x80)
    (hhigh : ∀ b ∈ [b4, b5, b6, b7], b.toNat < 0x80) (h : AsciiPrefix str n) :
    AsciiPrefix (b0 :: b1 :: b2 :: b3 :: b4 :: b5 :: b6 :: b7 :: str) (n + 8) := by
  have := (h.append hhigh).append hlow
  rwa [List.length_cons, ← Nat.add_assoc, Nat.add_comm _ n] at this

theorem asciiPrefix_asciiGroups (str : List CChar) : AsciiPrefix str (asciiGroups str) := by
  fun_induction asciiGroups str with
  | case1 b0 b1 b2 b3 b4 b5 b6 b7 str h ih =>
    refine ih.group (ascii_of_loadWord ?_ h) (ascii_of_loadWord ?_ h)
    all_goals
      intro i hi
      simp [hi]
  | case2 => exact .zero _
  | case3 => exact .zero _

theorem ascii_of_fast {b0 b1 b2 b3 : CChar}
    (h : ¬ utf8acceptnonsurrogatesObj.fast b0 ||| utf8acceptnonsurrogatesObj.fast b1 |||
      (utf8acceptnonsurrogatesObj.fast b2 ||| utf8acceptnonsurrogatesObj.fast b3) ≠ 0) :
    ∀ b ∈ [b0, b1, b2, b3], b.toNat < 0x80 := by
  simp only [ne_eq, Decidable.not_not, Nat.or_eq_zero_iff, fast_eq_zero_iff] at h
  simp [h]

theorem asciiPrefix_identityGroups (str : List CChar) :
    AsciiPrefix str (identityGroups utf8acceptnonsurrogatesObj str) := by
  fun_induction identityGroups utf8acceptnonsurrogatesObj str with
  | case1 => exact .zero _
  | case2 b0 b1 b2 b3 b4 b5 b6 b7 str s0123 s4567 temp h hlow hhigh =>
    exact (AsciiPrefix.zero _).append (ascii_of_fast hlow)
  | case3 b0 b1 b2 b3 b4 b5 b6 b7 str s0123 s4567 temp h hlow hhigh ih =>
    exact ih.group (ascii_of_fast hlow) (ascii_of_fast hhigh)
  | case4 b0 b1 b2 b3 b4 b5 b6 b7 str s0123 s4567 temp h ih =>
    -- `hiadd` is 0, so both words are part of `temp`
    have hadd (w : CUInt) : w + utf8acceptnonsurrogatesObj.hiadd = w := BitVec.add_zero w
    have h := Decidable.not_not.mp h
    refine ih.group (ascii_of_loadWord (fun i hi => ?_) h) (ascii_of_loadWord (fun i hi => ?_) h)
    all_goals simp [temp, s0123, s4567, hadd, hi]
  | case5 => exact .zero _

theorem asciiPrefix_identityBytes (src : Nat) (str : List CChar) :
    AsciiPrefix str (identityBytes utf8acceptnonsurrogatesObj src str) := by
  have haligned : AsciiPrefix str
      (untilAligned (fun b => utf8acceptnonsurrogatesObj.fast b = 0) src str) :=
    asciiPrefix_untilAligned (fun b hb => fast_eq_zero_iff.mp (of_decide_eq_true hb)) src str
  rw [identityBytes]
  split
  · exact haligned.add (asciiPrefix_identityGroups _)
  · exact haligned

/-! ## The scan -/

theorem byteScan_cons (s : State) (e : Nat) (b : CChar) (str : List CChar) :
    byteScan utf8acceptnonsurrogatesObj (stateNumber s * 256) e (b :: str) =
      match s.step b with
      | none => (1, stateNumber s * 256, tableEntry s b)
      | some t =>
        let (src, last) := byteScan utf8acceptnonsurrogatesObj (stateNumber t * 256)
          (stateNumber t) str
        (src + 1, last) := by
  have hentry : utf8acceptnonsurrogatesObj.stateTable.getD
      (utf8acceptnonsurrogatesObj.state0 + stateNumber s * 256 + b.toNat) 0 = tableEntry s b := by
    rw [← stateTable_eq, show utf8acceptnonsurrogatesObj.state0 = 0 from rfl, Nat.zero_add]
    rfl
  have hshift (n : Nat) : n <<< utf8acceptnonsurrogatesObj.entryShift = n * 256 :=
    Nat.shiftLeft_eq n 8
  simp only [byteScan, hentry, hshift]
  cases h : s.step b with
  | none => rw [if_pos (exit_le_tableEntry_iff.mpr h)]
  | some t =>
    have hlt : ¬ kExitIllegalStructure ≤ tableEntry s b := by
      rw [exit_le_tableEntry_iff, h]
      exact Option.some_ne_none t
    rw [if_neg hlt]
    simp only [tableEntry, h]

/-- A scan to the next character, and on from there. -/
theorem byteScan_of_advance {s : State} {str : List CChar} {k : Nat}
    (h : advance s str = some k) (e : Nat) :
    byteScan utf8acceptnonsurrogatesObj (stateNumber s * 256) e str =
      let (src, last) := byteScan utf8acceptnonsurrogatesObj 0 0 (str.drop k)
      (k + src, last) := by
  induction str generalizing s k e with
  | nil => cases h
  | cons b str ih =>
    rw [byteScan_cons]
    rw [advance] at h
    split at h
    · cases h
    · cases h
      simp only [‹s.step b = _›, Nat.add_comm 1]
      rfl
    · obtain ⟨j, hj, rfl⟩ := Option.map_eq_some_iff.mp h
      simp only [‹s.step b = _›, ih hj, List.drop_succ_cons, Nat.add_right_comm j]

/-- Where a scan stops that does not find the end of a character it is in: after tail
bytes, at the end or at a byte that cannot follow. -/
theorem byteScan_stuck {s : State} {str : List CChar} (hs : s ≠ .start)
    (h : advance s str = none) : ∃ j t, (∀ b ∈ str.take j, IsTail b) ∧ j ≤ str.length ∧
      t ≠ State.start ∧
      (byteScan utf8acceptnonsurrogatesObj (stateNumber s * 256) (stateNumber s) str =
          (j, stateNumber t * 256, stateNumber t) ∨
        ∃ b, t.step b = none ∧
          byteScan utf8acceptnonsurrogatesObj (stateNumber s * 256) (stateNumber s) str =
            (j + 1, stateNumber t * 256, tableEntry t b)) := by
  induction str generalizing s with
  | nil => exact ⟨0, s, List.forall_mem_nil _, Nat.le_refl 0, hs, .inl rfl⟩
  | cons b str ih =>
    rw [byteScan_cons]
    rw [advance] at h
    split at h
    · rename_i hstep
      refine ⟨0, s, List.forall_mem_nil _, Nat.zero_le _, hs, .inr ⟨b, hstep, ?_⟩⟩
      rw [hstep]
    · cases h
    · rename_i u hne hstep
      obtain ⟨j, t, htails, hle, ht, hscan⟩ := ih hne (Option.map_eq_none_iff.mp h)
      refine ⟨j + 1, t, ?_, Nat.succ_le_succ hle, ht, ?_⟩
      · rw [List.take_succ_cons]
        exact List.forall_mem_cons.mpr ⟨State.isTail_of_step hs hstep, htails⟩
      · rw [hstep]
        obtain hscan | ⟨d, hd, hscan⟩ := hscan
        · exact .inl (by simp only [hscan])
        · exact .inr ⟨d, hd, by simp only [hscan]⟩

theorem and_c0_eq_iff : ∀ b : CChar, b &&& 0xc0 = 0x80 ↔ IsTail b := by
  decide +kernel

/-- Back up over tail bytes to the first byte of a character. -/
theorem backUp_eq {b : CChar} (hb : ¬ IsTail b) (pre xs rest : List CChar)
    (hxs : ∀ x ∈ xs, IsTail x) :
    backUp (pre ++ b :: (xs ++ rest)) (pre.length + xs.length + 1) = pre.length := by
  induction xs using List.reverseRecOn generalizing rest with
  | nil =>
    rw [List.length_nil, Nat.add_zero, backUp, if_neg]
    rw [List.getD_append_right _ _ _ _ (Nat.le_refl _), Nat.sub_self, List.getD_cons_zero,
      and_c0_eq_iff]
    exact fun h => hb h.2
  | append_singleton xs x ih =>
    have hx : (pre ++ b :: (xs ++ [x] ++ rest)).getD (pre.length + (xs.length + 1)) 0 = x := by
      rw [List.getD_append_right _ _ _ _ (Nat.le_add_right _ _), Nat.add_sub_cancel_left,
        List.getD_cons_succ, List.append_assoc, List.getD_append_right _ _ _ _ (Nat.le_refl _),
        Nat.sub_self]
      rfl
    rw [List.length_append, List.length_singleton, backUp, if_pos, List.append_assoc,
      ← Nat.add_assoc]
    · exact ih _ fun y hy => hxs y (List.mem_append_left _ hy)
    · rw [hx, and_c0_eq_iff]
      exact ⟨by omega, hxs x (by simp)⟩

/-- What a scan answers that begins at `rest`, with `pre` in front of it. -/
def scanFrom (pre rest : List CChar) : Nat × Nat :=
  let scanned := byteScan utf8acceptnonsurrogatesObj 0 0 rest
  scanExit utf8acceptnonsurrogatesObj (pre ++ rest) (pre.length + scanned.1) scanned.2.1
    scanned.2.2

theorem scanFrom_of_advance {rest : List CChar} {k : Nat} (h : advance .start rest = some k)
    (pre : List CChar) : scanFrom pre rest = scanFrom (pre ++ rest.take k) (rest.drop k) := by
  obtain ⟨c, rest, rfl, rfl⟩ := advance_start_eq_some_iff.mp h
  have hscan := byteScan_of_advance h 0
  change byteScan utf8acceptnonsurrogatesObj 0 0 (bytes c ++ rest) = _ at hscan
  rw [scanFrom, scanFrom, hscan, ← length_bytes, List.take_left, List.drop_left,
    List.length_append, List.append_assoc]
  simp only [Nat.add_assoc]

/-- A scan that finds no character comes back to where it began. -/
theorem scanFrom_of_not_advance {b : CChar} {rest : List CChar}
    (h : advance .start (b :: rest) = none) :
    ∃ exitReason, exitReason ≠ kExitOK ∧ ∀ pre, scanFrom pre (b :: rest) =
      (exitReason, pre.length) := by
  have hscan := byteScan_cons .start 0 b rest
  change byteScan utf8acceptnonsurrogatesObj 0 0 (b :: rest) = _ at hscan
  rw [advance] at h
  split at h
  · -- a byte that no character begins with
    rename_i hstep
    have hzero : inStateZero utf8acceptnonsurrogatesObj (stateNumber .start * 256) := by decide
    refine ⟨tableEntry .start b, tableEntry_ne_exitOK _ _, fun pre => ?_⟩
    rw [hstep] at hscan
    simp only [scanFrom, hscan, scanExit]
    rw [if_pos (exit_le_tableEntry_iff.mpr hstep), if_pos hzero, Nat.add_sub_cancel]
  · cases h
  · rename_i u hne' hstep
    rw [hstep] at hscan
    obtain ⟨j, t, htails, hle, ht, hstuck⟩ :=
      byteScan_stuck hne' (Option.map_eq_none_iff.mp h)
    have hzero : ¬ inStateZero utf8acceptnonsurrogatesObj (stateNumber t * 256) :=
      fun hz => ht ((inStateZero_iff t).mp hz)
    have hback (pre : List CChar) : backUp (pre ++ b :: rest) (pre.length + j + 1) =
        pre.length := by
      have := backUp_eq (State.not_isTail_of_step_start hstep) pre (rest.take j) (rest.drop j)
        htails
      rwa [List.take_append_drop, List.length_take, Nat.min_eq_left hle] at this
    obtain hstuck | ⟨d, hd, hstuck⟩ := hstuck
    · refine ⟨kExitIllegalStructure, by decide, fun pre => ?_⟩
      have hlt : ¬ kExitIllegalStructure ≤ stateNumber t := by
        have := stateNumber_lt t
        simp only [kExitIllegalStructure]
        omega
      simp only [hstuck] at hscan
      simp only [scanFrom, hscan, scanExit]
      rw [if_neg hlt, if_pos hzero, ← Nat.add_assoc, hback]
    · refine ⟨tableEntry t d, tableEntry_ne_exitOK _ _, fun pre => ?_⟩
      simp only [hstuck] at hscan
      simp only [scanFrom, hscan, scanExit]
      rw [if_pos (exit_le_tableEntry_iff.mpr hd), if_neg hzero, ← Nat.add_assoc,
        Nat.add_sub_cancel, ← Nat.add_assoc, hback]

/-- **What a scan answers that begins where a character may**: the longest text there
is, whatever is in front of it. -/
theorem exists_scanFrom (rest : List CChar) : ∃ exitReason n, LongestText rest n ∧
    (exitReason = kExitOK ↔ n = rest.length) ∧
      ∀ pre, scanFrom pre rest = (exitReason, pre.length + n) := by
  induction hlen : rest.length using Nat.strongRecOn generalizing rest with
  | ind len ih =>
    subst hlen
    cases hadvance : advance .start rest with
    | some k =>
      obtain ⟨c, rest, rfl, rfl⟩ := advance_start_eq_some_iff.mp hadvance
      have hpos := c.utf8Size_pos
      obtain ⟨exitReason, n, hn, hexit, hscan⟩ := ih rest.length (by simp [hpos]) rest rfl
      refine ⟨exitReason, c.utf8Size + n, hn.bytes_append c, ?_, fun pre => ?_⟩
      · rw [hexit, List.length_append, length_bytes, Nat.add_left_cancel_iff]
      · rw [scanFrom_of_advance hadvance, ← length_bytes, List.take_left, List.drop_left, hscan,
          List.length_append, Nat.add_assoc]
    | none =>
      cases rest with
      | nil => exact ⟨kExitOK, 0, .nil, by simp, fun pre => rfl⟩
      | cons b rest =>
        obtain ⟨exitReason, hne, hscan⟩ := scanFrom_of_not_advance hadvance
        exact ⟨exitReason, 0, .zero hadvance, by simp [hne], hscan⟩

/-- What both scans answer: `*bytes_consumed` is the longest text that the string
begins with, and the exit is a good one if that is all of it. -/
structure ScanAnswers (str : List CChar) (answer : Nat × Nat) : Prop where
  longest : LongestText str answer.2
  exit_iff : answer.1 = kExitOK ↔ answer.2 = str.length

/-- The fast loops in front do not change the answer. -/
theorem ScanAnswers.add {str : List CChar} {n exitReason m : Nat} (hn : AsciiPrefix str n)
    (h : ScanAnswers (str.drop n) (exitReason, m)) : ScanAnswers str (exitReason, n + m) := by
  have hlength : (str.take n).length = n := by rw [List.length_take, Nat.min_eq_left hn.1]
  refine ⟨?_, ?_⟩
  · have := h.longest.ascii_append hn.2
    rwa [List.take_append_drop, hlength] at this
  · rw [h.exit_iff, List.length_drop]
    have := hn.1
    omega

theorem scanAnswers_nil : ScanAnswers [] (kExitOK, 0) := ⟨.nil, by simp⟩

/-- **`UTF8GenericScan` consumes the longest text**, wherever the string is. -/
theorem scanAnswers_utf8GenericScan (address : Nat) (str : List CChar) :
    ScanAnswers str (utf8GenericScan utf8acceptnonsurrogatesObj address str) := by
  rw [utf8GenericScan]
  split
  · rename_i hlength
    rw [List.length_eq_zero_iff.mp hlength]
    exact scanAnswers_nil
  · have hstart := asciiPrefix_identityBytes address str
    generalize identityBytes utf8acceptnonsurrogatesObj address str = start at hstart
    obtain ⟨exitReason, n, hn, hexit, hscan⟩ := exists_scanFrom (str.drop start)
    have := hscan (str.take start)
    rw [scanFrom, List.take_append_drop, List.length_take, Nat.min_eq_left hstart.1] at this
    change ScanAnswers str (scanExit utf8acceptnonsurrogatesObj str (start + _) _ _)
    rw [this]
    exact .add hstart ⟨hn, hexit⟩

theorem scanAnswers_utf8GenericScanFastAscii (address : Nat) (str : List CChar) :
    ScanAnswers str (utf8GenericScanFastAscii utf8acceptnonsurrogatesObj address str) := by
  rw [utf8GenericScanFastAscii]
  split
  · rename_i hlength
    rw [List.length_eq_zero_iff.mp hlength]
    exact scanAnswers_nil
  · have haligned : AsciiPrefix str (untilAligned (fun b => b.toNat < 0x80) address str) :=
      asciiPrefix_untilAligned (fun _ hb => of_decide_eq_true hb) address str
    refine .add (haligned.add ?_ |>.add (asciiPrefix_asciiBytes _))
      (scanAnswers_utf8GenericScan _ _)
    split
    · exact asciiPrefix_asciiGroups _
    · exact .zero _

theorem longestText_utf8SpnStructurallyValid (address : Nat) (str : List CChar) :
    LongestText str (utf8SpnStructurallyValid true address str) :=
  (scanAnswers_utf8GenericScanFastAscii address str).longest

/-- **Valid is what is the UTF-8 of some text**, wherever in memory it is; before the
static initialisation everything is. -/
theorem isStructurallyValidUTF8_iff (module_initialized : Bool) (address : Nat)
    (buf : List CChar) :
    isStructurallyValidUTF8 module_initialized address buf = true ↔
      (module_initialized = true → ∃ cs, buf = encode cs) := by
  cases module_initialized with
  | false => exact iff_of_true rfl fun h => absurd h Bool.false_ne_true
  | true =>
    simp only [forall_const]
    rw [isStructurallyValidUTF8, Bool.not_true, if_neg Bool.false_ne_true,
      decide_eq_true_iff]
    exact (scanAnswers_utf8GenericScanFastAscii address buf).longest.eq_length_iff

/-! ## Coercion -/

/-- What coercion may do to a byte. -/
def Coerced (replaceChar : CChar) (x y : CChar) : Prop := y = x ∨ 0x80 ≤ x.toNat ∧ y = replaceChar

/-- A good chunk is copied. -/
theorem forall₂_take_append {replaceChar : CChar} {str ys : List CChar} {n : Nat}
    (h : List.Forall₂ (Coerced replaceChar) (str.drop n) ys) :
    List.Forall₂ (Coerced replaceChar) str (str.take n ++ ys) := by
  have hself : List.Forall₂ (Coerced replaceChar) (str.take n) (str.take n) :=
    List.forall₂_same.mpr fun _ _ => .inl rfl
  simpa only [List.take_append_drop] using List.rel_append hself h

/-- A byte that no text begins with is no ASCII. -/
theorem le_of_longestText_zero {b : CChar} {str : List CChar} (h : LongestText (b :: str) 0) :
    0x80 ≤ b.toNat := by
  by_contra hlt
  obtain ⟨c, hc⟩ := (WellFormed.one (Nat.lt_of_not_le hlt)).exists_bytes
  have := h.le_of_text [c] ⟨str, by simp [hc]⟩
  simp [hc] at this

theorem coerceLoop_spec {replaceChar : CChar} (hr : replaceChar.toNat < 0x80) {fuel : Nat}
    (address : Nat) {str : List CChar} (hfuel : str.length ≤ fuel) (h : LongestText str 0) :
    List.Forall₂ (Coerced replaceChar) str (coerceLoop true replaceChar fuel address str) ∧
      ∃ cs, coerceLoop true replaceChar fuel address str = encode cs := by
  induction fuel generalizing address str with
  | zero =>
    rw [List.length_eq_zero_iff.mp (Nat.le_zero.mp hfuel)]
    exact ⟨.nil, [], rfl⟩
  | succ fuel ih =>
    cases str with
    | nil => exact ⟨.nil, [], rfl⟩
    | cons b str =>
      have hn := longestText_utf8SpnStructurallyValid (address + 1) str
      rw [coerceLoop]
      generalize utf8SpnStructurallyValid true (address + 1) str = n at hn
      have hlength : (str.drop n).length ≤ fuel := by
        rw [List.length_cons] at hfuel
        rw [List.length_drop]
        omega
      obtain ⟨hrel, cs, hcs⟩ := ih (address + 1 + n) hlength hn.drop
      obtain ⟨c, hc⟩ := (WellFormed.one hr).exists_bytes
      obtain ⟨ds, hds⟩ := hn.text
      refine ⟨.cons (.inr ⟨le_of_longestText_zero h, rfl⟩) (forall₂_take_append hrel),
        c :: ds ++ cs, ?_⟩
      rw [hcs, hds, encode_append, encode_cons, hc]
      rfl

/-- **Coercion** makes text of any bytes, as long as before, by overwriting bytes that
are not ASCII; it leaves alone what is text already, and nothing else.  Before the static
initialisation it leaves everything alone. -/
theorem utf8CoerceToStructurallyValid_spec {replaceChar : CChar}
    (hr : replaceChar.toNat < 0x80) (module_initialized : Bool) (address : Nat)
    (src : List CChar) :
    List.Forall₂ (Coerced replaceChar) src
        (utf8CoerceToStructurallyValid module_initialized address src replaceChar) ∧
      (module_initialized = true → ∃ cs,
        utf8CoerceToStructurallyValid module_initialized address src replaceChar = encode cs) ∧
      (utf8CoerceToStructurallyValid module_initialized address src replaceChar = src ↔
        (module_initialized = true → ∃ cs, src = encode cs)) := by
  have hself : List.Forall₂ (Coerced replaceChar) src src :=
    List.forall₂_same.mpr fun _ _ => .inl rfl
  cases module_initialized with
  | false =>
    have hall : utf8CoerceToStructurallyValid false address src replaceChar = src := if_pos rfl
    rw [hall]
    exact ⟨hself, fun h => absurd h Bool.false_ne_true,
      iff_of_true rfl fun h => absurd h Bool.false_ne_true⟩
  | true =>
    simp only [forall_const]
    have hn := longestText_utf8SpnStructurallyValid address src
    rw [utf8CoerceToStructurallyValid]
    split
    · next hall =>
      have htext := hn.eq_length_iff.mp hall
      exact ⟨hself, htext, fun _ => htext, fun _ => rfl⟩
    · next hall =>
      have hlength : (src.drop (utf8SpnStructurallyValid true address src)).length ≤
          src.length := by
        rw [List.length_drop]
        exact Nat.sub_le _ _
      obtain ⟨hrel, cs, hcs⟩ := coerceLoop_spec hr _ hlength hn.drop
      obtain ⟨ds, hds⟩ := hn.text
      refine ⟨forall₂_take_append hrel, ⟨ds ++ cs, by rw [hcs, hds, encode_append]⟩,
        fun h => ?_, fun h => absurd (hn.eq_length_iff.mpr h) hall⟩
      exact ⟨ds ++ cs, by rw [← h, hcs, hds, encode_append]⟩

/-- The character that is cut off is overwritten. -/
theorem utf8CoerceToStructurallyValid_spec_cut :
    List.Forall₂ (Coerced 0x3f) [0x61, 0xe5, 0xad]
        (utf8CoerceToStructurallyValid true 0 [0x61, 0xe5, 0xad] 0x3f) ∧
      (true = true → ∃ cs,
        utf8CoerceToStructurallyValid true 0 [0x61, 0xe5, 0xad] 0x3f = encode cs) ∧
      (utf8CoerceToStructurallyValid true 0 [0x61, 0xe5, 0xad] 0x3f = [0x61, 0xe5, 0xad] ↔
        (true = true → ∃ cs, [0x61, 0xe5, 0xad] = encode cs)) :=
  utf8CoerceToStructurallyValid_spec (by decide) true 0 [0x61, 0xe5, 0xad]

end SurvivalGame
