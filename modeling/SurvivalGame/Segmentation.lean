import SurvivalGame.Send
import SurvivalGame.Framing

/-! # The two length fields of a frame

A frame carries its size twice: a 16-bit package length that counts the eight
header bytes after it, and a 32-bit content length that counts the body.  A
reader may trust either.  The first is the length plus eight reduced modulo 2^16
without a check, so the two readers cut a stream alike exactly as long as no
frame is longer than that field can say (`segmentsAlike_iff`).
-/
namespace SurvivalGame
open Transition

/-! ## What `sendFunc` emits for a pocket -/

/-- The bytes handed to the OS for a pocket when no send is refused; `none` when
`sendData` is overrun. -/
def emits (pk : Pocket) : Option (List CChar) :=
  match startSend pk with
  | .sending buf len _ => some (buf.take len.toNat)
  | _ => none

/-- The frames emitted for a sequence of pockets. -/
def emitted : List Pocket → Option (List (List CChar))
  | [] => some []
  | pk :: pks =>
    match emits pk, emitted pks with
    | some f, some fs => some (if f = [] then fs else f :: fs)
    | _, _ => none

/-- **`emits` is what a call of `sendFunc` does**: however the OS splits the
sends, the bytes taken between the start of `Send` and its return are these. -/
theorem accepted_of_sends {buf : List CChar} {len : Int} {answers : List SendAnswer}
    (hans : ∀ a ∈ answers, a.refuses = false) : ∀ {c d : Connection} {count : Nat},
    c.pc = .sending buf len count →
    run Connection.step c (answers.map (fun a => .sendFunc (.send a)) ++ [.sendFunc .ret]) =
      some d →
    d.pc = .idle ∧ d.accepted = c.accepted ++ (buf.take len.toNat).drop count := by
  induction answers with
  | nil =>
    intro c d count hc hrun
    obtain ⟨u, hu, hd⟩ := run_cons_eq_some.mp hrun
    cases hd
    obtain ⟨⟨q, pc, bs⟩, hs, rfl⟩ := Option.map_eq_some_iff.mp hu
    rw [hc] at hs
    cases sendFunc_step hs with
    | ret hle =>
      have hnil : (buf.take len.toNat).drop count = [] := by
        refine List.drop_eq_nil_of_le (Nat.le_trans (List.length_take_le _ _) ?_)
        omega
      simp [hnil]
  | cons a answers ih =>
    intro c d count hc hrun
    obtain ⟨u, hu, hd⟩ := run_cons_eq_some.mp hrun
    obtain ⟨⟨q, pc, bs⟩, hs, rfl⟩ := Option.map_eq_some_iff.mp hu
    rw [hc] at hs
    cases sendFunc_step hs with
    | refused _ href => rw [hans a List.mem_cons_self] at href; cases href
    | @accepted _ _ _ k hk hle =>
      obtain ⟨hidle, hacc⟩ := ih (fun b hb => hans b (List.mem_cons_of_mem _ hb)) rfl hd
      refine ⟨hidle, hacc.trans ?_⟩
      have hsplit : (buf.drop count).take k ++ (buf.take len.toNat).drop (count + k) =
          (buf.take len.toNat).drop count := by
        rw [List.drop_take, List.drop_take, ← List.drop_drop,
          show len.toNat - count = k + (len.toNat - (count + k)) by omega, List.take_add]
      rw [List.append_assoc, hsplit]

theorem emits_of_lt {pk : Pocket} (hid : 0 < pk.id.toNat) (h : pk.length.toNat + 10 < 2 ^ 31) :
    emits pk = some (sendData pk) := by
  have hs : Sendable pk := by rw [Sendable, enc_of_id hid, sendData_length]; exact h
  rw [emits, startSend_of_sendable hs, enc_of_id hid]
  show some ((sendData pk).take ((sendData pk).length : Int).toNat) = _
  rw [Int.toNat_natCast, List.take_length]

/-- `Send` is called with a negative length and takes nothing. -/
theorem emits_of_negative {pk : Pocket} (hid : 0 < pk.id.toNat)
    (hle : 2 ^ 31 ≤ pk.length.toNat + 10) (hlt : pk.length.toNat + 10 < 2 ^ 32) :
    emits pk = some [] := by
  have hadd : (pk.length + 10).toNat = pk.length.toNat + 10 := by
    rw [BitVec.toNat_add]
    exact Nat.mod_eq_of_lt hlt
  have hneg : (pk.length + 10).toInt.toNat = 0 := by
    rw [BitVec.toInt_eq_toNat_cond, hadd, if_neg (by omega)]
    omega
  rw [emits, startSend, if_pos hid, hadd, sendData_length, if_neg (Nat.lt_irrefl _)]
  simp only [hneg, List.take_zero]

theorem emits_of_overrun {pk : Pocket} (hid : 0 < pk.id.toNat)
    (hle : 2 ^ 32 ≤ pk.length.toNat + 10) : emits pk = none := by
  have hadd : (pk.length + 10).toNat < (sendData pk).length := by
    have hlt := pk.length.isLt
    rw [BitVec.toNat_add, sendData_length]
    show (pk.length.toNat + 10) % 2 ^ 32 < _
    omega
  rw [emits, startSend, if_pos hid, if_pos hadd]

/-- The pocket's frame length is a non-negative `int`. -/
def fitsInt (pk : Pocket) : Bool := decide (pk.length.toNat + 10 < 2 ^ 31)

theorem emitted_eq {pks : List Pocket} (hid : ∀ pk ∈ pks, 0 < pk.id.toNat)
    (hlt : ∀ pk ∈ pks, pk.length.toNat + 10 < 2 ^ 32) :
    emitted pks = some ((pks.filter fitsInt).map sendData) := by
  induction pks with
  | nil => rfl
  | cons pk pks ih =>
    have ih := ih (fun p hp => hid p (List.mem_cons_of_mem _ hp))
      (fun p hp => hlt p (List.mem_cons_of_mem _ hp))
    have hpk := hid pk List.mem_cons_self
    by_cases h : pk.length.toNat + 10 < 2 ^ 31
    · have hne : sendData pk ≠ [] := by simp [sendData, header]
      have hfit : fitsInt pk = true := decide_eq_true h
      rw [List.filter_cons_of_pos hfit, List.map_cons]
      simp [emitted, emits_of_lt hpk h, ih, hne]
    · have h0 := emits_of_negative hpk (Nat.not_lt.mp h) (hlt pk List.mem_cons_self)
      rw [List.filter_cons_of_neg (by rw [fitsInt, decide_eq_true_eq]; exact h)]
      simp [emitted, h0, ih]

theorem mem_frames {pks : List Pocket} {f : List CChar}
    (hf : f ∈ (pks.filter fitsInt).map sendData) :
    ∃ pk ∈ pks, pk.length.toNat + 10 < 2 ^ 31 ∧ f = sendData pk := by
  obtain ⟨pk, hpk, rfl⟩ := List.mem_map.mp hf
  obtain ⟨hpk, hsmall⟩ := List.mem_filter.mp hpk
  exact ⟨pk, hpk, of_decide_eq_true hsmall, rfl⟩

theorem emitted_of_overrun {pks : List Pocket} {pk : Pocket} (hmem : pk ∈ pks)
    (hid : 0 < pk.id.toNat) (hle : 2 ^ 32 ≤ pk.length.toNat + 10) : emitted pks = none := by
  induction pks with
  | nil => cases hmem
  | cons p pks ih =>
    rcases List.mem_cons.mp hmem with rfl | hmem
    · simp [emitted, emits_of_overrun hid hle]
    · simp only [emitted, ih hmem]
      cases emits p <;> rfl

/-! ## The two readers -/

/-- The size of the frame at the head of the stream by its 16-bit field. -/
def field16 (s : List CChar) : Option Nat :=
  if 2 ≤ s.length then some (2 + ((s.getD 0 0).toNat + 2 ^ 8 * (s.getD 1 0).toNat)) else none

/-- The size of the frame at the head of the stream by its 32-bit field. -/
def field32 (s : List CChar) : Option Nat :=
  if 10 ≤ s.length then
    some (10 + ((s.getD 6 0).toNat + 2 ^ 8 * (s.getD 7 0).toNat + 2 ^ 16 * (s.getD 8 0).toNat +
      2 ^ 24 * (s.getD 9 0).toNat))
  else none

/-- Both readers find in the stream exactly the frames that were emitted. -/
def SegmentsAlike (pks : List Pocket) : Prop :=
  ∃ frames, emitted pks = some frames ∧
    Framing.cut field16 frames.flatten = some frames ∧
    Framing.cut field32 frames.flatten = some frames

theorem lowByte_toNat (x : CUInt) : (lowByte x).toNat = x.toNat % 2 ^ 8 := by
  rw [lowByte, BitVec.toNat_setWidth, BitVec.toNat_and]
  show (x.toNat &&& (2 ^ 8 - 1)) % 2 ^ 8 = _
  rw [Nat.and_two_pow_sub_one_eq_mod, Nat.mod_mod]

theorem lowByte_shift_toNat (x : CUInt) (k : Nat) :
    (lowByte (x >>> k)).toNat = x.toNat / 2 ^ k % 2 ^ 8 := by
  rw [lowByte_toNat, BitVec.toNat_ushiftRight, Nat.shiftRight_eq_div_pow]

theorem field16_sendData (pk : Pocket) (rest : List CChar) :
    field16 (sendData pk ++ rest) = some (2 + (pk.length.toNat + 8) % 2 ^ 16) := by
  rw [field16, if_pos (by simp; omega)]
  show some (2 + ((lowByte (pk.length + 8)).toNat +
    2 ^ 8 * (lowByte ((pk.length + 8) >>> 8)).toNat)) = _
  rw [lowByte_toNat, lowByte_shift_toNat, BitVec.toNat_add]
  show some (2 + ((pk.length.toNat + 8) % 2 ^ 32 % 2 ^ 8 +
    2 ^ 8 * ((pk.length.toNat + 8) % 2 ^ 32 / 2 ^ 8 % 2 ^ 8))) = _
  congr 2
  omega

theorem field32_sendData (pk : Pocket) (rest : List CChar) :
    field32 (sendData pk ++ rest) = some (10 + pk.length.toNat) := by
  have hlt := pk.length.isLt
  rw [field32, if_pos (by simp; omega)]
  show some (10 + ((lowByte pk.length).toNat + 2 ^ 8 * (lowByte (pk.length >>> 8)).toNat +
    2 ^ 16 * (lowByte (pk.length >>> 16)).toNat + 2 ^ 24 * (lowByte (pk.length >>> 24)).toNat)) = _
  simp only [lowByte_shift_toNat]
  rw [lowByte_toNat]
  congr 2
  omega

/-- A reader whose size is a function `g` of the body's length finds the frames
exactly when `g` gives the length of each. -/
theorem cut_frames_iff {size : List CChar → Option Nat} {g : Nat → Nat}
    (hsize : ∀ pk rest, size (sendData pk ++ rest) = some (g pk.length.toNat)) (pks : List Pocket) :
    Framing.cut size ((pks.filter fitsInt).map sendData).flatten =
        some ((pks.filter fitsInt).map sendData) ↔
      ∀ pk ∈ pks, pk.length.toNat + 10 < 2 ^ 31 → g pk.length.toNat = pk.length.toNat + 10 := by
  rw [Framing.cut_flatten_iff (fun f => g (f.length - 10))]
  · constructor
    · intro h pk hpk hsmall
      have := h (sendData pk)
        (List.mem_map_of_mem (List.mem_filter.mpr ⟨hpk, decide_eq_true hsmall⟩))
      rwa [sendData_length, Nat.add_sub_cancel] at this
    · intro h f hf
      obtain ⟨pk, hpk, hsmall, rfl⟩ := mem_frames hf
      rw [sendData_length, Nat.add_sub_cancel]
      exact h pk hpk hsmall
  · intro f hf
    obtain ⟨pk, -, -, rfl⟩ := mem_frames hf
    simp [sendData, header]
  · intro f hf rest
    obtain ⟨pk, -, -, rfl⟩ := mem_frames hf
    rw [hsize, sendData_length, Nat.add_sub_cancel]

/-- For pockets with an id: the two readers agree with the sender exactly when
each frame fits its 16-bit field or is not emitted at all. -/
theorem segmentsAlike_pockets_iff {pks : List Pocket} (hid : ∀ pk ∈ pks, 0 < pk.id.toNat) :
    SegmentsAlike pks ↔ ∀ pk ∈ pks, pk.length.toNat + 8 < 2 ^ 16 ∨
      2 ^ 31 ≤ pk.length.toNat + 10 ∧ pk.length.toNat + 10 < 2 ^ 32 := by
  by_cases hover : ∃ pk ∈ pks, 2 ^ 32 ≤ pk.length.toNat + 10
  · -- a pocket overruns `sendData`: nothing is emitted, and the bound fails
    obtain ⟨pk, hpk, hle⟩ := hover
    constructor
    · rintro ⟨frames, hframes, -⟩
      rw [emitted_of_overrun hpk (hid pk hpk) hle] at hframes
      cases hframes
    · intro h
      have := h pk hpk
      omega
  have hlt : ∀ pk ∈ pks, pk.length.toNat + 10 < 2 ^ 32 := fun pk hpk =>
    Nat.lt_of_not_le fun hle => hover ⟨pk, hpk, hle⟩
  have h16 := cut_frames_iff (g := fun n => 2 + (n + 8) % 2 ^ 16) field16_sendData pks
  have h32 := cut_frames_iff (g := fun n => 10 + n) field32_sendData pks
  rw [SegmentsAlike, emitted_eq hid hlt]
  constructor
  · rintro ⟨frames, hframes, hcut, -⟩ pk hpk
    obtain rfl := Option.some.inj hframes
    by_cases hsmall : pk.length.toNat + 10 < 2 ^ 31
    · have := h16.mp hcut pk hpk hsmall
      omega
    · exact Or.inr ⟨Nat.not_lt.mp hsmall, hlt pk hpk⟩
  · intro h
    refine ⟨_, rfl, h16.mpr fun pk hpk hsmall => ?_, h32.mpr fun pk _ _ => Nat.add_comm _ _⟩
    have := h pk hpk
    omega

/-- **When the two length fields segment the stream alike.**  For pockets made
from any strings and any non-zero ids: exactly when every string is shorter than
65528 bytes, or so long that `Send` gets a negative length and emits nothing. -/
theorem segmentsAlike_iff (strings : List (List CChar × CUInt))
    (hid : ∀ s ∈ strings, 0 < s.2.toNat) :
    SegmentsAlike (strings.map fun s => makePocket s.1 s.2) ↔
      ∀ s ∈ strings, strlen s.1 % 2 ^ 32 + 8 < 2 ^ 16 ∨
        2 ^ 31 ≤ strlen s.1 % 2 ^ 32 + 10 ∧ strlen s.1 % 2 ^ 32 + 10 < 2 ^ 32 := by
  rw [segmentsAlike_pockets_iff (List.forall_mem_map.mpr hid)]
  simp only [List.forall_mem_map, makePocket_length_toNat]

theorem segmentsAlike_two_messages :
    SegmentsAlike ([([97, 98], 1), ([99], 10001)].map fun s => makePocket s.1 s.2) :=
  (segmentsAlike_iff [([97, 98], 1), ([99], 10001)] (by decide)).mpr (by decide)

/-- One string of 65528 bytes: its package length is written as zero. -/
theorem segmentsAlike_fails :
    ¬ SegmentsAlike [makePocket (List.replicate 65528 1) 1] := by
  have hfree : (0 : CChar) ∉ List.replicate 65528 1 :=
    fun h => absurd (List.eq_of_mem_replicate h) (by decide)
  have hlen : (makePocket (List.replicate 65528 1) 1).length.toNat = 65528 := by
    rw [makePocket_length_toNat, strlen_of_nul_free hfree, List.length_replicate,
      Nat.mod_eq_of_lt (by omega)]
  rw [segmentsAlike_pockets_iff, List.forall_mem_singleton, hlen]
  · omega
  · exact List.forall_mem_singleton.mpr (by decide : 0 < (1 : CUInt).toNat)

end SurvivalGame
