import SurvivalGame.Receive

/-! # How the stream is cut does not matter, as long as the header loop behaves

The OS may hand a stream of frames to the receiver in pieces of any size, with
any number of empty-handed answers between them.  The body loop asks for exactly
what is missing, so the pieces do not matter there.  The header loop asks for the
size of a pointer instead.  As long as no answer in it reaches behind the header,
what the receiver has pushed is a function of how much it has consumed, so any
two runs agree (`pushes_fragmentation`).  An answer that does reach behind the
header shifts the rest of the stream (`pushes_fragmentation_fails`).
-/
namespace SurvivalGame
open Transition

/-- The calls of `pushRecvQueue` for the frames of `pks`, the first of which
starts `c` bytes into the stream. -/
def deliveries : Nat → List Pocket → List Push
  | _, [] => []
  | c, pk :: pks =>
    ⟨⟨pk.msg ++ [0], pk.id⟩, c + (enc pk).length⟩ :: deliveries (c + (enc pk).length) pks

theorem deliveries_append (c : Nat) (pks pks' : List Pocket) :
    deliveries c (pks ++ pks') = deliveries c pks ++ deliveries (c + (encs pks).length) pks' := by
  induction pks generalizing c with
  | nil => rfl
  | cons pk pks ih =>
    simp only [List.cons_append, deliveries, ih, encs_cons, List.length_append, Nat.add_assoc]

namespace Receiver

/-- The answers a connected stream gives: -1, or at least one byte. -/
def Nonempty (_ : Receiver) : RecvAct → Prop
  | .recv (.took k) => 0 < k
  | .recv .error | .call => True

/-- The answers that cut the stream harmlessly: in the header loop, no more bytes
than the header still misses. -/
def Harmless (r : Receiver) : RecvAct → Prop
  | .recv (.took k) => KeepsHeader r.pc k
  | .recv .error | .call => True

instance (r : Receiver) : ∀ a, Decidable (r.Nonempty a)
  | .recv (.took k) => inferInstanceAs (Decidable (0 < k))
  | .recv .error | .call => inferInstanceAs (Decidable True)

instance (r : Receiver) : ∀ a, Decidable (r.Harmless a)
  | .recv (.took k) => inferInstanceAs (Decidable (KeepsHeader r.pc k))
  | .recv .error | .call => inferInstanceAs (Decidable True)

/-- The receiver has delivered the first frames and stands in the others. -/
structure InStep (frames done rest : List Pocket) (r : Receiver) : Prop where
  split : frames = done ++ rest
  tracks : Tracks r.pc r.stream rest
  pushes : r.pushes = deliveries 0 done
  consumed : r.consumed + r.stream.length = (encs frames).length

theorem inStep_init (frames : List Pocket) : InStep frames [] frames (init (encs frames)) where
  split := rfl
  tracks := rfl
  pushes := rfl
  consumed := Nat.zero_add _

theorem inStep_step {sizeofPtr : Nat} {frames : List Pocket} (hframes : ∀ pk ∈ frames, Framed pk)
    {r r' : Receiver} {a : RecvAct} (h : ∃ done rest, InStep frames done rest r)
    (hne : r.Nonempty a) (hharm : r.Harmless a) (hs : r.step sizeofPtr a = some r') :
    ∃ done rest, InStep frames done rest r' := by
  obtain ⟨done, rest, h⟩ := h
  cases step_cases hs with
  | call hidle =>
    have ht := h.tracks
    rw [hidle] at ht
    exact ⟨done, rest, h.split, ht, h.pushes, h.consumed⟩
  | gaveUp => exact ⟨done, rest, h.split, h.tracks.gaveUp, h.pushes, h.consumed⟩
  | @took off len k hreq hlen hk =>
    have htracks : Tracks r.pc (r.stream ++ []) rest := by
      rw [List.append_nil]; exact h.tracks
    have hrest : ∀ pk ∈ rest, Framed pk := fun pk hpk =>
      hframes pk (h.split ▸ List.mem_append_right done hpk)
    have hdrop : k + (r.stream.drop k).length = r.stream.length := by
      rw [List.length_drop]; omega
    have hconsumed := h.consumed
    rcases Receiver.take_tracks hreq hlen hk hne hharm htracks hrest with
      ⟨pc', htake, ht⟩ | ⟨pk, rest', rfl, hstream, htake⟩
    · rw [htake]
      rw [List.append_nil] at ht
      exact ⟨done, rest, h.split, ht, h.pushes, by dsimp only; omega⟩
    · rw [htake]
      rw [List.append_nil] at hstream
      refine ⟨done ++ [pk], rest', by simp [h.split], hstream, ?_, by dsimp only; omega⟩
      -- the frame ends where the frames behind it begin
      have hpos : r.consumed + k = 0 + (encs done).length + (enc pk).length := by
        rw [hstream] at hdrop
        rw [h.split, encs_append, encs_cons, List.length_append, List.length_append] at hconsumed
        omega
      rw [h.pushes, deliveries_append, hpos]
      rfl

/-- What a receiver has pushed is the frames it has consumed whole. -/
theorem inStep_run {sizeofPtr : Nat} {frames : List Pocket} (hframes : ∀ pk ∈ frames, Framed pk)
    {acts : List RecvAct} {r : Receiver}
    (hrun : run (step sizeofPtr) (init (encs frames)) acts = some r)
    (hne : Along (step sizeofPtr) Nonempty (init (encs frames)) acts)
    (hharm : Along (step sizeofPtr) Harmless (init (encs frames)) acts) :
    ∃ done rest, InStep frames done rest r :=
  (hne.and hharm).invariant (I := fun r => ∃ done rest, InStep frames done rest r)
    (fun _ _ _ hI hC => inStep_step hframes hI hC.1 hC.2) hrun ⟨[], frames, inStep_init frames⟩

/-- A receiver that has consumed no more has delivered no more frames. -/
theorem InStep.done_prefix {frames done₁ rest₁ done₂ rest₂ : List Pocket}
    (hframes : ∀ pk ∈ frames, Framed pk) {r₁ r₂ : Receiver} (h₁ : InStep frames done₁ rest₁ r₁)
    (h₂ : InStep frames done₂ rest₂ r₂) (hle : r₁.consumed ≤ r₂.consumed) : done₁ <+: done₂ := by
  have hp₁ : done₁ <+: frames := ⟨rest₁, h₁.split.symm⟩
  have hp₂ : done₂ <+: frames := ⟨rest₂, h₂.split.symm⟩
  -- both have delivered a prefix of the frames; suppose the first is further on
  rcases List.prefix_or_prefix_of_prefix hp₁ hp₂ with h | h
  · exact h
  obtain ⟨more, rfl⟩ := h
  cases more with
  | nil => rw [List.append_nil]
  | cons pk more =>
    -- the second receiver is still inside `pk`, which the first has behind it
    exfalso
    have hrest : rest₂ = pk :: (more ++ rest₁) := by
      have := h₂.split.symm.trans h₁.split
      rw [List.append_assoc] at this
      exact List.append_cancel_left this
    have hlt := (hrest ▸ h₂.tracks).length_lt (hframes pk (by rw [h₁.split]; simp))
    have hle₁ := h₁.tracks.length_le fun pk hpk =>
      hframes pk (h₁.split ▸ List.mem_append_right _ hpk)
    rw [encs_append, List.length_append] at hlt
    have hc₁ := h₁.consumed
    have hc₂ := h₂.consumed
    omega

/-- **Fragmentation independence.**  Take two runs of `recvFunc` calls on one
stream of frames, cut in any two harmless ways.  Whichever has consumed less has
made a prefix of the pushes of the other, each after the same number of bytes; at
equal consumption, and so at the end of the stream, the pushes are the same. -/
theorem pushes_fragmentation {sizeofPtr : Nat} {frames : List Pocket}
    (hframes : ∀ pk ∈ frames, Framed pk) {acts₁ acts₂ : List RecvAct} {r₁ r₂ : Receiver}
    (hrun₁ : run (step sizeofPtr) (init (encs frames)) acts₁ = some r₁)
    (hrun₂ : run (step sizeofPtr) (init (encs frames)) acts₂ = some r₂)
    (hne₁ : Along (step sizeofPtr) Nonempty (init (encs frames)) acts₁)
    (hne₂ : Along (step sizeofPtr) Nonempty (init (encs frames)) acts₂)
    (hharm₁ : Along (step sizeofPtr) Harmless (init (encs frames)) acts₁)
    (hharm₂ : Along (step sizeofPtr) Harmless (init (encs frames)) acts₂) :
    (r₁.consumed ≤ r₂.consumed → r₁.pushes <+: r₂.pushes) ∧
      (r₂.consumed ≤ r₁.consumed → r₂.pushes <+: r₁.pushes) ∧
      (r₁.stream = [] → r₂.stream = [] → r₁.pushes = r₂.pushes) := by
  obtain ⟨done₁, rest₁, h₁⟩ := inStep_run hframes hrun₁ hne₁ hharm₁
  obtain ⟨done₂, rest₂, h₂⟩ := inStep_run hframes hrun₂ hne₂ hharm₂
  have key : ∀ {done rest done' rest' : List Pocket} {r r' : Receiver},
      InStep frames done rest r → InStep frames done' rest' r' → r.consumed ≤ r'.consumed →
      r.pushes <+: r'.pushes := by
    intro done rest done' rest' r r' h h' hle
    obtain ⟨more, rfl⟩ := h.done_prefix hframes h' hle
    rw [h.pushes, h'.pushes, deliveries_append]
    exact List.prefix_append _ _
  refine ⟨key h₁ h₂, key h₂ h₁, fun hnil₁ hnil₂ => ?_⟩
  have hc₁ := h₁.consumed
  have hc₂ := h₂.consumed
  rw [hnil₁] at hc₁
  rw [hnil₂] at hc₂
  have heq : r₁.consumed = r₂.consumed := hc₁.trans hc₂.symm
  have hp₁ := key h₁ h₂ (Nat.le_of_eq heq)
  have hp₂ := key h₂ h₁ (Nat.le_of_eq heq.symm)
  exact hp₁.eq_of_length_le hp₂.length_le

/-- Two frames with the bodies `ab` and `cd`. -/
def twoFrames : List Pocket := [makePocket [97, 98] 1, makePocket [99, 100] 2]

/-- The first frame in three pieces, cut inside the header and inside the body. -/
theorem pushes_fragmentation_twoFrames : ∃ r₁ r₂ : Receiver,
    run (step 4) (init (encs twoFrames)) [.call, .recv (.took 10), .recv (.took 2)] = some r₁ ∧
    run (step 4) (init (encs twoFrames)) [.call, .recv (.took 7), .recv .error, .recv (.took 3),
      .recv (.took 1), .recv (.took 1)] = some r₂ ∧
    (r₁.consumed ≤ r₂.consumed → r₁.pushes <+: r₂.pushes) ∧
      (r₂.consumed ≤ r₁.consumed → r₂.pushes <+: r₁.pushes) ∧
      (r₁.stream = [] → r₂.stream = [] → r₁.pushes = r₂.pushes) :=
  ⟨_, _, rfl, rfl, pushes_fragmentation (show ∀ pk ∈ twoFrames, Framed pk by decide)
    (show run (step 4) (init (encs twoFrames)) [.call, .recv (.took 10), .recv (.took 2)] =
      some _ from rfl)
    (show run (step 4) (init (encs twoFrames)) [.call, .recv (.took 7), .recv .error,
      .recv (.took 3), .recv (.took 1), .recv (.took 1)] = some _ from rfl)
    (by decide) (by decide) (by decide) (by decide)⟩

/-- The header of the first frame arrives in pieces of nine and two bytes: the
second takes the first body byte for header. -/
theorem pushes_fragmentation_fails : ∃ r₁ r₂ : Receiver,
    run (step 4) (init (encs twoFrames)) [.call, .recv (.took 10), .recv (.took 2)] = some r₁ ∧
    run (step 4) (init (encs twoFrames)) [.call, .recv (.took 9), .recv (.took 2), .recv (.took 2)] =
      some r₂ ∧
    ¬ r₁.pushes <+: r₂.pushes ∧ ¬ r₂.pushes <+: r₁.pushes :=
  ⟨_, _, rfl, rfl, by decide, by decide⟩

end Receiver

end SurvivalGame
