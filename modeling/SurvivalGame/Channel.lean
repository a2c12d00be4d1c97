import SurvivalGame.Transition

/-! # A reliable first-in first-out channel

What a message transport is for: items go in at one end and come out at the
other, each exactly once and in order.  A state keeps the items already
delivered and the items still under way; by construction the items sent are the
first followed by the second, so no state can show a loss, a duplicate or a
reordering.  A transport is correct when it simulates this channel.
-/

variable {α : Type*}

/-- The items delivered so far and the items under way, oldest first. -/
structure Channel (α : Type*) where
  delivered : List α
  transit : List α

namespace Channel

/-- Nothing sent yet. -/
def empty : Channel α := ⟨[], []⟩

/-- The items sent so far, in the order in which they were sent. -/
def sent (c : Channel α) : List α := c.delivered ++ c.transit

/-- What can happen to a channel. -/
inductive Act (α : Type*)
  | send (x : α)
  | deliver

/-- One step: an item enters at the tail, or the oldest one under way is
delivered. -/
def step : Channel α → Act α → Option (Channel α)
  | c, .send x => some ⟨c.delivered, c.transit ++ [x]⟩
  | ⟨delivered, x :: transit⟩, .deliver => some ⟨delivered ++ [x], transit⟩
  | ⟨_, []⟩, .deliver => none

/-- The item an action sends, if any. -/
def Act.sends : Act α → Option α
  | .send x => some x
  | .deliver => none

theorem delivered_prefix_sent (c : Channel α) : c.delivered <+: c.sent :=
  List.prefix_append _ _

theorem delivered_eq_sent {c : Channel α} (h : c.transit = []) : c.delivered = c.sent := by
  simp [sent, h]

/-- A channel holds what was put into it, in order: delivery neither adds nor
removes nor moves an item. -/
theorem sent_step {c d : Channel α} {a : Act α} (h : c.step a = some d) :
    d.sent = c.sent ++ a.sends.toList := by
  match c, a, h with
  | c, .send x, h => cases h; simp [sent, Act.sends]
  | ⟨delivered, x :: transit⟩, .deliver, h => cases h; simp [sent, Act.sends]

end Channel
