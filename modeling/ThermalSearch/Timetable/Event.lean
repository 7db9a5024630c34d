import ThermalSearch.Failure

namespace ThermalSearch.Timetable

/-!
# Events and rooms

An event has a number of attendees and wishes for places, each a room at a time slot. Wishes for
one place add up.
-/

structure Wish (α : Type) where
  room : Nat
  slot : Nat
  weight : α

structure Event (α : Type) where
  attendees : Nat
  wishes : List (Wish α) := []

structure Room where
  capacity : Nat

namespace Event

variable {α : Type}

/-- Adds a wish. -/
def wish (e : Event α) (room slot : Nat) (weight : α) : Event α :=
  { e with wishes := e.wishes ++ [{ room, slot, weight }] }

variable [Scalar α]

/-- How much the event prefers a room at a slot. -/
def preference (e : Event α) (room slot : Nat) : α :=
  Scalar.sum ((e.wishes.filter fun w => w.room == room && w.slot == slot).map (·.weight))

/-- How much the event prefers a room, over all slots. -/
def roomPreference (e : Event α) (room : Nat) : α :=
  Scalar.sum ((e.wishes.filter fun w => w.room == room).map (·.weight))

/-- The square of the number of attendees the room has no seats for. -/
def overflowSquared (e : Event α) (room : Room) : α :=
  let overflow : α := Scalar.ofNat (e.attendees - room.capacity)
  overflow * overflow

omit [Scalar α] in
/-- Whether a wish names a room and, where slots are counted, a slot that there is. -/
def isPlace (rooms : Nat) (slots : Option Nat) (w : Wish α) : Bool :=
  decide (w.room < rooms) && slots.all fun slots => decide (w.slot < slots)

/-- Checks the wishes of the event with number `index`, in order. -/
def validate (e : Event α) (index rooms : Nat) (slots : Option Nat) :
    Except (Rejection α) Unit :=
  e.wishes.forM fun w => do
    requireFinite .preferenceWeight w.weight
    refuseIf (!isPlace rooms slots w) (.noSuchPlace index w.room w.slot)

/-- Checks the wishes of all events, the first of which has number `index`. -/
def validateAll (index rooms : Nat) (slots : Option Nat) :
    List (Event α) → Except (Rejection α) Unit
  | [] => .ok ()
  | e :: events => do
    e.validate index rooms slots
    validateAll (index + 1) rooms slots events

end Event

/-- A penalty weighs something. -/
def validatePenalty {α : Type} [Scalar α] (penalty : α) : Except (Rejection α) Unit := do
  requireFinite .penaltyWeight penalty
  refuseIf (penalty ≤ 0.0) .penaltyNotPositive

end ThermalSearch.Timetable
