import ThermalSearch.Model.Potts
import ThermalSearch.Timetable.Event
import ThermalSearch.Timetable.Layout

namespace ThermalSearch.Timetable

/-!
# Timetables as models

Two encodings of the search for a timetable, with one penalty weight for all rules.

As a QUBO over the bits of the layout: setting a bit earns the event's preference for the place
and one penalty weight, and costs the penalty for attendees without a seat; two bits of one
event cost twice the penalty weight, so the second one undoes what the first one earned; two
events in one place cost the penalty weight.

As a Potts model over rooms, without slots: every event is a spin whose state is its room.
-/

variable {α : Type} [Scalar α]

/-- The timetable a list of events is laid out in. -/
def layoutFor (events : List (Event α)) (rooms : List Room) (slots : Nat) : Layout :=
  { events := events.length, rooms := rooms.length, slots }

/-- Adds what the bits of one event cost for themselves. -/
def addPlaces (l : Layout) (rooms : List Room) (penalty : α) (index : Nat) (event : Event α)
    (q : Qubo α) : Except Fault (Qubo α) :=
  rooms.zipIdx.foldlM (fun q (room, r) => do
    let seats := penalty * event.overflowSquared room
    (List.range l.slots).foldlM (fun q t => do
      let v ← l.bit index r t
      q.add v v (-event.preference r t - penalty + seats)) q) q

/-- Adds what two bits of one event cost. -/
def addChoices (l : Layout) (penalty : α) (index : Nat) (q : Qubo α) : Except Fault (Qubo α) := do
  let (start, stop) ← l.eventRange index
  (List.range' start (stop - start)).foldlM (fun q v =>
    (following v stop).foldlM (fun q w => q.add v w (2.0 * penalty)) q) q

/-- Adds what two events in one place cost. -/
def addConflicts (l : Layout) (penalty : α) (q : Qubo α) (p : Place) : Except Fault (Qubo α) :=
  (List.range l.events).foldlM (fun q e₁ =>
    (following e₁ l.events).foldlM (fun q e₂ => do
      q.add (← l.bit e₁ p.room p.slot) (← l.bit e₂ p.room p.slot) penalty) q) q

/-- The coefficients of all rules, without checking the input. Without events there are no
coefficients, however many places there are. -/
def fillQubo (l : Layout) (events : List (Event α)) (rooms : List Room) (penalty : α) :
    Except Fault (Qubo α) := do
  let q ← Qubo.zero (← l.size)
  if events.isEmpty then return q
  let q ← events.zipIdx.foldlM (fun q (event, index) => do
    let q ← addPlaces l rooms penalty index event q
    addChoices l penalty index q) q
  l.places.foldlM (addConflicts l penalty) q

/-- The QUBO whose least energy belongs to the best timetable. -/
def toQubo (events : List (Event α)) (rooms : List Room) (slots : Nat) (penalty : α) :
    Except (Failure α) (Qubo α) := do
  validatePenalty penalty
  Event.validateAll 0 rooms.length (some slots) events
  fillQubo (layoutFor events rooms slots) events rooms penalty

/-- The field that draws an event to a room. -/
def roomField (penalty : α) (event : Event α) (room : Room) (r : Nat) : α :=
  event.roomPreference r - penalty * event.overflowSquared room

/-- Sets the fields and couplings of one event. -/
def addEvent (events : Nat) (rooms : List Room) (penalty : α) (m : Potts α) (event : Event α)
    (index : Nat) : Except (Failure α) (Potts α) := do
  let m ← rooms.zipIdx.foldlM (fun (m : Potts α) (room, r) => do
    let h := roomField penalty event room r
    (requireFinite .pottsField h : Except (Rejection α) Unit)
    m.setField index r h) m
  ((following index events).foldlM (fun (m : Potts α) other =>
    m.setCoupling index other (-penalty)) m : Except Fault _)

/-- The Potts model whose least energy belongs to the best choice of rooms. -/
def toPotts (events : List (Event α)) (rooms : List Room) (penalty : α) :
    Except (Failure α) (Potts α) := do
  validatePenalty penalty
  Event.validateAll 0 rooms.length none events
  let m ← Potts.zero events.length rooms.length
  events.zipIdx.foldlM (fun m (event, index) =>
    addEvent events.length rooms penalty m event index) m

end ThermalSearch.Timetable
