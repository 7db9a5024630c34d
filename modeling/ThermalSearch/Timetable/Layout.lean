import ThermalSearch.Model.Qubo

namespace ThermalSearch.Timetable

/-!
# Layout of timetables as bits

One bit for every event at every place, a room at a slot: the bits of an event lie together,
within it those of a room, within that the slots. A bit vector of the right length may leave
events without a place, give them several, or put two events in one place; it is feasible when
it does none of this.
-/

structure Layout where
  events : Nat
  rooms : Nat
  slots : Nat

/-- A room at a time slot. -/
structure Place where
  room : Nat
  slot : Nat
deriving DecidableEq, Repr

/-- How far a bit vector is from a timetable. -/
structure Violations where
  /-- Events without a place. -/
  unassigned : Nat
  /-- Events with several places. -/
  multiplyAssigned : Nat
  /-- Pairs of events in one place, counted at each place they share. -/
  conflicts : Nat
deriving DecidableEq, Repr

def Violations.isFeasible (v : Violations) : Bool :=
  v.unassigned == 0 && v.multiplyAssigned == 0 && v.conflicts == 0

namespace Layout

/-- The number of bits. -/
def size (l : Layout) : Except Fault Nat := do
  Word.mul (← Word.mul l.events l.rooms) l.slots

/-- The bit of an event at a place. -/
def bit (l : Layout) (event room slot : Nat) : Except Fault Nat := do
  let rooms ← Word.add (← Word.mul event l.rooms) room
  Word.add (← Word.mul rooms l.slots) slot

/-- The event and the place of a bit. -/
def locate (l : Layout) (v : Nat) : Except Fault (Nat × Place) := do
  let slot ← Word.mod v l.slots
  let rest ← Word.div v l.slots
  let event ← Word.div rest l.rooms
  let room ← Word.mod rest l.rooms
  return (event, { room, slot })

/-- The first bit of an event, and the first one after its bits. -/
def eventRange (l : Layout) (event : Nat) : Except Fault (Nat × Nat) := do
  let width ← Word.mul l.rooms l.slots
  let start ← Word.mul event width
  let stop ← Word.mul (← Word.add event 1) width
  return (start, stop)

/-- The bits of an event, in order. -/
def owned (l : Layout) (event : Nat) : Except Fault (List Nat) := do
  let (start, stop) ← l.eventRange event
  return List.range' start (stop - start)

/-- The places of the layout, room after room. -/
def places (l : Layout) : List Place :=
  (List.range l.rooms).flatMap fun room => (List.range l.slots).map fun slot => { room, slot }

/-- The bits of an event that are set. -/
def chosen (l : Layout) (x : Array UInt8) (event : Nat) : Except Fault (List Nat) := do
  (← l.owned event).filterM fun v => return isSet (← Table.read x v)

/-- The first place of an event, if it has one. -/
def placeOf (l : Layout) (x : Array UInt8) (event : Nat) : Except Fault (Option Place) := do
  match ← l.chosen x event with
  | [] => return none
  | v :: _ => return some (← l.locate v).2

/-- The first place of every event, in a table of three words for each. -/
def decode {α : Type} (l : Layout) (x : Bits) : Except (Failure α) (List (Option Place)) := do
  let n ← l.size
  (requireLength n x.length : Except (Rejection α) Unit)
  (Table.reserve l.events 3 : Except Fault _)
  let bits := x.toArray
  ((List.range l.events).mapM (l.placeOf bits) : Except Fault _)

/-- The events at a place. -/
def occupants (l : Layout) (x : Array UInt8) (p : Place) : Except Fault (List Nat) :=
  (List.range l.events).filterM fun event => do
    return isSet (← Table.read x (← l.bit event p.room p.slot))

/-- The number of pairs among `n`. -/
def pairs (n : Nat) : Nat := n * (n - 1) / 2

/-- Counts what is wrong with the bits. Where there are none, no event has a place, and there is
nothing to go through. -/
def countViolations (l : Layout) (x : Array UInt8) : Except Fault Violations := do
  if x.isEmpty then return { unassigned := l.events, multiplyAssigned := 0, conflicts := 0 }
  let counts ← (List.range l.events).mapM fun event => do
    return (← l.chosen x event).length
  let shared ← l.places.mapM fun p => do
    return pairs (← l.occupants x p).length
  return {
    unassigned := counts.countP (· == 0)
    multiplyAssigned := counts.countP (2 ≤ ·)
    conflicts := shared.foldr (· + ·) 0 }

/-- What keeps a bit vector from being a timetable. -/
def violations {α : Type} (l : Layout) (x : Bits) : Except (Failure α) Violations := do
  let n ← l.size
  (requireLength n x.length : Except (Rejection α) Unit)
  l.countViolations x.toArray

end Layout

end ThermalSearch.Timetable
