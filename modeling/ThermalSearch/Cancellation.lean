namespace ThermalSearch

/-!
# Cancellation

A run asks from time to time whether it should stop early, and stops at the first yes. What it
asks is a watch, which sees how far the run has come. Tokens are how a watch is shared: copies
of one token are cancelled together, and a cancelled token stays so.
-/

/-- How far a run has come when it asks. -/
structure Poll where
  /-- How many times it asked before. -/
  index : Nat
  /-- How many energies it has evaluated. -/
  evaluations : Nat
deriving DecidableEq, Repr

/-- Whether a run should stop at a poll. -/
abbrev Watch := Poll → Bool

namespace Watch

/-- Lets a run go on to its end. -/
def never : Watch := fun _ => false

/-- Stops a run before it starts. -/
def always : Watch := fun _ => true

/-- Stops a run once the energy evaluation numbered `call`, counted from zero, was made. -/
def afterEvaluation (call : Nat) : Watch := fun poll => decide (call < poll.evaluations)

/-- Stops a run when either watch does. -/
def either (a b : Watch) : Watch := fun poll => a poll || b poll

end Watch

/-- Tokens in the order they were made, each with the number of the flag it shows. -/
structure TokenPool where
  flagOf : List Nat
  raised : List Bool

namespace TokenPool

/-- One token, not cancelled. -/
def single : TokenPool := { flagOf := [0], raised := [false] }

/-- Adds a token of its own. -/
def fresh (p : TokenPool) : TokenPool :=
  { flagOf := p.flagOf ++ [p.raised.length], raised := p.raised ++ [false] }

/-- Adds a copy of a token, which shows the same flag. -/
def copy (p : TokenPool) (token : Nat) : TokenPool :=
  match p.flagOf[token]? with
  | some flag => { p with flagOf := p.flagOf ++ [flag] }
  | none => p

/-- Cancels a token and all its copies. -/
def cancel (p : TokenPool) (token : Nat) : TokenPool :=
  match p.flagOf[token]? with
  | some flag => { p with raised := p.raised.set flag true }
  | none => p

def isCancelled (p : TokenPool) (token : Nat) : Bool :=
  match p.flagOf[token]? with
  | some flag => p.raised.getD flag false
  | none => false

/-- What every token shows, in order. -/
def states (p : TokenPool) : List Bool := p.flagOf.map fun flag => p.raised.getD flag false

end TokenPool

end ThermalSearch
