import ThermalSearch.Tempering.Replica

namespace ThermalSearch.Tempering

/-!
# Exchanges

In a round of exchanges the neighbours on the ladder are paired off, starting with the coldest
rung in one round and with the next one in the other, and each pair may exchange its states. A
rung takes part in at most one exchange of a round, so every pair is judged by the energies its
rungs had before the round.
-/

/-- How often a pair of neighbours was offered an exchange and took it: since the start of the
run, and since the ladder was last adapted. -/
structure Tally where
  attempts : Nat := 0
  accepts : Nat := 0
  recentAttempts : Nat := 0
  recentAccepts : Nat := 0
deriving DecidableEq, Repr

namespace Tally

/-- How many 64-bit words a tally takes in memory. -/
def words : Nat := 4

def record (t : Tally) (accepted : Bool) : Tally :=
  let hit := if accepted then 1 else 0
  { attempts := t.attempts + 1
    accepts := t.accepts + hit
    recentAttempts := t.recentAttempts + 1
    recentAccepts := t.recentAccepts + hit }

/-- Starts counting anew for the next adaptation. -/
def forgetRecent (t : Tally) : Tally := { t with recentAttempts := 0, recentAccepts := 0 }

variable {α : Type} [Scalar α]

def rate (t : Tally) : α := Scalar.fraction t.accepts t.attempts

def recentRate (t : Tally) : α := Scalar.fraction t.recentAccepts t.recentAttempts

end Tally

variable {α : Type}

/-- Hands the states over, with their energies. Everything else stays with the rung. -/
def Replica.swap (a b : Replica α) : Replica α × Replica α :=
  ({ a with state := b.state, energy := b.energy },
    { b with state := a.state, energy := a.energy })

/-- The replicas, their pairs' tallies and the generator that decides on exchanges. -/
structure Exchanges (α : Type) where
  replicas : List (Replica α)
  tallies : List Tally
  generator : Generator

variable [Scalar α]

/-- Pairs off the rungs from the first one on and offers each pair an exchange. The tally after a
pair's own belongs to the pair across, which sits this round out. -/
def exchangePairs :
    List α → List (Replica α) → List Tally → Generator → Exchanges α
  | cold :: hot :: temperatures, a :: b :: replicas, tally :: tallies, g =>
    let (accepted, g) := (exchange cold hot a.energy b.energy).decide g
    let (a', b') := if accepted then a.swap b else (a, b)
    let rest := exchangePairs temperatures replicas (tallies.drop 1) g
    { replicas := a' :: b' :: rest.replicas
      tallies := tally.record accepted :: (tallies.take 1 ++ rest.tallies)
      generator := rest.generator }
  | _, replicas, tallies, g => { replicas, tallies, generator := g }

/-- One round of exchanges; in odd rounds the coldest rung sits out. -/
def exchangePhase (round : Nat) (temperatures : List α) (replicas : List (Replica α))
    (tallies : List Tally) (g : Generator) : Exchanges α :=
  if round % 2 = 0 then exchangePairs temperatures replicas tallies g
  else
    let rest :=
      exchangePairs (temperatures.drop 1) (replicas.drop 1) (tallies.drop 1) g
    { replicas := replicas.take 1 ++ rest.replicas
      tallies := tallies.take 1 ++ rest.tallies
      generator := rest.generator }

end ThermalSearch.Tempering
