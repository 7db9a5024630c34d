import ThermalSearch.Failure
import ThermalSearch.Random.ChaCha

namespace ThermalSearch

/-!
# Random numbers

The only source of randomness. A generator is a value: drawing returns the draw and the generator
to go on with, so a run is a function of its seed and two uses of one generator agree.

Indices and uniform numbers are drawn by rejection: a word that would favour some outcomes is
thrown away and the next one tried. An attempt fails with a chance of at most about one half, so
the bound on the number of attempts is hardly ever met. It makes the loops end, and no result
depends on its not being met: what is returned there is still in the range asked for.
-/

/-- A keystream, the number of its next block, and what is left of the current one. -/
structure Generator where
  key : ChaCha.Key
  nextBlock : Nat
  pending : List UInt64

namespace Generator

def ofSeed (seed : UInt64) : Generator :=
  { key := ChaCha.keyOfSeed seed, nextBlock := 0, pending := [] }

/-- The next 64 bits. -/
def word (g : Generator) : UInt64 × Generator :=
  match g.pending with
  | w :: rest => (w, { g with pending := rest })
  | [] =>
    match ChaCha.words g.key g.nextBlock with
    | w :: rest => (w, { g with nextBlock := g.nextBlock + 1, pending := rest })
    | [] => (0, g)

/-- Throws away `n` words. -/
def skip (g : Generator) : Nat → Generator
  | 0 => g
  | n + 1 => skip g.word.2 n

/-- A generator of its own, seeded by one word of this one. -/
def split (g : Generator) : Generator × Generator :=
  let (w, g) := g.word
  (ofSeed w, g)

/-- How many 64-bit words a generator takes in memory: 32 of output that is made ahead, the place
among them, 4 of key, 2 that count blocks, and one that is left empty. -/
def words : Nat := 40

/-- How often a draw by rejection is tried. One that fails so often ends with the least number of
its range, zero for an index and the lower end for a uniform number; results about draws hold
there too, as `index_lt` does. -/
def maxAttempts : Nat := 4096

/-! ## Indices -/

/-- The greatest low half of a product `w * n` that counts: the words below the bound fall
evenly on the `n` outcomes once `n` is scaled up to fill its word. -/
def indexZone (n : Nat) : Nat := (n <<< (63 - n.log2)) - 1

def indexLoop (n zone : Nat) : Nat → Generator → Nat × Generator
  | 0, g => (0, g)
  | attempts + 1, g =>
    let (w, g) := g.word
    let product := w.toNat * n
    if product % UInt64.size ≤ zone then (product / UInt64.size, g) else indexLoop n zone attempts g

/-- An index below `n`, each equally likely; zero, without a draw, when there is none. -/
def index (n : Nat) (g : Generator) : Nat × Generator :=
  if n = 0 then (0, g) else indexLoop n (indexZone n) maxAttempts g

theorem indexLoop_lt {n : Nat} (h : 0 < n) (zone attempts : Nat) (g : Generator) :
    (indexLoop n zone attempts g).1 < n := by
  induction attempts generalizing g with
  | zero => exact h
  | succ attempts ih =>
    unfold indexLoop
    dsimp only
    split
    · have hw : g.word.1.toNat < UInt64.size := g.word.1.toNat_lt_size
      exact Nat.div_lt_of_lt_mul (Nat.mul_lt_mul_of_pos_right hw h)
    · exact ih _

theorem index_lt {n : Nat} (h : 0 < n) (g : Generator) : (index n g).1 < n := by
  unfold index
  split
  · omega
  · exact indexLoop_lt h _ _ g

/-! ## Numbers -/

variable {α : Type} [Scalar α]

/-- A number from 0 up to but not including 1, with 53 random bits. -/
def unit (g : Generator) : α × Generator :=
  let (w, g) := g.word
  (Scalar.ofNat (w >>> 11).toNat / Scalar.ofNat (1 <<< 53), g)

def uniformLoop (low high width : α) : Nat → Generator → α × Generator
  | 0, g => (low, g)
  | attempts + 1, g =>
    let (w, g) := g.word
    let x := Scalar.ofNat (w >>> 12).toNat / Scalar.ofNat (1 <<< 52) * width + low
    if x < high then (x, g) else uniformLoop low high width attempts g

/-- A number from `low` up to but not including `high`; `low` itself, without a draw, when there
is none. With 52 random bits the sum may round up to `high`, and is then drawn again. -/
def uniform (low high : α) (g : Generator) : Except Fault (α × Generator) :=
  if low < high then
    let width := high - low
    if Scalar.isFinite low && Scalar.isFinite high && Scalar.isFinite width then
      .ok (uniformLoop low high width maxAttempts g)
    else .error .unboundedRange
  else .ok (low, g)

end Generator

end ThermalSearch
