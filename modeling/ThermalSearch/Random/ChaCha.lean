namespace ThermalSearch.ChaCha

/-!
# The ChaCha keystream

A block is sixteen 32-bit words: four constants, eight key words, a 64-bit block number and a
64-bit stream number, which is always zero here. Scrambling it for twelve rounds and adding the
unscrambled block gives sixteen words of keystream. Every block is a function of the key and its
number alone, so a keystream can be entered anywhere.
-/

abbrev Block := Vector UInt32 16

abbrev Key := Vector UInt32 8

/-- Rotation towards the high bits; `0 < places < 32`. -/
def rotateLeft (x : UInt32) (places : UInt32) : UInt32 :=
  (x <<< places) ||| (x >>> (32 - places))

/-- Adds the word at `source` to the one at `target`, mixes the sum into the word at `mixed` and
rotates that. -/
def mix (s : Block) (target source mixed : Fin 16) (places : UInt32) : Block :=
  let s := s.set target (s[target] + s[source])
  s.set mixed (rotateLeft (s[mixed] ^^^ s[target]) places)

def quarterRound (s : Block) (a b c d : Fin 16) : Block :=
  let s := mix s a b d 16
  let s := mix s c d b 12
  let s := mix s a b d 8
  mix s c d b 7

/-- A round down the columns of the 4 × 4 square of words, then one along its diagonals. -/
def doubleRound (s : Block) : Block :=
  let s := quarterRound s 0 4 8 12
  let s := quarterRound s 1 5 9 13
  let s := quarterRound s 2 6 10 14
  let s := quarterRound s 3 7 11 15
  let s := quarterRound s 0 5 10 15
  let s := quarterRound s 1 6 11 12
  let s := quarterRound s 2 7 8 13
  quarterRound s 3 4 9 14

/-- The block with a given number, before scrambling. -/
def start (key : Key) (number : Nat) : Block :=
  #v[0x61707865, 0x3320646e, 0x79622d32, 0x6b206574,
    key[0], key[1], key[2], key[3], key[4], key[5], key[6], key[7],
    number.toUInt32, (number >>> 32).toUInt32, 0, 0]

/-- Twelve rounds. -/
def scramble (s : Block) : Block :=
  doubleRound (doubleRound (doubleRound (doubleRound (doubleRound (doubleRound s)))))

/-- The keystream words of one block. -/
def block (key : Key) (number : Nat) : Block :=
  let s := start key number
  Vector.zipWith (· + ·) (scramble s) s

/-- Two keystream words as one of 64 bits, the earlier one low. -/
def join (low high : UInt32) : UInt64 :=
  low.toUInt64 ||| (high.toUInt64 <<< 32)

/-- The eight 64-bit words of one block, in the order they are drawn. -/
def words (key : Key) (number : Nat) : List UInt64 :=
  let b := block key number
  [join b[0] b[1], join b[2] b[3], join b[4] b[5], join b[6] b[7],
    join b[8] b[9], join b[10] b[11], join b[12] b[13], join b[14] b[15]]

/-! ## Keys from short seeds -/

/-- The linear congruential step that stretches a 64-bit seed. -/
def stretch (state : UInt64) : UInt64 :=
  state * 6364136223846793005 + 11634580027462260723

/-- A key word from a stretched state: its high bits, rotated by the highest five. -/
def keyWord (state : UInt64) : UInt32 :=
  let folded := (((state >>> 18) ^^^ state) >>> 27).toUInt32
  let places := (state >>> 59).toUInt32
  if places = 0 then folded else rotateLeft folded (32 - places)

/-- The key of a seed: eight successive stretched states, one word each. -/
def keyOfSeed (seed : UInt64) : Key :=
  let s0 := stretch seed
  let s1 := stretch s0
  let s2 := stretch s1
  let s3 := stretch s2
  let s4 := stretch s3
  let s5 := stretch s4
  let s6 := stretch s5
  let s7 := stretch s6
  #v[keyWord s0, keyWord s1, keyWord s2, keyWord s3, keyWord s4, keyWord s5, keyWord s6,
    keyWord s7]

end ThermalSearch.ChaCha
