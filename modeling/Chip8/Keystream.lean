/-!
# The Random Source

Random bytes come from a keystream of the ChaCha cipher with twelve rounds. A
seed of 64 bits is stretched to the key of 256 bits by a permuted congruential
generator, the counter of blocks starts at zero, and each block yields sixteen
words. The stream is a function of seed and position, so the state of a source
is the seed and the number of words drawn so far.

## Main definitions

* `Keystream.key`: The key that a seed stretches to.
* `Keystream.block`: A block of sixteen words.
* `Keystream.word`: The word at a position of the stream.
* `RandomSource`, `RandomSource.next`: Drawing words in order.
-/

namespace Chip8

namespace Keystream

/-- One step of the congruential generator. -/
def advance (state : UInt64) : UInt64 :=
  state * 6364136223846793005 + 11634580027462260723

def rotateLeft (x k : UInt32) : UInt32 :=
  x <<< k ||| x >>> (32 - k)

def rotateRight (x k : UInt32) : UInt32 :=
  x >>> k ||| x <<< (32 - k)

/-- The output of the congruential generator: its upper bits, mixed and then
    rotated by the uppermost five. -/
def output (state : UInt64) : UInt32 :=
  rotateRight (((state >>> 18) ^^^ state) >>> 27).toUInt32 (state >>> 59).toUInt32

/-- The key of a seed: eight outputs in a row. -/
def key (seed : UInt64) : Vector UInt32 8 :=
  Vector.ofFn fun k => output (Nat.repeat advance (k + 1) seed)

/-- The state of the cipher. -/
abbrev State := Vector UInt32 16

/-- A quarter round on four words of the state. -/
def quarterRound (a b c d : Fin 16) (s : State) : State :=
  let s := s.set a (s[a] + s[b])
  let s := s.set d (rotateLeft (s[d] ^^^ s[a]) 16)
  let s := s.set c (s[c] + s[d])
  let s := s.set b (rotateLeft (s[b] ^^^ s[c]) 12)
  let s := s.set a (s[a] + s[b])
  let s := s.set d (rotateLeft (s[d] ^^^ s[a]) 8)
  let s := s.set c (s[c] + s[d])
  s.set b (rotateLeft (s[b] ^^^ s[c]) 7)

/-- Two rounds: quarter rounds on the columns, then on the diagonals. -/
def doubleRound (s : State) : State :=
  let s := quarterRound 0 4 8 12 s
  let s := quarterRound 1 5 9 13 s
  let s := quarterRound 2 6 10 14 s
  let s := quarterRound 3 7 11 15 s
  let s := quarterRound 0 5 10 15 s
  let s := quarterRound 1 6 11 12 s
  let s := quarterRound 2 7 8 13 s
  quarterRound 3 4 9 14 s

/-- The state before the rounds: the constant of the cipher, the key, and the
    number of the block with its lower half first. -/
def initialState (key : Vector UInt32 8) (number : Nat) : State :=
  #v[0x61707865, 0x3320646e, 0x79622d32, 0x6b206574,
     key[0], key[1], key[2], key[3], key[4], key[5], key[6], key[7],
     number.toUInt32, (number >>> 32).toUInt32, 0, 0]

/-- The block with the given number: twelve rounds, added to the state they
    started from. -/
def block (key : Vector UInt32 8) (number : Nat) : State :=
  let start := initialState key number
  Vector.zipWith (· + ·) (Nat.repeat doubleRound 6 start) start

/-- The word at a position of the stream. -/
def word (seed : UInt64) (position : Nat) : UInt32 :=
  (block (key seed) (position / 16))[position % 16]

end Keystream

/-- A seeded stream of words, of which some have been drawn. -/
structure RandomSource where
  seed : UInt64
  drawn : Nat
  deriving DecidableEq, Repr

namespace RandomSource

/-- A source of which nothing has been drawn. -/
def ofSeed (seed : UInt64) : RandomSource :=
  ⟨seed, 0⟩

/-- The next word of the stream, and the source without it. -/
def next (r : RandomSource) : UInt32 × RandomSource :=
  (Keystream.word r.seed r.drawn, { r with drawn := r.drawn + 1 })

end RandomSource

end Chip8
