/-! Random words: an endless supply of them with a count of those already taken, and the supply of a seed. -/
namespace DiceLaw

structure WordStream where
  word : Nat → UInt64
  taken : Nat

namespace WordStream

/-- A fresh supply that repeats the words of a list, all zero when it is empty. -/
def cycle (words : List UInt64) : WordStream where
  word i := words.getD (i % words.length) 0
  taken := 0

/-- The next `count` words and the supply after them. -/
def take (s : WordStream) (count : Nat) : List UInt64 × WordStream :=
  ((List.range count).map fun i => s.word (s.taken + i), { s with taken := s.taken + count })

@[simp] theorem length_take (s : WordStream) (count : Nat) : (s.take count).1.length = count := by
  simp [take]

/-- Taking in two goes is taking at once. -/
theorem take_add (s : WordStream) (m n : Nat) :
    s.take (m + n) = ((s.take m).1 ++ ((s.take m).2.take n).1, ((s.take m).2.take n).2) := by
  simp [take, List.range_add, Nat.add_assoc]

end WordStream

/-! ### Seeded words

The ChaCha stream cipher with six double rounds, keyed by a scrambled counter that starts from the seed. -/

namespace ChaCha

/-- Sixteen words: four constants, the key in eight, the block number in two, and two zeros. -/
abbrev Block := Vector UInt32 16

def rotateLeft (x : UInt32) (n : UInt32) : UInt32 := (x <<< n) ||| (x >>> (32 - n))

def rotateRight (x : UInt32) (n : UInt32) : UInt32 := (x >>> n) ||| (x <<< ((32 - n) % 32))

def quarterRound (s : Block) (a b c d : Fin 16) : Block :=
  let s := s.set a (s[a] + s[b])
  let s := s.set d (rotateLeft (s[d] ^^^ s[a]) 16)
  let s := s.set c (s[c] + s[d])
  let s := s.set b (rotateLeft (s[b] ^^^ s[c]) 12)
  let s := s.set a (s[a] + s[b])
  let s := s.set d (rotateLeft (s[d] ^^^ s[a]) 8)
  let s := s.set c (s[c] + s[d])
  s.set b (rotateLeft (s[b] ^^^ s[c]) 7)

/-- One round down the columns and one along the diagonals. -/
def doubleRound (s : Block) : Block :=
  let s := quarterRound s 0 4 8 12
  let s := quarterRound s 1 5 9 13
  let s := quarterRound s 2 6 10 14
  let s := quarterRound s 3 7 11 15
  let s := quarterRound s 0 5 10 15
  let s := quarterRound s 1 6 11 12
  let s := quarterRound s 2 7 8 13
  quarterRound s 3 4 9 14

def constants : Vector UInt32 4 := #v[0x61707865, 0x3320646e, 0x79622d32, 0x6b206574]

/-- The number of a block, low word first. -/
def counter (i : Nat) : Vector UInt32 4 := #v[.ofNat i, .ofNat (i / 4294967296), 0, 0]

def initial (key : Vector UInt32 8) (i : Nat) : Block := constants ++ key ++ counter i

def block (key : Vector UInt32 8) (i : Nat) : Block :=
  let start := initial key i
  (Nat.repeat doubleRound 6 start).zipWith (· + ·) start

/-- Two neighbouring words of a block make one output word, the first of them the low half. -/
def word (key : Vector UInt32 8) (i : Nat) : UInt64 :=
  let b := block key (i / 8)
  let low := b[2 * (i % 8)]
  let high := b[2 * (i % 8) + 1]
  low.toUInt64 ||| (high.toUInt64 <<< 32)

/-! ### Keys from seeds -/

/-- The congruential step that runs under the key. -/
def advance (s : UInt64) : UInt64 := s * 6364136223846793005 + 11634580027462260723

def scramble (s : UInt64) : UInt32 :=
  rotateRight (((s >>> 18) ^^^ s) >>> 27).toUInt32 (s >>> 59).toUInt32

def key (seed : UInt64) : Vector UInt32 8 := .ofFn fun i => scramble (Nat.repeat advance (i + 1) seed)

/-- The word supply of a seed, from its beginning. -/
def stream (seed : UInt64) : WordStream :=
  let k := key seed
  ⟨word k, 0⟩

end ChaCha
end DiceLaw
