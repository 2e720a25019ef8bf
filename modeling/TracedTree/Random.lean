/-!
# Random words and draws

A supply of random 64-bit words is a sequence with a position in it and a bound on how many words
may still be taken; a dry supply gives zeros. Every search for an acceptable word therefore ends,
whatever the sequence is. `Supply.seeded` is the sequence of the SplitMix64 generator.
-/

namespace TracedTree

/-- A sequence of random words, the number of words taken, and the number of words left. -/
structure Supply where
  word : Nat → UInt64
  taken : Nat
  left : Nat

namespace Supply

/-- The mixing step of SplitMix64. -/
def mix (state : UInt64) : UInt64 :=
  let z := (state ^^^ (state >>> 30)) * 0xbf58476d1ce4e5b9
  let z := (z ^^^ (z >>> 27)) * 0x94d049bb133111eb
  z ^^^ (z >>> 31)

/-- The words of SplitMix64 from a seed. The state grows by a constant with every word. -/
def seeded (seed : UInt64) : Supply :=
  ⟨fun i => mix (seed + UInt64.ofNat (i + 1) * 0x9e3779b97f4a7c15), 0, Nat.pow 2 62⟩

/-- Take a word. -/
def next (s : Supply) : UInt64 × Supply :=
  match s.left with
  | 0 => (0, s)
  | left + 1 => (s.word s.taken, ⟨s.word, s.taken + 1, left⟩)

/-- Take words from a position on until a function accepts one. -/
def searchFrom {α : Type} (word : Nat → UInt64) (accept : UInt64 → Option α) (taken : Nat) :
    Nat → Option α × Supply
  | 0 => (none, ⟨word, taken, 0⟩)
  | left + 1 =>
    match accept (word taken) with
    | some a => (some a, ⟨word, taken + 1, left⟩)
    | none => searchFrom word accept (taken + 1) left

/-- Take words until a function accepts one. -/
def search {α : Type} (s : Supply) (accept : UInt64 → Option α) : Option α × Supply :=
  searchFrom s.word accept s.taken s.left

/-- Scale the leading bits of a word to a range. The word is rejected when its product with the
range falls behind the largest multiple of the range by a power of two that fits. -/
def scaled? (bits range : Nat) (word : UInt64) : Option Nat :=
  let zone := range * Nat.pow 2 (bits - 1 - range.log2) - 1
  let product := word.toNat / Nat.pow 2 (64 - bits) * range
  if product % Nat.pow 2 bits ≤ zone then some (product / Nat.pow 2 bits) else none

/-- Draw a natural number below a range, from the leading bits of words. -/
def below (s : Supply) (bits range : Nat) : Nat × Supply :=
  let (drawn, s) := s.search (scaled? bits range)
  (drawn.getD 0, s)

/-- Draw a float between zero and one. -/
def unit (s : Supply) : Float × Supply :=
  let (word, s) := s.next
  ((word >>> 12).toFloat / 4503599627370496, s)

/-- Exchange the elements at the positions `i`, `i - 1` down to one with a drawn one that is not
behind it. -/
def shuffleFrom {α : Type} : Nat → Array α → Supply → Array α × Supply
  | 0, xs, s => (xs, s)
  | i + 1, xs, s =>
    let (j, s) := s.below 32 (i + 2)
    shuffleFrom i (xs.swapIfInBounds (i + 1) j) s

/-- Put a list into random order. -/
def shuffle {α : Type} (xs : List α) (s : Supply) : List α × Supply :=
  let (shuffled, s) := shuffleFrom (xs.length - 1) xs.toArray s
  (shuffled.toList, s)

end Supply

end TracedTree
