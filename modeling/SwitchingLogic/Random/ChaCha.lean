import SwitchingLogic.Random.Chooser

/-!
# The ChaCha generator

A stream of random words: the ChaCha block function with eight rounds, applied to a key and a block
counter.  The key is drawn from a 64-bit seed by a permuted congruential generator.
-/

namespace SwitchingLogic.Random

def rotateLeft (x : UInt32) (n : UInt32) : UInt32 := (x <<< n) ||| (x >>> (32 - n))

namespace ChaCha

/-- The quarter round, on the words at four places. -/
def quarterRound (a b c d : Nat) (w : Array UInt32) : Array UInt32 :=
  let wa := w.getD a 0
  let wb := w.getD b 0
  let wc := w.getD c 0
  let wd := w.getD d 0
  let wa := wa + wb
  let wd := rotateLeft (wd ^^^ wa) 16
  let wc := wc + wd
  let wb := rotateLeft (wb ^^^ wc) 12
  let wa := wa + wb
  let wd := rotateLeft (wd ^^^ wa) 8
  let wc := wc + wd
  let wb := rotateLeft (wb ^^^ wc) 7
  (((w.setIfInBounds a wa).setIfInBounds b wb).setIfInBounds c wc).setIfInBounds d wd

/-- Two rounds: on the columns, and then on the diagonals. -/
def doubleRound (w : Array UInt32) : Array UInt32 :=
  let w := quarterRound 0 4 8 12 w
  let w := quarterRound 1 5 9 13 w
  let w := quarterRound 2 6 10 14 w
  let w := quarterRound 3 7 11 15 w
  let w := quarterRound 0 5 10 15 w
  let w := quarterRound 1 6 11 12 w
  let w := quarterRound 2 7 8 13 w
  quarterRound 3 4 9 14 w

def constants : List UInt32 := [0x61707865, 0x3320646e, 0x79622d32, 0x6b206574]

def block (key : List UInt32) (counter : UInt64) : List UInt32 :=
  let start := constants ++ key ++ [counter.toUInt32, (counter >>> 32).toUInt32, 0, 0]
  let mixed := Nat.repeat doubleRound 4 start.toArray
  start.zipWith (· + ·) mixed.toList

end ChaCha

/-- A generator: its key, the number of its next block, and what is left of the last block. -/
structure Generator where
  key : List UInt32
  counter : UInt64
  buffer : List UInt32

namespace Generator

def keyWords : Nat → UInt64 → List UInt32
  | 0, _ => []
  | n + 1, s =>
      let s := s * 6364136223846793005 + 11634580027462260723
      let x := (((s >>> 18) ^^^ s) >>> 27).toUInt32
      let turn := (s >>> 59).toUInt32
      rotateLeft x ((32 - turn) % 32) :: keyWords n s

def ofSeed (seed : UInt64) : Generator := ⟨keyWords 8 seed, 0, []⟩

def nextWord (g : Generator) : UInt32 × Generator :=
  match g.buffer with
  | w :: rest => (w, { g with buffer := rest })
  | [] =>
      let words := ChaCha.block g.key g.counter
      (words.headD 0, { g with counter := g.counter + 1, buffer := words.tail })

/-- The next two words as one of double length, the lower half first. -/
def next64 (g : Generator) : UInt64 × Generator :=
  let (low, g) := g.nextWord
  let (high, g) := g.nextWord
  (low.toUInt64 ||| (high.toUInt64 <<< 32), g)

/-- Toss a coin.  A sure one is not tossed. -/
def coin (probability : Float) (g : Generator) : Bool × Generator :=
  if probability == 1 then (true, g)
  else
    let (x, g) := g.next64
    (x < (probability * 18446744073709551616).toUInt64, g)

/-- Choose one of `n + 1` things: the high half of the product of a random word and their number.
Words whose low half lies beyond the last full zone are refused, so that all choices are equally
likely.  Half of the words or more are accepted; after very many refusals the first thing is
chosen. -/
def pickWithin (n : Nat) : Nat → Generator → Fin (n + 1) × Generator
  | 0, g => (0, g)
  | attempts + 1, g =>
      let count := UInt64.ofNat (n + 1)
      let zone := (count <<< (63 - UInt64.ofNat (n + 1).log2)) - 1
      let (x, g) := g.next64
      let product := x.toNat * (n + 1)
      if product % UInt64.size ≤ zone.toNat then (Fin.ofNat (n + 1) (product / UInt64.size), g)
      else pickWithin n attempts g

/-- The number of words that are tried for one choice. -/
def maxAttempts : Nat := 4096

def chooser : Chooser Generator := ⟨coin, fun n => pickWithin n maxAttempts⟩

end Generator

end SwitchingLogic.Random
