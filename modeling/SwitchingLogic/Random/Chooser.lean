/-!
# Sources of choices

A randomised search asks for two kinds of choice: a coin that shows heads with a given probability,
and one of a positive number of things.  Where the choices come from is left open, so that what
holds of a search holds for every course of its choices.
-/

namespace SwitchingLogic.Random

/-- A source of choices with an inner state. -/
structure Chooser (σ : Type) where
  /-- Toss a coin that shows heads with the given probability. -/
  coin : Float → σ → Bool × σ
  /-- Choose one of `n + 1` things. -/
  pick : (n : Nat) → σ → Fin (n + 1) × σ

/-- Toss a coin for each member of a list, and keep those for which it shows heads. -/
def Chooser.sample {σ α : Type} (source : Chooser σ) (probability : Float) :
    List α → σ → List α × σ
  | [], s => ([], s)
  | a :: rest, s =>
      let (heads, s) := source.coin probability s
      let (chosen, s) := source.sample probability rest s
      (if heads then a :: chosen else chosen, s)

end SwitchingLogic.Random
