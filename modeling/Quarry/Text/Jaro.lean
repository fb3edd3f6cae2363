/-!
Similar names: the Jaro score of two texts, and the candidate closest to a misspelt name.
-/
namespace Quarry.Text

/-- Common characters found so far: those of the first text in order, and their positions in the
second. -/
structure Matching where
  chars : List Char := []
  positions : List Nat := []

/-- Pairs the character at `i` with the first free equal one at most `range` positions away. -/
def Matching.step (b : List (Char × Nat)) (range : Nat) (m : Matching) : Char × Nat → Matching
  | (c, i) =>
    let near := b.find? fun (d, j) =>
      c = d ∧ i - range ≤ j ∧ j < i + range + 1 ∧ j ∉ m.positions
    match near with
    | some (_, j) => ⟨m.chars ++ [c], j :: m.positions⟩
    | none => m

/-- The share of common characters in both texts and of those in the same order, between 0 and 1. -/
def jaro (a b : List Char) : Float :=
  if a.isEmpty ∧ b.isEmpty then 1
  else
    let range := max a.length b.length / 2 - 1
    let numbered := b.zipIdx
    let common := a.zipIdx.foldl (Matching.step numbered range) {}
    let others := (numbered.filter fun (_, j) => j ∈ common.positions).map (·.1)
    let moved := ((common.chars.zip others).filter fun (c, d) => c ≠ d).length / 2
    let count := Float.ofNat common.chars.length
    if common.chars.isEmpty then 0
    else
      (count / Float.ofNat a.length + count / Float.ofNat b.length
        + (count - Float.ofNat moved) / count) / 3

/-- Of the candidates with a score above 0.7 the first with the highest score. -/
def mostSimilar? (candidates : List String) (name : String) : Option String :=
  let better (best : Option (String × Float)) (candidate : String) : Option (String × Float) :=
    let score := jaro candidate.toList name.toList
    if score ≤ 0.7 then best
    else match best with
      | some (_, highest) => if highest ≥ score then best else some (candidate, score)
      | none => some (candidate, score)
  (candidates.foldl better none).map (·.1)

end Quarry.Text
