/-
Sets of characters given as ranges of code points, the form in which the
properties of Unicode are listed in the modules that follow. Each table holds
the part of its property outside ASCII. The classes go by different versions
of Unicode, and each module says by which.
-/
namespace SceneGate

/-- Whether a code point lies in one of the ranges, ends included. -/
def inRanges (ranges : List (Nat × Nat)) (n : Nat) : Bool :=
  ranges.any fun r => r.1 ≤ n && n ≤ r.2

/-- An ASCII letter. -/
def isAsciiLetter (c : Char) : Bool :=
  let n := c.toNat
  (65 ≤ n && n ≤ 90) || (97 ≤ n && n ≤ 122)

/-- An ASCII digit. -/
def isAsciiDigit (c : Char) : Bool :=
  let n := c.toNat
  48 ≤ n && n ≤ 57

end SceneGate
