/-
Prose that lost its quotes: names used as values that hold a letter of the
natural-language alphabet. Names that are defined, names of attributes and
names of keyword arguments are not looked at.
-/
import SceneGate.Check.Issue
import SceneGate.Source.Parse
import SceneGate.Text.Prose

namespace SceneGate.StrayProse

/-- Keeps the first of the entries with the same name. -/
def keepFirst : List (Text × Nat) → List (Text × Nat)
  | [] => []
  | (name, offset) :: rest => (name, offset) :: (keepFirst rest).filter (·.1 != name)

/-- The names that are prose, each with the offset where it first occurs, in
order. -/
def occurrences (root : Tree) : List (Text × Nat) :=
  keepFirst (((root.findAll .nameRef).map fun l => (l.tree.bareText, l.start)).filter
    (·.1.hasProse))

/-- The names that are prose, each once, in the order in which they first
occur. -/
def names (p : Parse) : List Text := (occurrences p.tree).map (·.1)

/-- An issue for each name that is prose, at the line where it first occurs. -/
def issues (p : Parse) : Findings :=
  (occurrences p.tree).map fun (name, offset) => .unquotedIdentifier name (p.lineOf offset)

end SceneGate.StrayProse
