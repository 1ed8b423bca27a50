/-
Edits: replacing ranges of a text.

A set of edits holds spans that do not overlap: a span that overlaps one
already in the set is turned away. All spans are ranges of the same text, so
they are carried out from the last to the first, and none moves the range of
another.
-/
import SceneGate.Text.Basic

namespace SceneGate

/-- A range of a text, by its start and length in bytes, and what replaces it.
A range of length 0 is an insertion. -/
structure Span where
  start : Nat
  length : Nat
  replacement : Text
deriving DecidableEq, Repr

namespace Span

/-- The offset just past the range. -/
def stop (s : Span) : Nat := s.start + s.length

/-- The span that inserts a text. -/
def insertion (offset : Nat) (t : Text) : Span := ⟨offset, 0, t⟩

/-- Whether the range holds the byte at an offset. -/
def holds (s : Span) (offset : Nat) : Bool := s.start ≤ offset && offset < s.stop

/-- Whether two spans get in each other's way: their ranges share a byte, or an
insertion falls into the other range or on its start. -/
def overlaps (a b : Span) : Bool :=
  if a.length = 0 ∨ b.length = 0 then
    a.start == b.start || a.holds b.start || b.holds a.start
  else max a.start b.start < min a.stop b.stop

/-- Replaces the range in a text. -/
def replaceIn (s : Span) (t : Text) : Text :=
  match t.cut? s.start with
  | some (front, rest) =>
    match rest.cut? s.length with
    | some (_, back) => front ++ s.replacement ++ back
    | none => t
  | none => t

end Span

/-- Why an edit does not fit a text. -/
inductive EditError where
  /-- The range ends past the end of the text. -/
  | outOfBounds (start stop size : Nat)
  /-- An end of the range lies inside a character. -/
  | notCharBoundary (start stop : Nat)
deriving DecidableEq, Repr

/-- A range as it is shown to a reader. -/
def showRange (start stop : Nat) : Text := Text.ofNat start ++ "..".toList ++ Text.ofNat stop

/-- What a reader is told. -/
def EditError.message : EditError → Text
  | .outOfBounds start stop size =>
    "span ".toList ++ showRange start stop ++ " is out of bounds for text of length ".toList ++
      Text.ofNat size
  | .notCharBoundary start stop =>
    "span ".toList ++ showRange start stop ++
      " does not start and end on character boundaries".toList

/-- Why the span does not fit the text, if it does not. -/
def Span.misfit? (s : Span) (t : Text) : Option EditError :=
  if t.bytes < s.stop then some (.outOfBounds s.start s.stop t.bytes)
  else if t.isBoundary s.start && t.isBoundary s.stop then none
  else some (.notCharBoundary s.start s.stop)

/-- A set of spans that do not overlap, in the order in which they came. -/
structure Edits where
  spans : List Span
  apart : spans.Pairwise fun a b => a.overlaps b = false

namespace Edits

/-- No edits. -/
def empty : Edits := ⟨[], .nil⟩

/-- Adds a span, unless it overlaps one in the set, and says whether it was
added. -/
def push (edits : Edits) (s : Span) : Edits × Bool :=
  if h : edits.spans.any (·.overlaps s) then (edits, false)
  else
    (⟨edits.spans ++ [s], by
      refine List.pairwise_append.2 ⟨edits.apart, List.pairwise_singleton _ _, ?_⟩
      intro a ha b hb
      simp only [List.any_eq_true, not_exists, not_and, Bool.not_eq_true] at h
      simp only [List.mem_singleton] at hb
      exact hb ▸ h a ha⟩, true)

/-- Adds spans one after another. -/
def pushAll (edits : Edits) (spans : List Span) : Edits :=
  spans.foldl (fun edits s => (edits.push s).1) edits

/-- The set of edits that spans make, given one after another. -/
def ofSpans (spans : List Span) : Edits := empty.pushAll spans

/-- Carries out all edits. Of several spans that do not fit the text, the one
that came first is reported, and nothing is changed. -/
def apply (edits : Edits) (t : Text) : Except EditError Text :=
  match edits.spans.findSome? (·.misfit? t) with
  | some error => .error error
  | none => .ok ((edits.spans.mergeSort fun a b => a.start ≤ b.start).foldr Span.replaceIn t)

/-- The text with the edits carried out, or as it is if one does not fit. -/
def applyOrKeep (edits : Edits) (t : Text) : Text :=
  match edits.apply t with
  | .ok t' => t'
  | .error _ => t

end Edits

end SceneGate
