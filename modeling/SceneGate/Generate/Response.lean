/-
What a generator answers, and the program in it. A program may stand between
fences of three backquotes, in a block that may be tagged with a language.
-/
import SceneGate.Text.Blank
import SceneGate.Text.Ranges
import SceneGate.Text.Search

namespace SceneGate

/-- An answer of a generator. -/
structure Response where
  text : Text
  provider : Text
  model : Text
deriving DecidableEq, Repr

/-- Why a generator has no answer. -/
inductive GenerationError where
  /-- The provider is unknown or lacks credentials. -/
  | notConfigured (provider reason : Text)
  /-- The request failed on the way or at the provider. -/
  | request (reason : Text)
  /-- The answer has no text. -/
  | emptyResponse
deriving DecidableEq, Repr

/-- What a reader is told. -/
def GenerationError.message : GenerationError → Text
  | .notConfigured provider reason =>
    "generator '".toList ++ provider ++ "' is not configured: ".toList ++ reason
  | .request reason => "generator request failed: ".toList ++ reason
  | .emptyResponse => "generator returned an empty response".toList

namespace Response

/-- The fence that opens and closes a block. -/
def fence : Text := "```".toList

/-- The fence that opens a block of the language of programs. -/
def programFence : Text := fence ++ "python".toList

/-- The block without its first line, if that is all of a language tag. -/
def withoutTag (block : Text) : Text :=
  match block.splitAtFirst? ['\n'] with
  | some (tag, rest) =>
    if !tag.isEmpty && tag.all (fun c => isAsciiLetter c || isAsciiDigit c) then rest else block
  | none => block

/-- The block after an opening fence. -/
def blockAfter (t : Text) : Text := withoutTag (t.upTo fence)

/-- The program in an answer: the first block of the language of programs, or
else the first block, or else all of it. -/
def program (t : Text) : Text :=
  match t.splitAtFirst? programFence with
  | some (_, after) => (blockAfter after).trim
  | none =>
    match t.splitAtFirst? fence with
    | some (_, after) => (blockAfter after).trim
    | none => t.trim

end Response

end SceneGate
