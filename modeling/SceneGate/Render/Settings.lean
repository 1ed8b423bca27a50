/-
How the renderer is called, read from named values such as those of an
environment. Values that are missing keep their defaults.
-/
import SceneGate.Text.Blank
import SceneGate.Text.Quoted

namespace SceneGate

/-- The quality of a video. -/
inductive Quality where
  | low | medium | high
deriving DecidableEq, Repr

/-- Why settings cannot be read: the name of the value, the value, and what was
expected. -/
structure SettingsError where
  key : Text
  value : Text
  reason : Text
deriving DecidableEq, Repr

/-- What a reader is told. -/
def SettingsError.message (e : SettingsError) : Text :=
  "invalid value for ".toList ++ e.key ++ ": ".toList ++ e.value.quoted ++ " (".toList ++
    e.reason ++ [')']

/-- How the renderer is called. -/
structure Settings where
  binary : Text := "manimgl".toList
  workDir : Text := "./temp".toList
  sceneName : Text := "MathAnimation".toList
  quality : Quality := .medium
  timeoutSeconds : Nat := 300
deriving DecidableEq, Repr

namespace Settings

/-- The name of the value that says which program is the renderer. -/
def binaryKey : Text := "MANIM_BIN".toList

/-- The name of the value that says where scripts and videos are written. -/
def workDirKey : Text := "SCENEFIX_WORK_DIR".toList

/-- The name of the value that chooses the quality. -/
def qualityKey : Text := "VIDEO_QUALITY".toList

/-- The name of the value that limits the time, in seconds. -/
def timeoutKey : Text := "RENDER_TIMEOUT_SECS".toList

end Settings

namespace Quality

/-- The flag that asks the renderer for the quality. -/
def flag : Quality → String
  | .low => "-ql"
  | .medium => "-qm"
  | .high => "-qh"

/-- Reads a quality; blanks around it and the case of ASCII letters do not
matter. -/
def parse (t : Text) : Except SettingsError Quality :=
  let word := t.trim.map Char.toLower
  if word = "low".toList then .ok .low
  else if word = "medium".toList then .ok .medium
  else if word = "high".toList then .ok .high
  else .error ⟨Settings.qualityKey, t, "expected low, medium or high".toList⟩

end Quality

namespace Settings

/-- The greatest number of seconds that can be given. -/
def maxSeconds : Nat := 0xFFFFFFFFFFFFFFFF

/-- The number that decimal digits write. -/
def digitsValue (digits : Text) : Nat :=
  digits.foldl (fun n c => n * 10 + (c.toNat - '0'.toNat)) 0

/-- Reads a number of seconds: decimal digits, perhaps after a plus sign, and at
most `maxSeconds`. -/
def seconds? (t : Text) : Option Nat :=
  let digits := if t.head? = some '+' then t.drop 1 else t
  if !digits.isEmpty && digits.all Char.isDigit && digitsValue digits ≤ maxSeconds then
    some (digitsValue digits)
  else none

/-- Reads the limit of time; it must be positive. -/
def parseTimeout (t : Text) : Except SettingsError Nat :=
  match seconds? t.trim with
  | none => .error ⟨timeoutKey, t, "expected whole seconds".toList⟩
  | some 0 => .error ⟨timeoutKey, ['0'], "timeout must be positive".toList⟩
  | some n => .ok n

/-- The value that `lookup` has for a key, unless it is empty. -/
def nonEmpty? (lookup : Text → Option Text) (key : Text) : Option Text :=
  (lookup key).filter (!·.isEmpty)

/-- The settings that `lookup` gives. -/
def read (lookup : Text → Option Text) : Except SettingsError Settings := do
  let defaults : Settings := {}
  let quality ← (lookup qualityKey).elim (.ok defaults.quality) Quality.parse
  let timeout ← (lookup timeoutKey).elim (.ok defaults.timeoutSeconds) parseTimeout
  return { defaults with
    binary := (nonEmpty? lookup binaryKey).getD defaults.binary
    workDir := (nonEmpty? lookup workDirKey).getD defaults.workDir
    quality := quality
    timeoutSeconds := timeout }

end Settings

end SceneGate
