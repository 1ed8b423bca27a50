/-
The natural-language alphabet. On-screen text is Vietnamese; a name that holds
a Vietnamese letter from outside ASCII is prose that lost its quotes, not a
variable.
-/
import SceneGate.Text.Basic

namespace SceneGate

/-- The Vietnamese letters outside ASCII, small and capital, each vowel with its
tones. -/
def proseLetters : Text := [
  "àáảãạ", "ăằắẳẵặ", "âầấẩẫậ", "èéẻẽẹ", "êềếểễệ", "ìíỉĩị", "òóỏõọ", "ôồốổỗộ", "ơờớởỡợ",
  "ùúủũụ", "ưừứửữự", "ỳýỷỹỵ", "đ",
  "ÀÁẢÃẠ", "ĂẰẮẲẴẶ", "ÂẦẤẨẪẬ", "ÈÉẺẼẸ", "ÊỀẾỂỄỆ", "ÌÍỈĨỊ", "ÒÓỎÕỌ", "ÔỒỐỔỖỘ", "ƠỜỚỞỠỢ",
  "ÙÚỦŨỤ", "ƯỪỨỬỮỰ", "ỲÝỶỸỴ", "Đ"].flatMap String.toList

/-- Whether a character is a letter of the natural-language alphabet. -/
def isProseChar (c : Char) : Bool := proseLetters.contains c

/-- Whether a text holds a letter of the natural-language alphabet. -/
def Text.hasProse (t : Text) : Bool := t.any isProseChar

end SceneGate
