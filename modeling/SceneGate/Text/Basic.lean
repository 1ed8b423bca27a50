/-
Source text: its characters in order, measured and cut in UTF-8 bytes.
Every offset in this library is a count of bytes (`Text.bytes`), and a text
can be cut only between two characters (`Text.cut?`).
-/
namespace SceneGate

/-- A text: its characters in order. -/
abbrev Text := List Char

namespace Text

/-- Length in UTF-8 bytes. -/
def bytes : Text → Nat
  | [] => 0
  | c :: cs => c.utf8Size + bytes cs

@[simp] theorem bytes_nil : bytes [] = 0 := rfl

@[simp] theorem bytes_cons (c : Char) (cs : Text) : bytes (c :: cs) = c.utf8Size + bytes cs := rfl

@[simp] theorem bytes_append (a b : Text) : bytes (a ++ b) = bytes a + bytes b := by
  induction a with
  | nil => simp
  | cons c cs ih => simp [ih, Nat.add_assoc]

/-- The parts before and after byte offset `n`; `none` when `n` lies past the
end or inside a character. -/
def cut? : Nat → Text → Option (Text × Text)
  | 0, t => some ([], t)
  | _ + 1, [] => none
  | n + 1, c :: cs =>
    if c.utf8Size ≤ n + 1 then
      (cut? (n + 1 - c.utf8Size) cs).map fun (front, back) => (c :: front, back)
    else none

/-- Cutting loses nothing, and cuts at the offset asked for. -/
theorem cut?_eq_some {n : Nat} {t front back : Text} (h : cut? n t = some (front, back)) :
    front ++ back = t ∧ bytes front = n := by
  induction t generalizing n front back with
  | nil =>
    cases n with
    | zero => simp [cut?] at h; simp [h]
    | succ n => simp [cut?] at h
  | cons c cs ih =>
    cases n with
    | zero => simp [cut?] at h; obtain ⟨rfl, rfl⟩ := h; simp
    | succ n =>
      simp only [cut?] at h
      split at h
      · rename_i hc
        simp only [Option.map_eq_some_iff, Prod.exists, Prod.mk.injEq] at h
        obtain ⟨f, b, hcut, rfl, rfl⟩ := h
        obtain ⟨happ, hlen⟩ := ih hcut
        exact ⟨by simp [happ], by simp [hlen]; omega⟩
      · exact absurd h (by simp)

/-- A text can be cut after any of its parts. -/
@[simp] theorem cut?_append (a b : Text) : cut? (bytes a) (a ++ b) = some (a, b) := by
  induction a with
  | nil => simp [cut?]
  | cons c cs ih =>
    have hpos : 0 < c.utf8Size := c.utf8Size_pos
    obtain ⟨k, hk⟩ : ∃ k, c.utf8Size + bytes cs = k + 1 := ⟨c.utf8Size + bytes cs - 1, by omega⟩
    have hle : c.utf8Size ≤ k + 1 := by omega
    have hsub : k + 1 - c.utf8Size = bytes cs := by omega
    simp [hk, cut?, hle, hsub, ih]

/-- Whether byte offset `n` lies between two characters of the text or at one
of its ends. -/
def isBoundary (n : Nat) (t : Text) : Bool := (cut? n t).isSome

/-- The decimal digits of a number. -/
def ofNat (n : Nat) : Text := Nat.toDigits 10 n

end Text

end SceneGate
