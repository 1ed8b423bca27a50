/-
Braces of formulas. What is removed from a formula are texts that are found one behind the
other (`Text.finds_induct`), and blanks are neither braces nor backslashes, so cleaning a
formula takes the braces of its blocks away and no others (`braces_clean`). A block ends at
the first closing brace, so it has one opening brace or more and one closing brace or none:
a balanced formula stays balanced exactly if each of its blocks is balanced by itself
(`balanced_clean_iff`).
-/
import Mathlib.Algebra.Order.BigOperators.Group.List
import Mathlib.Algebra.Order.Ring.Nat
import SceneGate.Proofs.FormulaNotes

namespace SceneGate

namespace Text

variable {f : Text → Option Find}

/-- The texts that `recognise` finds, from left to right, behind the first `skip` characters. -/
def findsFrom (recognise : Text → Option Find) : (skip : Nat) → Text → List Text
  | _, [] => []
  | skip + 1, _ :: cs => findsFrom recognise skip cs
  | 0, c :: cs =>
    match recognise (c :: cs) with
    | some found =>
      (c :: cs).take found.length :: findsFrom recognise (found.length - 1) cs
    | none => findsFrom recognise 0 cs

/-- The texts that are replaced when all that `recognise` finds is. -/
def finds (t : Text) (recognise : Text → Option Find) : List Text := findsFrom recognise 0 t

theorem findsFrom_skip (recognise : Text → Option Find) (skip : Nat) (t : Text) :
    findsFrom recognise skip t = findsFrom recognise 0 (t.drop skip) := by
  induction t generalizing skip with
  | nil => simp [findsFrom]
  | cons c cs ih =>
    cases skip with
    | zero => rfl
    | succ skip => rw [findsFrom, List.drop_succ_cons, ih]

/-- Texts that are found have characters, and no more than the text has. -/
def Fitting (recognise : Text → Option Find) : Prop :=
  ∀ t found, recognise t = some found → 0 < found.length ∧ found.length ≤ t.length

theorem finds_of_some {b rest r : Text} (h : f (b ++ rest) = some ⟨b.length, r⟩) (hb : b ≠ []) :
    replaceFinds (b ++ rest) f = r ++ replaceFinds rest f ∧
      finds (b ++ rest) f = b :: finds rest f := by
  obtain ⟨c, cs, rfl⟩ := List.exists_cons_of_ne_nil hb
  rw [List.cons_append] at h ⊢
  rw [replaceFinds, finds, replaceFindsFrom, findsFrom, h]
  dsimp only
  rw [QuoteWords.replaceFindsFrom_skip f ((c :: cs).length - 1),
    findsFrom_skip f ((c :: cs).length - 1)]
  simp [replaceFinds, finds]

theorem finds_of_none {c : Char} {cs : Text} (h : f (c :: cs) = none) :
    replaceFinds (c :: cs) f = c :: replaceFinds cs f ∧ finds (c :: cs) f = finds cs f := by
  rw [replaceFinds, finds, replaceFindsFrom, findsFrom, h]
  exact ⟨rfl, rfl⟩

/-- Induction over a text in which texts are found one behind the other. -/
theorem finds_induct {P : Text → Prop} (hf : Fitting f) (nil : P [])
    (found : ∀ b rest r, f (b ++ rest) = some ⟨b.length, r⟩ → b ≠ [] → P rest → P (b ++ rest))
    (kept : ∀ c cs, f (c :: cs) = none → P cs → P (c :: cs)) (t : Text) : P t := by
  induction hn : t.length using Nat.strongRecOn generalizing t with
  | _ n ih =>
    cases t with
    | nil => exact nil
    | cons c cs =>
      cases hfound : f (c :: cs) with
      | none => exact kept c cs hfound (ih cs.length (by simp [← hn]) cs rfl)
      | some piece =>
        obtain ⟨hpos, hle⟩ := hf _ _ hfound
        have hlength : ((c :: cs).take piece.length).length = piece.length := by
          rw [List.length_take, Nat.min_eq_left hle]
        have hrest := ih ((c :: cs).drop piece.length).length
          (by rw [List.length_drop]; simp at hn ⊢; omega) _ rfl
        rw [← List.take_append_drop piece.length (c :: cs)]
        refine found _ _ piece.replacement ?_ ?_ hrest
        · rw [List.take_append_drop, hlength, hfound]
        · rw [← List.length_pos_iff, hlength]
          exact hpos

end Text

/-! ## Braces -/

namespace InlineText

variable {d e : Nat} {escaped : Bool} {a b t u : Text} {v w : List Bool}

/-- The braces of a text, opening ones as `true`. One behind a backslash does not count; if
`escaped`, the text stands behind one. -/
def bracesFrom (escaped : Bool) : Text → List Bool
  | [] => []
  | c :: cs =>
    (if escaped then [] else if c = '\x7b' then [true] else if c = '\x7d' then [false] else []) ++
      bracesFrom (c == '\\') cs

/-- The braces of a text that count. -/
def braces (t : Text) : List Bool := bracesFrom false t

/-- Whether what follows a text stands behind a backslash. -/
def escapedAfter (escaped : Bool) : Text → Bool
  | [] => escaped
  | c :: cs => escapedAfter (c == '\\') cs

/-- How many braces are open after some, when `depth` are open before them; none if one is
closed that is not open. -/
def depthAfter (depth : Nat) : List Bool → Option Nat
  | [] => some depth
  | true :: w => depthAfter (depth + 1) w
  | false :: w =>
    match depth with
    | 0 => none
    | depth + 1 => depthAfter depth w

/-- Whether every opening brace of a text is closed, and no other. -/
def Balanced (t : Text) : Prop := depthAfter 0 (braces t) = some 0

instance (t : Text) : Decidable (Balanced t) := inferInstanceAs (Decidable (_ = _))

theorem bracesFrom_append (escaped : Bool) (a b : Text) :
    bracesFrom escaped (a ++ b) =
      bracesFrom escaped a ++ bracesFrom (escapedAfter escaped a) b := by
  induction a generalizing escaped with
  | nil => rfl
  | cons c cs ih => rw [List.cons_append, bracesFrom, ih, bracesFrom, escapedAfter, List.append_assoc]

theorem escapedAfter_append (escaped : Bool) (a b : Text) :
    escapedAfter escaped (a ++ b) = escapedAfter (escapedAfter escaped a) b := by
  induction a generalizing escaped with
  | nil => rfl
  | cons c cs ih => exact ih _

theorem depthAfter_append (d : Nat) (v w : List Bool) :
    depthAfter d (v ++ w) = (depthAfter d v).bind fun e => depthAfter e w := by
  induction v generalizing d with
  | nil => rfl
  | cons x v ih =>
    cases x with
    | true => exact ih _
    | false =>
      cases d with
      | zero => rfl
      | succ d => exact ih d

/-- As many braces are closed as were open and are opened, but for those still open. -/
theorem count_of_depthAfter (h : depthAfter d w = some e) :
    d + w.count true = e + w.count false := by
  induction w generalizing d with
  | nil => simpa [depthAfter] using h
  | cons x w ih =>
    cases x with
    | true =>
      have := ih (d := d + 1) h
      simp only [List.count_cons_self, List.count_cons_of_ne (show true ≠ false by decide)]
      omega
    | false =>
      cases d with
      | zero => cases h
      | succ d =>
        have := ih (d := d) h
        simp only [List.count_cons_self, List.count_cons_of_ne (show false ≠ true by decide)]
        omega

/-! ### Blanks -/

theorem not_brace_of_isBlank {c : Char} (h : isBlank c = true) :
    c ≠ '\x7b' ∧ c ≠ '\x7d' ∧ (c == '\\') = false := by
  refine ⟨?_, ?_, beq_eq_false_iff_ne.2 ?_⟩ <;> rintro rfl <;> exact absurd h (by decide)

theorem bracesFrom_of_isBlank {c : Char} (h : isBlank c = true) (escaped : Bool) (cs : Text) :
    bracesFrom escaped (c :: cs) = bracesFrom false cs := by
  obtain ⟨hopen, hclose, hslash⟩ := not_brace_of_isBlank h
  rw [bracesFrom, hslash, if_neg hopen, if_neg hclose]
  cases escaped <;> rfl

theorem bracesFrom_blanks (h : ∀ c ∈ a, isBlank c = true) (b : Text) :
    bracesFrom false (a ++ b) = bracesFrom false b := by
  induction a with
  | nil => rfl
  | cons c cs ih =>
    obtain ⟨hc, hcs⟩ := List.forall_mem_cons.1 h
    rw [List.cons_append, bracesFrom_of_isBlank hc, ih hcs]

theorem escapedAfter_blanks (h : ∀ c ∈ a, isBlank c = true) : escapedAfter false a = false := by
  induction a with
  | nil => rfl
  | cons c cs ih =>
    obtain ⟨hc, hcs⟩ := List.forall_mem_cons.1 h
    rw [escapedAfter, (not_brace_of_isBlank hc).2.2, ih hcs]

theorem bracesFrom_append_blanks (h : ∀ c ∈ b, isBlank c = true) (escaped : Bool) (a : Text) :
    bracesFrom escaped (a ++ b) = bracesFrom escaped a := by
  rw [bracesFrom_append]
  cases b with
  | nil => simp [bracesFrom]
  | cons c cs =>
    obtain ⟨hc, hcs⟩ := List.forall_mem_cons.1 h
    have hblanks := bracesFrom_blanks hcs []
    rw [List.append_nil] at hblanks
    rw [bracesFrom_of_isBlank hc, hblanks]
    simp [bracesFrom]

theorem mem_takeWhile {p : Char → Bool} : ∀ c ∈ t.takeWhile p, p c = true :=
  List.all_eq_true.1 List.all_takeWhile

theorem braces_trim (t : Text) : braces t.trim = braces t := by
  have hstart : braces t.trimStart = braces t := by
    conv => rhs; rw [← Text.indentation_append_trimStart t]
    exact (bracesFrom_blanks mem_takeWhile _).symm
  have hend (u : Text) : braces u.trimEnd = braces u := by
    have hu : u.trimEnd ++ (u.reverse.takeWhile isBlank).reverse = u := by
      rw [Text.trimEnd, ← List.reverse_append, List.takeWhile_append_dropWhile, List.reverse_reverse]
    conv => rhs; rw [← hu]
    refine (bracesFrom_append_blanks (fun c hc => ?_) false _).symm
    exact mem_takeWhile c (List.mem_reverse.1 hc)
  rw [Text.trim, hend, hstart]

theorem blanks?_eq_some {found : Text.Find} (h : blanks? t = some found) :
    0 < found.length ∧ found.replacement = [' '] ∧ ∃ gap rest, t = gap ++ rest ∧
      gap.length = found.length ∧ ∀ c ∈ gap, isBlank c = true := by
  unfold blanks? at h
  dsimp only at h
  split at h
  · cases h
  · rename_i hne
    cases h
    exact ⟨Nat.pos_of_ne_zero hne, rfl, _, _, (List.takeWhile_append_dropWhile (p := isBlank)).symm,
      rfl, mem_takeWhile⟩

theorem fitting_blanks : Text.Fitting blanks? := by
  intro t found h
  obtain ⟨hpos, -, gap, rest, rfl, hlength, -⟩ := blanks?_eq_some h
  exact ⟨hpos, by simp [← hlength]⟩

/-- Writing blanks as one space keeps the braces. -/
theorem bracesFrom_collapse (escaped : Bool) (t : Text) :
    bracesFrom escaped (t.replaceFinds blanks?) = bracesFrom escaped t := by
  induction t using Text.finds_induct fitting_blanks generalizing escaped with
  | nil => rfl
  | found b rest r h hb ih =>
    obtain ⟨-, hr, gap, rest', happend, hlength, hgap⟩ := blanks?_eq_some h
    obtain ⟨rfl, -⟩ := List.append_inj happend hlength.symm
    obtain ⟨c, cs, rfl⟩ := List.exists_cons_of_ne_nil hb
    obtain ⟨hc, hcs⟩ := List.forall_mem_cons.1 hgap
    obtain rfl : r = [' '] := hr
    rw [(Text.finds_of_some h hb).1, List.singleton_append, bracesFrom_of_isBlank (by decide), ih,
      List.cons_append, bracesFrom_of_isBlank hc, bracesFrom_blanks hcs]
  | kept c cs h ih => rw [(Text.finds_of_none h).1, bracesFrom, bracesFrom, ih]

/-- A cleaned formula has the braces that are left when the blocks are removed. -/
theorem braces_clean (t : Text) : braces (clean t) = braces (t.replaceFinds block?) := by
  rw [clean, braces_trim, braces, bracesFrom_collapse, braces]

/-! ### Blocks -/

/-- The blocks that are removed from a formula. -/
def blocks (content : Text) : List Text := content.finds block?

/-- Whether a block stands right behind a backslash, which takes the first character of the
block with it. -/
def hasSlashedBlock : Text → Bool
  | [] => false
  | c :: cs => (c == '\\' && (block? cs).isSome) || hasSlashedBlock cs

/-- A block is a command, perhaps blanks, and a text between braces with no closing one in
it. -/
theorem block?_eq_some {found : Text.Find} (h : block? t = some found) :
    found.replacement = [] ∧ ∃ gap inside rest,
      t = ("\\text".toList ++ gap ++ '\x7b' :: inside ++ ['\x7d']) ++ rest ∧
      ("\\text".toList ++ gap ++ '\x7b' :: inside ++ ['\x7d']).length = found.length ∧
      (∀ c ∈ gap, isBlank c = true) ∧ '\x7d' ∉ inside := by
  have hrun (p : Char → Bool) (u : Text) : u.takeWhile p ++ u.drop (runLength p u) = u :=
    List.prefix_iff_eq_append.1 (List.takeWhile_prefix p)
  unfold block? at h
  dsimp only at h
  split at h
  · rename_i hcommand
    have hbehind := List.prefix_iff_eq_append.1 (List.isPrefixOf_iff_prefix.1 hcommand)
    rw [← List.drop_drop] at h
    generalize "\\text".toList = command at hbehind h ⊢
    generalize t.drop command.length = behind at hbehind h
    have hgap := hrun isBlank behind
    split at h
    · rename_i inside hopen
      have hinside := hrun (· != '\x7d') inside
      split at h
      · rename_i hclose
        cases h
        obtain ⟨rest, hrest⟩ := List.head?_eq_some_iff.1 hclose
        rw [hrest] at hinside
        rw [hopen] at hgap
        refine ⟨rfl, behind.takeWhile isBlank, inside.takeWhile (· != '\x7d'), rest, ?_, ?_,
          mem_takeWhile, fun hm => ?_⟩
        · have htext : t = command ++ (behind.takeWhile isBlank ++ '\x7b' :: inside) := by
            rw [hgap, hbehind]
          rw [htext]
          conv => lhs; rw [← hinside]
          simp
        · simp [runLength]
          omega
        · simpa using mem_takeWhile _ hm
      · cases h
    · cases h
  · cases h

theorem fitting_block : Text.Fitting block? := by
  intro t found h
  obtain ⟨-, gap, inside, rest, rfl, hlength, -⟩ := block?_eq_some h
  rw [← hlength]
  exact ⟨by simp, by simp⟩

/-- A text in which no brace is closed opens some. -/
theorem exists_bracesFrom_eq (h : '\x7d' ∉ t) (escaped : Bool) :
    ∃ n, bracesFrom escaped t = List.replicate n true := by
  induction t generalizing escaped with
  | nil => exact ⟨0, rfl⟩
  | cons c cs ih =>
    obtain ⟨hc, hcs⟩ := List.ne_and_not_mem_of_not_mem_cons h
    obtain ⟨n, hn⟩ := ih hcs (c == '\\')
    rw [bracesFrom, hn, if_neg (Ne.symm hc)]
    split
    · exact ⟨n, rfl⟩
    · split
      · exact ⟨n + 1, rfl⟩
      · exact ⟨n, rfl⟩

/-- The braces of a block: one is opened, perhaps more, and the last one is closed unless a
backslash stands before it. -/
theorem bracesFrom_block {rest r : Text} (h : block? (b ++ rest) = some ⟨b.length, r⟩) :
    r = [] ∧ (∀ escaped, bracesFrom escaped (b ++ rest) = braces b ++ bracesFrom false rest) ∧
      ∃ n, braces b = true :: List.replicate n true ∨
        braces b = true :: (List.replicate n true ++ [false]) := by
  obtain ⟨hr, gap, inside, rest', happend, hlength, hgap, hinside⟩ := block?_eq_some h
  obtain ⟨rfl, -⟩ := List.append_inj happend hlength.symm
  obtain ⟨n, hn⟩ := exists_bracesFrom_eq hinside false
  have hcommand (escaped : Bool) : bracesFrom escaped "\\text".toList = [] ∧
      escapedAfter escaped "\\text".toList = false := by
    cases escaped <;> decide
  have hblock (escaped : Bool) (rest : Text) :
      bracesFrom escaped ("\\text".toList ++ gap ++ '\x7b' :: inside ++ ['\x7d'] ++ rest) =
        true :: (List.replicate n true ++
          ((if escapedAfter false inside then [] else [false]) ++ bracesFrom false rest)) := by
    have hbehind : "\\text".toList ++ gap ++ '\x7b' :: inside ++ ['\x7d'] ++ rest =
        "\\text".toList ++ (gap ++ '\x7b' :: (inside ++ '\x7d' :: rest)) := by simp
    rw [hbehind, bracesFrom_append, (hcommand escaped).1, (hcommand escaped).2, List.nil_append,
      bracesFrom_blanks hgap, bracesFrom]
    have hopen : (('\x7b' : Char) == '\\') = false := by decide
    rw [hopen, bracesFrom_append, hn, bracesFrom]
    rfl
  have hbraces := hblock false []
  rw [List.append_nil, bracesFrom, List.append_nil] at hbraces
  refine ⟨hr, fun escaped => ?_, n, ?_⟩
  · rw [hblock, braces, hbraces]
    simp
  · rw [braces, hbraces]
    cases escapedAfter false inside with
    | true => exact .inl (by simp)
    | false => exact .inr rfl

/-- How many braces a block opens and does not close. -/
def excess (b : Text) : Nat := (braces b).count true - (braces b).count false

/-- A block opens no fewer braces than it closes, and it is balanced if it closes them all. -/
theorem excess_block {rest r : Text} (h : block? (b ++ rest) = some ⟨b.length, r⟩) :
    (braces b).count false + excess b = (braces b).count true ∧
      (excess b = 0 → braces b = [true, false]) := by
  obtain ⟨-, -, n, hn | hn⟩ := bracesFrom_block h
  · simp [excess, hn, List.count_replicate]
  · simp only [excess, hn, List.count_cons, List.count_append, List.count_replicate]
    refine ⟨by simp; omega, fun hzero => ?_⟩
    obtain rfl : n = 0 := by simpa using hzero
    rfl

theorem excess_of_balanced (h : Balanced b) : excess b = 0 := by
  have hcount := count_of_depthAfter h
  rw [excess]
  omega

theorem balanced_of_braces (h : braces b = [true, false]) : Balanced b := by
  rw [Balanced, h]
  rfl

/-- What stands in front of a block is no backslash. -/
structure Unslashed (escaped : Bool) (t : Text) : Prop where
  first : escaped = true → block? t = none
  later : hasSlashedBlock t = false

theorem Unslashed.tail {c : Char} {cs : Text} (h : Unslashed escaped (c :: cs)) :
    Unslashed (c == '\\') cs := by
  have hlater := h.later
  rw [hasSlashedBlock, Bool.or_eq_false_iff, Bool.and_eq_false_iff] at hlater
  refine ⟨fun hc => ?_, hlater.2⟩
  rcases hlater.1 with h | h
  · rw [hc] at h
    cases h
  · simpa using h

/-- Behind a block stands its closing brace. -/
theorem Unslashed.behind {rest : Text} (h : Unslashed escaped (b ++ rest)) :
    Unslashed false rest := by
  refine ⟨nofun, ?_⟩
  have hlater := h.later
  clear h
  induction b with
  | nil => exact hlater
  | cons c cs ih =>
    rw [List.cons_append, hasSlashedBlock, Bool.or_eq_false_iff] at hlater
    exact ih hlater.2

/-- Removing balanced blocks leaves the other braces as they nest. -/
theorem depthAfter_removed (h : Unslashed escaped t) (hblocks : ∀ b ∈ blocks t, Balanced b)
    (d : Nat) :
    depthAfter d (bracesFrom escaped (t.replaceFinds block?)) =
      depthAfter d (bracesFrom escaped t) := by
  induction t using Text.finds_induct fitting_block generalizing escaped d with
  | nil => rfl
  | found b rest r hfound hb ih =>
    obtain ⟨hreplace, hfinds⟩ := Text.finds_of_some hfound hb
    obtain ⟨rfl, hbraces, -⟩ := bracesFrom_block hfound
    obtain rfl : escaped = false := by
      cases escaped with
      | false => rfl
      | true => exact absurd (h.first rfl) (by simp [hfound])
    rw [blocks, hfinds] at hblocks
    obtain ⟨hbalanced, hrest⟩ := List.forall_mem_cons.1 hblocks
    rw [hreplace, List.nil_append, ih h.behind hrest, hbraces, depthAfter_append,
      (excess_block hfound).2 (excess_of_balanced hbalanced)]
    rfl
  | kept c cs hnone ih =>
    obtain ⟨hreplace, hfinds⟩ := Text.finds_of_none hnone
    rw [blocks, hfinds] at hblocks
    rw [hreplace, bracesFrom, bracesFrom, depthAfter_append, depthAfter_append]
    congr 1
    funext e
    exact ih h.tail hblocks e

/-- Removing blocks takes away the braces that are opened and closed in them. -/
theorem count_removed (h : Unslashed escaped t) :
    (bracesFrom escaped t).count true + (bracesFrom escaped (t.replaceFinds block?)).count false =
      (bracesFrom escaped (t.replaceFinds block?)).count true + (bracesFrom escaped t).count false +
        ((blocks t).map excess).sum := by
  induction t using Text.finds_induct fitting_block generalizing escaped with
  | nil => rfl
  | found b rest r hfound hb ih =>
    obtain ⟨hreplace, hfinds⟩ := Text.finds_of_some hfound hb
    obtain ⟨rfl, hbraces, -⟩ := bracesFrom_block hfound
    obtain rfl : escaped = false := by
      cases escaped with
      | false => rfl
      | true => exact absurd (h.first rfl) (by simp [hfound])
    have hrest := ih h.behind
    have hcount := (excess_block hfound).1
    rw [blocks] at hrest ⊢
    rw [hreplace, hfinds, hbraces, List.nil_append, List.map_cons, List.sum_cons,
      List.count_append, List.count_append]
    omega
  | kept c cs hnone ih =>
    obtain ⟨hreplace, hfinds⟩ := Text.finds_of_none hnone
    have hrest := ih h.tail
    rw [blocks] at hrest ⊢
    rw [hreplace, hfinds, bracesFrom, bracesFrom, List.count_append, List.count_append,
      List.count_append, List.count_append]
    omega

/-- A block that closes the braces that it opens is balanced. -/
theorem balanced_of_mem_blocks (h : b ∈ blocks t) (hzero : excess b = 0) : Balanced b := by
  induction t using Text.finds_induct fitting_block with
  | nil => cases h
  | found c rest r hfound hc ih =>
    rw [blocks, (Text.finds_of_some hfound hc).2] at h
    rcases List.mem_cons.1 h with rfl | h
    · exact balanced_of_braces ((excess_block hfound).2 hzero)
    · exact ih h
  | kept c cs hnone ih =>
    rw [blocks, (Text.finds_of_none hnone).2] at h
    exact ih h

/-- A balanced formula in which no block stands right behind a backslash stays balanced when
it is cleaned, exactly if each of the blocks that are removed is balanced by itself. -/
theorem balanced_clean_iff (h : Balanced t) (hslash : hasSlashedBlock t = false) :
    Balanced (clean t) ↔ ∀ b ∈ blocks t, Balanced b := by
  have hunslashed : Unslashed false t := ⟨nofun, hslash⟩
  rw [Balanced, braces_clean, braces]
  constructor
  · intro hclean b hb
    have hbefore := count_of_depthAfter h
    have hafter := count_of_depthAfter hclean
    have hcount := count_removed hunslashed
    rw [braces] at hbefore
    have hsum : ((blocks t).map excess).sum = 0 := by omega
    exact balanced_of_mem_blocks hb (List.sum_eq_zero_iff.1 hsum _ (List.mem_map_of_mem hb))
  · intro hblocks
    rw [depthAfter_removed hunslashed hblocks]
    exact h

/-- What the rule writes back for a balanced formula, in which no block stands right behind a
backslash, is balanced exactly if no block that it removes holds braces of its own: if each
is balanced by itself. -/
theorem balanced_contentSpan_iff {call : StringCall} (h : Balanced call.argument.content)
    (hslash : hasSlashedBlock call.argument.content = false) :
    Balanced (contentSpan call).replacement ↔ ∀ b ∈ blocks call.argument.content, Balanced b :=
  balanced_clean_iff h hslash

/-- A call with a formula whose block of text has no braces in it. -/
def areaCall : StringCall :=
  ⟨4, "Tex".toList,
    ⟨['r'], '"', "\\text\x7bDiện tích: \x7d S = \\pi r^\x7b2\x7d".toList, []⟩⟩

theorem balanced_contentSpan_iff_area :
    areaCall ∈ proseCalls {} ("f = ".toList ++ areaCall.source) ∧
      Balanced areaCall.argument.content ∧ hasSlashedBlock areaCall.argument.content = false ∧
      Balanced (contentSpan areaCall).replacement := by
  have hbalanced : Balanced areaCall.argument.content := by decide +kernel
  have hslash : hasSlashedBlock areaCall.argument.content = false := by decide +kernel
  exact ⟨by decide +kernel, hbalanced, hslash,
    (balanced_contentSpan_iff hbalanced hslash).2 (by decide +kernel)⟩

/-- A call with a formula whose block of text has braces in it. -/
def groupedCall : StringCall :=
  ⟨4, "Tex".toList,
    ⟨['r'], '"', "\\text\x7bDiện \x7btích\x7d a\x7d x".toList, []⟩⟩

/-- The rule takes a closing brace of the block for its end, and leaves the other. -/
theorem not_balanced_contentSpan_grouped :
    groupedCall ∈ proseCalls {} ("f = ".toList ++ groupedCall.source ++ ['\n']) ∧
      Balanced groupedCall.argument.content ∧ ¬ Balanced (contentSpan groupedCall).replacement := by
  decide +kernel

end InlineText

end SceneGate
