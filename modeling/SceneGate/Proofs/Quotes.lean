/-
What quoting does to a line. The line stays as it is but for quotes that are put
around some of the words, and a word that gets quotes stands in one of the
places. A line is read here from a point on, with the text before the point
given backwards.
-/
import SceneGate.Rules.QuoteWords

namespace SceneGate

/-- The second text is the first with quotes around some parts of it, where `may`
allows that: of a part, it is told the text before it, backwards, and the text
after it. -/
inductive Quotes (may : Text → Text → Text → Prop) : Text → Text → Text → Prop
  | nil : Quotes may before [] []
  | same : Quotes may (c :: before) t p → Quotes may before (c :: t) (c :: p)
  | word : may before w t → Quotes may (w.reverse ++ before) t p →
      Quotes may before (w ++ t) (QuoteWords.quoted w ++ p)

namespace Quotes

variable {may may' : Text → Text → Text → Prop} {before t p u v : Text}

theorem append_same (h : Quotes may (u.reverse ++ before) t p) :
    Quotes may before (u ++ t) (u ++ p) := by
  induction u generalizing before with
  | nil => exact h
  | cons c u ih => exact .same (ih (by simpa using h))

theorem refl (t : Text) : Quotes may before t t := by
  have h : Quotes may before (t ++ []) (t ++ []) := append_same .nil
  simpa using h

/-- More may be allowed. -/
theorem imp (h : Quotes may before t p) (hmay : ∀ {b w a}, may b w a → may' b w a) :
    Quotes may' before t p := by
  induction h with
  | nil => exact .nil
  | same _ ih => exact .same ih
  | word hw _ ih => exact .word (hmay hw) ih

theorem append {q : Text} (h : Quotes may before t p)
    (h' : Quotes may (t.reverse ++ before) u q) (hmay : ∀ {b w a}, may b w a → may b w (a ++ u)) :
    Quotes may before (t ++ u) (p ++ q) := by
  induction h with
  | nil => exact h'
  | same _ ih => exact .same (ih (by simpa using h'))
  | @word before w t p hw _ ih =>
    rw [List.append_assoc, List.append_assoc]
    exact .word (hmay hw) (ih (by simpa using h'))

theorem of_cons_left {c : Char} (h : Quotes may before (c :: t) p) :
    (∃ p', p = c :: p' ∧ Quotes may (c :: before) t p') ∨
      ∃ w t' p', c :: t = w ++ t' ∧ p = QuoteWords.quoted w ++ p' ∧ may before w t' ∧
        Quotes may (w.reverse ++ before) t' p' := by
  generalize ht : c :: t = t₀ at h
  cases h with
  | nil => cases ht
  | same h => cases ht; exact .inl ⟨_, rfl, h⟩
  | word hmay h => exact .inr ⟨_, _, _, rfl, rfl, hmay, h⟩

theorem of_cons_right {c : Char} (h : Quotes may before t (c :: p)) :
    (∃ t', t = c :: t' ∧ Quotes may (c :: before) t' p) ∨
      ∃ w t' p', t = w ++ t' ∧ c :: p = QuoteWords.quoted w ++ p' ∧ may before w t' ∧
        Quotes may (w.reverse ++ before) t' p' := by
  generalize hp : c :: p = p₀ at h
  cases h with
  | nil => cases hp
  | same h => cases hp; exact .inl ⟨_, rfl, h⟩
  | word hmay h => exact .inr ⟨_, _, _, rfl, rfl, hmay, h⟩

theorem of_nil_right (h : Quotes may before t []) : t = [] := by
  generalize hp : ([] : Text) = p at h
  cases h with
  | nil => rfl
  | same => cases hp
  | word => simp [QuoteWords.quoted] at hp

/-- Nothing has changed where each character forbids quotes behind it. -/
theorem skip (stops : Char → Prop) (hstops : ∀ {c b w a}, stops c → ¬ may (c :: b) w a) {c : Char}
    (h : Quotes may (c :: before) (u ++ t) p) (hc : stops c) (hu : ∀ x ∈ u, stops x) :
    ∃ p', p = u ++ p' ∧ Quotes may (u.reverse ++ c :: before) t p' := by
  induction u generalizing c before p with
  | nil => exact ⟨p, rfl, by simpa using h⟩
  | cons x u ih =>
    rcases of_cons_left h with ⟨p', rfl, hrest⟩ | ⟨w, t', p', -, -, hmay, -⟩
    · obtain ⟨p'', rfl, hend⟩ := ih hrest (hu x (by simp)) fun y hy => hu y (by simp [hy])
      exact ⟨p'', rfl, by simpa using hend⟩
    · exact absurd hmay (hstops hc)

/-- Text without quotes is there from the beginning. -/
theorem of_append_right (h : Quotes may before t (u ++ p)) (hu : '"' ∉ u) :
    ∃ t', t = u ++ t' ∧ Quotes may (u.reverse ++ before) t' p := by
  induction u generalizing before t with
  | nil => exact ⟨t, rfl, by simpa using h⟩
  | cons c u ih =>
    rcases of_cons_right h with ⟨t', rfl, hrest⟩ | ⟨w, t', p', -, hquote, -, -⟩
    · obtain ⟨t'', rfl, hend⟩ := ih hrest fun hm => hu (List.mem_cons_of_mem c hm)
      exact ⟨t'', rfl, by simpa using hend⟩
    · simp only [QuoteWords.quoted, List.cons_append, List.cons.injEq] at hquote
      exact absurd hquote.1 fun hc => hu (by simp [hc])

/-- What may be quoted changes with the place of a text in a larger one. -/
theorem within {b a : Text} (h : Quotes may before t p)
    (hmay : ∀ {c w d}, c.reverse ++ w ++ d = before.reverse ++ t → may c w d →
      may' (c ++ b) w (d ++ a)) (ha : Quotes may' (t.reverse ++ before ++ b) a u) :
    Quotes may' (before ++ b) (t ++ a) (p ++ u) := by
  induction h with
  | nil => simpa using ha
  | @same c before t p _ ih =>
    exact .same (ih (fun heq => hmay (by simpa using heq)) (by simpa using ha))
  | @word before w t p hw _ ih =>
    rw [List.append_assoc, List.append_assoc]
    refine .word (hmay (by simp) hw) ?_
    rw [← List.append_assoc]
    exact ih (fun heq => hmay (by simpa using heq)) (by simpa using ha)

end Quotes

namespace QuoteWords

/-- Whether what stands before a word, backwards, ends with the lead. -/
def Lead.fits : Lead → Text → Bool
  | .sign c, before => (before.dropWhile isBlank).head? == some c
  | .lineStart, before => before.all isBlank
  | .blank, before => before.head?.any isBlank

/-- Whether what stands after a word begins with the trail. -/
def Trail.fits : Trail → Text → Bool
  | .lineEnd, after => after.all isBlank
  | .blank, after => after.head?.any isBlank
  | .sign c, after => (after.dropWhile isBlank).head? == some c

/-- A point of a line is a place for values. -/
def InPlace (before after : Text) : Prop :=
  ∃ place ∈ places, place.1.fits before = true ∧ place.2.fits after = true

/-- The signs that places are told by. -/
def signs : List Char := ['=', '(', '[', ',', ')', ']']

/-- Characters that a word may be made of. -/
def isPlain (c : Char) : Bool := !isBlank c && c != '"' && !signs.contains c

/-- A word that can be quoted without taking it for something else. -/
def PlainWord (w : Text) : Prop := w ≠ [] ∧ ∀ c ∈ w, isPlain c = true

/-- The words of a list, where they stand in a place. -/
abbrev Allowed (words : List Text) (before w after : Text) : Prop :=
  w ∈ words ∧ InPlace before after

theorem drop_runLength (f : Char → Bool) (t : Text) : t.drop (runLength f t) = t.dropWhile f := by
  unfold runLength
  induction t with
  | nil => rfl
  | cons c cs ih =>
    rw [List.takeWhile_cons, List.dropWhile_cons]
    split
    · simpa using ih
    · rfl

theorem take_runLength (f : Char → Bool) (t : Text) : t.take (runLength f t) = t.takeWhile f :=
  (List.prefix_iff_eq_take.1 (List.takeWhile_prefix f)).symm

theorem all_take_of_le_runLength {f : Char → Bool} {t : Text} {n : Nat} (h : n ≤ runLength f t) :
    (t.take n).all f = true := by
  unfold runLength at h
  rw [List.all_eq_true]
  intro c hc
  have hpre : t.take n = (t.takeWhile f).take n := by
    conv => lhs; rw [← List.takeWhile_append_dropWhile (p := f) (l := t)]
    rw [List.take_append_of_le_length h]
  rw [hpre] at hc
  exact List.all_eq_true.1 List.all_takeWhile c (List.mem_of_mem_take hc)

theorem Trail.length?_isSome (trail : Trail) (t : Text) :
    (trail.length? t).isSome = trail.fits t := by
  cases trail with
  | lineEnd => simp only [Trail.length?, Trail.fits]; split <;> simp_all
  | blank => simp only [Trail.length?, Trail.fits]; split <;> simp_all
  | sign c => simp only [Trail.length?, Trail.fits, drop_runLength]; split <;> simp_all

/-! ## One pass -/

variable {words : List Text} {word line before after : Text} {place : Lead × Trail} {n gap : Nat}

theorem of_wordBehind? {trail : Trail} {t : Text}
    (h : wordBehind? word trail t gap = some (before, after)) :
    ∃ rest, t = t.take gap ++ word ++ (after ++ rest) ∧ before = t.take gap ∧
      trail.fits (after ++ rest) = true ∧ trail.length? (after ++ rest) = some after.length := by
  unfold wordBehind? at h
  split at h
  · rename_i hword
    simp only [Option.map_eq_some_iff, Prod.mk.injEq] at h
    obtain ⟨n, hn, rfl, rfl⟩ := h
    obtain ⟨tail, htail⟩ := List.isPrefixOf_iff_prefix.1 hword
    have hafter : t.drop (gap + word.length) = tail := by
      rw [← List.drop_drop, ← htail, List.drop_left]
    rw [hafter] at hn ⊢
    refine ⟨tail.drop n, ?_, rfl, ?_, ?_⟩
    · rw [List.take_append_drop, List.append_assoc, htail, List.take_append_drop]
    · rw [List.take_append_drop, ← Trail.length?_isSome, hn]; rfl
    · rw [List.take_append_drop, hn, List.length_take]
      have hle : n ≤ tail.length := by
        cases trail with
        | lineEnd => simp only [Trail.length?] at hn; split at hn <;> simp_all
        | blank =>
          simp only [Trail.length?] at hn
          cases tail with
          | nil => simp at hn
          | cons c cs => split at hn <;> simp_all
        | sign c =>
          simp only [Trail.length?] at hn
          split at hn
          · rename_i hhead
            cases hn
            have hlt : runLength isBlank tail < tail.length := by
              refine Nat.lt_of_not_le fun hle => ?_
              rw [List.drop_eq_nil_of_le hle] at hhead
              cases hhead
            omega
          · cases hn
      rw [Nat.min_eq_left hle]
  · cases h

theorem of_wordWithin? {trail : Trail} {t : Text}
    (h : wordWithin? word trail t gap = some (before, after)) :
    ∃ n ≤ gap, wordBehind? word trail t n = some (before, after) := by
  induction gap with
  | zero => exact ⟨0, Nat.le_refl 0, h⟩
  | succ gap ih =>
    simp only [wordWithin?, Option.or_eq_some_iff] at h
    rcases h with h | ⟨-, h⟩
    · exact ⟨gap + 1, Nat.le_refl _, h⟩
    · obtain ⟨n, hn, h⟩ := ih h
      exact ⟨n, by omega, h⟩

theorem isBlank_of_sign_mem {c : Char} {trail : Trail} (h : (Lead.sign c, trail) ∈ places) :
    isBlank c = false := by
  simp only [places, List.mem_cons, Prod.mk.injEq, Lead.sign.injEq, reduceCtorEq, false_and,
    List.not_mem_nil, or_false] at h
  rcases h with ⟨rfl, -⟩ | ⟨rfl, -⟩ | ⟨rfl, -⟩ | ⟨rfl, -⟩ | ⟨rfl, -⟩ | ⟨rfl, -⟩ <;> decide

theorem all_isBlank_dropWhile {u v : Text} (h : u.all isBlank = true) :
    (u ++ v).dropWhile isBlank = v.dropWhile isBlank := by
  induction u with
  | nil => rfl
  | cons c u ih =>
    simp only [List.all_cons, Bool.and_eq_true] at h
    rw [List.cons_append, List.dropWhile_cons, if_pos h.1, ih h.2]

/-- What is found behind a sign or a blank is a word in its place. -/
theorem of_find? {lead : Lead} {trail : Trail} {c : Char} {cs : Text} {found : Text.Find}
    (hplace : (lead, trail) ∈ places) (h : find? word lead trail (c :: cs) = some found) :
    ∃ before after rest, c :: cs = (c :: before) ++ word ++ (after ++ rest) ∧
      found.replacement = (c :: before) ++ quoted word ++ after ∧
      found.length = ((c :: before) ++ word ++ after).length ∧
      (∀ b, lead.fits (before.reverse ++ c :: b) = true) ∧ trail.fits (after ++ rest) = true := by
  simp only [find?, Option.map_eq_some_iff, Option.bind_eq_some_iff, Prod.exists] at h
  obtain ⟨before, after, ⟨gap, hgap, hwithin⟩, rfl⟩ := h
  obtain ⟨n, hn, hbehind⟩ := of_wordWithin? hwithin
  obtain ⟨rest, hcs, rfl, htrail, -⟩ := of_wordBehind? hbehind
  refine ⟨cs.take n, after, rest, by rw [← List.append_assoc] at hcs ⊢; simpa using hcs, rfl, ?_,
    fun b => ?_, htrail⟩
  · simp [edit]; omega
  · cases lead with
    | sign s =>
      simp only [beq_iff_eq] at hgap
      split at hgap
      · rename_i hc
        cases hgap
        have hblank := all_take_of_le_runLength hn
        have hsign : isBlank c = false := hc ▸ isBlank_of_sign_mem hplace
        rw [Lead.fits, all_isBlank_dropWhile (by rw [List.all_reverse]; exact hblank),
          List.dropWhile_cons, if_neg (by simp [hsign])]
        simp [hc]
      · cases hgap
    | blank =>
      simp only at hgap
      split at hgap
      · rename_i hc
        cases hgap
        obtain rfl : n = 0 := by omega
        simpa [Lead.fits] using hc
      · cases hgap
    | lineStart => cases hgap

theorem replaceFindsFrom_skip (recognise : Text → Option Text.Find) (skip : Nat) (t : Text) :
    Text.replaceFindsFrom recognise skip t = Text.replaceFindsFrom recognise 0 (t.drop skip) := by
  induction t generalizing skip with
  | nil => simp [Text.replaceFindsFrom]
  | cons c cs ih =>
    cases skip with
    | zero => rfl
    | succ skip => rw [Text.replaceFindsFrom, List.drop_succ_cons, ih]

/-- Replacing what is found behind a sign or a blank puts words in quotes. -/
theorem quotes_replaceFinds {lead : Lead} {trail : Trail} (hplace : (lead, trail) ∈ places)
    (hword : word ∈ words) (b : Text) (t : Text) :
    Quotes (Allowed words) b t (t.replaceFinds (find? word lead trail)) := by
  unfold Text.replaceFinds
  induction hn : t.length using Nat.strongRecOn generalizing b t with
  | _ n ih =>
    cases t with
    | nil => exact .nil
    | cons c cs =>
      rw [Text.replaceFindsFrom]
      split
      · rename_i found hfound
        obtain ⟨before, after, rest, hcs, hrepl, hlen, hlead, htrail⟩ := of_find? hplace hfound
        have hrest : cs.drop (found.length - 1) = rest := by
          have hcs' : cs = before ++ word ++ after ++ rest := by simpa using hcs
          rw [hcs', hlen]
          exact List.drop_left' (by simp)
        have hlt : rest.length < n := by
          rw [← hn, hcs]
          simp
          omega
        rw [replaceFindsFrom_skip, hrest, hrepl, hcs, List.append_assoc, List.append_assoc,
          List.append_assoc]
        refine .append_same (.word ⟨hword, _, hplace, ?_, htrail⟩ (.append_same ?_))
        · simpa using hlead b
        · exact ih rest.length hlt _ rest rfl
      · exact .same (ih cs.length (by simp [← hn]) _ cs rfl)

theorem trail_of_lineStart_mem {trail : Trail} (h : (Lead.lineStart, trail) ∈ places) :
    trail = .lineEnd := by
  simpa [places] using h

/-- One pass over a line puts words in quotes. -/
theorem quotes_quoteAt (hplace : place ∈ places) (hword : word ∈ words) (line : Text) :
    Quotes (Allowed words) [] line (quoteAt word line place) := by
  obtain ⟨lead, trail⟩ := place
  cases lead with
  | sign c => exact quotes_replaceFinds hplace hword [] line
  | blank => exact quotes_replaceFinds hplace hword [] line
  | lineStart =>
    obtain rfl := trail_of_lineStart_mem hplace
    simp only [quoteAt]
    split
    · rename_i before after hwithin
      obtain ⟨n, hn, hbehind⟩ := of_wordWithin? hwithin
      obtain ⟨rest, hline, rfl, htrail, hlen⟩ := of_wordBehind? hbehind
      -- the end of the line takes all that is left of it
      have hrest : rest = [] := by
        simp only [Trail.length?] at hlen
        split at hlen
        · simpa using hlen
        · cases hlen
      subst hrest
      have hblank := all_take_of_le_runLength hn
      generalize line.take n = front at hline hblank ⊢
      subst hline
      rw [List.append_nil, List.append_assoc, List.append_assoc]
      refine .append_same (.word ⟨hword, _, hplace, ?_, by simpa using htrail⟩ (.refl after))
      simpa [Lead.fits] using hblank
    · exact .refl line

/-! ## Several passes

A pass looks at a line in which other words have quotes already. From the outside
a word in quotes looks like a word without quotes: neither is a blank or a sign. -/

/-- Texts that look alike from their ends: the same blanks, and then the same
character, or a quote in place of a word. -/
inductive Alike : Text → Text → Prop
  | nil : Alike [] []
  | blank : isBlank c = true → Alike t p → Alike (c :: t) (c :: p)
  | same : isBlank c = false → Alike (c :: t) (c :: p)
  | word : isPlain c = true → Alike (c :: t) ('"' :: p)

/-- What stands before a point of a line, and before the same point of the line
with quotes. -/
inductive Behind : Text → Text → Prop
  | nil : Behind [] []
  | same : Behind b d → Behind (c :: b) (c :: d)
  | word : PlainWord w → Behind b d → Behind (w.reverse ++ b) ((quoted w).reverse ++ d)

theorem isPlain_iff {c : Char} :
    isPlain c = true ↔ isBlank c = false ∧ c ≠ '"' ∧ signs.contains c = false := by
  simp [isPlain, and_assoc]

theorem isBlank_of_isPlain {c : Char} (h : isPlain c = true) : isBlank c = false :=
  (isPlain_iff.1 h).1

theorem PlainWord.exists_cons {w : Text} (h : PlainWord w) :
    ∃ c u, w = c :: u ∧ isPlain c = true := by
  obtain ⟨hne, hall⟩ := h
  cases w with
  | nil => exact absurd rfl hne
  | cons c u => exact ⟨c, u, rfl, hall c (by simp)⟩

theorem PlainWord.reverse {w : Text} (h : PlainWord w) : PlainWord w.reverse :=
  ⟨by simpa using h.1, fun c hc => h.2 c (List.mem_reverse.1 hc)⟩

theorem quoted_reverse (w : Text) : (quoted w).reverse = quoted w.reverse := by
  simp [quoted]

theorem Behind.alike {b d : Text} (h : Behind b d) : Alike b d := by
  induction h with
  | nil => exact .nil
  | @same b d c _ ih =>
    cases hc : isBlank c with
    | true => exact .blank hc ih
    | false => exact .same hc
  | @word b d w hw _ ih =>
    obtain ⟨c, u, hcu, hc⟩ := hw.reverse.exists_cons
    rw [quoted_reverse, hcu]
    exact .word hc

theorem Behind.append {b d : Text} (h : Behind b d) (u : Text) : Behind (u ++ b) (u ++ d) := by
  induction u with
  | nil => exact h
  | cons c u ih => exact .same ih

theorem alike_of_quotes {b t p : Text} (hW : ∀ w ∈ words, PlainWord w)
    (h : Quotes (Allowed words) b t p) : Alike t p := by
  induction h with
  | nil => exact .nil
  | @same c b t p _ ih =>
    cases hc : isBlank c with
    | true => exact .blank hc ih
    | false => exact .same hc
  | @word b w t p hmay _ ih =>
    obtain ⟨c, u, rfl, hc⟩ := (hW w hmay.1).exists_cons
    exact .word hc

theorem Alike.all_isBlank {b d : Text} (h : Alike b d) : d.all isBlank = b.all isBlank := by
  induction h with
  | nil => rfl
  | blank hc _ ih => simpa [hc] using ih
  | same hc => simp [hc]
  | word hc => simp [isBlank_of_isPlain hc, show isBlank '"' = false by decide]

theorem Alike.head_isBlank {b d : Text} (h : Alike b d) :
    d.head?.any isBlank = b.head?.any isBlank := by
  cases h with
  | nil => rfl
  | blank => rfl
  | same => rfl
  | word hc => simp [isBlank_of_isPlain hc, show isBlank '"' = false by decide]

theorem Alike.sign {b d : Text} (h : Alike b d) {c : Char} (hc : signs.contains c = true) :
    ((d.dropWhile isBlank).head? == some c) = ((b.dropWhile isBlank).head? == some c) := by
  induction h with
  | nil => rfl
  | blank hx _ ih => simpa [List.dropWhile_cons, hx] using ih
  | same hx => simp [hx]
  | @word x t p hx =>
    obtain ⟨hblank, -, hsign⟩ := isPlain_iff.1 hx
    have hxc : (x == c) = false := by
      refine beq_eq_false_iff_ne.2 ?_
      rintro rfl
      rw [hc] at hsign
      cases hsign
    have hqc : ('"' == c) = false := by
      refine beq_eq_false_iff_ne.2 ?_
      rintro rfl
      exact absurd hc (by decide)
    simp [hblank, show isBlank '"' = false by decide, hxc, hqc]

theorem lead_sign_mem {c : Char} {trail : Trail} (h : (Lead.sign c, trail) ∈ places) :
    signs.contains c = true := by
  simp only [places, List.mem_cons, Prod.mk.injEq, Lead.sign.injEq, reduceCtorEq, false_and,
    List.not_mem_nil, or_false] at h
  rcases h with ⟨rfl, -⟩ | ⟨rfl, -⟩ | ⟨rfl, -⟩ | ⟨rfl, -⟩ | ⟨rfl, -⟩ | ⟨rfl, -⟩ <;> decide

theorem trail_sign_mem {c : Char} {lead : Lead} (h : (lead, Trail.sign c) ∈ places) :
    signs.contains c = true := by
  simp only [places, List.mem_cons, Prod.mk.injEq, Trail.sign.injEq, reduceCtorEq, and_false,
    List.not_mem_nil, or_false, false_or] at h
  rcases h with ⟨-, rfl⟩ | ⟨-, rfl⟩ <;> decide

theorem Alike.lead_fits {b d : Text} (h : Alike b d) (hplace : place ∈ places) :
    place.1.fits d = place.1.fits b := by
  obtain ⟨lead, trail⟩ := place
  cases lead with
  | sign c => exact h.sign (lead_sign_mem hplace)
  | lineStart => exact h.all_isBlank
  | blank => exact h.head_isBlank

theorem Alike.trail_fits {t p : Text} (h : Alike t p) (hplace : place ∈ places) :
    place.2.fits p = place.2.fits t := by
  obtain ⟨lead, trail⟩ := place
  cases trail with
  | sign c => exact h.sign (trail_sign_mem hplace)
  | lineEnd => exact h.all_isBlank
  | blank => exact h.head_isBlank

/-- Places in a line with quotes are places in the line without them. -/
theorem inPlace_iff {b d t p : Text} (hb : Alike b d) (ht : Alike t p) :
    InPlace d p ↔ InPlace b t := by
  constructor
  · rintro ⟨place, hplace, hlead, htrail⟩
    exact ⟨place, hplace, hb.lead_fits hplace ▸ hlead, ht.trail_fits hplace ▸ htrail⟩
  · rintro ⟨place, hplace, hlead, htrail⟩
    exact ⟨place, hplace, (hb.lead_fits hplace).trans hlead, (ht.trail_fits hplace).trans htrail⟩

/-- Behind a quote or a word is no place. -/
theorem not_inPlace_of_stop {c : Char} {b t : Text} (hc : isPlain c = true ∨ c = '"') :
    ¬ InPlace (c :: b) t := by
  have hblank : isBlank c = false := by
    rcases hc with hc | rfl
    · exact isBlank_of_isPlain hc
    · decide
  have hsign : signs.contains c = false := by
    rcases hc with hc | rfl
    · exact (isPlain_iff.1 hc).2.2
    · decide
  rintro ⟨⟨lead, trail⟩, hplace, hlead, -⟩
  cases lead with
  | sign s =>
    simp only [Lead.fits, List.dropWhile_cons, hblank, Bool.false_eq_true, if_false,
      List.head?_cons, beq_iff_eq, Option.some.injEq] at hlead
    rw [hlead, lead_sign_mem hplace] at hsign
    cases hsign
  | lineStart => simp [Lead.fits, hblank] at hlead
  | blank => simp [Lead.fits, hblank] at hlead

theorem quotes_trans (hW : ∀ w ∈ words, PlainWord w) {b d l m n : Text} (hb : Behind b d)
    (h₁ : Quotes (Allowed words) b l m) (h₂ : Quotes (Allowed words) d m n) :
    Quotes (Allowed words) b l n := by
  induction hlen : m.length using Nat.strongRecOn generalizing b d l m n with
  | _ len ih =>
    cases m with
    | nil =>
      obtain rfl := h₁.of_nil_right
      generalize hm : ([] : Text) = m at h₂
      cases h₂ with
      | nil => exact .nil
      | same => cases hm
      | word hmay => exact absurd (List.append_eq_nil_iff.1 hm.symm).1 (hW _ hmay.1).1
    | cons c m =>
      have hlt : m.length < len := by rw [← hlen]; exact Nat.lt_succ_self _
      rcases h₂.of_cons_left with ⟨n', rfl, h₂'⟩ | ⟨w, m', n', hm, rfl, hmay, h₂'⟩
      · rcases h₁.of_cons_right with ⟨l', rfl, h₁'⟩ | ⟨w, l', m', rfl, hm, hmay, h₁'⟩
        · exact .same (ih m.length hlt (.same hb) h₁' h₂' rfl)
        · -- the word has its quotes already, and nothing in it is quoted again
          have hw := hW w hmay.1
          simp only [quoted, List.cons_append, List.cons.injEq, List.append_assoc,
            List.nil_append] at hm
          obtain ⟨rfl, rfl⟩ := hm
          have hskip : Quotes (Allowed words) ('"' :: d) ((w ++ ['"']) ++ m') n' := by simpa using h₂'
          obtain ⟨n'', rfl, hend⟩ := hskip.skip (fun c => isPlain c = true ∨ c = '"')
            (fun hc hmay => not_inPlace_of_stop hc hmay.2) (.inr rfl) fun x hx => by
              rcases List.mem_append.1 hx with hx | hx
              · exact .inl (hw.2 x hx)
              · exact .inr (List.mem_singleton.1 hx)
          have hb' : Behind (w.reverse ++ b) ((quoted w).reverse ++ d) := .word hw hb
          have hlt' : m'.length < len := by simp at hlt; omega
          have h := ih m'.length hlt' hb' h₁' (by simpa [quoted] using hend) rfl
          have hq : '"' :: (w ++ ['"'] ++ n'') = quoted w ++ n'' := by simp [quoted]
          rw [hq]
          exact .word hmay h
      · have hw := hW w hmay.1
        rw [hm] at h₁
        obtain ⟨l', rfl, h₁'⟩ := h₁.of_append_right fun hq =>
          (isPlain_iff.1 (hw.2 _ hq)).2.1 rfl
        have hlt' : m'.length < len := by
          have := congrArg List.length hm
          obtain ⟨c', u, rfl, -⟩ := hw.exists_cons
          simp at this hlen
          omega
        have hplace := (inPlace_iff hb.alike (alike_of_quotes hW h₁')).1 hmay.2
        exact .word ⟨hmay.1, hplace⟩ (ih m'.length hlt' (hb.append w.reverse) h₁' h₂' rfl)

/-- Quoting a word in some of the places puts it in quotes there. -/
theorem quotes_places (hW : ∀ w ∈ words, PlainWord w) (hword : word ∈ words)
    {ps : List (Lead × Trail)} (hps : ∀ place ∈ ps, place ∈ places) (line : Text) :
    Quotes (Allowed words) [] line (ps.foldl (quoteAt word) line) := by
  induction ps generalizing line with
  | nil => exact .refl line
  | cons place ps ih =>
    exact quotes_trans hW .nil (quotes_quoteAt (hps place (by simp)) hword line)
      (ih (fun p hp => hps p (by simp [hp])) _)

/-- Quoting some of the words on a line puts them in quotes, each in a place. -/
theorem quotes_words (hW : ∀ w ∈ words, PlainWord w) {ws : List Text}
    (hws : ∀ w ∈ ws, w ∈ words) (line : Text) :
    Quotes (Allowed words) [] line (quoteLine ws line) := by
  unfold quoteLine
  induction ws generalizing line with
  | nil => exact .refl line
  | cons w ws ih =>
    exact quotes_trans hW .nil (quotes_places hW (hws w (by simp)) (fun _ hp => hp) line)
      (ih (fun x hx => hws x (by simp [hx])) _)

/-- Quoting words on a line puts some of them in quotes, each in a place. -/
theorem quotes_quoteLine (hW : ∀ w ∈ words, PlainWord w) (line : Text) :
    Quotes (Allowed words) [] line (quoteLine words line) :=
  quotes_words hW (fun _ hw => hw) line

end QuoteWords

end SceneGate
