/-
Quoting a text that was quoted. A pass takes the blank behind a word it finds, so of a word
that stands twice in a row between single blanks it finds the first alone, and this is all
that it leaves (`left_replaceFinds`). What comes before and after a pass puts no words and no
places on a line, so what is left of a line stands right behind a copy of itself in quotes
(`left_quoteLine`). No word stands twice in a row then, so a second run leaves nothing, and
a third one has nothing to do (`quoting_again`).
-/
import Mathlib.Data.List.Chain
import SceneGate.Proofs.FormulaBraces
import SceneGate.Proofs.InsertedQuotes

namespace SceneGate

/-! ## Cutting a line with quotes -/

namespace Quotes

variable {may : Text → Text → Text → Prop} {before t p a b : Text}

/-- A text with quotes may be cut behind a character that is of no word in quotes. -/
theorem cut (h : Quotes may before t (a ++ b))
    (hcut : ∀ {x w y}, may x w y → ∀ c ∈ a.getLast?, c ∉ QuoteWords.quoted w) :
    ∃ t₁ t₂, t = t₁ ++ t₂ ∧ Quotes (fun x w y => may x w (y ++ t₂)) before t₁ a ∧
      Quotes may (t₁.reverse ++ before) t₂ b := by
  generalize hp : a ++ b = p at h
  induction h generalizing a with
  | nil =>
    obtain ⟨rfl, rfl⟩ := List.append_eq_nil_iff.1 hp
    exact ⟨[], [], rfl, .nil, .nil⟩
  | @same c before t p h ih =>
    cases a with
    | nil =>
      obtain rfl : b = c :: p := hp
      exact ⟨[], c :: t, rfl, .nil, .same h⟩
    | cons c' a =>
      obtain ⟨rfl, rfl⟩ := List.cons_eq_cons.1 hp
      obtain ⟨t₁, t₂, rfl, hfront, hback⟩ := ih (a := a) (fun hmay c hc => hcut hmay c (by
        rw [List.getLast?_cons, hc]; rfl)) rfl
      exact ⟨c' :: t₁, t₂, rfl, .same hfront, by simpa using hback⟩
  | @word before w t p hmay h ih =>
    rcases List.append_eq_append_iff.1 hp.symm with ⟨x, rfl, rfl⟩ | ⟨x, hx, rfl⟩
    · obtain ⟨t₁, t₂, rfl, hfront, hback⟩ := ih (a := x) (fun hmay c hc => hcut hmay c (by
        rw [List.getLast?_append, hc]; rfl)) rfl
      exact ⟨w ++ t₁, t₂, by simp, .word (by simpa using hmay) hfront, by simpa using hback⟩
    · rcases a.eq_nil_or_concat with rfl | ⟨a, c, rfl⟩
      · obtain rfl : QuoteWords.quoted w = x := by simpa using hx
        exact ⟨[], w ++ t, rfl, .nil, .word hmay h⟩
      · exact absurd (by simp [hx]) (hcut hmay c (by simp))

/-- A text may be cut before a character that is of no word that gets quotes. -/
theorem cut_left (h : Quotes may before (a ++ b) p)
    (hcut : ∀ {x w y}, may x w y → ∀ c ∈ b.head?, c ∉ w) :
    ∃ p₁ p₂, p = p₁ ++ p₂ ∧ Quotes (fun x w y => may x w (y ++ b)) before a p₁ ∧
      Quotes may (a.reverse ++ before) b p₂ := by
  generalize ht : a ++ b = t at h
  induction h generalizing a with
  | nil =>
    obtain ⟨rfl, rfl⟩ := List.append_eq_nil_iff.1 ht
    exact ⟨[], [], rfl, .nil, .nil⟩
  | @same c before t p h ih =>
    cases a with
    | nil =>
      obtain rfl : b = c :: t := ht
      exact ⟨[], c :: p, rfl, .nil, .same h⟩
    | cons c' a =>
      obtain ⟨rfl, rfl⟩ := List.cons_eq_cons.1 ht
      obtain ⟨p₁, p₂, rfl, hfront, hback⟩ := ih (a := a) rfl
      exact ⟨c' :: p₁, p₂, rfl, .same hfront, by simpa using hback⟩
  | @word before w t p hmay h ih =>
    have hlonger {x : Text} (ha : a = w ++ x) (hx : t = x ++ b) : ∃ p₁ p₂,
        QuoteWords.quoted w ++ p = p₁ ++ p₂ ∧
        Quotes (fun x w y => may x w (y ++ b)) before a p₁ ∧
        Quotes may (a.reverse ++ before) b p₂ := by
      obtain ⟨p₁, p₂, rfl, hfront, hback⟩ := ih (a := x) hx.symm
      subst ha hx
      exact ⟨QuoteWords.quoted w ++ p₁, p₂, by simp, .word hmay hfront, by simpa using hback⟩
    rcases List.append_eq_append_iff.1 ht.symm with ⟨x, ha, ht⟩ | ⟨x, rfl, rfl⟩
    · exact hlonger ha ht
    · cases x with
      | nil => exact hlonger (x := []) (by simp) rfl
      | cons c x => exact absurd (by simp) (hcut hmay c rfl)

/-- A text stays as it is if nothing in it gets quotes. -/
theorem eq_of_forall_not (h : Quotes may before t p)
    (hnot : ∀ u w v, t = u ++ w ++ v → ¬ may (u.reverse ++ before) w v) : p = t := by
  induction h with
  | nil => rfl
  | @same c before t p _ ih =>
    rw [ih fun u w v ht hmay => hnot (c :: u) w v (by simp [ht]) (by simpa using hmay)]
  | @word before w t p hmay _ _ => exact absurd hmay (hnot [] w t rfl)

theorem length_le (h : Quotes may before t p) : t.length ≤ p.length := by
  induction h with
  | nil => exact Nat.le_refl _
  | same _ ih => simpa using ih
  | word _ _ ih => simp [QuoteWords.quoted]; omega

end Quotes

namespace QuoteWords

variable {words : List Text} {w line before after t p u v : Text} {place : Lead × Trail} {c : Char}

theorem behind_of_quotes {may : Text → Text → Text → Prop} {b d : Text} (hb : Behind b d)
    (hmay : ∀ {x w y}, may x w y → PlainWord w) (h : Quotes may b t p) :
    Behind (t.reverse ++ b) (p.reverse ++ d) := by
  induction h generalizing d with
  | nil => exact hb
  | same _ ih => simpa using ih (.same hb)
  | @word b w t p hw _ ih => simpa using ih (.word (hmay hw) hb)

/-! ## What a pass leaves -/

/-- A word stands twice in a row, between single blanks. -/
def Doubled (w t : Text) : Prop :=
  ∃ front b₁ b₂ b₃ back, isBlank b₁ = true ∧ isBlank b₂ = true ∧ isBlank b₃ = true ∧
    t = front ++ b₁ :: w ++ b₂ :: w ++ b₃ :: back

/-- A text ends with a blank behind the word in quotes, with a blank before them. -/
def BehindCopy (w u : Text) : Prop :=
  ∃ front b₁ b₂, isBlank b₁ = true ∧ isBlank b₂ = true ∧ u = front ++ b₁ :: quoted w ++ [b₂]

/-- The lead is a character, and blanks if it may have some. -/
def Lead.opens : Lead → Char → Text → Prop
  | .sign s, c, gap => c = s ∧ gap.all isBlank = true
  | .blank, c, gap => isBlank c = true ∧ gap = []
  | .lineStart, _, _ => False

/-- The trail is the front part of a text. -/
def Trail.closes : Trail → (after rest : Text) → Prop
  | .lineEnd, after, rest => after.all isBlank = true ∧ rest = []
  | .blank, after, _ => ∃ b, isBlank b = true ∧ after = [b]
  | .sign c, after, _ => ∃ gap, gap.all isBlank = true ∧ after = gap ++ [c]

theorem Trail.closes_of_length? {trail : Trail} {after rest : Text}
    (h : trail.length? (after ++ rest) = some after.length) : trail.closes after rest := by
  cases trail with
  | lineEnd =>
    obtain ⟨hblank, hlength⟩ := Option.ite_none_right_eq_some.1 h
    have hrest : rest = [] := by simpa using hlength
    exact ⟨by simpa [hrest] using hblank, hrest⟩
  | blank =>
    obtain ⟨hblank, hlength⟩ := Option.ite_none_right_eq_some.1 h
    obtain ⟨b, rfl⟩ := List.length_eq_one_iff.1 (Option.some.inj hlength).symm
    exact ⟨b, by simpa using hblank, rfl⟩
  | sign c =>
    obtain ⟨hhead, hlength⟩ := Option.ite_none_right_eq_some.1 h
    have hgap := Option.some.inj hlength
    have htake : after = (after ++ rest).take (runLength isBlank (after ++ rest) + 1) := by
      rw [hgap, List.take_left]
    refine ⟨(after ++ rest).take (runLength isBlank (after ++ rest)),
      all_take_of_le_runLength (Nat.le_refl _), ?_⟩
    conv => lhs; rw [htake, List.take_add_one]
    rw [List.head?_drop] at hhead
    rw [hhead]
    rfl

theorem wordWithin?_isSome {trail : Trail} {gap : Nat}
    (h : (wordBehind? w trail t gap).isSome = true) : (wordWithin? w trail t gap).isSome = true := by
  cases gap with
  | zero => exact h
  | succ gap => simp [wordWithin?, h]

theorem runLength_append {gap : Text} (hgap : gap.all isBlank = true)
    (ht : ∀ c ∈ t.head?, isBlank c = false) : runLength isBlank (gap ++ t) = gap.length := by
  rw [runLength, List.takeWhile_append_of_pos (List.all_eq_true.1 hgap)]
  cases t with
  | nil => simp
  | cons c t => simp [ht c rfl]

theorem PlainWord.head_isBlank (hw : PlainWord w) : ∀ c ∈ (w ++ t).head?, isBlank c = false := by
  obtain ⟨c, u, rfl, hc⟩ := hw.exists_cons
  rintro _ ⟨⟩
  exact isBlank_of_isPlain hc

/-- A word behind blanks is found. -/
theorem wordWithin?_isSome_gap {trail : Trail} {gap : Text} (hgap : gap.all isBlank = true)
    (hw : PlainWord w) (htrail : trail.fits t = true) :
    (wordWithin? w trail (gap ++ w ++ t) (runLength isBlank (gap ++ w ++ t))).isSome = true := by
  rw [List.append_assoc, runLength_append hgap hw.head_isBlank]
  refine wordWithin?_isSome ?_
  have hword : w.isPrefixOf ((gap ++ (w ++ t)).drop gap.length) = true := by
    rw [List.drop_left]
    exact List.isPrefixOf_iff_prefix.2 (List.prefix_append w t)
  have hafter : (gap ++ (w ++ t)).drop (gap.length + w.length) = t := by
    rw [← List.append_assoc, ← List.length_append, List.drop_left]
  rw [wordBehind?, if_pos hword, hafter, Option.isSome_map, Trail.length?_isSome, htrail]

/-- A word in its place is found where its lead begins. -/
theorem find?_isSome {lead : Lead} {trail : Trail} {gap : Text} (hw : PlainWord w)
    (hlead : lead.opens c gap) (htrail : trail.fits t = true) :
    (find? w lead trail (c :: (gap ++ w ++ t))).isSome = true := by
  simp only [find?, Option.isSome_map]
  cases lead with
  | sign s =>
    obtain ⟨rfl, hgap⟩ := hlead
    simpa using wordWithin?_isSome_gap hgap hw htrail
  | lineStart => exact hlead.elim
  | blank =>
    obtain ⟨hc, rfl⟩ := hlead
    have hnil : ([] : Text).all isBlank = true := rfl
    have hfound := wordWithin?_isSome_gap hnil hw htrail
    have hrun : runLength isBlank ([] ++ (w ++ t)) = 0 := runLength_append rfl hw.head_isBlank
    rw [List.append_assoc, hrun] at hfound
    simpa [hc] using hfound

/-- What is found is a word with its lead and its trail. -/
theorem find?_eq_some {lead : Lead} {trail : Trail} {found : Text.Find}
    (h : find? w lead trail (c :: t) = some found) :
    ∃ gap after rest, lead.opens c gap ∧ t = gap ++ w ++ (after ++ rest) ∧
      trail.closes after rest ∧ trail.fits (after ++ rest) = true ∧
      found = edit w (c :: gap) after := by
  simp only [find?, Option.map_eq_some_iff, Option.bind_eq_some_iff, Prod.exists] at h
  obtain ⟨gap, after, ⟨n, hn, hwithin⟩, rfl⟩ := h
  obtain ⟨m, hm, hbehind⟩ := of_wordWithin? hwithin
  obtain ⟨rest, ht, rfl, htrail, hlength⟩ := of_wordBehind? hbehind
  refine ⟨t.take m, after, rest, ?_, ht, Trail.closes_of_length? hlength, htrail, rfl⟩
  cases lead with
  | sign s =>
    obtain ⟨hc, hn⟩ := Option.ite_none_right_eq_some.1 hn
    rw [← Option.some.inj hn] at hm
    exact ⟨beq_iff_eq.1 hc, all_take_of_le_runLength hm⟩
  | lineStart => cases hn
  | blank =>
    obtain ⟨hc, hn⟩ := Option.ite_none_right_eq_some.1 hn
    obtain rfl : m = 0 := by rw [← Option.some.inj hn] at hm; omega
    exact ⟨hc, rfl⟩

theorem find?_eq_found {lead : Lead} {trail : Trail} {b rest r : Text} (hb : b ≠ [])
    (h : find? w lead trail (b ++ rest) = some ⟨b.length, r⟩) :
    ∃ c gap after, lead.opens c gap ∧ trail.closes after rest ∧ b = c :: gap ++ w ++ after ∧
      r = c :: gap ++ quoted w ++ after := by
  obtain ⟨c, cs, rfl⟩ := List.exists_cons_of_ne_nil hb
  obtain ⟨gap, after, rest', hlead, ht, htrail, -, hfound⟩ := find?_eq_some h
  obtain ⟨hlength, rfl⟩ := Text.Find.mk.inj hfound
  have hsplit : (c :: cs) ++ rest = (c :: gap ++ w ++ after) ++ rest' := by
    rw [List.cons_append, show cs ++ rest = _ from ht]
    simp
  obtain ⟨hb, rfl⟩ := List.append_inj hsplit (by simp only [List.length_append]; exact hlength)
  exact ⟨c, gap, after, hlead, htrail, hb, rfl⟩

theorem fitting_find? (w : Text) (lead : Lead) (trail : Trail) :
    Text.Fitting (find? w lead trail) := by
  intro t found h
  cases t with
  | nil => cases h
  | cons c t =>
    obtain ⟨gap, after, rest, -, rfl, -, -, rfl⟩ := find?_eq_some h
    simp [edit]
    omega

/-! ### Where a word may begin -/

/-- Behind a character that is neither of a word nor a quote no word begins. -/
def Sealed (t : Text) : Prop :=
  t.IsChain fun c d => isPlain d = true → isPlain c = true ∨ c = '"'

theorem sealed_of_forall (h : ∀ c ∈ t, isPlain c = false) : Sealed t := by
  refine (List.pairwise_of_forall_mem_list fun c _ d hd hplain => ?_).isChain
  rw [h d hd] at hplain
  cases hplain

theorem sealed_word (h : ∀ c ∈ t, isPlain c = true) : Sealed t :=
  (List.pairwise_of_forall_mem_list fun c hc _ _ _ => .inl (h c hc)).isChain

/-- No word begins inside a word in quotes, nor beside it. -/
theorem sealed_quoted {a e : Text} (hw : PlainWord w) (ha : ∀ c ∈ a, isPlain c = false)
    (he : ∀ c ∈ e, isPlain c = false) : Sealed (a ++ quoted w ++ e) := by
  have hquote : isPlain '"' = false := by decide
  have hparts : a ++ quoted w ++ e = a ++ ['"'] ++ (w ++ '"' :: e) := by simp [quoted]
  have hfront : Sealed (a ++ ['"']) :=
    sealed_of_forall fun c hc => by
      rcases List.mem_append.1 hc with hc | hc
      · exact ha c hc
      · rw [List.mem_singleton.1 hc, hquote]
  have hback : Sealed ('"' :: e) := sealed_of_forall (List.forall_mem_cons.2 ⟨hquote, he⟩)
  rw [hparts]
  refine List.isChain_append.2 ⟨hfront, List.isChain_append.2 ⟨sealed_word hw.2, hback, ?_⟩, ?_⟩
  · rintro c - d ⟨⟩ hd
    rw [hquote] at hd
    cases hd
  · intro c hc d _ _
    exact .inr (by simpa using hc.symm)

/-- A word that begins in a sealed text begins it, or stands behind a word or a quote. -/
theorem Sealed.not_cut {x y : Text} (h : Sealed (x ++ [c] ++ y)) (hplain : isPlain c = false)
    (hquote : c ≠ '"') : ∀ d ∈ y.head?, isPlain d = false := by
  intro d hd
  have hstep := (List.isChain_append.1 h).2.2 c (by simp) d hd
  cases hp : isPlain d with
  | false => rfl
  | true =>
    rcases hstep hp with hc | hc
    · rw [hplain] at hc
      cases hc
    · exact absurd hc hquote

theorem isPlain_of_isBlank {c : Char} (h : isBlank c = true) : isPlain c = false := by
  simp [isPlain, h]

theorem isPlain_of_isSign {c : Char} (h : signs.contains c = true) : isPlain c = false := by
  simp only [isPlain, h, Bool.not_true, Bool.and_false]

theorem Lead.not_isPlain_of_opens {lead : Lead} {trail : Trail} {gap : Text}
    (hplace : (lead, trail) ∈ places) (h : lead.opens c gap) :
    ∀ x ∈ c :: gap, isPlain x = false ∧ x ≠ '"' := by
  have hquote {x : Char} (hx : isBlank x = true ∨ signs.contains x = true) :
      isPlain x = false ∧ x ≠ '"' := by
    constructor
    · exact hx.elim isPlain_of_isBlank isPlain_of_isSign
    · rintro rfl
      exact absurd hx (by decide)
  cases lead with
  | sign s =>
    obtain ⟨rfl, hgap⟩ := h
    exact List.forall_mem_cons.2
      ⟨hquote (.inr (lead_sign_mem hplace)), fun x hx => hquote (.inl (List.all_eq_true.1 hgap x hx))⟩
  | lineStart => exact h.elim
  | blank =>
    obtain ⟨hc, rfl⟩ := h
    simpa using hquote (.inl hc)

theorem Trail.not_isPlain_of_closes {lead : Lead} {trail : Trail} {rest : Text}
    (hplace : (lead, trail) ∈ places) (h : trail.closes after rest) :
    ∀ x ∈ after, isPlain x = false := by
  cases trail with
  | lineEnd => exact fun x hx => isPlain_of_isBlank (List.all_eq_true.1 h.1 x hx)
  | blank =>
    obtain ⟨b, hb, rfl⟩ := h
    simpa using isPlain_of_isBlank hb
  | sign s =>
    obtain ⟨gap, hgap, rfl⟩ := h
    intro x hx
    rcases List.mem_append.1 hx with hx | hx
    · exact isPlain_of_isBlank (List.all_eq_true.1 hgap x hx)
    · rw [List.mem_singleton.1 hx]
      exact isPlain_of_isSign (trail_sign_mem hplace)

/-! ### The passes -/

theorem Doubled.append_left (h : Doubled w t) (u : Text) : Doubled w (u ++ t) := by
  obtain ⟨front, b₁, b₂, b₃, back, h₁, h₂, h₃, rfl⟩ := h
  exact ⟨u ++ front, b₁, b₂, b₃, back, h₁, h₂, h₃, by simp⟩

theorem BehindCopy.append_left (h : BehindCopy w t) (u : Text) : BehindCopy w (u ++ t) := by
  obtain ⟨front, b₁, b₂, h₁, h₂, rfl⟩ := h
  exact ⟨u ++ front, b₁, b₂, h₁, h₂, by simp⟩

theorem lead_sign_ne_trail {s q : Char} (h : (Lead.sign s, Trail.sign q) ∈ places) : s ≠ q := by
  simp only [places, List.mem_cons, Prod.mk.injEq, Lead.sign.injEq, Trail.sign.injEq, reduceCtorEq,
    and_false, List.not_mem_nil, or_false, false_or] at h
  rcases h with ⟨rfl, rfl⟩ | ⟨rfl, rfl⟩ <;> decide

theorem trail_of_blank_mem {trail : Trail} (h : (Lead.blank, trail) ∈ places) : trail = .blank := by
  simpa [places] using h

/-- The last sign of what is found is the trail's or a quote, never the lead's. -/
theorem found_ne {s : Char} {trail : Trail} (hplace : (Lead.sign s, trail) ∈ places)
    {a front gap rest : Text} (htrail : trail.closes after rest) (hgap : gap.all isBlank = true) :
    a ++ quoted w ++ after ≠ front ++ s :: gap := by
  intro h
  have hlast := congrArg (fun t : Text => (t.reverse.dropWhile isBlank).head?) h
  have hs : isBlank s = false := isBlank_of_sign_mem hplace
  have hsign : ((front ++ s :: gap).reverse.dropWhile isBlank).head? = some s := by
    rw [List.reverse_append, List.reverse_cons, List.append_assoc,
      all_isBlank_dropWhile (by simpa using hgap)]
    simp [hs]
  have hquote (e : Text) (he : e.all isBlank = true) :
      ((a ++ quoted w ++ e).reverse.dropWhile isBlank).head? = some '"' := by
    rw [List.reverse_append, all_isBlank_dropWhile (by simpa using he), List.reverse_append,
      quoted_reverse]
    rfl
  have hne : s ≠ '"' := by
    rintro rfl
    exact absurd (lead_sign_mem hplace) (by decide)
  rw [hsign] at hlast
  cases trail with
  | lineEnd => exact hne (Option.some.inj ((hquote after htrail.1).symm.trans hlast)).symm
  | blank =>
    obtain ⟨b, hb, rfl⟩ := htrail
    exact hne (Option.some.inj ((hquote [b] (by simpa using hb)).symm.trans hlast)).symm
  | sign q =>
    obtain ⟨g, -, rfl⟩ := htrail
    have hq : isBlank q = false := by
      have hall : ∀ c ∈ signs, isBlank c = false := by decide
      exact hall q (List.contains_iff_mem.1 (trail_sign_mem hplace))
    rw [← List.append_assoc, List.reverse_append] at hlast
    simp only [List.reverse_singleton, List.singleton_append, List.dropWhile_cons, hq,
      Bool.false_eq_true, if_false, List.head?_cons, Option.some.injEq] at hlast
    exact lead_sign_ne_trail hplace hlast.symm

/-- What is written in a pass has the word again as the text has. -/
theorem exists_of_replaceFinds {lead : Lead} {trail : Trail} (hplace : (lead, trail) ∈ places)
    (hw : PlainWord w) {u back : Text} (h : t.replaceFinds (find? w lead trail) = u ++ back)
    (hu : '"' ∉ u) (htrail : trail.fits back = true) :
    ∃ rest, t = u ++ rest ∧ trail.fits rest = true := by
  have hquotes := quotes_replaceFinds hplace (List.mem_singleton_self w) [] t
  rw [h] at hquotes
  obtain ⟨rest, rfl, hrest⟩ := hquotes.of_append_right hu
  have halike := alike_of_quotes (by simpa using hw) hrest
  exact ⟨rest, rfl, (halike.trail_fits hplace).symm.trans htrail⟩

/-- A pass leaves a word only right behind the same word, whose trail was its lead. -/
theorem left_replaceFinds {lead : Lead} {trail : Trail} (hplace : (lead, trail) ∈ places)
    (hw : PlainWord w) {front gap back : Text}
    (h : t.replaceFinds (find? w lead trail) = front ++ c :: gap ++ w ++ back)
    (hlead : lead.opens c gap) (htrail : trail.fits back = true) :
    Doubled w t ∧ t.length < (t.replaceFinds (find? w lead trail)).length ∧
      BehindCopy w (front ++ c :: gap) := by
  have hopen := Lead.not_isPlain_of_opens hplace hlead
  have hnoquote : '"' ∉ w := fun hm => (isPlain_iff.1 (hw.2 _ hm)).2.1 rfl
  induction t using Text.finds_induct (fitting_find? w lead trail) generalizing front with
  | nil => simp [Text.replaceFinds, Text.replaceFindsFrom] at h
  | kept c₀ cs hnone ih =>
    rw [(Text.finds_of_none hnone).1] at h ⊢
    cases front with
    | nil =>
      -- the lead is not behind a find, so the word would have been found
      simp only [List.nil_append, List.cons_append, List.cons.injEq] at h
      obtain ⟨rfl, h⟩ := h
      obtain ⟨rest, rfl, hrest⟩ := exists_of_replaceFinds hplace hw h (by
        rw [List.mem_append, not_or]
        exact ⟨fun hm => (hopen _ (List.mem_cons_of_mem _ hm)).2 rfl, hnoquote⟩) htrail
      have hfound := find?_isSome hw hlead hrest
      rw [hnone] at hfound
      cases hfound
    | cons c₁ front =>
      simp only [List.cons_append, List.cons.injEq] at h
      obtain ⟨rfl, h⟩ := h
      obtain ⟨hdouble, hlt, hcopy⟩ := ih (by simpa using h)
      exact ⟨hdouble.append_left [c₀], by simpa using hlt, hcopy.append_left [c₀]⟩
  | found b rest r hfound hb ih =>
    obtain ⟨c₀, gap₀, after, hlead₀, htrail₀, rfl, rfl⟩ := find?_eq_found hb hfound
    rw [(Text.finds_of_some hfound hb).1] at h ⊢
    have hlt : (c₀ :: gap₀ ++ w ++ after ++ rest).length <
        (c₀ :: gap₀ ++ quoted w ++ after ++ rest.replaceFinds (find? w lead trail)).length := by
      have hle := (quotes_replaceFinds hplace (List.mem_singleton_self w) [] rest).length_le
      simp [quoted]
      omega
    have hsealed : Sealed (c₀ :: gap₀ ++ quoted w ++ after) :=
      sealed_quoted hw (fun x hx => (Lead.not_isPlain_of_opens hplace hlead₀ x hx).1)
        (Trail.not_isPlain_of_closes hplace htrail₀)
    -- the word begins in what is left, behind all that was found
    obtain ⟨x, hx, hrest⟩ : ∃ x, front ++ c :: gap = c₀ :: gap₀ ++ quoted w ++ after ++ x ∧
        rest.replaceFinds (find? w lead trail) = x ++ (w ++ back) := by
      rw [List.append_assoc (front ++ c :: gap)] at h
      rcases List.append_eq_append_iff.1 h with h | ⟨x, hx, hback⟩
      · exact h
      · cases x with
        | nil => exact ⟨[], by simpa using hx.symm, by simpa using hback.symm⟩
        | cons d x =>
          obtain ⟨e, u, rfl, he⟩ := hw.exists_cons
          obtain ⟨rfl, -⟩ := List.cons_eq_cons.1 hback
          obtain ⟨init, l, hl⟩ := (List.eq_nil_or_concat (c :: gap)).resolve_left (by simp)
          obtain ⟨hplain, hquote⟩ := hopen l (by simp [hl])
          rw [hx, hl, List.concat_eq_append, ← List.append_assoc] at hsealed
          rw [hsealed.not_cut hplain hquote e rfl] at he
          cases he
    have hbehind {y : Text} (hfront : front = c₀ :: gap₀ ++ quoted w ++ after ++ y)
        (hxy : x = y ++ c :: gap) :
        Doubled w (c₀ :: gap₀ ++ w ++ after ++ rest) ∧ BehindCopy w (front ++ c :: gap) := by
      have hleft : rest.replaceFinds (find? w lead trail) = y ++ c :: gap ++ w ++ back := by
        rw [hrest, hxy]
        simp
      obtain ⟨hdouble, -, hcopy⟩ := ih hleft
      rw [hfront, List.append_assoc (c₀ :: gap₀ ++ quoted w ++ after)]
      exact ⟨hdouble.append_left _, hcopy.append_left _⟩
    suffices Doubled w (c₀ :: gap₀ ++ w ++ after ++ rest) ∧ BehindCopy w (front ++ c :: gap) from
      ⟨this.1, hlt, this.2⟩
    rcases List.append_eq_append_iff.1 hx with ⟨y, hsame, hgap⟩ | ⟨y, hfront, hxy⟩
    · cases y with
      | nil => exact hbehind (y := []) (by simpa using hsame.symm) hgap.symm
      | cons d y =>
        obtain ⟨rfl, rfl⟩ : c = d ∧ gap = y ++ x := by simpa using hgap
        -- the lead was taken by the find before
        cases lead with
        | sign s =>
          obtain ⟨rfl, hblank⟩ := hlead
          rw [List.all_append, Bool.and_eq_true] at hblank
          exact absurd hsame (found_ne hplace htrail₀ hblank.1)
        | lineStart => exact hlead.elim
        | blank =>
          obtain rfl := trail_of_blank_mem hplace
          obtain ⟨hc, hnil⟩ := hlead
          obtain ⟨rfl, rfl⟩ := List.append_eq_nil_iff.1 hnil
          obtain ⟨hc₀, rfl⟩ := hlead₀
          obtain ⟨c₁, hc₁, rfl⟩ := htrail₀
          obtain ⟨rfl, hbc⟩ := List.append_inj' hsame rfl
          obtain ⟨rest', hword, hrest'⟩ :=
            exists_of_replaceFinds hplace hw (u := w) hrest hnoquote htrail
          obtain ⟨b', rest'', rfl⟩ : ∃ b' u, rest' = b' :: u := by
            cases rest' with
            | nil => cases hrest'
            | cons b' u => exact ⟨b', u, rfl⟩
          subst hword
          exact ⟨⟨[], c₀, c₁, b', rest'', hc₀, hc₁, by simpa [Trail.fits] using hrest', by simp⟩,
            [], c₀, c, hc₀, hc, by simp⟩
    · exact hbehind hfront hxy

theorem Lead.exists_opens {lead : Lead} {front : Text} (h : lead.fits front.reverse = true)
    (hne : lead ≠ .lineStart) : ∃ init c gap, front = init ++ c :: gap ∧ lead.opens c gap := by
  cases lead with
  | sign s =>
    have hsplit := List.takeWhile_append_dropWhile (p := isBlank) (l := front.reverse)
    cases hrest : front.reverse.dropWhile isBlank with
    | nil => simp [Lead.fits, hrest] at h
    | cons c rest =>
      rw [hrest] at hsplit
      have hfront := congrArg List.reverse hsplit
      rw [List.reverse_append, List.reverse_cons, List.reverse_reverse, List.append_assoc] at hfront
      refine ⟨rest.reverse, c, _, hfront.symm, ?_, by simp⟩
      simpa [Lead.fits, hrest] using h
  | lineStart => exact absurd rfl hne
  | blank =>
    rcases front.eq_nil_or_concat with rfl | ⟨init, c, rfl⟩
    · cases h
    · exact ⟨init, c, [], by simp, by simpa [Lead.fits] using h, rfl⟩

/-- At the beginning of a line a pass leaves nothing. -/
theorem not_left_lineStart (hw : PlainWord w) {front back : Text} (hfront : front.all isBlank = true)
    (hback : back.all isBlank = true) :
    quoteAt w line (.lineStart, .lineEnd) ≠ front ++ w ++ back := by
  intro h
  unfold quoteAt at h
  dsimp only at h
  split at h
  · rename_i before after hwithin
    obtain ⟨n, hn, hbehind⟩ := of_wordWithin? hwithin
    obtain ⟨rest, -, rfl, -, -⟩ := of_wordBehind? hbehind
    have hblank := all_take_of_le_runLength hn
    -- behind the same blanks stands a quote here, and a word there
    have hdrop := congrArg (fun t : Text => t.dropWhile isBlank) h
    simp only [List.append_assoc, all_isBlank_dropWhile hblank, all_isBlank_dropWhile hfront]
      at hdrop
    obtain ⟨c, u, rfl, hc⟩ := hw.exists_cons
    simp only [quoted, List.cons_append, List.dropWhile_cons, isBlank_of_isPlain hc,
      show isBlank '"' = false by decide, Bool.false_eq_true, if_false, List.cons.injEq] at hdrop
    rw [← hdrop.1] at hc
    exact absurd hc (by decide)
  · rename_i hnone
    subst h
    have htrail : Trail.lineEnd.fits back = true := hback
    have hfound := wordWithin?_isSome_gap hfront hw htrail
    rw [hnone] at hfound
    cases hfound

/-- A pass leaves a word in its place only right behind the same word. -/
theorem left_quoteAt (hplace : place ∈ places) (hw : PlainWord w) {front back : Text}
    (h : quoteAt w line place = front ++ w ++ back) (hlead : place.1.fits front.reverse = true)
    (htrail : place.2.fits back = true) :
    Doubled w line ∧ line.length < (quoteAt w line place).length ∧ BehindCopy w front := by
  obtain ⟨lead, trail⟩ := place
  have hfinds (hne : lead ≠ .lineStart)
      (heq : quoteAt w line (lead, trail) = line.replaceFinds (find? w lead trail)) :
      Doubled w line ∧ line.length < (quoteAt w line (lead, trail)).length ∧
        BehindCopy w front := by
    obtain ⟨init, c, gap, rfl, hopens⟩ := Lead.exists_opens hlead hne
    rw [heq] at h ⊢
    exact left_replaceFinds hplace hw h hopens htrail
  cases lead with
  | sign s => exact hfinds (by simp) rfl
  | blank => exact hfinds (by simp) rfl
  | lineStart =>
    obtain rfl := trail_of_lineStart_mem hplace
    exact absurd h (not_left_lineStart hw (by simpa [Lead.fits] using hlead) htrail)

/-! ## What is left of a line -/

theorem not_mem_quoted (hw : PlainWord w) (hplain : isPlain c = false) (hquote : c ≠ '"') :
    c ∉ quoted w := by
  intro hc
  simp only [quoted, List.cons_append, List.mem_cons, List.mem_append, List.not_mem_nil,
    or_false] at hc
  rcases hc with hc | hc | hc
  · exact hquote hc
  · rw [hw.2 c hc] at hplain
    cases hplain
  · exact hquote hc

theorem stop_of_inPlace {a b : Text} (h : InPlace a.reverse b) :
    ∀ c ∈ a.getLast?, isPlain c = false ∧ c ≠ '"' := by
  intro c hc
  rw [← List.head?_reverse] at hc
  obtain ⟨u, hu⟩ := List.head?_eq_some_iff.1 hc
  rw [hu] at h
  refine ⟨?_, fun hquote => not_inPlace_of_stop (.inr hquote) h⟩
  cases hp : isPlain c with
  | false => rfl
  | true => exact absurd h (not_inPlace_of_stop (.inl hp))

theorem PlainWord.quote_notMem (hw : PlainWord w) : '"' ∉ w :=
  fun hm => (isPlain_iff.1 (hw.2 _ hm)).2.1 rfl

/-- Text without quotes that stands behind no word is there without the other quotes, and what
is beside it looks alike. -/
theorem exists_of_quotes (hW : ∀ w ∈ words, PlainWord w) {a b : Text}
    (h : Quotes (Allowed words) [] t (a ++ u ++ b)) (hu : '"' ∉ u)
    (hstop : ∀ c ∈ a.getLast?, isPlain c = false ∧ c ≠ '"') :
    ∃ a' b', t = a' ++ u ++ b' ∧ Alike a'.reverse a.reverse ∧ Alike b' b ∧
      Quotes (fun x v y => Allowed words x v (y ++ (u ++ b'))) [] a' a := by
  rw [List.append_assoc] at h
  obtain ⟨a', t', rfl, hfront, hback⟩ := h.cut fun {x v y} hmay c hc =>
    not_mem_quoted (hW v hmay.1) (hstop c hc).1 (hstop c hc).2
  obtain ⟨b', rfl, hrest⟩ := hback.of_append_right hu
  have hbehind := behind_of_quotes .nil (fun hmay => hW _ hmay.1) hfront
  rw [List.append_nil, List.append_nil] at hbehind
  exact ⟨a', b', by simp, hbehind.alike, alike_of_quotes hW hrest, hfront⟩

/-- A word twice in a row stood so before. -/
theorem Doubled.of_quotes (hW : ∀ w ∈ words, PlainWord w) (hw : PlainWord w)
    (h : Quotes (Allowed words) [] t p) (hdouble : Doubled w p) : Doubled w t := by
  obtain ⟨front, b₁, b₂, b₃, back, h₁, h₂, h₃, rfl⟩ := hdouble
  have hnoquote {c : Char} (hc : isBlank c = true) : c ≠ '"' := by
    rintro rfl
    exact absurd hc (by decide)
  have hu : '"' ∉ w ++ b₂ :: w ++ [b₃] := by
    simp [hw.quote_notMem, (hnoquote h₂).symm, (hnoquote h₃).symm]
  obtain ⟨a', b', rfl, hbefore, -, -⟩ :=
    exists_of_quotes (a := front ++ [b₁]) (b := back) hW (by simpa using h) hu
      (by simpa using ⟨isPlain_of_isBlank h₁, hnoquote h₁⟩)
  have hblank := hbefore.head_isBlank
  rcases a'.eq_nil_or_concat with rfl | ⟨a', c, rfl⟩
  · simp [h₁] at hblank
  · exact ⟨a', c, b₂, b₃, b', by simpa [h₁] using hblank, h₂, h₃, by simp⟩

/-- A character that is of no word stays. -/
theorem exists_cons_of_quotes {may : Text → Text → Text → Prop}
    (hmay : ∀ {x v y}, may x v y → PlainWord v) (hc : isPlain c = false)
    (h : Quotes may before (c :: t) p) : ∃ p', p = c :: p' ∧ Quotes may (c :: before) t p' := by
  rcases h.of_cons_left with hsame | ⟨v, t', p', ht, -, hv, -⟩
  · exact hsame
  · obtain ⟨d, u, rfl, hd⟩ := (hmay hv).exists_cons
    obtain ⟨rfl, -⟩ := List.cons_eq_cons.1 ht
    rw [hc] at hd
    cases hd

/-- A copy in quotes stays in front of a blank. -/
theorem BehindCopy.of_quotes {may : Text → Text → Text → Prop} (hw : PlainWord w)
    (hmay : ∀ {x v y}, may x v y → PlainWord v) (hstop : ∀ {c x v y}, isPlain c = true ∨ c = '"' →
      ¬ may (c :: x) v y) (h : Quotes may [] t p) (hcopy : BehindCopy w t) : BehindCopy w p := by
  obtain ⟨front, b₁, b₂, h₁, h₂, rfl⟩ := hcopy
  have hquote : isPlain '"' = false := by decide
  have ht : front ++ b₁ :: quoted w ++ [b₂] = front ++ b₁ :: '"' :: (w ++ ['"'] ++ [b₂]) := by
    simp [quoted]
  rw [ht] at h
  obtain ⟨front', q, rfl, -, hback⟩ := h.cut_left fun {x v y} hv c hc hm => by
    cases hc
    have hplain := (hmay hv).2 _ hm
    rw [isPlain_of_isBlank h₁] at hplain
    cases hplain
  obtain ⟨q₁, rfl, hback₁⟩ := exists_cons_of_quotes hmay (isPlain_of_isBlank h₁) hback
  obtain ⟨q₂, rfl, hback₂⟩ := exists_cons_of_quotes hmay hquote hback₁
  obtain ⟨q₃, rfl, hback₃⟩ := hback₂.skip (fun c => isPlain c = true ∨ c = '"') hstop (.inr rfl)
    fun x hx => by
      rcases List.mem_append.1 hx with hx | hx
      · exact .inl (hw.2 x hx)
      · exact .inr (List.mem_singleton.1 hx)
  obtain ⟨q₄, rfl, hback₄⟩ := exists_cons_of_quotes hmay (isPlain_of_isBlank h₂) hback₃
  obtain rfl := hback₄.eq_of_forall_not fun u v y hnil hv => by
    obtain ⟨hnil, -⟩ := List.append_eq_nil_iff.1 hnil.symm
    exact (hmay hv).1 (List.append_eq_nil_iff.1 hnil).2
  exact ⟨front', b₁, b₂, h₁, h₂, by simp [quoted]⟩

/-- Every pass over a line comes between passes that put words in quotes. -/
theorem exists_pass (hW : ∀ w ∈ words, PlainWord w) (hw : w ∈ words) (hplace : place ∈ places)
    (line : Text) : ∃ mid, Quotes (Allowed words) [] line mid ∧
      Quotes (Allowed words) [] (quoteAt w mid place) (quoteLine words line) := by
  obtain ⟨front, back, rfl⟩ := List.append_of_mem hw
  obtain ⟨ps, qs, hps⟩ := List.append_of_mem hplace
  have hpasses : quoteLine (front ++ w :: back) line =
      quoteLine back (qs.foldl (quoteAt w)
        (quoteAt w (ps.foldl (quoteAt w) (quoteLine front line)) place)) := by
    simp [quoteLine, hps]
  have hfront : ∀ v ∈ front, v ∈ front ++ w :: back := fun v => List.mem_append_left _
  have hback : ∀ v ∈ back, v ∈ front ++ w :: back :=
    fun v hv => List.mem_append_right _ (List.mem_cons_of_mem w hv)
  have hps' : ∀ q ∈ ps, q ∈ places := fun q hq => hps ▸ List.mem_append_left _ hq
  have hqs' : ∀ q ∈ qs, q ∈ places :=
    fun q hq => hps ▸ List.mem_append_right _ (List.mem_cons_of_mem place hq)
  refine ⟨ps.foldl (quoteAt w) (quoteLine front line), ?_, ?_⟩
  · exact quotes_trans hW .nil (quotes_words hW hfront line) (quotes_places hW hw hps' _)
  · rw [hpasses]
    exact quotes_trans hW .nil (quotes_places hW hw hqs' _) (quotes_words hW hback _)

/-- What is left in a place stood twice in a row, and stands right behind the other in
quotes. -/
theorem left_quoteLine (hW : ∀ w ∈ words, PlainWord w) (hw : w ∈ words) {a b : Text}
    (h : quoteLine words line = a ++ w ++ b) (hplace : InPlace a.reverse b) :
    Doubled w line ∧ line.length < (quoteLine words line).length ∧ BehindCopy w a := by
  have hstop := stop_of_inPlace hplace
  obtain ⟨place, hplace, hlead, htrail⟩ := hplace
  obtain ⟨mid, hbefore, hafter⟩ := exists_pass hW hw hplace line
  have hlonger := hafter.length_le
  rw [h] at hafter
  obtain ⟨a', b', hmid, hfront, hback, hquotes⟩ :=
    exists_of_quotes hW hafter (hW w hw).quote_notMem hstop
  obtain ⟨hdouble, hlt, hcopy⟩ := left_quoteAt hplace (hW w hw) hmid
    ((hfront.lead_fits hplace).symm.trans hlead) ((hback.trail_fits hplace).symm.trans htrail)
  refine ⟨hdouble.of_quotes hW (hW w hw) hbefore, ?_, ?_⟩
  · exact Nat.lt_of_le_of_lt hbefore.length_le (Nat.lt_of_lt_of_le hlt hlonger)
  · exact hcopy.of_quotes (hW w hw) (fun hmay => hW _ hmay.1)
      (fun hc hmay => not_inPlace_of_stop hc hmay.2) hquotes

/-- No word stands twice in a row on a line with quotes. -/
theorem not_doubled_quoteLine (hW : ∀ w ∈ words, PlainWord w) (hw : w ∈ words) (line : Text) :
    ¬ Doubled w (quoteLine words line) := by
  rintro ⟨front, b₁, b₂, b₃, back, -, h₂, h₃, hline⟩
  have hparts : quoteLine words line = front ++ b₁ :: w ++ [b₂] ++ w ++ b₃ :: back := by
    simp [hline]
  have hplace : InPlace (front ++ b₁ :: w ++ [b₂]).reverse (b₃ :: back) :=
    ⟨(.blank, .blank), by decide, by simpa [Lead.fits] using h₂, by simpa [Trail.fits] using h₃⟩
  obtain ⟨-, -, front', c₁, c₂, -, -, hcopy⟩ := left_quoteLine hW hw hparts hplace
  -- the first of the two would end with a quote
  obtain ⟨hsame, -⟩ := List.append_inj' hcopy rfl
  obtain ⟨u, c, hc⟩ := (List.eq_nil_or_concat w).resolve_left (hW w hw).1
  have hlast := congrArg List.getLast? hsame
  have hplain := (hW w hw).2 c (by simp [hc])
  simp only [List.getLast?_append, List.getLast?_cons, quoted, hc, List.concat_eq_append] at hlast
  obtain rfl : c = '"' := by simpa using hlast
  exact absurd hplain (by decide)

/-- No word of the list stands in a place of a line. -/
def NoneInPlace (words : List Text) (line : Text) : Prop :=
  ∀ w ∈ words, ∀ a b, line = a ++ w ++ b → ¬ InPlace a.reverse b

/-- Exactly the lines without words in places stay as they are. -/
theorem quoteLine_eq_self_iff (hW : ∀ w ∈ words, PlainWord w) :
    quoteLine words line = line ↔ NoneInPlace words line := by
  constructor
  · intro hline w hw a b hparts hplace
    obtain ⟨-, hlt, -⟩ := left_quoteLine hW hw (hline.trans hparts) hplace
    rw [hline] at hlt
    exact Nat.lt_irrefl _ hlt
  · intro hnone
    refine (quotes_quoteLine hW line).eq_of_forall_not fun a w b hline hmay => ?_
    exact hnone w hmay.1 a b hline (by simpa using hmay.2)

theorem noneInPlace_of_not_doubled (hW : ∀ w ∈ words, PlainWord w)
    (h : ∀ w ∈ words, ¬ Doubled w line) : NoneInPlace words (quoteLine words line) :=
  fun w hw _ _ hline hplace => h w hw (left_quoteLine hW hw hline hplace).1

/-! ## What is left of a text -/

/-- No word of the list stands in a place of a line that is no comment. -/
def NoneLeft (words : List Text) (t : Text) : Prop :=
  ∀ line ∈ t.lines, isComment line.content = false → NoneInPlace words line.content

theorem exists_mem_linesFrom {start : Nat} {ls : List Text} {line : Line}
    (h : line ∈ Text.linesFrom start ls) : ∃ l ∈ ls, line.content = l.withoutLineEnding := by
  induction ls generalizing start with
  | nil => cases h
  | cons l ls ih =>
    rcases List.mem_cons.1 h with rfl | h
    · exact ⟨l, List.mem_cons_self, rfl⟩
    · obtain ⟨l', hl', hline⟩ := ih h
      exact ⟨l', List.mem_cons_of_mem l hl', hline⟩

theorem exists_line_of_mem {ls : List Text} {l : Text} (h : l ∈ ls) (start : Nat) :
    ∃ line ∈ Text.linesFrom start ls, line.content = l.withoutLineEnding := by
  induction ls generalizing start with
  | nil => cases h
  | cons l' ls ih =>
    rcases List.mem_cons.1 h with rfl | h
    · exact ⟨_, List.mem_cons_self, rfl⟩
    · obtain ⟨line, hline, hl⟩ := ih h (start + Text.bytes l')
      exact ⟨line, List.mem_cons_of_mem _ hline, hl⟩

theorem requote_eq_self_iff {l : Text} : requote words l = l ↔
    (isComment l.withoutLineEnding = false →
      quoteLine words l.withoutLineEnding = l.withoutLineEnding) := by
  have hl := Text.withoutLineEnding_append l
  conv => lhs; rhs; rw [← hl]
  rw [requote, List.append_cancel_right_eq]
  cases isComment l.withoutLineEnding <;> simp

theorem filter_eq_words (hW : ∀ w ∈ words, PlainWord w) : words.filter (!·.isEmpty) = words :=
  List.filter_eq_self.2 fun w hw => by simpa using (hW w hw).1

/-- Exactly the texts without words in places stay as they are. -/
theorem quote_eq_self_iff (hW : ∀ w ∈ words, PlainWord w) (t : Text) :
    quote words t = t ↔ NoneLeft words t := by
  have hlines : quote words t = t ↔ ∀ l ∈ t.splitLines, requote words l = l := by
    constructor
    · intro h l hl
      have hsplit := splitLines_quote hW t
      rw [h, filter_eq_words hW] at hsplit
      exact (List.map_inj_left (g := id)).1 (by simpa using hsplit.symm) l hl
    · intro h
      rw [quote_eq, filter_eq_words hW, List.map_congr_left (g := id) h, List.map_id,
        Text.flatten_splitLines]
  rw [hlines]
  constructor
  · intro h line hline hcomment
    obtain ⟨l, hl, hcontent⟩ := exists_mem_linesFrom hline
    rw [hcontent] at hcomment ⊢
    exact (quoteLine_eq_self_iff hW).1 (requote_eq_self_iff.1 (h l hl) hcomment)
  · intro h l hl
    obtain ⟨line, hline, hcontent⟩ := exists_line_of_mem hl 0
    refine requote_eq_self_iff.2 fun hcomment => (quoteLine_eq_self_iff hW).2 ?_
    rw [← hcontent] at hcomment ⊢
    exact h line hline hcomment

/-- A line of a text with quotes that is no comment is such a line with quotes. -/
theorem exists_line_of_quote (hW : ∀ w ∈ words, PlainWord w) {line : Line}
    (h : line ∈ (quote words t).lines) (hcomment : isComment line.content = false) :
    ∃ line' ∈ t.lines, isComment line'.content = false ∧
      line.content = quoteLine words line'.content := by
  obtain ⟨l, hl, hcontent⟩ := exists_mem_linesFrom h
  rw [splitLines_quote hW, filter_eq_words hW] at hl
  obtain ⟨l', hl', rfl⟩ := List.mem_map.1 hl
  obtain ⟨line', hline', hcontent'⟩ := exists_line_of_mem hl' 0
  have hending := lineEnding_requote hW ((Text.lines_splitLines t).lineFeed_notMem hl')
  have hl := Text.withoutLineEnding_append (requote words l')
  rw [hending] at hl
  conv at hl => rhs; rw [requote]
  have hl := List.append_cancel_right hl
  rw [hcontent, hl] at hcomment ⊢
  refine ⟨line', hline', ?_⟩
  rw [hcontent']
  cases hc : isComment l'.withoutLineEnding with
  | false => simp
  | true => simp [hc] at hcomment

end QuoteWords

open QuoteWords

/-- Quoting a text that was quoted. The rule leaves its result alone exactly if no name is left
in a place. Each that is left stands behind a copy of itself in quotes; none is left of a text
without doubled names; and none is left of the result of a second run. -/
theorem quoting_again {words : List Text} (hwords : ∀ w ∈ words, IsIdentifier w) (t : Text) :
    ((rule words).apply ((rule words).apply t) = (rule words).apply t ↔
      NoneLeft words ((rule words).apply t)) ∧
    (∀ line ∈ ((rule words).apply t).lines, isComment line.content = false →
      ∀ w ∈ words, ∀ a b, line.content = a ++ w ++ b → InPlace a.reverse b → BehindCopy w a) ∧
    ((∀ line ∈ t.lines, isComment line.content = false → ∀ w ∈ words, ¬ Doubled w line.content) →
      NoneLeft words ((rule words).apply t)) ∧
    NoneLeft words ((rule words).apply ((rule words).apply t)) := by
  have hW : ∀ w ∈ words, PlainWord w := fun w hw => (hwords w hw).plain
  refine ⟨quote_eq_self_iff hW _, ?_, ?_, ?_⟩
  · intro line hline hcomment w hw a b hparts hplace
    obtain ⟨line', -, -, hcontent⟩ := exists_line_of_quote hW hline hcomment
    exact (left_quoteLine hW hw (hcontent.symm.trans hparts) hplace).2.2
  · intro hsingle line hline hcomment
    obtain ⟨line', hline', hcomment', hcontent⟩ := exists_line_of_quote hW hline hcomment
    rw [hcontent]
    exact noneInPlace_of_not_doubled hW (hsingle line' hline' hcomment')
  · intro line hline hcomment
    obtain ⟨line', hline', hcomment', hcontent⟩ := exists_line_of_quote hW hline hcomment
    obtain ⟨line'', -, -, hcontent'⟩ := exists_line_of_quote hW hline' hcomment'
    rw [hcontent, hcontent']
    exact noneInPlace_of_not_doubled hW fun w hw => not_doubled_quoteLine hW hw _

theorem isIdentifier_ket : ∀ w ∈ ["ket".toList], IsIdentifier w :=
  List.forall_mem_singleton.2 ⟨'k', ['e', 't'], rfl, by decide, by decide⟩

theorem quoting_again_ket :
    (∀ w ∈ ["ket".toList], IsIdentifier w) ∧
      NoneLeft ["ket".toList] ((rule ["ket".toList]).apply
        ((rule ["ket".toList]).apply "x ket ket y\n".toList)) :=
  ⟨isIdentifier_ket, (quoting_again isIdentifier_ket "x ket ket y\n".toList).2.2.2⟩

/-- Of a name that stands twice in a row, one run quotes the first alone. -/
theorem quoted_again_ket :
    (∀ w ∈ ["ket".toList], IsIdentifier w) ∧
      (rule ["ket".toList]).apply "x ket ket y\n".toList = "x \"ket\" ket y\n".toList ∧
      (rule ["ket".toList]).apply ((rule ["ket".toList]).apply "x ket ket y\n".toList) ≠
        (rule ["ket".toList]).apply "x ket ket y\n".toList := by
  refine ⟨isIdentifier_ket, ?_, ?_⟩ <;> decide +kernel

end SceneGate
