/-
Words of calls with another name and one more argument. Where a name is called, another one
may be called, and behind the end of an argument further words may stand
(`Word.Renewed`): the words around are cut off as before (`Word.Renewed.allCut`), and they are
laid out as before (`Word.Renewed.recast`). A string that is passed by a name is such a further
argument (`Word.insertion_stringBehind`).
-/
import SceneGate.Proofs.Fronts
import SceneGate.Proofs.GroupedWords
import SceneGate.Proofs.StringCalls

namespace SceneGate

namespace Word

/-- Words of a line that may stand behind a word wherever something ends words. -/
structure Insertion (extra : List Word) : Prop where
  stops : ∀ {e : Text}, e.Stops → (spell extra ++ e).Stops
  allCut : ∀ {e : Text}, e.Stops → AllCut (rawOf extra) e
  onLine : ∀ w ∈ extra, w.OnLine ∧ w.kind.isBracket = false

/-- The same words behind `front`, but that the name `N` is called for some calls of the name
`M`, and that further words stand behind some words where something ends these. -/
inductive Renewed (M N : Identifier) (extra : List Word) : Text → List Word → List Word → Prop
  | nil {front : Text} : Renewed M N extra front [] []
  | keep {front : Text} (w : Word) {ws vs : List Word} : Renewed M N extra (front ++ w.text) ws vs →
      Renewed M N extra front (w :: ws) (w :: vs)
  | name {front : Text} {ws vs : List Word} :
      (∀ p ∈ front.getLast?, NumberLiteral.mayHold p = false) →
      Renewed M N extra (front ++ M.word.text) (leftParen :: ws) (leftParen :: vs) →
      Renewed M N extra front (M.word :: leftParen :: ws) (N.word :: leftParen :: vs)
  | behind {front : Text} {w x : Word} {ws vs : List Word} : w.OnLine → w.kind.isTrivia = false →
      x.text ≠ [] → x.kind.stops = true →
      Renewed M N extra (front ++ w.text) (x :: ws) (x :: vs) →
      Renewed M N extra front (w :: x :: ws) (w :: (extra ++ x :: vs))

theorem onLine_identifier (G : Identifier) : G.word.OnLine := by
  have hne : G.word.text ≠ [] := List.cons_ne_nil G.first G.others
  exact onLine_of_kind hne (by simp [Identifier.word, Kind.addedByLayout])
    (by simp [Identifier.word])

/-- A word of a program is laid out as nothing or as one word with its text. -/
theorem raw_eq_nil_or {w : Word} (hw : w.kind ≠ .error) :
    w.raw = [] ∨ ∃ v, w.raw = [v] ∧ v.kind ≠ .error ∧ v.text = w.text := by
  unfold raw
  split
  · exact .inl rfl
  · split
    · exact .inr ⟨_, rfl, by simp, rfl⟩
    · exact .inr ⟨_, rfl, hw, rfl⟩

namespace Insertion

variable {extra : List Word} {levels : List Nat} {d : Nat} {ws : List Word}

theorem settled (h : ∀ w ∈ extra, w.OnLine ∧ w.kind.isBracket = false)
    (hs : Settled levels d false ws) : Settled levels d false (extra ++ ws) := by
  induction extra with
  | nil => exact hs
  | cons w extra ih =>
    obtain ⟨⟨hline, hbracket⟩, hmore⟩ := List.forall_mem_cons.1 h
    refine .inLine hline ?_
    rw [Layout.depthAfter_of_not_isBracket hbracket]
    exact ih hmore

end Insertion

namespace Renewed

variable {M N : Identifier} {extra ws vs ws' vs' : List Word} {front e : Text}

theorem refl (M N : Identifier) (extra : List Word) (front : Text) :
    ∀ ws : List Word, Renewed M N extra front ws ws
  | [] => .nil
  | w :: ws => .keep w (refl M N extra _ ws)

theorem append (h : Renewed M N extra front ws vs)
    (h' : Renewed M N extra (front ++ spell ws) ws' vs') :
    Renewed M N extra front (ws ++ ws') (vs ++ vs') := by
  induction h with
  | nil => simpa using h'
  | keep w _ ih => exact .keep w (ih (by simpa using h'))
  | name hfront _ ih => exact .name hfront (ih (by simpa using h'))
  | behind hline htrivia htext hstops _ ih =>
    simpa using Renewed.behind hline htrivia htext hstops (ih (by simpa using h'))

/-- Further words behind a piece, where something ends words. -/
theorem behind_piece {p : List Word} {x : Word} (hp : Piece p) (hinside : ∀ w ∈ p, w.Inside)
    (htext : x.text ≠ []) (hstops : x.kind.stops = true)
    (h : Renewed M N extra (front ++ spell p) (x :: ws) (x :: vs)) :
    Renewed M N extra front (p ++ x :: ws) (p ++ (extra ++ x :: vs)) := by
  obtain ⟨init, w, rfl, -, htrivia⟩ := hp.last
  have hline : w.OnLine := (hinside w (by simp)).resolve_right fun hj => by
    simp only [joins, Bool.and_eq_true, beq_iff_eq] at hj
    rw [hj.1] at htrivia
    cases htrivia
  have hlast : Renewed M N extra (front ++ spell init) (w :: x :: ws) (w :: (extra ++ x :: vs)) :=
    .behind hline htrivia htext hstops (by simpa using h)
  simpa using (refl M N extra front init).append hlast

theorem beginsCall_word {M : Identifier} (hM : M.first ≠ '_') (t : Text) :
    (M.word.text ++ (leftParen.text ++ t)).BeginsCall :=
  ⟨M.first, M.others, t, rfl, M.starts, hM, fun c hc => List.all_eq_true.1 M.goesOn c hc⟩

/-- The two texts are the same up to where no word goes on, or up to a name that is called. -/
theorem spell_eq (hM : M.first ≠ '_') (hN : N.first ≠ '_') (hextra : Insertion extra)
    (h : Renewed M N extra front ws vs) (hcut : AllCut (rawOf ws) e) :
    spell ws ++ e = spell vs ++ e ∨
      ∃ r x y : Text, spell ws ++ e = r ++ x ∧ spell vs ++ e = r ++ y ∧
        ((r ≠ [] ∧ x.Stops ∧ y.Stops) ∨ (x.BeginsCall ∧ y.BeginsCall ∧
          ∀ p ∈ (front ++ r).getLast?, NumberLiteral.mayHold p = false)) := by
  induction h with
  | nil => exact .inl rfl
  | @keep front w ws vs _ ih =>
    rw [rawOf_cons, allCut_append] at hcut
    rcases ih hcut.2 with heq | ⟨r, x, y, hx, hy, halike⟩
    · exact .inl (by rw [spell_cons, List.append_assoc, heq, spell_cons, List.append_assoc])
    · refine .inr ⟨w.text ++ r, x, y, ?_, ?_, ?_⟩
      · rw [spell_cons, List.append_assoc, hx, List.append_assoc]
      · rw [spell_cons, List.append_assoc, hy, List.append_assoc]
      · rw [← List.append_assoc]
        exact halike.imp_left fun ⟨hr, hstops⟩ => ⟨by simp [hr], hstops⟩
  | @name front ws vs hfront _ _ =>
    refine .inr ⟨[], M.word.text ++ (leftParen.text ++ (spell ws ++ e)),
      N.word.text ++ (leftParen.text ++ (spell vs ++ e)), by simp, by simp, .inr ?_⟩
    rw [List.append_nil]
    exact ⟨beginsCall_word hM _, beginsCall_word hN _, hfront⟩
  | @behind front w x ws vs hline _ htext hstops _ _ =>
    rw [rawOf_cons, allCut_append] at hcut
    have hends := stops_of_allCut htext hstops hcut.2
    refine .inr ⟨w.text, x.text ++ (spell ws ++ e), spell extra ++ (x.text ++ (spell vs ++ e)), ?_, ?_,
      .inl ⟨hline.text_ne, hends _, hextra.stops (hends _)⟩⟩
    · simp
    · simp

/-- The words are cut off as before. -/
theorem allCut (hM : M.first ≠ '_') (hN : N.first ≠ '_') (hextra : Insertion extra)
    (h : Renewed M N extra front ws vs) (hws : ∀ w ∈ ws, w.kind ≠ .error)
    (hcut : AllCut (rawOf ws) e) : AllCut (rawOf vs) e := by
  induction h with
  | nil => exact hcut
  | @keep front w ws vs h ih =>
    obtain ⟨hw, hmore⟩ := List.forall_mem_cons.1 hws
    rw [rawOf_cons, allCut_append] at hcut ⊢
    refine ⟨?_, ih hmore hcut.2⟩
    have hfirst := hcut.1
    rw [spell_rawOf] at hfirst ⊢
    rcases h.spell_eq hM hN hextra hcut.2 with heq | ⟨r, x, y, hx, hy, halike⟩
    · rwa [← heq]
    rw [hx] at hfirst
    rw [hy]
    rcases halike with ⟨hr, hstops, hstops'⟩ | ⟨hcalls, hcalls', hlast⟩
    · exact allCut_raw hw hstops hstops' hr hfirst
    · -- what stands last in front of the name is of the word, or behind it
      rcases raw_eq_nil_or hw with hraw | ⟨v, hraw, hv, htext⟩
      · rw [hraw]; trivial
      · rw [hraw] at hfirst ⊢
        refine ⟨Cut.of_calls (r := r) hfirst.1 hcalls hcalls' hv fun p hp => hlast p ?_, trivial⟩
        have hp : (w.text ++ r).getLast? = some p := htext ▸ hp
        rw [List.append_assoc, List.getLast?_append, hp]
        rfl
  | @name front ws vs _ h ih =>
    obtain ⟨-, hmore⟩ := List.forall_mem_cons.1 hws
    have hrawOf (G : Identifier) (us : List Word) : rawOf (G.word :: us) = G.word :: rawOf us := by
      rw [rawOf_cons, (onLine_identifier G).raw, List.singleton_append]
    rw [hrawOf, allCut_cons] at hcut ⊢
    refine ⟨?_, ih hmore hcut.2⟩
    have hbracket : ∀ x ∈ (spell (rawOf (leftParen :: vs)) ++ e).head?, endsName x = true := by
      rw [spell_rawOf]
      rintro _ ⟨⟩
      decide
    have hname := cut_name N.starts (fun x hx => List.all_eq_true.1 N.goesOn x hx) hbracket
    rwa [N.free] at hname
  | @behind front w x ws vs hline htrivia htext hstops h ih =>
    obtain ⟨hw, hmore⟩ := List.forall_mem_cons.1 hws
    rw [rawOf_cons, hline.raw, List.singleton_append, allCut_cons] at hcut ⊢
    have hends := stops_of_allCut htext hstops hcut.2
    have hrest := ih hmore hcut.2
    have hbehind : (spell (rawOf (x :: vs)) ++ e).Stops := by
      rw [spell_rawOf]
      simpa using hends (spell vs ++ e)
    rw [rawOf_append, allCut_append]
    refine ⟨?_, hextra.allCut hbehind, hrest⟩
    have hfirst := hcut.1
    rw [spell_rawOf, spell_cons, List.append_assoc] at hfirst
    rw [spell_append, List.append_assoc, spell_rawOf extra]
    exact Cut.of_stops (r := []) hfirst (hends _) (hextra.stops hbehind) hw (.inr htrivia)

/-- The words are laid out as before. -/
theorem recast (hextra : Insertion extra) (h : Renewed M N extra front ws vs) : Recast ws vs := by
  induction h with
  | nil => exact .nil
  | keep w _ ih => exact .keep w ih
  | @name _ ws vs _ _ ih =>
    have hname : Recast (M.word :: ([] ++ leftParen :: ws)) (N.word :: ([] ++ leftParen :: vs)) :=
      .behind (by rfl) (by simp [Identifier.word]) rfl (fun _ => onLine_identifier N)
        (fun hs => ⟨hs, id⟩) ih
    exact hname
  | @behind _ w x ws vs hline htrivia _ _ _ ih =>
    have hlayout : w.kind ∉ [.newline, .indent, .dedent] := fun hmem => by
      have hkind := hline.kind
      simp only [List.mem_cons, List.not_mem_nil, or_false, Kind.addedByLayout] at hmem hkind
      tauto
    have hinserted : Recast (w :: ([] ++ x :: ws)) (w :: (extra ++ x :: vs)) :=
      .behind htrivia hlayout rfl id (fun hs => ⟨hs, Insertion.settled hextra.onLine⟩) ih
    exact hinserted

end Renewed

/-! ## A string as a further argument -/

open StringArgument

variable {q : Char} {content rest : Text}

/-- What may stand between quotes is read up to the closing quote. -/
theorem shortBody_content (hq : StringLiteral.isQuote q = true) (h : IsContent q content) (rest : Text) :
    StringLiteral.shortBody q (content ++ q :: rest) = (content.length, true) := by
  have hslash := (ne_of_isQuote hq).1
  induction h with
  | nil => simp [StringLiteral.shortBody, hslash]
  | escaped _ _ ih => simp [StringLiteral.shortBody, ih]
  | plain hc hquote hfeed _ ih => simp [StringLiteral.shortBody, hc, hquote, hfeed, ih]

/-- A string is cut off in front of what is no quote. -/
theorem cut_literal (hq : StringLiteral.isQuote q = true) (h : IsContent q content)
    (hrest : ∀ x ∈ rest.head?, StringLiteral.isQuote x = false) :
    Cut ⟨.string, q :: content ++ [q]⟩ rest := by
  have hlong : [q, q].isPrefixOf (content ++ q :: rest) = false := by
    cases h with
    | nil =>
      cases rest with
      | nil => simp
      | cons x rest =>
        have hne : q ≠ x := by
          rintro rfl
          rw [hrest q rfl] at hq
          cases hq
        simp [List.isPrefixOf, hne]
    | escaped => simp [List.isPrefixOf, (ne_of_isQuote hq).1]
    | plain _ hne => simp [List.isPrefixOf, hne.symm]
  have hmeasure : StringLiteral.measure 0 q (content ++ q :: rest) = (.closed, content.length + 2) := by
    unfold StringLiteral.measure
    rw [if_neg (by simp [hlong]), shortBody_content hq h]
    simp
  have hfind : StringLiteral.find? (q :: (content ++ q :: rest)) = some (.closed, content.length + 2) := by
    simp [StringLiteral.find?, StringLiteral.opening?, hq, hmeasure]
  refine ⟨q, content ++ [q], rfl, ?_⟩
  rw [List.append_assoc, List.singleton_append]
  unfold munch
  rw [hfind]
  rcases StringLiteral.isQuote_iff.1 hq with rfl | rfl <;> simp [isSpace]

/-- A string as it is written between double quotes. -/
def stringOf (content : Text) : Word := ⟨.string, '"' :: content ++ ['"']⟩

/-- A string that is passed by a name, behind another argument. -/
def stringBehind (x : Identifier) (content : Text) : List Word :=
  behindCommas [[x.word, equals, stringOf content]]

/-- A string may be passed behind any argument. -/
theorem insertion_stringBehind (x : Identifier) (h : IsContent '"' content) :
    Insertion (stringBehind x content) := by
  have hquote : StringLiteral.isQuote '"' = true := rfl
  have hpiece : Piece [x.word, equals, stringOf content] := {
    first := ⟨_, _, rfl, (onLine_identifier x).text_ne, rfl⟩
    last := ⟨[x.word, equals], stringOf content, rfl, by simp [stringOf], rfl⟩
    sound := by simp [Identifier.word, equals, stringOf]
    even := .other rfl (.other rfl (.other rfl .nil)) }
  have hcut : AllCut (rawOf [x.word, equals, stringOf content]) [','] := by
    have hraw : rawOf [x.word, equals, stringOf content] = [x.word, equals, stringOf content] := by
      rw [rawOf_cons, (onLine_identifier x).raw]
      rfl
    have hname : x.word.Cut (spell [equals, stringOf content] ++ [',']) := by
      have hsign : ∀ c ∈ (spell [equals, stringOf content] ++ [',']).head?, endsName c = true := by
        rintro _ ⟨⟩
        decide
      have := cut_name x.starts (fun c hc => List.all_eq_true.1 x.goesOn c hc) hsign
      rwa [x.free] at this
    have hequals : equals.Cut (spell [stringOf content] ++ [',']) :=
      cut_operator (by decide) (by decide) (by rintro _ ⟨⟩; decide)
    have hliteral : (stringOf content).Cut (spell [] ++ [',']) :=
      cut_literal hquote h (by rintro _ ⟨⟩; decide)
    rw [hraw]
    exact ⟨hname, hequals, hliteral, trivial⟩
  have hends : Text.Stops [','] := ⟨⟨',', [], rfl, by decide⟩, by decide⟩
  have hall : ∀ p ∈ [[x.word, equals, stringOf content]],
      Piece p ∧ ∃ e : Text, e.Stops ∧ AllCut (rawOf p) e :=
    List.forall_mem_singleton.2 ⟨hpiece, [','], hends, hcut⟩
  exact {
    stops := fun he => (allCut_behindCommas hall he).2
    allCut := fun he => (allCut_behindCommas hall he).1
    onLine := by
      have hstring : (stringOf content).OnLine :=
        onLine_of_kind (by simp [stringOf]) (by simp [stringOf, Kind.addedByLayout])
          (by simp [stringOf])
      simp only [stringBehind, behindCommas, List.flatMap_singleton, List.forall_mem_cons]
      exact ⟨⟨onLine_of_kind (by decide) (by decide) (by decide), rfl⟩,
        ⟨⟨by decide, by decide, by decide⟩, rfl⟩, ⟨onLine_identifier x, rfl⟩,
        ⟨onLine_of_kind (by decide) (by decide) (by decide), rfl⟩, ⟨hstring, rfl⟩, by simp⟩ }

end Word

end SceneGate
