/-
Words of a grouped call. Behind the name that is called the words of the argument list
may give way to those of the list in which the positional arguments are grouped
(`Word.exchange_grouping`).
-/
import SceneGate.Proofs.Rewording

namespace SceneGate

namespace Word

/-- Words of an argument: they begin and end with more than trivia, there is no error among
them, and brackets nest. -/
structure Piece (ws : List Word) : Prop where
  first : ∃ w more, ws = w :: more ∧ w.text ≠ [] ∧ w.kind.isTrivia = false
  last : ∃ more w, ws = more ++ [w] ∧ w.text ≠ [] ∧ w.kind.isTrivia = false
  sound : ∀ w ∈ ws, w.kind ≠ .error
  even : Even ws

/-- Pieces with a comma in front of each. -/
def behindCommas (ps : List (List Word)) : List Word := ps.flatMap fun p => .comma :: .blank :: p

/-- A call of a name in brackets, with further pieces behind it. -/
def grouping (G : Identifier) (p : List Word) (ps ks : List (List Word)) : List Word :=
  G.word :: .leftParen :: (p ++ behindCommas ps ++ .rightParen :: behindCommas ks)

/-- The words of a list of arguments of which some are pieces. What follows a piece ends
words. -/
structure Lists (mid : List Word) (pieces : List (List Word)) : Prop where
  even : Even mid
  pieces : ∀ p ∈ pieces, Piece p ∧ ∃ front back, mid = front ++ p ++ back ∧
    ∀ v ∈ back.head?, v.text ≠ [] ∧ v.kind.stops = true

variable {w : Word} {ws vs p : List Word} {e : Text} {G : Identifier} {ps ks : List (List Word)}

theorem kind_stops_of_isTrivia (h : w.kind.isTrivia = true) : w.kind.stops = true := by
  simp [Kind.stops, h]

/-- Words that begin with one that ends others. -/
theorem stops_of_allCut (hw : w.text ≠ []) (hk : w.kind.stops = true) (h : AllCut (rawOf (w :: ws)) e)
    (e' : Text) : (w.text ++ e').Stops := by
  rw [rawOf_cons, allCut_append] at h
  unfold raw at h
  rw [if_neg hw] at h
  split at h
  · exact h.1.1.stops (w := ⟨.newline, w.text⟩) rfl e'
  · exact h.1.1.stops hk e'

namespace Piece

/-- A piece is cut off in front of whatever ends words. -/
theorem allCut (h : Piece p) {e e' : Text} (he : e.Stops) (he' : e'.Stops) (hcut : AllCut (rawOf p) e) :
    AllCut (rawOf p) e' := by
  refine hcut.of_stops he he' (fun v hv => ?_) ?_
  · obtain ⟨w, hw, hv⟩ := List.mem_flatMap.1 hv
    unfold raw at hv
    split at hv
    · cases hv
    · split at hv
      · rw [List.mem_singleton.1 hv]; simp
      · rw [List.mem_singleton.1 hv]; exact h.sound w hw
  · obtain ⟨more, w, rfl, hw, hk⟩ := h.last
    have hj : w.joins = false := joins_eq_false fun hkind => by simp [hkind, Kind.isTrivia] at hk
    simpa [raw_self hw hj] using hk

/-- A piece does not begin with a blank. -/
theorem not_isSpace (h : Piece p) (hcut : AllCut (rawOf p) e) (e' : Text) :
    ∀ x ∈ (spell p ++ e').head?, isSpace x = false := by
  obtain ⟨w, more, rfl, hw, hk⟩ := h.first
  have hj : w.joins = false := joins_eq_false fun hkind => by simp [hkind, Kind.isTrivia] at hk
  rw [rawOf_cons, raw_self hw hj, List.singleton_append] at hcut
  obtain ⟨c, cs, htext, hc⟩ := hcut.1.not_isSpace hk
  simp [htext, hc]

end Piece

theorem even_behindCommas (h : ∀ p ∈ ps, Even p) : Even (behindCommas ps) := by
  induction ps with
  | nil => exact .nil
  | cons p ps ih =>
    obtain ⟨hp, hps⟩ := List.forall_mem_cons.1 h
    exact .other rfl (.other rfl (hp.append (ih hps)))

theorem even_grouping (hp : Even p) (hps : ∀ q ∈ ps, Even q) (hks : ∀ k ∈ ks, Even k) :
    Even (grouping G p ps ks) :=
  .other rfl (.pair rfl (hp.append (even_behindCommas hps)) (even_behindCommas hks))

/-- Pieces are cut off behind commas. -/
theorem allCut_behindCommas (h : ∀ p ∈ ps, Piece p ∧ ∃ e : Text, e.Stops ∧ AllCut (rawOf p) e)
    {e : Text} (he : e.Stops) :
    AllCut (rawOf (behindCommas ps)) e ∧ (spell (behindCommas ps) ++ e).Stops := by
  induction ps with
  | nil => exact ⟨trivial, he⟩
  | cons p ps ih =>
    obtain ⟨⟨hp, e₀, he₀, hcut⟩, hps⟩ := List.forall_mem_cons.1 h
    obtain ⟨hrest, hstops⟩ := ih hps
    have hcut' := hp.allCut he₀ hstops hcut
    have hsplit : behindCommas (p :: ps) = .comma :: .blank :: (p ++ behindCommas ps) := rfl
    have hcomma : Word.comma.Cut [] := cut_sign (by simp [signs]) []
    rw [hsplit]
    refine ⟨?_, by simpa using hcomma.stops rfl _⟩
    simp only [rawOf_cons, rawOf_append, allCut_append, spell_append, spell_rawOf]
    refine ⟨⟨cut_sign (by simp [signs]) _, trivial⟩, ⟨cut_blank ?_, trivial⟩, hcut', hrest⟩
    simpa using hp.not_isSpace hcut (spell (behindCommas ps) ++ e)

/-- The words of a grouped call are cut off. -/
theorem allCut_grouping (hp : Piece p ∧ ∃ e : Text, e.Stops ∧ AllCut (rawOf p) e)
    (hps : ∀ p ∈ ps, Piece p ∧ ∃ e : Text, e.Stops ∧ AllCut (rawOf p) e)
    (hks : ∀ p ∈ ks, Piece p ∧ ∃ e : Text, e.Stops ∧ AllCut (rawOf p) e) {e : Text} (he : e.Stops) :
    AllCut (rawOf (grouping G p ps ks)) e := by
  have hsign {w : Word} (hw : w ∈ signs) (hraw : w.raw = [w]) (e : Text) : AllCut w.raw e := by
    rw [hraw]
    exact ⟨cut_sign hw _, trivial⟩
  obtain ⟨hpiece, e₀, he₀, hcut⟩ := hp
  obtain ⟨hkeywords, -⟩ := allCut_behindCommas hks he
  have hright : Word.rightParen.Cut [] := cut_sign (by simp [signs]) []
  obtain ⟨hmore, hstops⟩ := allCut_behindCommas hps
    (e := Word.rightParen.text ++ (spell (behindCommas ks) ++ e)) (hright.stops rfl _)
  have hfirst := hpiece.allCut he₀ hstops hcut
  have hname (t : Text) : AllCut G.word.raw ('(' :: t) := by
    rw [show G.word.raw = [G.word] from rfl]
    refine ⟨?_, trivial⟩
    have hopening : ∀ x ∈ ('(' :: t).head?, endsName x = true := by
      intro x hx
      obtain rfl : '(' = x := by simpa using hx
      decide
    have := cut_name G.starts (fun x hx => List.all_eq_true.1 G.goesOn x hx) hopening
    rwa [G.free] at this
  simp only [grouping, rawOf_cons, rawOf_append, allCut_append, spell_append, spell_rawOf]
  refine ⟨?_, hsign (by simp [signs]) rfl _, ⟨?_, ?_⟩, hsign (by simp [signs]) rfl _, hkeywords⟩
  · exact hname _
  · simpa [show Word.rightParen.raw = [Word.rightParen] from rfl] using hfirst
  · simpa [show Word.rightParen.raw = [Word.rightParen] from rfl] using hmore

theorem onLine_of_kind (ht : w.text ≠ []) (hk : w.kind ∉ Kind.newline :: Kind.addedByLayout)
    (hw : w.kind ≠ .whitespace) : w.OnLine := ⟨ht, hk, joins_eq_false hw⟩

theorem inside_behindCommas (h : ∀ p ∈ ps, ∀ w ∈ p, w.Inside) : ∀ w ∈ behindCommas ps, w.Inside := by
  intro w hw
  obtain ⟨p, hp, hw⟩ := List.mem_flatMap.1 hw
  rcases List.mem_cons.1 hw with rfl | hw
  · exact .inl (onLine_of_kind (by decide) (by decide) (by decide))
  rcases List.mem_cons.1 hw with rfl | hw
  · exact .inl ⟨by decide, by decide, by decide⟩
  · exact h p hp w hw

theorem onLine_leftParen : leftParen.OnLine := onLine_of_kind (by decide) (by decide) (by decide)

theorem onLine_rightParen : rightParen.OnLine := onLine_of_kind (by decide) (by decide) (by decide)

theorem inside_grouping (hp : ∀ w ∈ p, w.Inside) (hps : ∀ q ∈ ps, ∀ w ∈ q, w.Inside)
    (hks : ∀ k ∈ ks, ∀ w ∈ k, w.Inside) : ∀ w ∈ grouping G p ps ks, w.Inside := by
  simp only [grouping, List.forall_mem_cons, List.forall_mem_append]
  exact ⟨.inl (onLine_of_kind (by simp [Identifier.word]) (by simp [Kind.addedByLayout]) (by simp)),
    .inl onLine_leftParen, ⟨hp, inside_behindCommas hps⟩, .inl onLine_rightParen,
    inside_behindCommas hks⟩

/-- Blanks may be left out of a line. -/
theorem settled_of_gap {gap : List Word} (hgap : ∀ g ∈ gap, g.Between) {levels : List Nat} {d : Nat}
    (h : Settled levels d false (gap ++ ws)) : Settled levels d false ws := by
  induction gap with
  | nil => exact h
  | cons g gap ih =>
    obtain ⟨hg, hgap⟩ := List.forall_mem_cons.1 hgap
    have ht := hg.trivia
    rcases h.of_cons with ⟨hk, -⟩ | ⟨-, -, h⟩ | ⟨-, h⟩
    · rw [hk] at ht
      cases ht
    · exact ih hgap h
    · rw [Layout.depthAfter_of_not_isBracket (Kind.isBracket_of_isTrivia ht)] at h
      exact ih hgap h

/-- An argument list may give way to one in which the positional arguments are grouped. -/
theorem exchange_grouping {gap mid : List Word} {o c : Word} (hgap : ∀ g ∈ gap, g.Between)
    (ho : o.kind = .lParen) (hot : o.text ≠ []) (hc : c.kind = .rParen) (hct : c.text ≠ [])
    (hmid : Lists mid (p :: (ps ++ ks))) :
    Exchange (gap ++ o :: (mid ++ [c])) (.leftParen :: (grouping G p ps ks ++ [.rightParen])) := by
  have hpiece {q : List Word} (hq : q ∈ p :: (ps ++ ks)) : Piece q := (hmid.pieces q hq).1
  have hmem {q : List Word} (hq : q ∈ p :: (ps ++ ks)) : ∀ w ∈ q, w ∈ mid := by
    obtain ⟨-, front, back, rfl, -⟩ := hmid.pieces q hq
    intro w hw
    simp [hw]
  have hmemPs {q : List Word} (hq : q ∈ ps) : q ∈ p :: (ps ++ ks) := by simp [hq]
  have hmemKs {q : List Word} (hq : q ∈ ks) : q ∈ p :: (ps ++ ks) := by simp [hq]
  have hleft : Word.leftParen.Cut [] := cut_sign (by simp [signs]) []
  have hright : Word.rightParen.Cut [] := cut_sign (by simp [signs]) []
  refine ⟨fun {e} e' hcut => ⟨?_, ?_⟩, fun {e e'} hcut => ?_, fun {levels d ws vs} hs => ?_⟩
  · cases gap with
    | nil => simpa using stops_of_allCut hot (by rw [ho]; rfl) hcut (spell (mid ++ [c]) ++ e)
    | cons g gap =>
      obtain ⟨hg, -⟩ := List.forall_mem_cons.1 hgap
      simpa using stops_of_allCut hg.text_ne (kind_stops_of_isTrivia hg.trivia) hcut
        (spell (gap ++ o :: (mid ++ [c])) ++ e)
  · simpa using hleft.stops rfl (spell (grouping G p ps ks) ++ (Word.rightParen.text ++ e'))
  · -- each piece is cut off in front of what follows it in the list
    have hpieces {q : List Word} (hq : q ∈ p :: (ps ++ ks)) :
        Piece q ∧ ∃ e : Text, e.Stops ∧ AllCut (rawOf q) e := by
      obtain ⟨hq, front, back, rfl, hback⟩ := hmid.pieces q hq
      have hsplit : gap ++ o :: (front ++ q ++ back ++ [c]) =
          (gap ++ o :: front) ++ (q ++ (back ++ [c])) := by simp
      have hbehind : AllCut (rawOf (q ++ (back ++ [c]))) e := by
        rw [hsplit, rawOf_append] at hcut
        exact (allCut_append.1 hcut).2
      rw [rawOf_append] at hbehind
      obtain ⟨hqcut, hrest⟩ := allCut_append.1 hbehind
      rw [spell_rawOf] at hqcut
      refine ⟨hq, _, ?_, hqcut⟩
      cases back with
      | nil => simpa using stops_of_allCut hct (by rw [hc]; rfl) hrest e
      | cons v back =>
        obtain ⟨hv, hk⟩ := hback v rfl
        simpa using stops_of_allCut hv hk hrest (spell (back ++ [c]) ++ e)
    have hgrouping := allCut_grouping (G := G) (hpieces List.mem_cons_self)
      (fun q hq => hpieces (hmemPs hq)) (fun q hq => hpieces (hmemKs hq))
      (e := Word.rightParen.text ++ e') (hright.stops rfl e')
    have hraw : rawOf (.leftParen :: (grouping G p ps ks ++ [.rightParen])) =
        .leftParen :: (rawOf (grouping G p ps ks) ++ [.rightParen]) := by
      simp [onLine_leftParen.raw, onLine_rightParen.raw]
    rw [hraw]
    exact ⟨cut_sign (by simp [signs]) _, allCut_append.2 ⟨by simpa using hgrouping,
      cut_sign (by simp [signs]) _, trivial⟩⟩
  · rw [List.append_assoc] at hs
    have hopen := settled_of_gap hgap hs
    simp only [List.cons_append, List.append_assoc] at hopen
    have ordinary {w : Word} (hk : w.kind = .lParen ∨ w.kind = .rParen) {levels d ws}
        (h : Settled levels d false (w :: ws)) :
        Settled levels (Layout.depthAfter d w.kind) false ws := by
      rcases h.of_cons with ⟨hn, -⟩ | ⟨hj, -⟩ | ⟨-, h⟩
      · rcases hk with hk | hk <;> rw [hk] at hn <;> cases hn
      · simp only [joins, Bool.and_eq_true, beq_iff_eq] at hj
        rcases hk with hk | hk <;> rw [hk] at hj <;> cases hj.1
      · exact h
    have hin := ordinary (.inl ho) hopen
    rw [ho] at hin
    obtain ⟨hinside, hclose⟩ := hmid.even.of_settled (by simp [hc]) hin
    have hout := ordinary (.inr hc) hclose
    rw [hc] at hout
    refine ⟨hout, fun hvs => ?_⟩
    have hall : ∀ w ∈ grouping G p ps ks, w.Inside :=
      inside_grouping (fun w hw => hinside w (hmem List.mem_cons_self w hw))
        (fun q hq w hw => hinside w (hmem (hmemPs hq) w hw))
        (fun q hq w hw => hinside w (hmem (hmemKs hq) w hw))
    have heven : Even (grouping G p ps ks) :=
      even_grouping (hpiece List.mem_cons_self).even (fun q hq => (hpiece (hmemPs hq)).even)
        fun q hq => (hpiece (hmemKs hq)).even
    have := heven.settled hall (Settled.inLine onLine_rightParen hvs)
    simpa using Settled.inLine onLine_leftParen this

end Word

end SceneGate
