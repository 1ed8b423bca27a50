/-
Words that are exchanged behind names. Where words stand behind a name that no name goes
on with, others may be put in their place (`Word.Exchange`): the words around them are
cut off as before (`Word.Reworded.allCut`), and they are laid out as before
(`Word.Recast.settled`).
-/
import SceneGate.Proofs.Programs
import SceneGate.Proofs.Settled
import SceneGate.Proofs.Trimmed

namespace SceneGate

/-! ## Words that end others -/

/-- The kinds of words that stand behind an argument: trivia, line breaks, commas and
closing brackets, and opening brackets. -/
def Kind.stops (k : Kind) : Bool := k.isTrivia || [.newline, .lParen, .rParen, .comma].contains k

theorem Kind.stops_ofKeyword (t : Text) : ((Kind.ofKeyword? t).getD .ident).stops = false :=
  Kind.of_ofKeyword (P := fun k => k.stops = false) rfl (by decide) t

/-- What such a word begins with. -/
theorem mem_stops_of_munch {c : Char} {cs : Text} :
    (munch c cs).1.stops = true → c ∈ stops ∧ (c = '\\' → (munch c cs).2 ≠ 0) := by
  unfold munch
  split
  · rename_i hc
    simp only [isSpace, Bool.or_eq_true, beq_iff_eq] at hc
    rcases hc with (rfl | rfl) | rfl <;> exact fun _ => ⟨by decide, by simp⟩
  split
  · rename_i hc
    obtain rfl : c = '\n' := by simpa using hc
    exact fun _ => ⟨by decide, by simp⟩
  split
  · rename_i hc
    obtain rfl : c = '\r' := by simpa using hc
    exact fun _ => ⟨by decide, by simp⟩
  split
  · rename_i hc
    obtain rfl : c = '\\' := by simpa using hc
    split
    · exact fun _ => ⟨by decide, by simp⟩
    · exact fun _ => ⟨by decide, by simp⟩
    · exact fun h => absurd h (by decide)
  split
  · rename_i hc
    obtain rfl : c = '#' := by simpa using hc
    exact fun _ => ⟨by decide, by simp⟩
  split
  · exact fun h => absurd h (by simp [Kind.stops, Kind.isTrivia])
  · exact fun h => absurd h (by simp [Kind.stops, Kind.isTrivia])
  · exact fun h => absurd h (by simp [Kind.stops, Kind.isTrivia])
  · split
    · exact fun h => absurd h (by simp [munchWord, Kind.stops_ofKeyword])
    split
    · exact fun h => absurd h (by simp [Kind.stops, Kind.isTrivia])
    split
    · exact fun h => absurd h (by simp [Kind.stops, Kind.isTrivia])
    · unfold operator?
      cases hfind : operators.find? fun entry => entry.1.isPrefixOf (c :: cs) with
      | none => exact fun h => absurd h (by decide)
      | some e =>
        have hall : ∀ e ∈ operators, e.2.stops = true → ∀ c ∈ e.1.head?, c ∈ stops ∧ c ≠ '\\' := by
          decide
        obtain ⟨spelling, k⟩ := e
        intro hk
        cases spelling with
        | nil => 
          have : ∀ e ∈ operators, e.1 ≠ [] := by decide
          exact absurd rfl (this _ (List.mem_of_find?_eq_some hfind))
        | cons x spelling =>
          obtain ⟨hx, hne⟩ := hall _ (List.mem_of_find?_eq_some hfind) hk x rfl
          have hpre := List.find?_some hfind
          simp only [List.isPrefixOf_cons_cons, Bool.and_eq_true, beq_iff_eq] at hpre
          exact hpre.1 ▸ ⟨hx, fun h => absurd h hne⟩

namespace Word
variable {w : Word} {rest : Text}

/-- No word goes on with such a word. -/
theorem Cut.stops (h : w.Cut rest) (hk : w.kind.stops = true) (e : Text) : (w.text ++ e).Stops := by
  obtain ⟨c, cs, htext, hmunch⟩ := h
  have hstops : (munch c (cs ++ rest)).1.stops = true := by
    rw [hmunch]
    exact hk
  obtain ⟨hc, hlen⟩ := mem_stops_of_munch hstops
  rw [hmunch] at hlen
  rw [htext]
  refine ⟨⟨c, cs ++ e, rfl, hc⟩, fun heq => ?_⟩
  simp only [List.cons_append, List.cons.injEq, List.append_eq_nil_iff] at heq
  exact hlen heq.1 (by simp [heq.2.1])

/-- A word that is no trivia does not begin with a blank. -/
theorem Cut.not_isSpace (h : w.Cut rest) (hk : w.kind.isTrivia = false) :
    ∃ c cs, w.text = c :: cs ∧ isSpace c = false := by
  obtain ⟨c, cs, htext, hmunch⟩ := h
  refine ⟨c, cs, htext, ?_⟩
  cases hc : isSpace c with
  | false => rfl
  | true =>
    unfold munch at hmunch
    rw [if_pos hc] at hmunch
    rw [← show Kind.whitespace = w.kind from congrArg Prod.fst hmunch] at hk
    cases hk

/-- Signs that no other operator begins with. -/
def signs : List Word := [leftParen, rightParen, comma]

/-- Such a sign is cut off in front of anything. -/
theorem cut_sign (h : w ∈ signs) (rest : Text) : w.Cut rest := by
  have hall : ∀ w ∈ signs, ∀ c, w.text.head? = some c → w.text = [c] ∧
      operators.filter (·.1.head? == some c) = [(w.text, w.kind)] ∧ isSpace c = false ∧
      c ∉ ['\n', '\r', '\\', '#', '.'] ∧ StringLiteral.isQuote c = false ∧
      StringLiteral.isMark c = false ∧ isIdentifierStart c = false ∧ isAsciiDigit c = false := by
    simp only [signs, List.forall_mem_cons]
    refine ⟨?_, ?_, ?_, by simp⟩ <;> (rintro c ⟨⟩; decide)
  have hne : ∀ w ∈ signs, w.text ≠ [] := by decide
  have hspelled : ∀ e ∈ operators, e.1 ≠ [] := by decide
  obtain ⟨c, cs, htext⟩ := List.exists_cons_of_ne_nil (hne w h)
  obtain ⟨hc, hsole, hspace, hchars, hquote, hmark, hletter, hdigit⟩ := hall w h c (by simp [htext])
  obtain rfl : cs = [] := by simpa [htext] using hc
  rw [htext] at hsole
  have hoperator : operator? (c :: rest) = some (w.kind, 0) := by
    have hfilter : operators.filter (fun e => e.1.isPrefixOf (c :: rest)) = [([c], w.kind)] := by
      have hfirst : ∀ e ∈ operators, e.1.isPrefixOf (c :: rest) =
          (e.1.isPrefixOf (c :: rest) && (e.1.head? == some c)) := by
        rintro ⟨spelling, k⟩ he
        cases spelling with
        | nil => exact absurd rfl (hspelled _ he)
        | cons x spelling => by_cases hx : x = c <;> simp [hx]
      rw [List.filter_congr hfirst, ← List.filter_filter, hsole]
      simp
    rw [operator?, ← List.head?_filter, hfilter]
    rfl
  refine ⟨c, [], htext, ?_⟩
  simp only [List.mem_cons, List.not_mem_nil, or_false, not_or] at hchars
  have hopen : StringLiteral.opening? (c :: rest) = none := opening?_of_not_isMark hquote hmark
  simp [munch, hspace, hchars, StringLiteral.find?, hopen, hletter, hdigit, hoperator]

/-- A name in front of a bracket is the first word there. -/
theorem Cut.eq_of_begins (h : w.Cut rest) {G : Identifier}
    (hpre : G.word.text ++ ['('] <+: w.text ++ rest) : w.text = G.word.text := by
  obtain ⟨c, cs, htext, hmunch⟩ := h
  obtain ⟨more, hmore⟩ := hpre
  rw [htext] at hmore
  simp only [Identifier.word, List.cons_append, List.append_assoc, List.cons.injEq] at hmore
  obtain ⟨rfl, hmore⟩ := hmore
  have hopening : ∀ x ∈ ('(' :: more).head?, endsName x = true := by
    intro x hx
    obtain rfl : '(' = x := by simpa using hx
    decide
  obtain ⟨_, _, heq, hname⟩ := cut_name G.starts (fun x hx => List.all_eq_true.1 G.goesOn x hx)
    hopening
  obtain ⟨rfl, rfl⟩ := List.cons.inj heq
  have hmore' : G.others ++ '(' :: more = cs ++ rest := by simpa using hmore
  rw [hmore', hmunch] at hname
  have hlen : cs.length = G.others.length := congrArg Prod.snd hname
  have := (List.append_inj hmore' hlen.symm).1
  rw [htext, Identifier.word, this]

end Word

/-! ## Brackets that nest -/

namespace Word

/-- Words in which brackets nest. -/
inductive Even : List Word → Prop
  | nil : Even []
  | other {w : Word} {ws : List Word} : w.kind.isBracket = false → Even ws → Even (w :: ws)
  | pair {o c : Word} {inner after : List Word} : o.kind.closer? = some c.kind → Even inner →
      Even after → Even (o :: inner ++ c :: after)

/-- A word that may stand in brackets. -/
def Inside (w : Word) : Prop := w.OnLine ∨ w.joins = true

end Word

theorem Kind.isBracket_of_isTrivia {k : Kind} (h : k.isTrivia = true) : k.isBracket = false := by
  cases k <;> first | rfl | cases h

theorem Layout.depthAfter_of_not_isBracket {k : Kind} (h : k.isBracket = false) (d : Nat) :
    depthAfter d k = d := by
  unfold depthAfter
  split <;> first | cases h | rfl

theorem Layout.depthAfter_of_closer? {o c : Kind} (h : o.closer? = some c) (d : Nat) :
    depthAfter d o = d + 1 ∧ depthAfter (d + 1) c = d := by
  unfold Kind.closer? at h
  split at h <;> cases h <;> exact ⟨rfl, rfl⟩

section Nesting

variable {w : Word} {ws vs : List Word} {levels : List Nat} {d : Nat}

/-- How words go on behind the first word of a line. -/
theorem Settled.of_cons (h : Settled levels d false (w :: ws)) :
    (w.kind = .newline ∧ (d = 0 ∨ ∀ v ∈ ws, v.kind = .dedent)) ∨
      (w.joins = true ∧ d ≠ 0 ∧ Settled levels d false ws) ∨
      (w.OnLine ∧ Settled levels (Layout.depthAfter d w.kind) false ws) := by
  cases h with
  | stop => exact .inl ⟨rfl, .inr fun v hv => List.eq_of_mem_replicate hv ▸ rfl⟩
  | endLine hw => exact .inl ⟨hw, .inl rfl⟩
  | joinLines hw hd h => exact .inr (.inl ⟨hw, hd, h⟩)
  | inLine hw h => exact .inr (.inr ⟨hw, h⟩)

theorem Settled.of_inside (h : Settled levels (d + 1) false (w :: ws))
    (hclose : ws.any (·.kind == .rParen) = true) :
    w.Inside ∧ Settled levels (Layout.depthAfter (d + 1) w.kind) false ws := by
  rcases h.of_cons with ⟨-, hd | hall⟩ | ⟨hw, -, h⟩ | ⟨hw, h⟩
  · cases hd
  · obtain ⟨v, hv, hk⟩ := List.any_eq_true.1 hclose
    rw [hall v hv] at hk
    cases hk
  · refine ⟨.inr hw, ?_⟩
    simp only [Word.joins, Bool.and_eq_true, beq_iff_eq] at hw
    rwa [hw.1]
  · exact ⟨.inl hw, h⟩

theorem Settled.inside (hw : w.Inside)
    (h : Settled levels (Layout.depthAfter (d + 1) w.kind) false ws) :
    Settled levels (d + 1) false (w :: ws) := by
  rcases hw with hw | hw
  · exact .inLine hw h
  · refine .joinLines hw (Nat.succ_ne_zero d) ?_
    simp only [Word.joins, Bool.and_eq_true, beq_iff_eq] at hw
    rwa [hw.1] at h

/-- What is not among the first members of a list stands behind them. -/
theorem exists_append_of_notMem {α : Type} {as bs front back : List α} {o : α} (ho : o ∉ as)
    (h : as ++ bs = front ++ o :: back) : ∃ more, front = as ++ more ∧ bs = more ++ o :: back := by
  rcases List.append_eq_append_iff.1 h with ⟨more, hfront, hbs⟩ | ⟨more, has, hback⟩
  · exact ⟨more, hfront, hbs⟩
  · cases more with
    | nil => exact ⟨[], by simpa using has.symm, by simpa using hback.symm⟩
    | cons x more =>
      obtain ⟨rfl, -⟩ := List.cons.inj hback
      exact absurd (has ▸ by simp) ho

theorem exists_cons_of_ne {α : Type} {a o : α} {bs front back : List α} (ho : o ≠ a)
    (h : a :: bs = front ++ o :: back) : ∃ more, front = a :: more ∧ bs = more ++ o :: back :=
  exists_append_of_notMem (fun hmem => ho (List.mem_singleton.1 hmem)) h

/-- Behind a word that no layout adds the line goes on. -/
theorem Settled.behind {levels : List Nat} {d : Nat} {fresh : Bool} {all front : List Word} {o : Word}
    (h : Settled levels d fresh all) (hall : all = front ++ o :: ws) (ho : o.kind.isTrivia = false)
    (hlayout : o.kind ∉ [.newline, .indent, .dedent]) :
    ∃ levels d, Settled levels (Layout.depthAfter d o.kind) false ws := by
  -- the word is a word of a line, or stands behind one
  have onLine {w : Word} {vs more : List Word} {levels : List Nat} {d : Nat}
      (hs : Settled levels (Layout.depthAfter d w.kind) false vs) (hmore : w :: vs = more ++ o :: ws)
      (ih : ∀ front, vs = front ++ o :: ws →
        ∃ levels d, Settled levels (Layout.depthAfter d o.kind) false ws) :
      ∃ levels d, Settled levels (Layout.depthAfter d o.kind) false ws := by
    cases more with
    | nil =>
      obtain ⟨rfl, rfl⟩ := List.cons.inj hmore
      exact ⟨_, _, hs⟩
    | cons x more => exact ih more (List.cons.inj hmore).2
  have between {held : List Word} (hheld : ∀ w ∈ held, w.Between) : o ∉ held := fun hmem => by
    rw [(hheld o hmem).trivia] at ho
    cases ho
  have dedents {n : Nat} : o ∉ List.replicate n Word.dedent := fun hmem => by
    simp [List.eq_of_mem_replicate hmem] at hlayout
  induction h generalizing front with
  | stop =>
    have hmem : o ∈ front ++ o :: ws := by simp
    rw [← hall] at hmem
    rcases List.mem_cons.1 hmem with rfl | hmem
    · simp at hlayout
    · exact absurd hmem dedents
  | stopFresh hheld =>
    have hmem : o ∈ front ++ o :: ws := by simp
    rw [← hall] at hmem
    rcases List.mem_append.1 hmem with hmem | hmem
    · exact absurd hmem dedents
    · exact absurd hmem (between hheld)
  | endLine hw _ _ ih =>
    obtain ⟨more, -, hmore⟩ := exists_cons_of_ne (fun h => by simp [h, hw] at hlayout) hall
    exact ih hmore
  | joinLines hw _ _ ih =>
    have hne : o.joins = false := Word.joins_eq_false fun hk => by simp [hk, Kind.isTrivia] at ho
    obtain ⟨more, -, hmore⟩ := exists_cons_of_ne (fun h => by simp [h, hw] at hne) hall
    exact ih hmore
  | inLine _ hs ih => exact onLine hs hall fun front h => ih h
  | indent hheld _ _ _ hs ih =>
    obtain ⟨more, -, hmore⟩ := exists_append_of_notMem (between hheld) hall
    obtain ⟨more, -, hmore⟩ := exists_cons_of_ne (fun h => by simp [h] at hlayout) hmore
    exact onLine hs hmore fun front h => ih h
  | begin inner outer hheld _ _ _ _ hs ih =>
    obtain ⟨more, -, hmore⟩ := exists_append_of_notMem
      (fun hmem => (List.mem_append.1 hmem).elim dedents (between hheld)) hall
    exact onLine hs hmore fun front h => ih h

namespace Word.Even

theorem append (h : Even ws) (h' : Even vs) : Even (ws ++ vs) := by
  induction h with
  | nil => exact h'
  | other hw _ ih => exact .other hw ih
  | pair hc hinner _ _ ih => simpa using Even.pair hc hinner ih

/-- Words in brackets, in which brackets nest, are on the line, and the line goes on
behind them. -/
theorem of_settled (h : Even ws) (hclose : vs.any (·.kind == .rParen) = true)
    (hs : Settled levels (d + 1) false (ws ++ vs)) :
    (∀ w ∈ ws, w.Inside) ∧ Settled levels (d + 1) false vs := by
  induction h generalizing d vs with
  | nil => exact ⟨by simp, hs⟩
  | other hw _ ih =>
    obtain ⟨hinside, hs⟩ := Settled.of_inside hs (by simp [hclose])
    rw [Layout.depthAfter_of_not_isBracket hw] at hs
    obtain ⟨hall, hs⟩ := ih hclose hs
    exact ⟨List.forall_mem_cons.2 ⟨hinside, hall⟩, hs⟩
  | @pair o c inner after hc _ _ ihinner ihafter =>
    obtain ⟨hopen, hback⟩ := Layout.depthAfter_of_closer? hc (d + 1)
    simp only [List.cons_append, List.append_assoc] at hs
    obtain ⟨ho, hs⟩ := Settled.of_inside hs (by simp [hclose])
    rw [hopen] at hs
    obtain ⟨hinner, hs⟩ := ihinner (by simp [hclose]) hs
    obtain ⟨hc, hs⟩ := Settled.of_inside hs (by simp [hclose])
    rw [hback] at hs
    obtain ⟨hafter, hs⟩ := ihafter hclose hs
    refine ⟨?_, hs⟩
    simp only [List.cons_append, List.forall_mem_cons, List.forall_mem_append]
    exact ⟨ho, hinner, hc, hafter⟩

/-- Such words stand in brackets of a line. -/
theorem settled (h : Even ws) (hall : ∀ w ∈ ws, w.Inside) (hs : Settled levels (d + 1) false vs) :
    Settled levels (d + 1) false (ws ++ vs) := by
  induction h generalizing d vs with
  | nil => exact hs
  | other hw _ ih =>
    obtain ⟨hinside, hall⟩ := List.forall_mem_cons.1 hall
    refine Settled.inside hinside ?_
    rw [Layout.depthAfter_of_not_isBracket hw]
    exact ih hall hs
  | @pair o c inner after hc _ _ ihinner ihafter =>
    obtain ⟨hopen, hback⟩ := Layout.depthAfter_of_closer? hc (d + 1)
    simp only [List.cons_append, List.forall_mem_cons, List.forall_mem_append] at hall
    obtain ⟨ho, hinner, hcin, hafter⟩ := hall
    simp only [List.cons_append, List.append_assoc]
    refine Settled.inside ho ?_
    rw [hopen]
    refine ihinner hinner (Settled.inside hcin ?_)
    rw [hback]
    exact ihafter hafter hs

end Word.Even

end Nesting

/-! ## Exchanging words -/

namespace Word

/-- The same words, but that some are spelled otherwise, and that behind these others stand in
the place of some. -/
inductive Recast : List Word → List Word → Prop
  | nil : Recast [] []
  | keep (w : Word) {ws vs : List Word} : Recast ws vs → Recast (w :: ws) (w :: vs)
  | behind {w v : Word} {xs ys ws vs : List Word} : w.kind.isTrivia = false →
      w.kind ∉ [.newline, .indent, .dedent] → v.kind = w.kind → (w.OnLine → v.OnLine) →
      (∀ {levels d ws vs}, Settled levels d false (xs ++ ws) →
        Settled levels d false ws ∧ (Settled levels d false vs → Settled levels d false (ys ++ vs))) →
      Recast ws vs → Recast (w :: (xs ++ ws)) (v :: (ys ++ vs))

namespace Recast

variable {w : Word} {ws vs : List Word}

/-- What stands behind trivia and words that a layout adds. -/
theorem of_append {front : List Word} (hfront : ∀ w ∈ front, w.kind.isTrivia = true ∨
      w.kind ∈ [.newline, .indent, .dedent]) (h : Recast (front ++ ws) vs) :
    ∃ vs', vs = front ++ vs' ∧ Recast ws vs' := by
  induction front generalizing vs with
  | nil => exact ⟨vs, rfl, h⟩
  | cons w front ih =>
    obtain ⟨hw, hfront⟩ := List.forall_mem_cons.1 hfront
    rw [List.cons_append] at h
    generalize hall : w :: (front ++ ws) = all at h
    cases h with
    | nil => cases hall
    | keep _ h =>
      obtain ⟨rfl, rfl⟩ := List.cons.inj hall
      obtain ⟨vs', rfl, h'⟩ := ih hfront h
      exact ⟨vs', rfl, h'⟩
    | behind htrivia hlayout =>
      obtain ⟨rfl, -⟩ := List.cons.inj hall
      rcases hw with hw | hw
      · rw [htrivia] at hw
        cases hw
      · exact absurd hw hlayout

theorem of_cons (hw : w.kind.isTrivia = true ∨ w.kind ∈ [.newline, .indent, .dedent])
    (h : Recast (w :: ws) vs) : ∃ vs', vs = w :: vs' ∧ Recast ws vs' :=
  of_append (List.forall_mem_singleton.2 hw) h

/-- The words are laid out as before. -/
theorem settled {levels : List Nat} {d : Nat} {fresh : Bool} (h : Recast ws vs)
    (hs : Settled levels d fresh ws) : Settled levels d fresh vs := by
  induction hn : ws.length using Nat.strongRecOn generalizing ws vs levels d fresh with
  | _ n ih =>
  subst hn
  -- a word of a line, and what stands behind it
  have onLine {w : Word} {ws' vs : List Word} {levels : List Nat} {d : Nat}
      (hlen : ws'.length < ws.length) (hw : w.OnLine)
      (hs : Settled levels (Layout.depthAfter d w.kind) false ws') (h : Recast (w :: ws') vs) :
      ∃ v vs', vs = v :: vs' ∧ v.OnLine ∧ v.kind = w.kind ∧
        Settled levels (Layout.depthAfter d v.kind) false vs' := by
    cases h with
    | @keep _ _ vs' h => exact ⟨w, vs', rfl, hw, rfl, ih _ hlen h hs rfl⟩
    | @behind _ v xs ys ws' vs' _ _ hkind honline hx h =>
      obtain ⟨hs', hback⟩ := hx hs
      have hshort : ws'.length < ws.length := by
        simp only [List.length_append] at hlen
        omega
      exact ⟨v, ys ++ vs', rfl, honline hw, hkind, hkind ▸ hback (ih _ hshort h hs' rfl)⟩
  have ends {front vs : List Word} (hfront : ∀ w ∈ front, w.kind.isTrivia = true ∨
      w.kind ∈ [.newline, .indent, .dedent]) (h : Recast front vs) : vs = front := by
    rw [← List.append_nil front] at h
    obtain ⟨vs', hvs, h'⟩ := of_append hfront h
    generalize hnil : ([] : List Word) = none at h'
    cases h' with
    | nil => simpa using hvs
    | keep | behind => cases hnil
  have between {held : List Word} (hheld : ∀ w ∈ held, w.Between) :
      ∀ w ∈ held, w.kind.isTrivia = true ∨ w.kind ∈ [.newline, .indent, .dedent] :=
    fun w hw => .inl (hheld w hw).trivia
  have dedents {n : Nat} : ∀ w ∈ List.replicate n Word.dedent,
      w.kind.isTrivia = true ∨ w.kind ∈ [.newline, .indent, .dedent] := by
    intro w hw
    rw [List.eq_of_mem_replicate hw]
    exact .inr (by decide)
  cases hs with
  | stop =>
    rw [ends (List.forall_mem_cons.2 ⟨.inr (by decide), dedents⟩) h]
    exact .stop
  | stopFresh hheld =>
    rw [ends (List.forall_mem_append.2 ⟨dedents, between hheld⟩) h]
    exact .stopFresh hheld
  | endLine hk ht hs =>
    obtain ⟨vs', rfl, h'⟩ := of_cons (.inr (by simp [hk])) h
    exact .endLine hk ht (ih _ (by simp) h' hs rfl)
  | joinLines hw hd hs =>
    have htrivia : ∀ {w : Word}, w.joins = true → w.kind.isTrivia = true := by
      intro w hw
      simp only [joins, Bool.and_eq_true, beq_iff_eq] at hw
      rw [hw.1]
      rfl
    obtain ⟨vs', rfl, h'⟩ := of_cons (.inl (htrivia hw)) h
    exact .joinLines hw hd (ih _ (by simp) h' hs rfl)
  | inLine hw hs =>
    obtain ⟨v, vs', rfl, hv, -, hs'⟩ := onLine (by simp) hw hs h
    exact .inLine hv hs'
  | @indent held levels d ws w hheld hw ht hdeeper hs =>
    obtain ⟨vs₁, rfl, h₁⟩ := of_append (between hheld) h
    obtain ⟨vs', rfl, h'⟩ := of_cons (.inr (by decide)) h₁
    obtain ⟨v, vs', rfl, hv, hkind, hs'⟩ := onLine (by simp; omega) hw hs h'
    simpa using Settled.indent hheld hv (hkind ▸ ht) hdeeper hs'
  | @begin held d ws w inner outer hheld hw ht hinner houter hs =>
    obtain ⟨vs', rfl, h'⟩ := of_append (List.forall_mem_append.2 ⟨dedents, between hheld⟩) h
    obtain ⟨v, vs', rfl, hv, hkind, hs'⟩ := onLine (by simp; omega) hw hs h'
    exact .begin inner outer hheld hv (hkind ▸ ht) hinner houter hs'

end Recast

/-- Words that may stand behind a name in the place of others, up to a closing bracket. -/
structure Exchange (xs ys : List Word) : Prop where
  stops : ∀ {e} (e' : Text), AllCut (rawOf xs) e → (spell xs ++ e).Stops ∧ (spell ys ++ e').Stops
  allCut : ∀ {e e'}, AllCut (rawOf xs) e → AllCut (rawOf ys) e'
  settled : ∀ {levels d ws vs}, Settled levels d false (xs ++ ws) →
    Settled levels d false ws ∧ (Settled levels d false vs → Settled levels d false (ys ++ vs))

/-- The same words, but that behind some of the names others stand in the place of some. -/
inductive Reworded (names : Text → Bool) : List Word → List Word → Prop
  | nil : Reworded names [] []
  | keep (w : Word) {ws vs : List Word} : Reworded names ws vs → Reworded names (w :: ws) (w :: vs)
  | behind {w : Word} {xs ys ws vs : List Word} : w.kind = .ident → w.text ≠ [] →
      names w.text = true → Exchange xs ys → Reworded names ws vs →
      Reworded names (w :: (xs ++ ws)) (w :: (ys ++ vs))

variable {names : Text → Bool} {w : Word} {ws vs : List Word} {e : Text}

/-- The text of a word is cut off in front of whatever ends words. -/
theorem allCut_raw {r x y : Text} (hw : w.kind ≠ .error) (hx : x.Stops) (hy : y.Stops) (hr : r ≠ [])
    (h : AllCut w.raw (r ++ x)) : AllCut w.raw (r ++ y) := by
  have hraw : w.raw = [] ∨ ∃ v, w.raw = [v] ∧ v.kind ≠ .error := by
    unfold raw
    split
    · exact .inl rfl
    · split
      · exact .inr ⟨_, rfl, by simp⟩
      · exact .inr ⟨_, rfl, hw⟩
  rcases hraw with hraw | ⟨v, hraw, hv⟩
  · rw [hraw]; trivial
  · rw [hraw] at h ⊢
    exact ⟨Cut.of_stops (r := r) h.1 hx hy hv (.inl hr), trivial⟩

namespace Reworded

theorem refl (names : Text → Bool) : ∀ ws : List Word, Reworded names ws ws
  | [] => .nil
  | w :: ws => .keep w (refl names ws)

theorem append {ws' vs' : List Word} (h : Reworded names ws vs) (h' : Reworded names ws' vs') :
    Reworded names (ws ++ ws') (vs ++ vs') := by
  induction h with
  | nil => exact h'
  | keep w _ ih => exact .keep w ih
  | behind hk ht hn hx _ ih => simpa using Reworded.behind hk ht hn hx ih

/-- The two texts are the same up to where no word goes on. -/
theorem spell_eq (h : Reworded names ws vs) (hcut : AllCut (rawOf ws) e) :
    spell ws ++ e = spell vs ++ e ∨
      ∃ r x y : Text, r ≠ [] ∧ spell ws ++ e = r ++ x ∧ spell vs ++ e = r ++ y ∧ x.Stops ∧ y.Stops := by
  induction h with
  | nil => exact .inl rfl
  | keep w _ ih =>
    rw [rawOf_cons, allCut_append] at hcut
    rcases ih hcut.2 with heq | ⟨r, x, y, hr, hx, hy, hstops⟩
    · exact .inl (by rw [spell_cons, List.append_assoc, heq, spell_cons, List.append_assoc])
    · refine .inr ⟨w.text ++ r, x, y, by simp [hr], ?_, ?_, hstops⟩
      · rw [spell_cons, List.append_assoc, hx, List.append_assoc]
      · rw [spell_cons, List.append_assoc, hy, List.append_assoc]
  | @behind w xs ys ws vs hk ht hn hx _ ih =>
    rw [rawOf_cons, rawOf_append, allCut_append, allCut_append] at hcut
    obtain ⟨hstops, hstops'⟩ := hx.stops (spell vs ++ e) hcut.2.1
    refine .inr ⟨w.text, _, _, ht, ?_, ?_, hstops, hstops'⟩
    · rw [spell_rawOf]; simp
    · simp

/-- The words are cut off as before. -/
theorem allCut (h : Reworded names ws vs) (hws : ∀ w ∈ ws, w.kind ≠ .error)
    (hcut : AllCut (rawOf ws) e) : AllCut (rawOf vs) e := by
  induction h with
  | nil => exact hcut
  | @keep w ws vs h ih =>
    obtain ⟨hw, hmore⟩ := List.forall_mem_cons.1 hws
    rw [rawOf_cons, allCut_append] at hcut ⊢
    refine ⟨?_, ih hmore hcut.2⟩
    have hfirst := hcut.1
    rw [spell_rawOf] at hfirst ⊢
    rcases h.spell_eq hcut.2 with heq | ⟨r, x, y, hr, hx, hy, hstops, hstops'⟩
    · rwa [← heq]
    · rw [hx] at hfirst
      rw [hy]
      exact allCut_raw hw hstops hstops' hr hfirst
  | @behind w xs ys ws vs hk ht _ hx h ih =>
    obtain ⟨hw, hmore⟩ := List.forall_mem_cons.1 hws
    have hraw : w.raw = [w] := raw_self ht (joins_eq_false (by simp [hk]))
    rw [rawOf_cons, hraw, rawOf_append, List.singleton_append, allCut_cons, allCut_append] at hcut ⊢
    obtain ⟨hfirst, hxs, hrest⟩ := hcut
    have hys := ih (fun v hv => hmore v (List.mem_append_right _ hv)) hrest
    refine ⟨?_, hx.allCut hxs, hys⟩
    obtain ⟨hstops, hstops'⟩ := hx.stops (spell (rawOf vs) ++ e) hxs
    rw [spell_append, spell_rawOf, List.append_assoc] at hfirst ⊢
    exact Cut.of_stops (r := []) hfirst hstops hstops' hw (.inr (by simp [hk, Kind.isTrivia]))

theorem recast (h : Reworded names ws vs) : Recast ws vs := by
  induction h with
  | nil => exact .nil
  | keep w _ ih => exact .keep w ih
  | behind hk _ _ hx _ ih =>
    exact .behind (by rw [hk]; rfl) (by rw [hk]; decide) rfl id (fun hs => hx.settled hs) ih

/-- The texts begin alike. -/
theorem head?_spell (h : Reworded names ws vs) : (spell ws).head? = (spell vs).head? := by
  induction h with
  | nil => rfl
  | keep w _ ih => simp [ih]
  | behind _ ht =>
    obtain ⟨c, cs, htext⟩ := List.exists_cons_of_ne_nil ht
    simp [htext]

/-- Only the first word can be a name in front of a bracket. -/
theorem prefix_cons {G : Identifier} (hcut : AllCut (rawOf (w :: ws)) e) (hw : w.text ≠ []) :
    G.word.text ++ ['('] <+: spell (w :: ws) ↔
      w.text = G.word.text ∧ (spell ws).head? = some '(' := by
  have hhead : ['('] <+: spell ws ↔ (spell ws).head? = some '(' := by
    cases spell ws <;> simp [eq_comm]
  constructor
  · intro hpre
    have hname : w.text = G.word.text := by
      have hlong : G.word.text ++ ['('] <+: w.text ++ (spell (rawOf ws) ++ e) := by
        rw [spell_rawOf, ← List.append_assoc]
        exact hpre.trans (List.prefix_append ..)
      rw [rawOf_cons, allCut_append] at hcut
      unfold raw at hcut
      rw [if_neg hw] at hcut
      split at hcut
      · exact hcut.1.1.eq_of_begins hlong
      · exact hcut.1.1.eq_of_begins hlong
    rw [spell_cons, hname, List.prefix_append_right_inj] at hpre
    exact ⟨hname, hhead.1 hpre⟩
  · rintro ⟨hname, hpre⟩
    rw [spell_cons, hname, List.prefix_append_right_inj]
    exact hhead.2 hpre

/-- A name in front of a bracket stands at the beginning before and after, or at neither. -/
theorem prefix_iff (h : Reworded names ws vs) {G : Identifier} (hG : names G.word.text = false)
    (hcut : AllCut (rawOf ws) e) (hcut' : AllCut (rawOf vs) e) :
    G.word.text ++ ['('] <+: spell ws ↔ G.word.text ++ ['('] <+: spell vs := by
  induction h with
  | nil => rfl
  | @keep w ws vs h ih =>
    by_cases hw : w.text = []
    · rw [rawOf_cons, allCut_append] at hcut hcut'
      simpa [hw] using ih hcut.2 hcut'.2
    · rw [prefix_cons hcut hw, prefix_cons hcut' hw, h.head?_spell]
  | @behind w _ _ _ _ _ ht hn =>
    have hne {p : Prop} : ¬ (w.text = G.word.text ∧ p) := fun h => by
      rw [h.1, hG] at hn
      cases hn
    rw [prefix_cons hcut ht, prefix_cons hcut' ht]
    exact iff_of_false hne hne

end Reworded

end Word

end SceneGate
