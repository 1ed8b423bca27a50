/-
Indentation decides which statements form a block. In a text without faults
every INDENT is matched by a DEDENT at the end of its block; the statements of a
block that begin lines have one indentation, which is greater than that of the
block around it; and the clauses of a statement have the indentation of the
statement (`blocks_follow_indentation`).

What every phrase keeps is found with the watch for lines (`Watch.line`). Only a
block goes into another indentation and comes back, so it is looked at by
itself.
-/
import SceneGate.Proofs.FreshLine
import SceneGate.Proofs.Lossless

namespace SceneGate

/-- Where reading began: the indentations of the open blocks, the innermost first,
and what had been built. -/
structure Begun where
  levels : List Nat
  base : List Tree

namespace Begun

/-- The indentation of the innermost block. -/
def level (c : Begun) : Nat := c.levels.headD 0

/-- A node or a run of parts begins in the same block. -/
def inner (c : Begun) : Begun := ⟨c.levels, []⟩

end Begun

section InLine

variable (begins : Token → Bool) (width : Token → Nat)

/-- What is left is laid out, and what was built since reading began stands in the
block where it began. The flag is up if no logical line has begun. -/
structure InLine (c : Begun) (fresh : Bool) (s : Progress) : Prop where
  laid : LaidOut begins width c.levels fresh (s.rest.map Lexeme.token)
  built : ∃ new, s.built = new ++ c.base ∧ ∀ x ∈ new, InBlock begins width c.level x
  pending : ∀ k ∈ s.pending, k.isTrivia = true
  words : ∀ l ∈ s.rest, l.token.isTrivia = false ∧ ∀ k ∈ l.trail, k.isTrivia = true

/-- What a phrase does with lines, when it is read where it should be and without
faults. -/
def Phrase.KeepsLines (p : Phrase) (s : Progress) (_ : Bool) (s' : Progress) : Prop :=
  ∀ c, Progress.Holds (InLine begins width) c p.entered s → s'.faults = [] →
    Progress.Holds (InLine begins width) c p.leaves s'

end InLine

section Facts

variable {begins : Token → Bool} {width : Token → Nat} {c : Begun} {fresh : Bool}
  {s s' : Progress} {level : Nat}

theorem InBlock.of_trivia {k : Token} (h : k.isTrivia = true) :
    InBlock begins width level (.leaf k) := by
  have hk : k.kind.isTrivia = true := h
  refine .leaf ?_ ?_ fun hf => absurd hf (by simp [h])
  · intro hi; rw [hi] at hk; cases hk
  · intro hd; rw [hd] at hk; cases hk

section LaidOut

variable {levels : List Nat} {k : Token} {ks : List Token}

/-- A line that has begun goes on: no block opens or ends on it. -/
theorem LaidOut.kind_ne (h : LaidOut begins width levels false (k :: ks)) :
    k.kind ≠ .indent ∧ k.kind ≠ .dedent := by
  cases h with
  | newline hk => simp [hk]
  | word hk =>
    simp only [Kind.addedByLayout, List.mem_cons, not_or] at hk
    exact ⟨hk.2.1, hk.2.2.1⟩

/-- A word is indented as the block, if it begins a line. -/
theorem LaidOut.of_word (h : LaidOut begins width levels fresh (k :: ks)) (hi : k.kind ≠ .indent)
    (hd : k.kind ≠ .dedent) : (begins k = true → width k = levels.headD 0) ∧
      LaidOut begins width levels (k.kind == .newline) ks := by
  cases h with
  | newline hk hnot hrest =>
    refine ⟨fun hb => ?_, by rw [hk]; exact hrest⟩
    rw [hnot] at hb
    cases hb
  | indent hk => exact absurd hk hi
  | dedent hk => exact absurd hk hd
  | word hk hb hw hrest =>
    have hn : (k.kind == .newline) = false := by simpa using fun he => hk (by simp [he])
    rw [hn]
    exact ⟨fun h => hw (by rw [← hb]; exact h), hrest⟩

/-- The first word where no line has begun begins one. -/
theorem LaidOut.begins_of_fresh (h : LaidOut begins width levels true (k :: ks))
    (hi : k.kind ≠ .indent) (hd : k.kind ≠ .dedent) : begins k = true := by
  cases h with
  | indent hk => exact absurd hk hi
  | dedent hk => exact absurd hk hd
  | word hk hb => exact hb

theorem LaidOut.of_indent (h : LaidOut begins width levels fresh (k :: ks)) (hk : k.kind = .indent) :
    levels.headD 0 < width k ∧ LaidOut begins width (width k :: levels) true ks := by
  cases h with
  | newline hn => rw [hk] at hn; cases hn
  | indent _ hlt hrest => exact ⟨hlt, hrest⟩
  | dedent hd => rw [hk] at hd; cases hd
  | word hw => exact absurd (by simp [hk, Kind.addedByLayout]) hw

theorem LaidOut.of_dedent {w : Nat} (h : LaidOut begins width (w :: levels) fresh (k :: ks))
    (hk : k.kind = .dedent) : LaidOut begins width levels true ks := by
  cases h with
  | newline hn => rw [hk] at hn; cases hn
  | indent hi => rw [hk] at hi; cases hi
  | dedent _ hrest => exact hrest
  | word hw => exact absurd (by simp [hk, Kind.addedByLayout]) hw

theorem LaidOut.kind_ne_endOfFile (h : LaidOut begins width levels fresh (k :: ks)) :
    k.kind ≠ .endOfFile := by
  intro hk
  cases h with
  | newline hn => rw [hk] at hn; cases hn
  | indent hi => rw [hk] at hi; cases hi
  | dedent hd => rw [hk] at hd; cases hd
  | word hw => exact absurd (by simp [hk, Kind.addedByLayout]) hw

end LaidOut

namespace InLine

theorem flush (h : InLine begins width c fresh s) : InLine begins width c fresh s.flush := by
  obtain ⟨new, hnew, hin⟩ := h.built
  refine ⟨h.laid, ⟨(s.pending.map Tree.leaf).reverse ++ new, ?_, ?_⟩, by simp [Progress.flush], h.words⟩
  · simp [Progress.flush, hnew]
  · intro x hx
    rcases List.mem_append.1 hx with hx | hx
    · obtain ⟨k, hk, rfl⟩ := List.mem_map.1 (List.mem_reverse.1 hx)
      exact .of_trivia (h.pending k hk)
    · exact hin x hx

theorem inside (h : InLine begins width c fresh s) :
    InLine begins width c.inner fresh s.inside :=
  ⟨h.laid, ⟨[], rfl, by simp⟩, by simp [Progress.inside, Progress.flush], h.words⟩

/-- Everything that was built since a run of parts began stands in its block. -/
theorem inBlock (h : InLine begins width c.inner fresh s) :
    ∀ x ∈ s.built, InBlock begins width c.level x := by
  obtain ⟨new, hnew, hin⟩ := h.built
  intro x hx
  rw [hnew] at hx
  exact hin x (by simpa [Begun.inner] using hx)

theorem rejoin {fresh' : Bool} {parts : List Tree} (h : InLine begins width c fresh s)
    (h' : InLine begins width c.inner fresh' s')
    (hp : ∀ x ∈ parts, InBlock begins width c.level x) :
    InLine begins width c fresh' (s.rejoin s' parts) := by
  obtain ⟨new, hnew, hin⟩ := h.flush.built
  refine ⟨h'.laid, ⟨parts ++ new, ?_, ?_⟩, h'.pending, h'.words⟩
  · simp only [Progress.rejoin, hnew, List.append_assoc]
  · intro x hx
    rcases List.mem_append.1 hx with hx | hx
    · exact hp x hx
    · exact hin x hx

/-- Parts that were built become a node that may have no clauses. -/
theorem node {kind : Kind} (h : InLine begins width c.inner fresh s)
    (hk : kind.hasClauses = false) :
    InBlock begins width c.level (.node kind s.built.reverse) :=
  .node (fun x hx => h.inBlock x (List.mem_reverse.1 hx)) fun hc => by rw [hk] at hc; cases hc

/-- Taking a token that opens and ends no block. -/
theorem take {l : Lexeme} {ls : List Lexeme} (h : InLine begins width c fresh s)
    (hr : s.rest = l :: ls) (hi : l.token.kind ≠ .indent) (hd : l.token.kind ≠ .dedent) :
    InLine begins width c (l.token.kind == .newline) s.take := by
  have hflush := h.flush
  obtain ⟨new, hnew, hin⟩ := hflush.built
  have hlaid := h.laid
  rw [hr] at hlaid
  obtain ⟨hwidth, hrest⟩ := hlaid.of_word hi hd
  rw [Progress.take_of_cons hr]
  refine ⟨hrest, ⟨.leaf l.token :: new, by simp [hnew], ?_⟩, ?_, ?_⟩
  · intro x hx
    rcases List.mem_cons.1 hx with rfl | hx
    · exact .leaf hi hd fun _ => hwidth
    · exact hin x hx
  · exact (h.words l (by simp [hr])).2
  · exact fun j hj => h.words j (by simp [hr, hj])

end InLine

/-- What is next on a line that has begun opens and ends no block. -/
theorem InLine.current_has_words (h : InLine begins width c false s) :
    KindSet.words.has s.current = true := by
  cases hr : s.rest with
  | nil => simp [Progress.current, hr, KindSet.words]
  | cons l ls =>
    have hlaid := h.laid
    rw [hr] at hlaid
    obtain ⟨hi, hd⟩ := hlaid.kind_ne
    simp [Progress.current, hr, KindSet.words, hi, hd]

/-- The first word of a node that has clauses begins a line. -/
theorem InLine.begins_of_node {S : Sight} {kind : Kind} {body : Form} {k : Token}
    (hopen : Watch.line.mayOpen kind body S = true) (hc : kind.hasClauses = true)
    (hs : Progress.Holds (InLine begins width) c S s) (ht : s'.tokens = s.inside.tokens)
    (hk : firstWord? (Tree.tokensOf s'.built.reverse) = some k) : begins k = true := by
  obtain ⟨fresh, h, hsight⟩ := hs
  simp only [Watch.line, hc, Bool.not_true, Bool.false_or, Bool.and_eq_true] at hopen
  obtain ⟨-, hdown, hup⟩ := hopen
  cases fresh with
  | false => exact absurd ((KindSet.not_has_of_isEmpty hdown).symm.trans hsight) (by simp)
  | true =>
    have hblock : (KindSet.only [.indent, .dedent]).has s.current = false := by
      have := KindSet.not_has_of_isEmpty (k := s.current) hup
      rw [KindSet.has_inter, show S.up.has s.current = true from hsight] at this
      simpa using this
    -- The tokens built into the node are the first of those that were left.
    have hfirst : firstWord? (Lexeme.tokens s.rest) = some k := by
      rw [← s.tokens_inside, ← ht, Progress.tokens, firstWord?_append, firstWord?_append, hk]
      rfl
    cases hr : s.rest with
    | nil => rw [hr] at hfirst; cases hfirst
    | cons l ls =>
      have hl : l.token = k := by
        simpa [hr, firstWord?, (h.words l (by simp [hr])).1] using hfirst
      subst hl
      have hlaid := h.laid
      rw [hr] at hlaid
      simp only [Progress.current, hr] at hblock
      exact hlaid.begins_of_fresh (by rintro he; simp [he] at hblock)
        (by rintro he; simp [he] at hblock)

theorem Watch.line_sound (env : Surroundings) :
    Watch.line.Sound env (Phrase.KeepsLines begins width) (fun s => s.faults = [])
      (InLine begins width) Begun.inner where
  back h hg := List.suffix_nil.1 (hg ▸ h.faults)
  take := by
    intro c S s hmay ⟨fresh, h, hk⟩
    cases hr : s.rest with
    | nil =>
      have hc : s.current = .endOfFile := by simp [Progress.current, hr]
      rw [Progress.take_of_nil hr]
      rw [hc] at hk
      refine ⟨fresh, h.flush, ?_⟩
      rw [Progress.current_flush, hc]
      cases fresh <;> simp_all [line, Sight.has]
    | cons l ls =>
      have hc : s.current = l.token.kind := by simp [Progress.current, hr]
      rw [hc] at hk
      have hblock : l.token.kind ≠ .indent ∧ l.token.kind ≠ .dedent := by
        cases fresh with
        | false =>
          have hlaid := h.laid
          rw [hr] at hlaid
          exact hlaid.kind_ne
        | true =>
          have := KindSet.not_has_of_isEmpty (k := l.token.kind) hmay
          rw [KindSet.has_inter, show S.up.has l.token.kind = true from hk] at this
          simpa using this
      have htake := h.take hr hblock.1 hblock.2
      refine ⟨l.token.kind == .newline, htake, ?_⟩
      have hkinds : (S.down.union S.up).has l.token.kind = true := by
        cases fresh <;> simp_all [Sight.has]
      cases hn : l.token.kind == .newline with
      | true =>
        obtain hnl : l.token.kind = .newline := by simpa using hn
        rw [hnl] at hkinds
        simp only [line, Sight.has, cond_true, hkinds, if_true]
        simp
      | false =>
        have hend := h.laid
        rw [hr] at hend
        have hnot : (S.down.union S.up).within (.only [.newline, .endOfFile]) = false := by
          refine Bool.eq_false_iff.2 fun hw => ?_
          have := KindSet.has_of_within hw hkinds
          simp only [KindSet.has_only, List.contains_eq_mem, List.mem_cons, List.not_mem_nil, or_false,
            decide_eq_true_eq] at this
          rcases this with hk | hk
          · simp [hk] at hn
          · exact hend.kind_ne_endOfFile hk
        rw [hn] at htake
        simp [line, Sight.has, hnot, htake.current_has_words]
  fault h := absurd h (Progress.faults_record_ne _ _)
  call := by
    intro c S p s b s' hmay _ hkeeps hg hs
    have hne : S.isEmpty = false := by
      obtain ⟨fresh, -, hk⟩ := hs
      exact Sight.isEmpty_of_has hk
    have hleaves := hkeeps c (hs.within hmay) hg
    simpa [line, hne] using hleaves
  inside h := h.inside
  node := by
    intro c S s b fresh s' kind body hmay hs hread h'
    obtain ⟨fresh', h, -⟩ := id hs
    refine h.rejoin h' fun x hx => ?_
    obtain rfl := List.mem_singleton.1 hx
    refine .node (fun x hx => h'.inBlock x (List.mem_reverse.1 hx)) fun hc k hk => ?_
    have htokens := (hread.imp fun _ _ _ _ hq => hq.1.tokens_eq).tokens_eq
    exact InLine.begins_of_node hmay hc hs htokens hk
  mark h h' := h.rejoin h' h'.inBlock
  wrap := by
    intro c fresh s kind hmay h
    simp only [line, Bool.and_eq_true, Bool.not_eq_true'] at hmay
    refine ⟨h.laid, ⟨[.node kind s.built.reverse], rfl, fun x hx => ?_⟩, h.pending, h.words⟩
    obtain rfl := List.mem_singleton.1 hx
    exact h.node hmay.2

/-! ## Blocks -/

/-- Taking INDENT: what follows stands in a block of its width. -/
theorem InLine.take_indent {l : Lexeme} {ls : List Lexeme} (h : InLine begins width c fresh s)
    (hr : s.rest = l :: ls) (hi : l.token.kind = .indent) :
    c.level < width l.token ∧
      InLine begins width ⟨width l.token :: c.levels, s.take.built⟩ true s.take := by
  have hlaid := h.laid
  rw [hr] at hlaid
  obtain ⟨hlt, hrest⟩ := hlaid.of_indent hi
  refine ⟨hlt, ?_⟩
  rw [Progress.take_of_cons hr]
  exact ⟨hrest, ⟨[], rfl, by simp⟩, (h.words l (by simp [hr])).2, fun j hj =>
    h.words j (by simp [hr, hj])⟩

/-- After a statement, if anything is left, a line is to begin. -/
theorem Progress.Holds.inLine (h : Progress.Holds (InLine begins width) c .afterLine s)
    (hne : s.current ≠ .endOfFile) : InLine begins width c true s := by
  obtain ⟨fresh, hin, hsight⟩ := h
  cases fresh with
  | false =>
    have hc : s.current = .endOfFile := by simpa [Sight.has, Sight.afterLine] using hsight
    exact absurd hc hne
  | true => exact hin

/-- The statements of an indented block, from INDENT on: they end at the DEDENT that
matches it. -/
theorem Form.Reads.indented_inLine {env : Surroundings} {w : Nat} {b : Bool}
    (h : Form.Reads env (fun q s b s' => Phrase.Reads env q s b s' ∧
      Phrase.KeepsLines begins width q s b s') .indented s b s')
    (hg : s'.faults = [])
    (hs : InLine begins width ⟨w :: c.levels, s.built⟩ true s) :
    ∃ body d, s'.built = .leaf d :: (body ++ s.built) ∧ d.kind = .dedent ∧
      (∀ x ∈ body, InBlock begins width w x) ∧
      LaidOut begins width c.levels true (s'.rest.map Lexeme.token) ∧
      (∀ k ∈ s'.pending, k.isTrivia = true) ∧
      ∀ l ∈ s'.rest, l.token.isTrivia = false ∧ ∀ k ∈ l.trail, k.isTrivia = true := by
  have back {f s b s'} (h : Form.Reads env (fun q s b s' => Phrase.Reads env q s b s' ∧
      Phrase.KeepsLines begins width q s b s') f s b s') (hg : s'.faults = []) : s.faults = [] :=
    List.suffix_nil.1 (hg ▸ (h.imp fun _ _ _ _ hq => hq.1.follows).follows.faults)
  cases h with
  | seq hloop heat =>
    rename_i s₁
    have hg₁ := back heat hg
    obtain ⟨rfl, s₀, ⟨fresh, hin, -⟩, htest⟩ := hloop.of_loop
      (P := Progress.Holds (InLine begins width) ⟨w :: c.levels, s.built⟩ .afterLine)
      ⟨true, hs, rfl⟩ fun hP htest hbody hrest => by
        obtain ⟨rfl, hk⟩ := htest.of_nextNot
        cases hbody with
        | call hbody =>
          refine hbody.2 _ ?_ (back hrest hg₁)
          exact ⟨true, hP.inLine fun he => by simp [he] at hk, rfl⟩
    obtain ⟨rfl, hk⟩ := htest.of_nextNot
    have hlaid := hin.laid
    cases hr : s₁.rest with
    | nil => rw [hr] at hlaid; cases hlaid
    | cons l ls =>
      rw [hr] at hlaid
      have hd : l.token.kind = .dedent := by
        have hne := hlaid.kind_ne_endOfFile
        simpa [Progress.current, hr, hne] using hk
      cases b with
      | false => exact absurd (by simp [Progress.current, hr, hd]) heat.of_eat_no.1
      | true =>
        obtain ⟨-, rfl⟩ := heat.of_eat_yes
        obtain ⟨new, hnew, hnewin⟩ := hin.flush.built
        rw [Progress.take_of_cons hr]
        exact ⟨new, l.token, by simp [hnew], hd, hnewin, hlaid.of_dedent hd,
          (hin.words l (by simp [hr])).2, fun j hj => hin.words j (by simp [hr, hj])⟩

/-- The line break in front of an indented block, with the trivia behind it. -/
theorem Progress.built_line_break {l : Lexeme} {ls : List Lexeme} (hr : s.rest = l :: ls) :
    s.inside.take.flush.built.reverse = .leaf l.token :: l.trail.map Tree.leaf := by
  have hin : s.inside.rest = l :: ls := hr
  rw [take_of_cons hin]
  simp [flush, inside]

/-- A line break and an indented block after it. -/
theorem InLine.block {env : Surroundings} {b : Bool} (h : InLine begins width c false s)
    (hnl : s.current = .newline) (hi : s.inside.take.current = .indent)
    (hread : Form.Reads env (fun q s b s' => Phrase.Reads env q s b s' ∧
      Phrase.KeepsLines begins width q s b s') .indented s.inside.take.take b s')
    (hg : s'.faults = []) :
    InLine begins width c true (s.rejoin s' [.node .block s'.built.reverse]) := by
  obtain ⟨l, ls, hr, hl⟩ := Progress.exists_of_current hnl (by decide)
  have h₁ : InLine begins width c.inner true s.inside.take := by
    have htake := h.inside.take hr (by simp [hl]) (by simp [hl])
    simpa [hl] using htake
  obtain ⟨i, is, hri, hik⟩ := Progress.exists_of_current hi (by decide)
  obtain ⟨hlt, h₂⟩ := h₁.take_indent hri hik
  obtain ⟨body, d, hbuilt, hd, hbody, hlaid, hpending, hwords⟩ := hread.indented_inLine hg h₂
  have hleads := Progress.built_line_break hr
  have hparts : s'.built.reverse = (.leaf l.token :: l.trail.map Tree.leaf) ++
      .leaf i.token :: (body.reverse ++ [.leaf d]) := by
    rw [hbuilt, Progress.take_of_cons hri, ← hleads]
    simp
  have hlead : ∀ x ∈ Tree.leaf l.token :: l.trail.map Tree.leaf,
      InBlock begins width c.level x := by
    intro x hx
    rw [← hleads] at hx
    exact h₁.flush.inBlock x (List.mem_reverse.1 hx)
  have hfirst : firstWord? (Tree.tokensOf (.leaf l.token :: l.trail.map Tree.leaf)) =
      some l.token := by
    simp [firstWord?, (h.words l (by simp [hr])).1]
  have hleaves : ∀ x ∈ Tree.leaf l.token :: l.trail.map Tree.leaf, x.isNode = false := by
    intro x hx
    rcases List.mem_cons.1 hx with rfl | hx
    · rfl
    · obtain ⟨k, -, rfl⟩ := List.mem_map.1 hx
      rfl
  have hnode : InBlock begins width c.level (.node .block s'.built.reverse) := by
    rw [hparts]
    exact .block hik hd hlt hleaves hlead (by rw [hfirst]; rfl) fun x hx =>
      hbody x (List.mem_reverse.1 hx)
  obtain ⟨new, hnew, hin⟩ := h.flush.built
  refine ⟨hlaid, ⟨.node .block s'.built.reverse :: new, ?_, ?_⟩, hpending, hwords⟩
  · simp [Progress.rejoin, hnew]
  · intro x hx
    rcases List.mem_cons.1 hx with rfl | hx
    · exact hnode
    · exact hin x hx

/-- A block keeps lines: indented or not, it leaves the indentation as it found
it. -/
theorem Phrase.keepsLines_block {env : Surroundings} {b : Bool}
    (h : Form.Reads env (fun q s b s' => Phrase.Reads env q s b s' ∧
      Phrase.KeepsLines begins width q s b s') Phrase.block.form s b s') :
    Phrase.KeepsLines begins width .block s b s' := by
  intro c ⟨fresh, hin, hsight⟩ hg
  cases fresh with
  | true => cases hsight
  | false =>
    cases h with
    | node h =>
      rename_i s₁
      have hg₁ : s₁.faults = [] := hg
      cases h with
      | condNo heat hcall =>
        -- The statements stand on the line of the colon.
        obtain ⟨-, rfl⟩ := heat.of_eat_no
        cases hcall with
        | call hcall =>
          have hentered : Progress.Holds (InLine begins width) c.inner
              Phrase.simpleStatements.entered s.inside := ⟨false, hin.inside, hsight⟩
          obtain ⟨fresh, h₁, hk⟩ := hcall.2 _ hentered hg₁
          exact ⟨fresh, hin.rejoin h₁ (by simpa using h₁.node rfl), hk⟩
      | condYes heat hrest =>
        obtain ⟨hnl, rfl⟩ := heat.of_eat_yes
        cases hrest with
        | condNo _ hcomplain =>
          cases hcomplain
          refine absurd hg₁ ?_
          unfold Progress.complain
          split <;> exact Progress.faults_record_ne _ _
        | condYes heat hindented =>
          obtain ⟨hi, rfl⟩ := heat.of_eat_yes
          exact ⟨true, hin.block hnl hi hindented hg₁, rfl⟩

/-- Every phrase keeps lines. -/
theorem Phrase.Reads.keepsLines {env : Surroundings} {p : Phrase} {b : Bool}
    (h : Phrase.Reads env p s b s') : p.KeepsLines begins width s b s' := by
  refine h.induct (Phrase.KeepsLines begins width) fun p s b s' h => ?_
  by_cases hp : p = .block
  · subst hp
    exact Phrase.keepsLines_block h
  · intro c hs hg
    obtain ⟨hfits, hleaves⟩ := p.line_fits hp
    have hrun : false = true → ∃ d : Begun, c = d.inner := fun h => by cases h
    exact ((Watch.line_sound env).holds h hg hrun hfits hs).either.within hleaves

end Facts

/-! ## Texts without faults -/

/-- The tree of a text without faults follows the indentation of its lines. -/
theorem inBlock_parse {t : Text} (h : (parse t).ok = true) :
    InBlock (beginsLine (layout t).tokens) (fun k => indentationAt t k.offset) 0
      (parse t).tree := by
  obtain ⟨b, s, hreads, hrest, -, htree, hfaults⟩ := exists_reading t
  have hs : s.faults = [] := by
    simpa [Parse.ok, hfaults] using h
  have hlayout : (layout t).faults = [] := by
    have hsuffix := hreads.follows.faults
    rw [hs] at hsuffix
    simpa [Progress.start] using hsuffix
  have hstart : InLine (beginsLine (layout t).tokens) (fun k => indentationAt t k.offset) ⟨[], []⟩
      true (Progress.start (layout t).tokens (layout t).faults) := by
    obtain ⟨hpending, hwords⟩ := Lexeme.isTrivia_split (layout t).tokens
    refine ⟨?_, ⟨[], rfl, by simp⟩, hpending, hwords⟩
    simp only [Progress.start, Lexeme.map_token_split]
    exact laidOut_layout hlayout
  obtain ⟨fresh, hin, -⟩ := hreads.keepsLines ⟨[], []⟩ ⟨true, hstart, rfl⟩ hs
  rw [htree]
  refine .node (fun x hx => ?_) fun hc => by cases hc
  rcases List.mem_append.1 hx with hx | hx
  · obtain ⟨new, hnew, hblock⟩ := hin.built
    rw [hnew] at hx
    exact hblock x (by simpa using hx)
  · rw [hrest] at hx
    obtain ⟨k, hk, rfl⟩ := List.mem_map.1 hx
    exact .of_trivia (hin.pending k (by simpa using hk))

/-- A tree of a text that begins a logical line is indented by `width`. -/
def IndentedBy (t : Text) (width : Nat) (x : Tree) : Prop :=
  ∀ k, x.firstWord? = some k → beginsLine (layout t).tokens k = true →
    indentationAt t k.offset = width

/-- Indentation decides block structure. In a text without faults, every node stands
in a block, or at the top level with width 0. An INDENT opens a block that its
DEDENT ends; the block is indented more than the one around it, and all that
begins a line directly in it is indented like it. What begins a line at the top
level is not indented. Every other word that begins a line is indented like the
block it stands in, and a clause like the statement it belongs to, which begins a
line too. -/
theorem blocks_follow_indentation {t : Text} (h : (parse t).ok = true) :
    (∀ l ∈ (parse t).tree.locate 0 0, l.tree.isNode = true →
      ∃ w, Stands (fun k => indentationAt t k.offset) (parse t).tree w l.tree) ∧
    (∀ c ∈ (parse t).tree.parts, c.isNode = true → IndentedBy t 0 c) ∧
    ∀ w kind parts,
      Stands (fun k => indentationAt t k.offset) (parse t).tree w (.node kind parts) →
      (∀ i, .leaf i ∈ parts → i.kind = .indent →
        kind = .block ∧ w < indentationAt t i.offset ∧
        (∃ lead body d, parts = lead ++ .leaf i :: (body ++ [.leaf d]) ∧ d.kind = .dedent ∧
          Balanced (Tree.tokensOf body)) ∧
        ∀ c ∈ parts, c.isNode = true → IndentedBy t (indentationAt t i.offset) c) ∧
      ((∀ i, .leaf i ∈ parts → i.kind ≠ .indent) → ∀ c ∈ parts, IndentedBy t w c) ∧
      (kind.hasClauses = true → ∀ j, (Tree.node kind parts).firstWord? = some j →
        beginsLine (layout t).tokens j = true ∧ indentationAt t j.offset = w ∧
        ∀ c ∈ parts, c.isNode = true → IndentedBy t (indentationAt t j.offset) c) := by
  have hroot := inBlock_parse h
  refine ⟨?_, ?_, fun w kind parts hstands => ?_⟩
  · exact Stands.of_mem_locate fun _ => ⟨0, .root⟩
  · intro c hc hn k hk hb
    obtain ⟨parts, htree⟩ := (parse_root t)
    rw [htree] at hc hroot
    have hno : ∀ i, .leaf i ∈ parts → i.kind ≠ .indent := fun i hi hk => by
      have := (hroot.of_indent hi hk).1
      cases this
    exact (hroot.part_of_not_indent hno hc).width_eq hk hb
  · have hin := InBlock.of_stands hstands hroot
    refine ⟨fun i hi hk => ?_, fun hno c hc k hk hb => ?_, fun hclauses j hj => ?_⟩
    · obtain ⟨hblock, hlt, lead, body, d, hparts, hd, -, hbody⟩ := hin.of_indent hi hk
      refine ⟨hblock, hlt, ⟨lead, body, d, hparts, hd, .tokensOf fun x hx => (hbody x hx).balanced⟩, ?_⟩
      intro c hc hn k' hk' hb
      exact (hin.part_of_indent hi hk hc hn).width_eq hk' hb
    · exact (hin.part_of_not_indent hno hc).width_eq hk hb
    · have hno : ∀ i, .leaf i ∈ parts → i.kind ≠ .indent := fun i hi hk => by
        rw [(hin.of_indent hi hk).1] at hclauses
        cases hclauses
      have hbegins := hin.begins_of_clauses hclauses hj
      have hwidth : indentationAt t j.offset = w := hin.width_eq hj hbegins
      refine ⟨hbegins, hwidth, fun c hc _ k hk hb => ?_⟩
      rw [hwidth]
      exact (hin.part_of_not_indent hno hc).width_eq hk hb

/-- The theorem at a text with nested blocks, a comment between two of them that is
indented like neither, and a clause. -/
theorem blocks_follow_indentation_nested :
    (parse "if a:\n  b\n  if c:\n\td\n # e\nelse: f\n".toList).ok = true ∧
      ∀ c ∈ (parse "if a:\n  b\n  if c:\n\td\n # e\nelse: f\n".toList).tree.parts,
        c.isNode = true → IndentedBy "if a:\n  b\n  if c:\n\td\n # e\nelse: f\n".toList 0 c := by
  have hok : (parse "if a:\n  b\n  if c:\n\td\n # e\nelse: f\n".toList).ok = true := by
    decide +kernel
  exact ⟨hok, (blocks_follow_indentation hok).2.1⟩

end SceneGate
