/-
Tokens that a program cannot have. A text with an error token is not a program,
and neither is one with a name right behind a string: an operand that is a string
ends before a name, and nothing goes on with one there.

The flag that is watched here is up right behind a string. Only readings without
faults are watched.
-/
import SceneGate.Proofs.Lossless
import Mathlib.Data.List.Chain

namespace SceneGate

namespace Phrase

/-- Where a phrase is read: behind a string only if it does not begin with a
name. -/
def readAt (p : Phrase) : Sight :=
  match p with
  | .elseClause => ⟨.all, .only [.endOfFile]⟩
  | .forClause | .arguments => ⟨p.startsOn, p.startsOn⟩
  | _ => ⟨p.startsOn, .none⟩

/-- What is known behind a phrase. A statement ends its line. -/
def readTo : Phrase → Sight
  | .unexpectedIndent => .nothing
  | .name | .nameRef | .parameters => ⟨.all, .none⟩
  | .program | .statement | .block | .simpleStatements | .ifStatement | .elseClause
  | .whileStatement | .forStatement | .withStatement | .tryStatement | .exceptClause
  | .finallyClause | .decorated | .function | .classParts => ⟨.all, .only [.endOfFile]⟩
  | _ => .anything

end Phrase

/-- Watches whether a string was taken last. -/
def Watch.neighbours : Watch where
  taken S :=
    let kinds := S.down.union S.up
    ⟨(S.down.inter (.only [.endOfFile])).union
        (if kinds.within (.only [.string]) then .none else .all),
      (S.up.inter (.only [.endOfFile])).union (if kinds.has .string then .all else .none)⟩
  faulted _ := .nothing
  left p S := if S.isEmpty then .nothing else p.readTo
  mayTake S := (S.up.inter (.only [.ident])).isEmpty &&
    ((S.down.union S.up).inter (.only [.error])).isEmpty
  mayCall p S := S.within p.readAt
  mayOpen _ _ _ := true
  mayWrap _ := true

/-- All that is done in a phrase is allowed where it is read, and leads where
`Phrase.readTo` says. -/
theorem Phrase.neighbours_fits (p : Phrase) :
    Watch.neighbours.fits true p.form p.readAt = true ∧
      (Watch.neighbours.after p.form p.readAt).either.within p.readTo = true := by
  revert p
  decide +kernel

/-! ## What the watch sees -/

/-- Kinds of tokens that can follow one another in a program. -/
structure Neighbours (kinds : List Kind) : Prop where
  apart : kinds.IsChain fun a b => ¬ (a = .string ∧ b = .ident)
  noError : .error ∉ kinds

/-- What was passed of `ls`; the flag says whether it ends with a string. -/
def Passed (ls : List Lexeme) (flag : Bool) (s : Progress) : Prop :=
  ∃ passed, ls = passed ++ s.rest ∧ Neighbours (passed.map fun l => l.token.kind) ∧
    flag = passed.getLast?.any fun l => l.token.kind == .string

/-- What it means that a phrase passes only what a program can have. -/
def Phrase.Passes (ls : List Lexeme) (p : Phrase) (s : Progress) (_ : Bool) (s' : Progress) :
    Prop :=
  s'.faults = [] → ∀ flag, Passed ls flag s → p.readAt.has flag s.current = true →
    ∃ flag', Passed ls flag' s' ∧ p.readTo.has flag' s'.current = true

open Progress

variable {env : Surroundings} {ls : List Lexeme}

theorem Neighbours.concat {kinds : List Kind} {k : Kind} (h : Neighbours kinds) (hk : k ≠ .error)
    (hlast : k = .ident → kinds.getLast? ≠ some .string) : Neighbours (kinds ++ [k]) := by
  refine ⟨List.isChain_append.2 ⟨h.apart, .singleton k, ?_⟩, ?_⟩
  · intro a ha b hb
    simp only [List.head?_cons, Option.mem_some_iff] at hb
    subst hb
    rintro ⟨rfl, rfl⟩
    exact hlast rfl ha
  · simp [h.noError, Ne.symm hk]

theorem Neighbours.right {ks ls : List Kind} (h : Neighbours (ks ++ ls)) : Neighbours ls :=
  ⟨h.apart.right_of_append, fun he => h.noError (List.mem_append_right _ he)⟩

theorem Neighbours.tail {k : Kind} {ks : List Kind} (h : Neighbours (k :: ks)) : Neighbours ks :=
  ⟨h.apart.tail, fun he => h.noError (List.mem_cons_of_mem k he)⟩

theorem Passed.take {flag : Bool} {s : Progress} {l : Lexeme} {tail : List Lexeme}
    (h : Passed ls flag s) (hs : s.rest = l :: tail) (hk : s.current ≠ .error)
    (hflag : s.current = .ident → flag = false) :
    Passed ls (s.current == .string) s.take := by
  obtain ⟨passed, hls, hn, rfl⟩ := h
  have hcurrent : l.token.kind = s.current := by simp [current, hs]
  refine ⟨passed ++ [l], ?_, ?_, ?_⟩
  · rw [take_of_cons hs, List.append_assoc, List.singleton_append, hls, hs]
  · rw [List.map_append]
    refine hn.concat (by simpa [hcurrent] using hk) fun hi hstring => ?_
    have hfalse := hflag (hcurrent ▸ hi)
    rw [List.getLast?_map, Option.map_eq_some_iff] at hstring
    obtain ⟨m, hm, hkind⟩ := hstring
    simp [hm, hkind] at hfalse
  · simp [hcurrent]

theorem Watch.neighbours_sound (env : Surroundings) (ls : List Lexeme) :
    Watch.neighbours.Sound env (Phrase.Passes ls) (fun s => s.faults = [])
      (fun (_ : Unit) => Passed ls) id where
  back h hg := List.suffix_nil.1 (hg ▸ h.faults)
  take := by
    intro _ S s hmay hs
    obtain ⟨flag, hp, hk⟩ := hs
    simp only [neighbours, Bool.and_eq_true] at hmay
    obtain ⟨hident, herror⟩ := hmay
    have hkinds : (S.down.union S.up).has s.current = true := by
      cases flag <;> simp_all [Sight.has]
    cases hr : s.rest with
    | nil =>
      have hrest : s.take.rest = s.rest := by rw [take_of_nil hr]; rfl
      have hend : s.current = .endOfFile := by simp [current, hr]
      refine ⟨flag, ?_, ?_⟩
      · obtain ⟨passed, hls, hrest'⟩ := hp
        exact ⟨passed, by rw [hrest]; exact hls, hrest'⟩
      · rw [current_eq hrest]
        cases flag <;> simp_all [neighbours, Sight.has]
    | cons l tail =>
      have hne : s.current ≠ .error := by
        intro he
        have := KindSet.not_has_of_isEmpty herror (k := .error)
        simp_all
      have hdown : s.current = .ident → flag = false := by
        intro hi
        cases flag with
        | false => rfl
        | true =>
          have := KindSet.not_has_of_isEmpty hident (k := .ident)
          simp_all [Sight.has]
      refine ⟨_, hp.take hr hne hdown, ?_⟩
      by_cases hstring : s.current = .string
      · simp_all [neighbours, Sight.has]
      · have hwithin : (S.down.union S.up).within (.only [.string]) = false := by
          by_contra hw
          have := KindSet.has_of_within (by simpa using hw) hkinds
          simp_all
        simp [neighbours, Sight.has, hwithin, beq_eq_false_iff_ne.2 hstring]
  fault h := absurd h (faults_record_ne _ _)
  call := by
    intro _ S p s b s' hmay _ hspec hg hs
    obtain ⟨flag, hp, hk⟩ := hs
    obtain ⟨flag', hp', hk'⟩ := hspec hg flag hp (Sight.has_of_within hmay hk)
    exact ⟨flag', hp', by simpa [neighbours, Sight.isEmpty_of_has hk] using hk'⟩
  inside h := h
  node _ _ _ h := h
  mark _ h := h
  wrap _ h := h

/-- A phrase that is read without faults passes only what a program can have. -/
theorem Phrase.Reads.passes {p s b s'} (h : Phrase.Reads env p s b s') : p.Passes ls s b s' := by
  refine h.induct (Phrase.Passes ls) fun p s b s' h hg flag hp hk => ?_
  obtain ⟨hfits, hafter⟩ := p.neighbours_fits
  exact ((Watch.neighbours_sound env ls).holds h hg (fun _ => ⟨(), rfl⟩) hfits
    ⟨flag, hp, hk⟩).either.within hafter

/-- The words of a program stand beside one another as `Neighbours` says. -/
theorem neighbours_words {t : Text} (h : (parse t).ok = true) :
    Neighbours (((layout t).tokens.filter (!·.isTrivia)).map Token.kind) := by
  obtain ⟨b, s, hreads, hrest, -, -, hfaults⟩ := exists_reading t
  have hs : s.faults = [] := by simpa [Parse.ok, hfaults] using h
  have hstart : Passed (Lexeme.split (layout t).tokens).2 false
      (Progress.start (layout t).tokens (layout t).faults) :=
    ⟨[], rfl, ⟨.nil, by simp⟩, rfl⟩
  obtain ⟨_, ⟨passed, hls, hn, -⟩, -⟩ := hreads.passes hs false hstart rfl
  rw [hrest, List.append_nil] at hls
  rw [← Lexeme.map_token_split, hls, List.map_map]
  exact hn

/-! ## Tokens before their layout -/

namespace Layout

/-- A word is laid out last of what it brings with it, and its line has begun then. -/
theorem step_word (s : Layout) {k : Token} (hn : k.kind ≠ .newline) (ht : k.kind.isTrivia = false) :
    (s.step k).1.gap = none ∧ ∃ front, (s.step k).2.tokens = front ++ [k] := by
  have h := steps_step s k
  generalize s.step k = r at h
  obtain ⟨s', out⟩ := r
  cases h with
  | endLine _ hk | joinLines _ hk | blankLine _ hk => exact absurd hk hn
  | continuation _ hk => rw [hk] at ht; cases ht
  | trivia _ hk => rcases hk with hk | hk <;> rw [hk] at ht <;> cases ht
  | inLine => exact ⟨rfl, [], rfl⟩
  | @indent g => exact ⟨rfl, g.held ++ [⟨.indent, [], k.offset⟩], by simp⟩
  | dedent => exact ⟨rfl, _, rfl⟩
  | stray => exact ⟨rfl, _, rfl⟩

/-- Within a line a word is laid out alone. -/
theorem step_inLine {s : Layout} {k : Token} (hg : s.gap = none) (hn : k.kind ≠ .newline) :
    (s.step k).2.tokens = [k] := by
  have h := steps_step s k
  generalize s.step k = r at h
  obtain ⟨s', out⟩ := r
  cases h <;> simp_all

/-- What is laid out as a program can have it was so before. -/
theorem neighbours_run {stop : Nat} {s : Layout} {ks : List Token}
    (h : Neighbours (((s.run stop ks).tokens.filter (!·.isTrivia)).map Token.kind)) :
    Neighbours (ks.map Token.kind) := by
  induction ks generalizing s with
  | nil => exact ⟨.nil, by simp⟩
  | cons k ks ih =>
    have hrun : (s.run stop (k :: ks)).tokens =
        (s.step k).2.tokens ++ ((s.step k).1.run stop ks).tokens := rfl
    rw [hrun, List.filter_append, List.map_append] at h
    have hks := ih h.right
    have hword (ht : k.kind.isTrivia = false) (hn : k.kind ≠ .newline) :
        ∃ front, (s.step k).2.tokens.filter (!·.isTrivia) = front ++ [k] := by
      obtain ⟨-, front, hfront⟩ := s.step_word hn ht
      exact ⟨front.filter (!·.isTrivia), by simp [hfront, Token.isTrivia, ht]⟩
    refine ⟨List.isChain_cons.2 ⟨?_, hks.apart⟩, ?_⟩
    · rintro b hb ⟨hk, rfl⟩
      obtain ⟨hgap, -⟩ := s.step_word (k := k) (by simp [hk]) (by simp [hk, Kind.isTrivia])
      obtain ⟨front, hfront⟩ := hword (by simp [hk, Kind.isTrivia]) (by simp [hk])
      cases ks with
      | nil => cases hb
      | cons l ks =>
        have hl : l.kind = .ident := by simpa using hb
        have hnext : (((s.step k).1.run stop (l :: ks)).tokens) =
            [l] ++ (((s.step k).1.step l).1.run stop ks).tokens := by
          rw [← step_inLine hgap (k := l) (by simp [hl])]
          rfl
        rw [hfront, hnext] at h
        have happart := h.apart
        simp only [List.map_append, List.filter_append, List.append_assoc] at happart
        have := (List.isChain_append.1 happart).2.1
        simp [Token.isTrivia, hl, hk, Kind.isTrivia] at this
    · intro he
      rcases List.mem_cons.1 he with he | he
      · obtain ⟨front, hfront⟩ := hword (by simp [← he, Kind.isTrivia]) (by simp [← he])
        exact h.noError (by simp [hfront, ← he])
      · exact hks.noError he

end Layout

/-- In a program no name stands right behind a string, and there is no error
token. -/
theorem neighbours_tokenize {t : Text} (h : (parse t).ok = true) :
    Neighbours ((tokenize t).map Token.kind) :=
  Layout.neighbours_run (neighbours_words h)

theorem kind_ne_error_of_ok {t : Text} (h : (parse t).ok = true) {k : Token} (hk : k ∈ tokenize t) :
    k.kind ≠ .error := by
  intro herror
  refine (neighbours_tokenize h).noError ?_
  rw [← herror]
  exact List.mem_map_of_mem hk

end SceneGate
