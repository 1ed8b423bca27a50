/-
Where statements stand on their lines. A statement is read only where a logical
line is to begin, and after it the next one is to begin or the text is at its
end; INDENT and DEDENT are read only where a block opens and ends. An expression
leaves its line as it found it, begun.

The flag that is watched here is up while no logical line has begun since the last
one ended. Only readings without faults are watched.
-/
import SceneGate.Proofs.BlockTree
import SceneGate.Proofs.Idle

namespace SceneGate

/-- Kinds other than those that open and end blocks. -/
def KindSet.words : KindSet := .allBut [.indent, .dedent]

/-- The point after a statement: a line is to begin, or nothing is left. -/
def Sight.afterLine : Sight := ⟨.only [.endOfFile], .all⟩

namespace Phrase

/-- Where a phrase is read. -/
def entered (p : Phrase) : Sight :=
  match p with
  | .program | .statement => ⟨.none, .all⟩
  | .unexpectedIndent => ⟨.none, .only [.indent]⟩
  | .ifStatement | .whileStatement | .forStatement | .withStatement | .tryStatement
  | .exceptClause | .finallyClause | .decorated | .function | .classParts => ⟨.none, p.startsOn⟩
  | .elseClause => .afterLine
  | .block | .argumentsFrom _ | .parameter _ | .slices | .sliceItem => ⟨.words, .none⟩
  | _ => ⟨p.startsOn.inter .words, p.startsOn.inter .words⟩

/-- What is known after a phrase. -/
def leaves : Phrase → Sight
  | .unexpectedIndent => .nothing
  | .program | .statement | .block | .simpleStatements | .ifStatement | .elseClause
  | .whileStatement | .forStatement | .withStatement | .tryStatement | .exceptClause
  | .finallyClause | .decorated | .function | .classParts => .afterLine
  | _ => ⟨.words, .none⟩

end Phrase

/-- Watches whether a logical line has begun. -/
def Watch.line : Watch where
  taken S :=
    let kinds := S.down.union S.up
    ⟨(S.down.inter (.only [.endOfFile])).union
        (if kinds.within (.only [.newline, .endOfFile]) then .none else .words),
      (S.up.inter (.only [.endOfFile])).union (if kinds.has .newline then .all else .none)⟩
  faulted _ := .nothing
  left p S := if S.isEmpty then .nothing else p.leaves
  mayTake S := (S.up.inter (.only [.indent, .dedent])).isEmpty
  mayCall p S := S.within p.entered
  mayOpen kind _ S := kind != .block && (!kind.hasClauses ||
    S.down.isEmpty && (S.up.inter (.only [.indent, .dedent])).isEmpty)
  mayWrap kind := kind != .block && !kind.hasClauses

/-- All that is done in a phrase other than a block is allowed where it is read,
and leaves the line as `Phrase.leaves` says. -/
theorem Phrase.line_fits (p : Phrase) (h : p ≠ .block) :
    Watch.line.fits false p.form p.entered = true ∧
      (Watch.line.after p.form p.entered).either.within p.leaves = true := by
  revert p
  decide +kernel

end SceneGate
