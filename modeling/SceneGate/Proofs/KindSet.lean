/-
Sets of kinds, each given by a finite list: of what is in it, or of what is not.
They say what is known of the next token at a point of the grammar, and all that
is asked of them can be computed.
-/
import SceneGate.Source.Kind

namespace SceneGate

/-- A set of kinds. -/
inductive KindSet where
  /-- The kinds in a list. -/
  | only (kinds : List Kind)
  /-- All kinds but those in a list. -/
  | allBut (kinds : List Kind)
deriving DecidableEq, Repr

namespace KindSet

/-- Whether a kind is in the set. -/
def has : KindSet → Kind → Bool
  | only ks, k => ks.contains k
  | allBut ks, k => !ks.contains k

/-- All kinds. -/
def all : KindSet := allBut []

/-- No kinds. -/
def none : KindSet := only []

/-- The kinds in both sets. -/
def inter : KindSet → KindSet → KindSet
  | only as, b => only (as.filter b.has)
  | allBut as, only bs => only (bs.filter (allBut as).has)
  | allBut as, allBut bs => allBut (as ++ bs.filter (allBut as).has)

/-- The kinds in one of the sets. -/
def union : KindSet → KindSet → KindSet
  | only as, only bs => only (as ++ bs.filter (allBut as).has)
  | only as, allBut bs => allBut (bs.filter (allBut as).has)
  | allBut as, only bs => allBut (as.filter (allBut bs).has)
  | allBut as, allBut bs => allBut (as.filter (only bs).has)

/-- Whether the set is seen to be empty. A set of all kinds but some is not. -/
def isEmpty : KindSet → Bool
  | only ks => ks.isEmpty
  | allBut _ => false

/-- Whether the first set is seen to be a part of the second. -/
def within : KindSet → KindSet → Bool
  | only as, b => as.all b.has
  | allBut as, allBut bs => bs.all (only as).has
  | allBut _, only _ => false

variable {a b : KindSet} {k : Kind}

@[simp] theorem has_only (ks : List Kind) : (only ks).has k = ks.contains k := rfl

@[simp] theorem has_allBut (ks : List Kind) : (allBut ks).has k = !ks.contains k := rfl

@[simp] theorem has_all : all.has k = true := rfl

@[simp] theorem has_none : none.has k = false := rfl

@[simp] theorem has_inter : (a.inter b).has k = (a.has k && b.has k) := by
  cases a with
  | only as => grind [inter, has]
  | allBut as => cases b <;> grind [inter, has]

@[simp] theorem has_union : (a.union b).has k = (a.has k || b.has k) := by
  cases a <;> cases b <;> grind [union, has]

theorem not_has_of_isEmpty (h : a.isEmpty = true) : a.has k = false := by
  cases a with
  | only as => simp_all [isEmpty]
  | allBut as => cases h

theorem isEmpty_of_has (h : a.has k = true) : a.isEmpty = false := by
  cases he : a.isEmpty with
  | false => rfl
  | true => rw [not_has_of_isEmpty he] at h; cases h

theorem has_of_within (h : a.within b = true) (hk : a.has k = true) : b.has k = true := by
  cases a with
  | only as => simp_all [within]
  | allBut as =>
    cases b with
    | only bs => cases h
    | allBut bs => grind [within, has]

end KindSet

end SceneGate
