import TurtleGrammar.RuleSet
import TurtleGrammar.Turtle.Command

/-! # Brackets — words whose branches are all begun and ended

    A list is balanced with regard to an opening and a closing sign when each
    of them is matched by one of the other kind.  Other signs may stand
    anywhere.

    The rules of `Balanced` say how balanced lists are made, which is what
    inductions follow.  `closesAll` decides the same by counting what is open,
    from left to right. -/

namespace TurtleGrammar

/-- Every opening sign has its closing sign, and every closing sign its opening one. -/
inductive Balanced {α : Type} (opening closing : α) : List α → Prop where
  | nil : Balanced opening closing []
  /-- Any other sign counts for nothing. -/
  | other {c : α} {w : List α} : c ≠ opening → c ≠ closing → Balanced opening closing w →
      Balanced opening closing (c :: w)
  /-- A branch with balanced content. -/
  | branch {u v : List α} : Balanced opening closing u → Balanced opening closing v →
      Balanced opening closing (opening :: (u ++ closing :: v))

section Counting

variable {α : Type} [DecidableEq α] {opening closing : α}

/-- Whether a list that begins inside `depth` branches ends them all, and all that it
    begins itself. -/
def closesAll (opening closing : α) : Nat → List α → Bool
  | depth, [] => depth == 0
  | depth, c :: w =>
      if c = opening then closesAll opening closing (depth + 1) w
      else if c = closing then depth != 0 && closesAll opening closing (depth - 1) w
      else closesAll opening closing depth w

/-- What `closesAll` counts: `depth` closing signs stand between balanced parts. -/
def Closes (opening closing : α) : Nat → List α → Prop
  | 0, w => Balanced opening closing w
  | depth + 1, w =>
      ∃ u v, w = u ++ closing :: v ∧ Balanced opening closing u ∧ Closes opening closing depth v

omit [DecidableEq α] in
/-- Any other sign goes to the first of the balanced parts. -/
theorem Closes.other {depth : Nat} {c : α} {w : List α} (hopening : c ≠ opening)
    (hclosing : c ≠ closing) (h : Closes opening closing depth w) :
    Closes opening closing depth (c :: w) := by
  cases depth with
  | zero => exact Balanced.other hopening hclosing h
  | succ depth =>
      obtain ⟨u, v, rfl, hu, hv⟩ := h
      exact ⟨c :: u, v, rfl, .other hopening hclosing hu, hv⟩

omit [DecidableEq α] in
/-- An opening sign takes the first of the closing signs for itself. -/
theorem Closes.branch {depth : Nat} {w : List α} (h : Closes opening closing (depth + 1) w) :
    Closes opening closing depth (opening :: w) := by
  obtain ⟨u, v, rfl, hu, hv⟩ := h
  cases depth with
  | zero => exact Balanced.branch hu hv
  | succ depth =>
      obtain ⟨u', v', rfl, hu', hv'⟩ := hv
      refine ⟨opening :: (u ++ closing :: u'), v', ?_, .branch hu hu', hv'⟩
      simp only [List.append_assoc, List.cons_append]

/-- What the count accepts is cut into balanced parts at its closing signs. -/
theorem closes_of_closesAll {depth : Nat} {w : List α}
    (h : closesAll opening closing depth w = true) : Closes opening closing depth w := by
  induction w generalizing depth with
  | nil =>
      obtain rfl : depth = 0 := beq_iff_eq.mp h
      exact Balanced.nil
  | cons c w ih =>
      rw [closesAll] at h
      by_cases hopening : c = opening
      · rw [if_pos hopening] at h
        rw [hopening]
        exact (ih h).branch
      · rw [if_neg hopening] at h
        by_cases hclosing : c = closing
        · rw [if_pos hclosing] at h
          cases depth with
          -- a closing sign with nothing to close is not accepted
          | zero => exact nomatch h
          | succ depth => exact ⟨[], w, congrArg (· :: w) hclosing, .nil, ih h⟩
        · rw [if_neg hclosing] at h
          exact (ih h).other hopening hclosing

/-- A balanced part leaves the count as it was. -/
theorem Balanced.closesAll_append (hne : opening ≠ closing) {u : List α}
    (h : Balanced opening closing u) (depth : Nat) (v : List α) :
    closesAll opening closing depth (u ++ v) = closesAll opening closing depth v := by
  induction h generalizing depth v with
  | nil => rfl
  | other hopening hclosing _ ih =>
      rw [List.cons_append, closesAll, if_neg hopening, if_neg hclosing, ih]
  | branch _ _ ihu ihv =>
      rw [List.cons_append, List.append_assoc, List.cons_append, closesAll, if_pos rfl, ihu,
        closesAll, if_neg hne.symm, if_pos rfl, ihv]
      rfl

/-- A list is balanced exactly when the count says so. -/
theorem balanced_iff_closesAll (hne : opening ≠ closing) {w : List α} :
    Balanced opening closing w ↔ closesAll opening closing 0 w = true := by
  constructor
  · intro h
    rw [← List.append_nil w, h.closesAll_append hne]
    rfl
  · intro h
    exact closes_of_closesAll h

end Counting

instance (w : Word) : Decidable (Balanced '[' ']' w) :=
  decidable_of_iff _ (balanced_iff_closesAll (by decide)).symm

/-! ## From symbols to commands -/

theorem Command.ofWord_branch (u v : Word) :
    Command.ofWord ('[' :: (u ++ ']' :: v))
      = .push :: (Command.ofWord u ++ .pop :: Command.ofWord v) :=
  congrArg (Command.push :: ·) (Command.ofWord_append u (']' :: v))

/-- The word as a branch of its own. -/
def branchOf (w : Word) : Word := '[' :: (w ++ [']'])

theorem Balanced.branchOf {w : Word} (h : Balanced '[' ']' w) :
    Balanced '[' ']' (TurtleGrammar.branchOf w) := .branch h .nil

/-- The commands of a branch are those of its content, between its two ends. -/
theorem Command.ofWord_branchOf (w : Word) :
    Command.ofWord (branchOf w) = .push :: (Command.ofWord w ++ [.pop]) :=
  Command.ofWord_branch w []

/-- The commands of a balanced word are balanced: no other symbol begins or ends a
    branch. -/
theorem Balanced.ofWord {w : Word} (h : Balanced '[' ']' w) :
    Balanced Command.push Command.pop (Command.ofWord w) := by
  induction h with
  | nil => exact .nil
  | @other c w hopening hclosing _ ih =>
      cases hc : Command.ofSymbol? c with
      | none =>
          rw [Command.ofWord, List.filterMap_cons_none hc]
          exact ih
      | some command =>
          rw [Command.ofWord, List.filterMap_cons_some hc]
          -- a command of its own, but not one of the two ends
          have hsymbol : c = command.symbol := Command.ofSymbol?_eq_some.mp hc
          refine .other ?_ ?_ ih
          · rintro rfl
            exact hopening hsymbol
          · rintro rfl
            exact hclosing hsymbol
  | @branch u v _ _ ihu ihv =>
      rw [Command.ofWord_branch]
      exact .branch ihu ihv

end TurtleGrammar
