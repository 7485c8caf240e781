import TurtleGrammar.Proofs.Nesting

/-! # Pruning — what a word can lose without a change to its walk

    A symbol that is no command is passed over.  So is the end of a branch that
    was never begun, but for being counted.  Whether a `]` has a branch to end
    depends on all that stands before it: there must be a `[` with a balanced
    word between the two (`Matched`).

    While a word is read, the number of open branches goes up and down and stops
    at zero.

    - **In the word**, the number is above zero exactly where a `]` has its match
      (`matched_iff`), so it tells which commands are left
      (`ofWord_prunedAfter`).
    - **In the walk**, it is the number of branches that the turtle has open
      (`size_branches_execute`).  Commands that are left out find nothing to do
      (`executeAll_heeded`), and the grid takes no notice of them either
      (`stepLengths_heeded`). -/

namespace TurtleGrammar

/-! ## Matching signs -/

/-- A `]` that stands after the word has a match in it: a `[`, with a balanced word between
    the two. -/
def Matched (u : Word) : Prop :=
  ∃ before inside, u = before ++ '[' :: inside ∧ Balanced '[' ']' inside

/-- How many branches are open after a symbol, if `depth` of them are open before it. -/
def openAfter (depth : Nat) (c : Char) : Nat :=
  if c = '[' then depth + 1 else if c = ']' then depth - 1 else depth

/-- How many branches of a word are open at its end. -/
def opened (w : Word) : Nat := w.foldl openAfter 0

theorem openAfter_other {c : Char} (hopening : c ≠ '[') (hclosing : c ≠ ']') (depth : Nat) :
    openAfter depth c = depth := by
  rw [openAfter, if_neg hopening, if_neg hclosing]

theorem opened_concat (w : Word) (c : Char) : opened (w ++ [c]) = openAfter (opened w) c :=
  List.foldl_concat _ _ _ _

/-- A balanced word leaves as many branches open as it found. -/
theorem Balanced.foldl_openAfter {w : Word} (h : Balanced '[' ']' w) (depth : Nat) :
    w.foldl openAfter depth = depth := by
  induction h generalizing depth with
  | nil => rfl
  | other hopening hclosing _ ih =>
      rw [List.foldl_cons, openAfter_other hopening hclosing, ih]
  | branch _ _ ihinner ihrest =>
      rw [List.foldl_cons, List.foldl_append, ihinner, List.foldl_cons, ihrest]
      rfl

/-- What `opened` counts: `depth` signs are open, with balanced words after them. -/
def Opens : Nat → Word → Prop
  | 0, _ => True
  | depth + 1, u =>
      ∃ before inside, u = before ++ '[' :: inside ∧ Balanced '[' ']' inside
        ∧ Opens depth before

/-- A balanced word at the end leaves the same signs open. -/
theorem Opens.append {depth : Nat} {u w : Word} (h : Opens depth u) (hw : Balanced '[' ']' w) :
    Opens depth (u ++ w) := by
  cases depth with
  | zero => trivial
  | succ depth =>
      obtain ⟨before, inside, rfl, hinside, hbefore⟩ := h
      refine ⟨before, inside ++ w, ?_, hinside.append hw, hbefore⟩
      rw [List.append_assoc, List.cons_append]

/-- As many signs are open in a word as are counted. -/
theorem opens_opened (u : Word) : Opens (opened u) u := by
  induction u using List.reverseRecOn with
  | nil => trivial
  | append_singleton u c ih =>
      rw [opened_concat]
      by_cases hopening : c = '['
      · subst hopening
        exact ⟨u, [], rfl, .nil, ih⟩
      · by_cases hclosing : c = ']'
        · subst hclosing
          cases hdepth : opened u with
          | zero => trivial
          | succ depth =>
              -- the sign that is closed makes a balanced word with what it holds
              rw [hdepth] at ih
              obtain ⟨before, inside, rfl, hinside, hbefore⟩ := ih
              have hopens := hbefore.append hinside.branchOf
              rw [branchOf, ← List.cons_append, ← List.append_assoc] at hopens
              exact hopens
        · rw [openAfter_other hopening hclosing]
          exact ih.append (.other hopening hclosing .nil)

/-- **Matching is counting**: a `]` has a match exactly where a branch is open. -/
theorem matched_iff {u : Word} : Matched u ↔ 0 < opened u := by
  constructor
  · rintro ⟨before, inside, rfl, hinside⟩
    rw [opened, List.foldl_append, List.foldl_cons, hinside.foldl_openAfter]
    exact Nat.succ_pos _
  · intro h
    have hopens := opens_opened u
    obtain ⟨depth, hdepth⟩ := Nat.exists_eq_succ_of_ne_zero h.ne'
    rw [hdepth] at hopens
    obtain ⟨before, inside, hu, hinside, -⟩ := hopens
    exact ⟨before, inside, hu, hinside⟩

instance (u : Word) : Decidable (Matched u) := decidable_of_iff _ matched_iff.symm

/-! ## Pruned words -/

/-- The symbol, standing after the word, is a command, and if it ends a branch there is one
    for it to end. -/
def Effective (u : Word) (c : Char) : Prop :=
  (Command.ofSymbol? c).isSome = true ∧ (c = ']' → Matched u)

instance (u : Word) (c : Char) : Decidable (Effective u c) :=
  inferInstanceAs (Decidable (_ ∧ _))

/-- The symbols of the second word that are effective where they stand, after the first word
    and those before them. -/
def prunedAfter (u : Word) : Word → Word
  | [] => []
  | c :: w =>
      if Effective u c then c :: prunedAfter (u ++ [c]) w else prunedAfter (u ++ [c]) w

/-- The word without the symbols that are no command and without the ends of branches that
    have no match. -/
def pruned (w : Word) : Word := prunedAfter [] w

/-- The commands without the pops that have no branch to end, if `depth` branches are open
    before them. -/
def heeded : Nat → List Command → List Command
  | _, [] => []
  | depth, command :: commands =>
      let rest := heeded (openAfter depth command.symbol) commands
      if command = .pop ∧ depth = 0 then rest else command :: rest

theorem openAfter_of_none {c : Char} (h : Command.ofSymbol? c = none) (depth : Nat) :
    openAfter depth c = depth := by
  refine openAfter_other ?_ ?_ depth
  · rintro rfl
    cases h
  · rintro rfl
    cases h

theorem not_effective_of_none {u : Word} {c : Char} (h : Command.ofSymbol? c = none) :
    ¬ Effective u c := by
  rintro ⟨hcommand, -⟩
  rw [h] at hcommand
  cases hcommand

/-- A command has an effect unless it ends a branch where none is open. -/
theorem effective_symbol {u : Word} {command : Command} :
    Effective u command.symbol ↔ ¬ (command = .pop ∧ opened u = 0) := by
  rw [Effective, Command.ofSymbol?_symbol, matched_iff]
  cases command <;> simp [Command.symbol, Nat.pos_iff_ne_zero]

/-- What is left of a word are the commands that are heeded. -/
theorem ofWord_prunedAfter (u w : Word) :
    Command.ofWord (prunedAfter u w) = heeded (opened u) (Command.ofWord w) := by
  induction w generalizing u with
  | nil => rfl
  | cons c w ih =>
      rw [prunedAfter]
      -- the prefix `u` tells how many branches are open, which is all that the commands need
      cases hc : Command.ofSymbol? c with
      | none =>
          rw [if_neg (not_effective_of_none hc), ih, opened_concat, openAfter_of_none hc,
            Command.ofWord, Command.ofWord, List.filterMap_cons_none hc]
      | some command =>
          have hword : ∀ v, Command.ofWord (c :: v) = command :: Command.ofWord v :=
            fun v => List.filterMap_cons_some hc
          obtain rfl := Command.ofSymbol?_eq_some.mp hc
          rw [hword, heeded]
          by_cases hvain : command = .pop ∧ opened u = 0
          · rw [if_neg (effective_symbol.not_left.mpr hvain), if_pos hvain, ih, opened_concat]
          · rw [if_pos (effective_symbol.mpr hvain), if_neg hvain, hword, ih, opened_concat]

/-! ## The grid -/

/-- The first command steps with the length at hand, the others with what it makes of it. -/
theorem stepLengths_cons (factor length : Float) (command : Command) (commands : List Command) :
    stepLengths factor length (command :: commands)
      = stepLengths factor length [command]
        ++ stepLengths factor (rescale factor length command) commands :=
  stepLengths_append factor length [command] commands

/-- What is not heeded takes no step and changes the length of none. -/
theorem stepLengths_heeded (factor length : Float) (depth : Nat) (commands : List Command) :
    stepLengths factor length (heeded depth commands) = stepLengths factor length commands := by
  induction commands generalizing length depth with
  | nil => rfl
  | cons command commands ih =>
      rw [heeded]
      by_cases hvain : command = .pop ∧ depth = 0
      · rw [if_pos hvain, ih, hvain.1]
        rfl
      · rw [if_neg hvain, stepLengths_cons, ih, ← stepLengths_cons]

/-! ## The walk -/

namespace Turtle

/-- The turtle's open branches are those counted from the symbols. -/
theorem size_branches_execute (t : Turtle) (command : Command) :
    (t.execute command).branches.size = openAfter t.branches.size command.symbol := by
  cases command with
  | push => exact Array.size_push t.cursor.toPose
  | pop =>
      show t.pop.branches.size = t.branches.size - 1
      rcases t.pop_cases with ⟨branches, pose, hopen, hpop⟩ | ⟨hnone, hpop⟩
      · rw [hpop, hopen, Array.size_push]
        rfl
      · rw [hpop, hnone]
        rfl
  | _ => rfl

/-- The turtle with no count of ends of branches that had not been begun. -/
def excused (t : Turtle) : Turtle := { t with stats := { t.stats with unmatchedPops := 0 } }

/-- A command that has something to do adds nothing to the count, and takes no notice of
    it. -/
theorem execute_excused {t : Turtle} {command : Command}
    (h : ¬ (command = .pop ∧ t.branches.size = 0)) :
    t.excused.execute command = (t.execute command).excused
      ∧ (t.execute command).stats.unmatchedPops = t.stats.unmatchedPops := by
  cases command with
  | pop =>
      show t.excused.pop = t.pop.excused ∧ t.pop.stats.unmatchedPops = _
      rcases t.pop_cases with ⟨branches, pose, hopen, hpop⟩ | ⟨hnone, -⟩
      · have hexcused : t.excused.branches = branches.push pose := hopen
        rw [pop_of_branches hexcused, hpop]
        exact ⟨rfl, rfl⟩
      · exact absurd ⟨rfl, Array.size_eq_zero_iff.mpr hnone⟩ h
  | _ => exact ⟨rfl, rfl⟩

/-- A pop that has nothing to do is counted, and that is all. -/
theorem execute_vain {t : Turtle} (h : t.branches.size = 0) :
    (t.execute .pop).excused = t.excused
      ∧ (t.execute .pop).stats.unmatchedPops = t.stats.unmatchedPops + 1 := by
  have hnone : t.branches.back? = none := Array.back?_eq_none_iff.mpr (Array.size_eq_zero_iff.mp h)
  rw [execute, pop, hnone]
  exact ⟨rfl, rfl⟩

/-- **Run lemma**: commands that are not heeded change nothing but the count, and this by
    their number. -/
theorem executeAll_heeded {t : Turtle} {depth : Nat} (h : t.branches.size = depth)
    (commands : List Command) :
    t.excused.executeAll (heeded depth commands) = (t.executeAll commands).excused
      ∧ (t.executeAll commands).stats.unmatchedPops + (heeded depth commands).count .pop
        = t.stats.unmatchedPops + commands.count .pop := by
  induction commands generalizing t depth with
  | nil => exact ⟨rfl, rfl⟩
  | cons command commands ih =>
      subst h
      obtain ⟨hrun, hcount⟩ := ih (t.size_branches_execute command)
      rw [heeded]
      -- a branch ended where none is open is only counted; any other command is the same for both
      by_cases hvain : command = .pop ∧ t.branches.size = 0
      · obtain ⟨rfl, hnone⟩ := hvain
        obtain ⟨hsame, hone⟩ := execute_vain hnone
        rw [if_pos ⟨rfl, hnone⟩, ← hsame, List.count_cons_self]
        refine ⟨hrun, hcount.trans ?_⟩
        rw [hone, Nat.add_assoc, Nat.add_comm 1]
      · obtain ⟨hstep, hsame⟩ := execute_excused hvain
        rw [if_neg hvain, List.count_cons, List.count_cons, ← Nat.add_assoc, ← Nat.add_assoc]
        constructor
        · show (t.excused.execute command).executeAll _ = _
          rw [hstep]
          exact hrun
        · rw [← hsame]
          exact congrArg (· + _) hcount

/-- **Pruning changes no walk**: without the symbols that are no command and the ends of
    branches that have no match, a word is walked to the same turtle in every part, graph
    and grid included, but for the count of such ends.  It is zero then, and before it was
    the number of ends that were left out. -/
theorem run_pruned (t : Turtle) (w : Word) :
    t.run (pruned w)
        = { t.run w with stats := { (t.run w).stats with unmatchedPops := 0 } }
      ∧ (t.run w).stats.unmatchedPops + (pruned w).count ']' = w.count ']' := by
  have hcommands : Command.ofWord (pruned w) = heeded 0 (Command.ofWord w) :=
    ofWord_prunedAfter [] w
  -- the grid is read off the steps forward, and none of these is left out
  have hquantum : nodeQuantum t.config (Command.ofWord (pruned w))
      = nodeQuantum t.config (Command.ofWord w) := by
    rw [nodeQuantum, nodeQuantum, hcommands, stepLengths_heeded]
  have hready : t.ready (pruned w) = t.ready w := by
    rw [ready, ready, hquantum]
  have hnone : (t.ready w).branches.size = 0 := rfl
  obtain ⟨hrun, hcount⟩ := executeAll_heeded hnone (Command.ofWord w)
  rw [← hcommands] at hrun hcount
  constructor
  · rw [run_eq_executeAll, hready]
    exact hrun
  · rw [Command.count_ofWord, Command.count_ofWord] at hcount
    exact hcount.trans (Nat.zero_add _)

example : pruned "]X[F]+]]-[Y".toList = "[F]+-[".toList := by decide

end Turtle

end TurtleGrammar
