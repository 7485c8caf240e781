import TurtleGrammar.Proofs.Branches
import TurtleGrammar.Proofs.Origins
import TurtleGrammar.Proofs.Signs

/-! # Scaling — the step length stays a number

    A description is refused if a line gives a length that is not finite, or a
    scale that is not positive and finite.  A scale can come from a preset as
    well, and both have a value where nothing is said; these are in range too,
    so a walk always begins with settings in range (`Grammar.inRange_of_ofBytes`).

    While a word is walked, the length is multiplied and divided by the scale
    over and over.  It can overflow, underflow and come back from neither, but
    it never loses its sign (`sign?_foldl_rescale`), and only a NaN has none. -/

namespace TurtleGrammar

open Scalar

/-! ## Settings in range -/

/-- The number is positive and finite. -/
structure IsScale (factor : Float) : Prop where
  positive : 0 < factor
  finite : factor.isFinite = true

/-- The step length is finite, and it is rescaled by a scale. -/
structure TurtleConfig.InRange (config : TurtleConfig) : Prop where
  length : config.length.isFinite = true
  factor : IsScale config.factor

theorem isFinite_of_says {bytes : List UInt8} {l : Float} (h : Says bytes (.length l)) :
    l.isFinite = true := by
  obtain ⟨line, -, keyword, tokens, -, hstated⟩ := h
  cases hstated with
  | length _ hfinite => exact hfinite

/-- A scale that is stated is positive and finite. -/
theorem isScale_of_says {bytes : List UInt8} {x : Float} (h : Says bytes (.scale x)) :
    IsScale x := by
  obtain ⟨line, -, keyword, tokens, -, hstated⟩ := h
  cases hstated with
  | scale _ hpositive hfinite => exact ⟨hpositive, hfinite⟩

theorem isScale_one : IsScale 1 := ⟨by decide, by decide⟩

/-- Every curve of the catalog is drawn with a scale. -/
theorem Preset.isScale_lengthFactor {p : Preset} (h : p ∈ catalog) : IsScale p.lengthFactor := by
  simp only [catalog, List.mem_cons, List.not_mem_nil, or_false] at h
  have hshrinking : IsScale shrinkingH.lengthFactor := ⟨by decide, by decide⟩
  rcases h with rfl | rfl | rfl | rfl | rfl | rfl | rfl | rfl
  -- only the shrinking H has a factor other than one
  exacts [isScale_one, isScale_one, isScale_one, isScale_one, isScale_one, hshrinking,
    isScale_one, isScale_one]

/-- Whatever is read, its walks begin in range. -/
theorem Grammar.inRange_of_ofBytes {name : String} {bytes : List UInt8} {g : Grammar}
    (h : ofBytes name bytes = .ok g) : g.config.InRange := by
  have hfrom := comesFrom_of_ofBytes h
  constructor
  · exact hfrom.length.elim (fun _ => isFinite_of_says) (by decide)
  · refine hfrom.factor.elim (fun _ => isScale_of_says) ?_
    cases hpreset : g.preset with
    | none => exact isScale_one
    | some p =>
        exact Preset.isScale_lengthFactor (mem_catalog_of_named ((hfrom.preset p).mp hpreset))

/-! ## Rescaling -/

/-- **Step lemma**: no command changes the sign of the length. -/
theorem IsScale.sign?_rescale {factor : Float} (h : IsScale factor) (length : Float)
    (command : Command) : sign? (rescale factor length command) = sign? length := by
  cases command with
  | scaleUp => exact sign?_mul length h.positive h.finite
  | scaleDown => exact sign?_div length h.positive h.finite
  | _ => rfl

/-- **Run lemma**: nor do any commands. -/
theorem IsScale.sign?_foldl_rescale {factor : Float} (h : IsScale factor) (length : Float)
    (commands : List Command) :
    sign? (commands.foldl (rescale factor) length) = sign? length := by
  induction commands generalizing length with
  | nil => rfl
  | cons command commands ih => rw [List.foldl_cons, ih, h.sign?_rescale]

namespace Turtle

/-- With settings in range, the length is a number at every moment of a walk, and its sign is
    the one that it began with. -/
theorem length_of_inRange {t : Turtle} (h : t.config.InRange) (u w : Word) :
    ((t.ready w).executeAll (Command.ofWord u)).cursor.length.isNaN = false
      ∧ signBit ((t.ready w).executeAll (Command.ofWord u)).cursor.length
        = signBit t.config.length := by
  refine signBit_of_sign?_eq ?_ (isNaN_of_isFinite h.length)
  rw [length_executeAll]
  exact h.factor.sign?_foldl_rescale t.config.length (Command.ofWord u)

end Turtle

/-- **Range checks keep step lengths sane**: what is read has a finite step length and a
    positive finite factor.  Whatever word is walked under its settings, the step length is a
    number after each of the symbols, with the first bit that it had at the start. -/
theorem Grammar.lengths_stay_numbers {name : String} {bytes : List UInt8} {g : Grammar}
    (h : ofBytes name bytes = .ok g) :
    g.config.length.isFinite = true
      ∧ (0 < g.config.factor ∧ g.config.factor.isFinite = true)
      ∧ ∀ (t : Turtle) (u v : Word), t.config = g.config →
          t.run (u ++ v)
              = ((t.ready (u ++ v)).executeAll (Command.ofWord u)).executeAll (Command.ofWord v)
            ∧ ((t.ready (u ++ v)).executeAll (Command.ofWord u)).cursor.length.isNaN = false
            ∧ signBit ((t.ready (u ++ v)).executeAll (Command.ofWord u)).cursor.length
              = signBit g.config.length := by
  have hrange := inRange_of_ofBytes h
  refine ⟨hrange.length, ⟨hrange.factor.positive, hrange.factor.finite⟩, ?_⟩
  intro t u v hconfig
  rw [← hconfig] at hrange ⊢
  refine ⟨?_, Turtle.length_of_inRange hrange u (u ++ v)⟩
  rw [Turtle.run_eq_executeAll, Command.ofWord_append, Turtle.executeAll_append]

/-- A negative length that overflows at the first `>`, and what is left to read then. -/
theorem Grammar.lengths_stay_numbers_overflow :
    ∃ g, ofText "large" "axiom F>F<<F\nlength -1e300\nscale 1e300\ngenerations 0" = .ok g
      ∧ (((Turtle.new g.config).ready "F>F<<F".toList).executeAll
          (Command.ofWord "F>".toList)).cursor.length.isNaN = false
      ∧ signBit (((Turtle.new g.config).ready "F>F<<F".toList).executeAll
          (Command.ofWord "F>".toList)).cursor.length = signBit g.config.length := by
  have hok : (ofText "large" "axiom F>F<<F\nlength -1e300\nscale 1e300\ngenerations 0").isOk
      = true := by
    decide +kernel
  obtain ⟨g, h⟩ := exists_eq_ok_of_isOk hok
  obtain ⟨-, -, hwalk⟩ := lengths_stay_numbers h
  have hword : "F>".toList ++ "F<<F".toList = "F>F<<F".toList := by decide
  have hmoment := hwalk (Turtle.new g.config) "F>".toList "F<<F".toList rfl
  rw [hword] at hmoment
  exact ⟨g, h, hmoment.2⟩

end TurtleGrammar
