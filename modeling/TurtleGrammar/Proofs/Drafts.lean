import Mathlib.Data.List.Nodup
import Mathlib.Tactic.Tauto
import TurtleGrammar.Description.Reading

/-! # Drafts — which lines can be taken up together

    A line that is read gives a setting or nothing.  What a sequence of lines
    does to a draft is decided by the settings of its lines alone: the lines
    are accepted when each of them can be read and no entry is set twice, and
    the draft then holds the settings in order (`Draft.addLines_eq_ok`). -/

namespace TurtleGrammar

/-- The setting of a line, if the line can be read and gives one. -/
def Line.setting? (line : List UInt8) : Option Setting := (readLine line).toOption.join

/-- The settings of lines, in order. -/
def Line.settings (lines : List (List UInt8)) : List Setting := lines.filterMap Line.setting?

/-- The setting of a line is what the line says when it is read. -/
theorem Line.setting?_eq_some {line : List UInt8} {s : Setting} :
    Line.setting? line = some s ↔ readLine line = .ok (some s) := by
  rw [Line.setting?]
  cases readLine line with
  | error fault => exact iff_of_false (fun h => nomatch h) (fun h => nomatch h)
  | ok o =>
      constructor
      · intro h
        exact congrArg Except.ok h
      · intro h
        exact Except.ok.inj h

/-- What succeeds has a result. -/
theorem exists_eq_ok_of_isOk {ε α : Type} {x : Except ε α} (h : x.isOk = true) :
    ∃ a, x = .ok a := by
  cases x with
  | error e => cases h
  | ok a => exact ⟨a, rfl⟩

/-- Only errors change under a map of errors. -/
theorem mapError_eq_ok {ε ε' α : Type} {x : Except ε α} {f : ε → ε'} {a : α} :
    x.mapError f = .ok a ↔ x = .ok a := by
  cases x with
  | error e =>
      constructor
      · rintro ⟨⟩
      · rintro ⟨⟩
  | ok b =>
      show Except.ok b = .ok a ↔ Except.ok b = .ok a
      simp only [Except.ok.injEq]

/-- An error after the map is one from before it. -/
theorem mapError_eq_error {ε ε' α : Type} {x : Except ε α} {f : ε → ε'} {e' : ε'} :
    x.mapError f = .error e' ↔ ∃ e, x = .error e ∧ f e = e' := by
  cases x with
  | error e =>
      constructor
      · rintro ⟨⟩
        exact ⟨e, rfl, rfl⟩
      · rintro ⟨e, ⟨⟩, rfl⟩
        rfl
  | ok a =>
      constructor
      · rintro ⟨⟩
      · rintro ⟨e, ⟨⟩, -⟩

namespace Draft

/-- Settings set one after the other. -/
def setAll (d : Draft) (ss : List Setting) : Draft := ss.foldl set d

/-! ## What is set -/

/-- **Frame**: a setting sets its own entry and no other. -/
theorem has_set (d : Draft) (s : Setting) (e : Entry) :
    (d.set s).has e = true ↔ d.has e = true ∨ e = s.entry := by
  cases e with
  | slot slot => cases s <;> cases slot <;> simp [set, has, Setting.entry]
  | rule symbol =>
      cases s with
      | rule c w =>
          simp only [set, has, Setting.entry, Array.any_push, Bool.or_eq_true, beq_iff_eq,
            Entry.rule.injEq]
          exact or_congr_right eq_comm
      | _ => simp [set, has, Setting.entry]

/-- An entry is set when it was set before or when one of the settings is for it. -/
theorem has_setAll (d : Draft) (ss : List Setting) (e : Entry) :
    (d.setAll ss).has e = true ↔ d.has e = true ∨ ∃ s ∈ ss, s.entry = e := by
  induction ss generalizing d with
  | nil => simp [setAll]
  | cons s ss ih =>
      show ((d.set s).setAll ss).has e = true ↔ _
      rw [ih, has_set, or_assoc]
      simp only [List.mem_cons, exists_eq_or_imp, eq_comm (a := e)]

theorem has_empty (e : Entry) : ({} : Draft).has e = false := by
  cases e with
  | slot slot => cases slot <;> rfl
  | rule symbol => exact Array.any_empty

/-- A draft that starts empty has what its settings set. -/
theorem has_setAll_empty {ss : List Setting} {e : Entry} :
    (({} : Draft).setAll ss).has e = true ↔ ∃ s ∈ ss, s.entry = e := by
  rw [has_setAll, has_empty]
  exact or_iff_right Bool.false_ne_true

/-! ## What is accepted -/

/-- **Inversion**: a setting is added exactly when its entry is free, and then the draft has it. -/
theorem add_eq_ok {d d' : Draft} {s : Setting} :
    d.add s = .ok d' ↔ d.has s.entry = false ∧ d.set s = d' := by
  rw [add]
  by_cases h : d.has s.entry = true
  · rw [if_pos h]
    refine iff_of_false (fun hadd => nomatch hadd) ?_
    rintro ⟨hno, -⟩
    rw [h] at hno
    exact nomatch hno
  · rw [if_neg h]
    rw [Bool.not_eq_true] at h
    constructor
    · intro hadd
      exact ⟨h, Except.ok.inj hadd⟩
    · rintro ⟨-, rfl⟩
      rfl

theorem addLine_of_error {d : Draft} {line : List UInt8} {fault : LineFault}
    (h : readLine line = .error fault) : d.addLine line = .error fault := by
  rw [addLine, h]

theorem addLine_of_none {d : Draft} {line : List UInt8} (h : readLine line = .ok none) :
    d.addLine line = .ok d := by
  rw [addLine, h]

theorem addLine_of_some {d : Draft} {line : List UInt8} {s : Setting}
    (h : readLine line = .ok (some s)) : d.addLine line = (d.add s).mapError .repeated := by
  rw [addLine, h]

/-- **Inversion**: a line that is taken up says nothing and leaves the draft alone, or its setting
    is added. -/
theorem addLine_eq_ok {d d' : Draft} {line : List UInt8} :
    d.addLine line = .ok d'
      ↔ readLine line = .ok none ∧ d = d'
        ∨ ∃ s, readLine line = .ok (some s) ∧ d.add s = .ok d' := by
  -- the three outcomes of reading the line: a fault, nothing said, or a setting
  cases hread : readLine line with
  | error fault =>
      rw [addLine_of_error hread]
      constructor
      · rintro ⟨⟩
      · rintro (⟨⟨⟩, -⟩ | ⟨s, ⟨⟩, -⟩)
  | ok o =>
      cases o with
      | none =>
          rw [addLine_of_none hread]
          constructor
          · intro h
            exact Or.inl ⟨rfl, Except.ok.inj h⟩
          · rintro (⟨-, rfl⟩ | ⟨s, ⟨⟩, -⟩)
            rfl
      | some s =>
          rw [addLine_of_some hread, mapError_eq_ok]
          constructor
          · intro hadd
            exact Or.inr ⟨s, rfl, hadd⟩
          · rintro (⟨⟨⟩, -⟩ | ⟨s', hs', hadd⟩)
            obtain rfl := Option.some.inj (Except.ok.inj hs')
            exact hadd

/-- Entries are free after a setting exactly when they were free before it and are not the
    one that it sets. -/
theorem free_set {d : Draft} {s : Setting} {ss : List Setting} :
    (∀ s' ∈ ss, (d.set s).has s'.entry = false)
      ↔ s.entry ∉ ss.map Setting.entry ∧ ∀ s' ∈ ss, d.has s'.entry = false := by
  simp only [← Bool.not_eq_true, has_set, not_or, List.mem_map, not_exists, not_and]
  constructor
  · intro h
    exact ⟨fun s' hs' => (h s' hs').2, fun s' hs' => (h s' hs').1⟩
  · rintro ⟨hne, hfree⟩ s' hs'
    exact ⟨hfree s' hs', hne s' hs'⟩

/-- **Acceptance**: lines are taken up exactly when each of them can be read and their
    settings are for different entries, none of which has been set before. -/
theorem addLines_eq_ok {d d' : Draft} {number : Int32} {lines : List (List UInt8)} :
    d.addLines number lines = .ok d'
      ↔ (∀ line ∈ lines, ∃ o, readLine line = .ok o)
        ∧ ((Line.settings lines).map Setting.entry).Nodup
        ∧ (∀ s ∈ Line.settings lines, d.has s.entry = false)
        ∧ d.setAll (Line.settings lines) = d' := by
  induction lines generalizing d number with
  | nil =>
      constructor
      · intro h
        exact ⟨nofun, List.nodup_nil, nofun, Except.ok.inj h⟩
      · rintro ⟨-, -, -, rfl⟩
        rfl
  | cons line lines ih =>
      rw [addLines, List.forall_mem_cons]
      cases hread : readLine line with
      | error fault =>
          rw [addLine_of_error hread]
          refine iff_of_false (fun h => nomatch h) ?_
          rintro ⟨⟨⟨o, ho⟩, -⟩, -⟩
          exact nomatch ho
      | ok o =>
          have hline : ∃ o', Except.ok (ε := LineFault) o = .ok o' := ⟨o, rfl⟩
          rw [and_iff_right hline]
          -- a line without tokens counts as a line and changes nothing
          cases o with
          | none =>
              have hsettings : Line.settings (line :: lines) = Line.settings lines :=
                List.filterMap_cons_none (by rw [Line.setting?, hread]; rfl)
              rw [addLine_of_none hread, hsettings]
              exact ih
          | some s =>
              have hsettings : Line.settings (line :: lines) = s :: Line.settings lines :=
                List.filterMap_cons_some (Line.setting?_eq_some.mpr hread)
              rw [addLine_of_some hread, hsettings, List.map_cons, List.nodup_cons,
                List.forall_mem_cons]
              cases hadd : d.add s with
              | error e =>
                  refine iff_of_false (fun h => nomatch h) ?_
                  rintro ⟨-, -, ⟨hfree, -⟩, -⟩
                  rw [add_eq_ok.mpr ⟨hfree, rfl⟩] at hadd
                  exact nomatch hadd
              | ok d₁ =>
                  obtain ⟨hfree, rfl⟩ := add_eq_ok.mp hadd
                  show (d.set s).addLines (number + 1) lines = .ok d' ↔ _
                  -- what comes later has to be free in the draft that this line has changed
                  rw [ih, free_set, and_iff_right hfree]
                  show _ ↔ _ ∧ _ ∧ _ ∧ (d.set s).setAll (Line.settings lines) = d'
                  tauto

end Draft

end TurtleGrammar
