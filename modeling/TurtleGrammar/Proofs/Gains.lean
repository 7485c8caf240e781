import Mathlib.Data.Finset.Card
import Mathlib.Data.Fintype.Defs
import TurtleGrammar.Proofs.Held

/-! # Gains — each line adds one thing and takes nothing away

    A line that is taken up either has no tokens, and then the draft stays as
    it is, or it adds one thing: a value to a slot that had none
    (`Draft.GainsValue`) or a rule behind all others, for a symbol that had
    none (`Draft.GainsRule`).

    - **Step**: a line with tokens is taken up exactly where one of the two is
      possible for what it states (`Draft.addLine_eq_ok_of_hasTokens`).
    - **Run**: lines taken up one after the other keep what there was, append
      their rules in their order and add as many things as lines have tokens
      (`Draft.collects_of_addLines`). -/

namespace TurtleGrammar

/-! ## Lines with tokens -/

namespace Line

/-- The line has tokens. -/
def HasTokens (line : List UInt8) : Prop :=
  ∃ keyword tokens, Spells line (keyword :: tokens)

/-- The rules that lines state, in the order of the lines. -/
inductive RulesInOrder : List (List UInt8) → List (Char × Word) → Prop where
  | nil : RulesInOrder [] []
  | rule {line : List UInt8} {lines : List (List UInt8)} {c : Char} {w : Word}
      {rules : List (Char × Word)} :
      States line (.rule c w) → RulesInOrder lines rules →
      RulesInOrder (line :: lines) ((c, w) :: rules)
  /-- A line that states no rule is passed over. -/
  | other {line : List UInt8} {lines : List (List UInt8)} {rules : List (Char × Word)} :
      (∀ c w, ¬ States line (.rule c w)) → RulesInOrder lines rules →
      RulesInOrder (line :: lines) rules

/-- Whether a line has tokens can be computed. -/
theorem hasTokens_iff {line : List UInt8} :
    HasTokens line ↔ (decode? line).any (fun cs => !(tokens cs).isEmpty) = true := by
  rw [HasTokens, Option.any_eq_true]
  constructor
  · rintro ⟨keyword, rest, hspells⟩
    obtain ⟨cs, hline, htokens⟩ := spells_iff.mp hspells
    refine ⟨cs, hline, ?_⟩
    rw [htokens]
    rfl
  · rintro ⟨cs, hline, hne⟩
    cases htokens : tokens cs with
    | nil =>
        rw [htokens] at hne
        cases hne
    | cons keyword rest => exact ⟨keyword, rest, spells_iff.mpr ⟨cs, hline, htokens⟩⟩

instance : DecidablePred HasTokens := fun _ => decidable_of_iff _ hasTokens_iff.symm

/-- A line that states something has tokens. -/
theorem States.hasTokens {line : List UInt8} {s : Setting} (h : States line s) :
    HasTokens line := by
  obtain ⟨keyword, tokens, hspells, -⟩ := h
  exact ⟨keyword, tokens, hspells⟩

/-- A line cannot be both with and without tokens. -/
theorem Spells.not_hasTokens {line : List UInt8} (h : Spells line []) : ¬ HasTokens line := by
  rintro ⟨keyword, tokens, hspells⟩
  cases hspells.inj h

/-- A line states one setting at most. -/
theorem States.inj {line : List UInt8} {s s' : Setting} (h : States line s)
    (h' : States line s') : s = s' := by
  have hread := (readLine_eq_some.mpr h).symm.trans (readLine_eq_some.mpr h')
  exact Option.some.inj (Except.ok.inj hread)

/-- Rules in the order of their lines can be put behind each other with the lines. -/
theorem RulesInOrder.append {lines more : List (List UInt8)} {rules new : List (Char × Word)}
    (h : RulesInOrder lines rules) (hmore : RulesInOrder more new) :
    RulesInOrder (lines ++ more) (rules ++ new) := by
  induction h with
  | nil => exact hmore
  | rule hstates _ ih => exact .rule hstates ih
  | other hnone _ ih => exact .other hnone ih

end Line

/-! ## Slots and rules -/

instance : Fintype Slot where
  elems := {.preset, .seed, .angle, .heading, .length, .scale, .position, .generations, .maxLength}
  complete := by
    intro slot
    cases slot <;> decide

/-- A setting sets a slot to a value, or it is a rule. -/
theorem Setting.value_or_rule (s : Setting) :
    (∃ (slot : Slot) (value : slot.Value), s = slot.setting value) ∨ ∃ c w, s = .rule c w := by
  cases s with
  | rule c w => exact Or.inr ⟨c, w, rfl⟩
  | preset p => exact Or.inl ⟨.preset, p, rfl⟩
  | seed w => exact Or.inl ⟨.seed, w, rfl⟩
  | angle a => exact Or.inl ⟨.angle, a, rfl⟩
  | heading a => exact Or.inl ⟨.heading, a, rfl⟩
  | length l => exact Or.inl ⟨.length, l, rfl⟩
  | scale factor => exact Or.inl ⟨.scale, factor, rfl⟩
  | position p => exact Or.inl ⟨.position, p, rfl⟩
  | generations n => exact Or.inl ⟨.generations, n, rfl⟩
  | maxLength n => exact Or.inl ⟨.maxLength, n, rfl⟩

/-- A value for a slot is no rule. -/
theorem Slot.setting_ne_rule {slot : Slot} {value : slot.Value} {c : Char} {w : Word} :
    slot.setting value ≠ .rule c w := by
  cases slot <;> rintro ⟨⟩

namespace Draft

/-- The second draft has the value in the slot, which was empty; all else is as in the first. -/
structure GainsValue (d : Draft) (slot : Slot) (value : slot.Value) (d' : Draft) : Prop where
  empty : d.value? slot = none
  gained : d'.value? slot = some value
  slots : ∀ other, other ≠ slot → d'.value? other = d.value? other
  rules : d'.rules = d.rules

/-- The second draft has the rule behind those of the first, none of which is for its symbol;
    all else is as in the first. -/
structure GainsRule (d : Draft) (c : Char) (w : Word) (d' : Draft) : Prop where
  fresh : ∀ rule ∈ d.rules, rule.1 ≠ c
  gained : d'.rules.toList = d.rules.toList ++ [(c, w)]
  slots : ∀ slot, d'.value? slot = d.value? slot

/-- The slots that are set. -/
def setSlots (d : Draft) : Finset Slot := Finset.univ.filter fun slot => (d.value? slot).isSome

theorem mem_setSlots {d : Draft} {slot : Slot} :
    slot ∈ d.setSlots ↔ (d.value? slot).isSome = true := Finset.mem_filter_univ slot

/-- How many things are set: slots and rules. -/
def size (d : Draft) : Nat := d.setSlots.card + d.rules.size

theorem size_empty : ({} : Draft).size = 0 := rfl

/-- The values of slots and the rules are all of a draft. -/
theorem ext_value? {d d' : Draft} (hslots : ∀ slot, d.value? slot = d'.value? slot)
    (hrules : d.rules = d'.rules) : d = d' := by
  refine ext_held ?_ hrules
  intro slot
  rw [held, held, hslots slot]

theorem has_slot (d : Draft) (slot : Slot) : d.has (.slot slot) = (d.value? slot).isSome := by
  cases slot <;> rfl

/-- A symbol is free when no rule of the draft is for it. -/
theorem has_rule_eq_false {d : Draft} {c : Char} :
    d.has (.rule c) = false ↔ ∀ rule ∈ d.rules, rule.1 ≠ c := by
  simp only [has, Array.any_eq_false', beq_iff_eq, ne_eq]

theorem value?_set (d : Draft) (slot : Slot) (value : slot.Value) :
    (d.set (slot.setting value)).value? slot = some value := by
  cases slot <;> rfl

theorem value?_set_of_ne (d : Draft) {slot other : Slot} (value : slot.Value)
    (h : other ≠ slot) : (d.set (slot.setting value)).value? other = d.value? other := by
  have hentry : (slot.setting value).entry ≠ .slot other := by
    rw [slot.entry_setting]
    rintro ⟨⟩
    exact h rfl
  have hheld := d.held_set (slot.setting value) other
  rw [if_neg hentry] at hheld
  exact Option.map_injective other.setting_injective hheld

theorem rules_set_value (d : Draft) (slot : Slot) (value : slot.Value) :
    (d.set (slot.setting value)).rules = d.rules := by
  cases slot <;> rfl

theorem value?_set_rule (d : Draft) (c : Char) (w : Word) (slot : Slot) :
    (d.set (.rule c w)).value? slot = d.value? slot := by
  cases slot <;> rfl

/-! ## One line -/

/-- A value is added exactly where it is all that is gained. -/
theorem add_value_eq_ok {d d' : Draft} {slot : Slot} {value : slot.Value} :
    d.add (slot.setting value) = .ok d' ↔ d.GainsValue slot value d' := by
  rw [add_eq_ok, slot.entry_setting, has_slot, Option.isSome_eq_false_iff,
    Option.isNone_iff_eq_none]
  constructor
  · rintro ⟨hempty, rfl⟩
    exact ⟨hempty, d.value?_set slot value, fun _ => d.value?_set_of_ne value,
      d.rules_set_value slot value⟩
  · intro h
    refine ⟨h.empty, ext_value? ?_ ?_⟩
    · intro other
      by_cases hother : other = slot
      · subst hother
        rw [value?_set, h.gained]
      · rw [value?_set_of_ne d value hother, h.slots other hother]
    · rw [rules_set_value, h.rules]

/-- A rule is added exactly where it is all that is gained. -/
theorem add_rule_eq_ok {d d' : Draft} {c : Char} {w : Word} :
    d.add (.rule c w) = .ok d' ↔ d.GainsRule c w d' := by
  rw [add_eq_ok]
  show d.has (.rule c) = false ∧ _ ↔ _
  rw [has_rule_eq_false]
  constructor
  · rintro ⟨hfresh, rfl⟩
    exact ⟨hfresh, d.rules_set (.rule c w), d.value?_set_rule c w⟩
  · intro h
    refine ⟨h.fresh, ext_value? ?_ (Array.toList_inj.mp ?_)⟩
    · intro slot
      rw [value?_set_rule, h.slots slot]
    · rw [rules_set, h.gained]
      rfl

/-- **Step**: a line with tokens is taken up exactly where the draft can gain what it states,
    and it gains nothing else. -/
theorem addLine_eq_ok_of_hasTokens {d d' : Draft} {line : List UInt8} (h : Line.HasTokens line) :
    d.addLine line = .ok d'
      ↔ (∃ slot value, Line.States line (slot.setting value) ∧ d.GainsValue slot value d')
        ∨ ∃ c w, Line.States line (.rule c w) ∧ d.GainsRule c w d' := by
  rw [addLine_eq_ok]
  constructor
  · rintro (⟨hread, -⟩ | ⟨s, hread, hadd⟩)
    · exact absurd h (readLine_eq_none.mp hread).not_hasTokens
    · have hstates : Line.States line s := readLine_eq_some.mp hread
      rcases s.value_or_rule with ⟨slot, value, rfl⟩ | ⟨c, w, rfl⟩
      · exact Or.inl ⟨slot, value, hstates, add_value_eq_ok.mp hadd⟩
      · exact Or.inr ⟨c, w, hstates, add_rule_eq_ok.mp hadd⟩
  · rintro (⟨slot, value, hstates, hgains⟩ | ⟨c, w, hstates, hgains⟩)
    · exact Or.inr ⟨_, readLine_eq_some.mpr hstates, add_value_eq_ok.mpr hgains⟩
    · exact Or.inr ⟨_, readLine_eq_some.mpr hstates, add_rule_eq_ok.mpr hgains⟩

/-! ## What is gained is counted -/

/-- A gained value overwrites none. -/
theorem GainsValue.value?_of_some {d d' : Draft} {slot other : Slot} {value : slot.Value}
    {kept : other.Value} (h : d.GainsValue slot value d') (hkept : d.value? other = some kept) :
    d'.value? other = some kept := by
  have hother : other ≠ slot := by
    rintro rfl
    cases h.empty.symm.trans hkept
  rw [h.slots other hother, hkept]

/-- With a gained value one more slot is set. -/
theorem GainsValue.setSlots_eq {d d' : Draft} {slot : Slot} {value : slot.Value}
    (h : d.GainsValue slot value d') : d'.setSlots = insert slot d.setSlots := by
  ext other
  rw [Finset.mem_insert, mem_setSlots, mem_setSlots]
  by_cases hother : other = slot
  · subst hother
    rw [h.gained]
    exact iff_of_true rfl (Or.inl rfl)
  · rw [h.slots other hother, or_iff_right hother]

/-- A gained value makes the draft larger by one. -/
theorem GainsValue.size_eq {d d' : Draft} {slot : Slot} {value : slot.Value}
    (h : d.GainsValue slot value d') : d'.size = d.size + 1 := by
  have hnew : slot ∉ d.setSlots := by
    rw [mem_setSlots, h.empty]
    exact Bool.false_ne_true
  rw [size, h.setSlots_eq, Finset.card_insert_of_notMem hnew, h.rules, size, Nat.add_right_comm]

theorem GainsRule.size_eq {d d' : Draft} {c : Char} {w : Word} (h : d.GainsRule c w d') :
    d'.size = d.size + 1 := by
  have hslots : d'.setSlots = d.setSlots := by
    ext slot
    rw [mem_setSlots, mem_setSlots, h.slots slot]
  have hrules : d'.rules.size = d.rules.size + 1 := by
    rw [← Array.length_toList, h.gained, List.length_append, Array.length_toList]
    rfl
  rw [size, hslots, hrules, size, Nat.add_assoc]

/-! ## All lines -/

/-- The second draft is the first with what the lines add: what was set is as it was, the rules
    of the lines follow in order, and every line with tokens has added one thing. -/
structure Collects (d : Draft) (lines : List (List UInt8)) (d' : Draft) : Prop where
  kept : ∀ slot value, d.value? slot = some value → d'.value? slot = some value
  rules : ∃ rules, Line.RulesInOrder lines rules ∧ d'.rules.toList = d.rules.toList ++ rules
  size : d'.size = d.size + lines.countP Line.HasTokens

theorem Collects.refl (d : Draft) : d.Collects [] d where
  kept := fun _ _ hvalue => hvalue
  rules := ⟨[], .nil, (List.append_nil _).symm⟩
  size := rfl

/-- What is collected from some lines and then from others is collected from all of them. -/
theorem Collects.trans {d d₁ d' : Draft} {lines more : List (List UInt8)}
    (h : d.Collects lines d₁) (hmore : d₁.Collects more d') : d.Collects (lines ++ more) d' where
  kept := fun slot value hvalue => hmore.kept slot value (h.kept slot value hvalue)
  rules := by
    obtain ⟨rules, hstate, hrules⟩ := h.rules
    obtain ⟨new, hnew, hrules'⟩ := hmore.rules
    refine ⟨rules ++ new, hstate.append hnew, ?_⟩
    rw [hrules', hrules, List.append_assoc]
  size := by rw [hmore.size, h.size, List.countP_append, Nat.add_assoc]

/-- From a line without tokens nothing is collected. -/
theorem collects_of_blank (d : Draft) {line : List UInt8} (h : Line.Spells line []) :
    d.Collects [line] d where
  kept := fun _ _ hvalue => hvalue
  rules := by
    refine ⟨[], .other ?_ .nil, (List.append_nil _).symm⟩
    intro c w hstates
    exact h.not_hasTokens hstates.hasTokens
  size := by rw [List.countP_singleton, if_neg (mt of_decide_eq_true h.not_hasTokens)]; rfl

/-- A gained value is collected from the line that states it. -/
theorem GainsValue.collects {d d' : Draft} {line : List UInt8} {slot : Slot} {value : slot.Value}
    (h : d.GainsValue slot value d') (hstates : Line.States line (slot.setting value)) :
    d.Collects [line] d' where
  kept := fun _ _ hvalue => h.value?_of_some hvalue
  rules := by
    refine ⟨[], .other ?_ .nil, ?_⟩
    · intro c w hrule
      exact Slot.setting_ne_rule (hstates.inj hrule)
    · rw [h.rules, List.append_nil]
  size := by rw [h.size_eq, List.countP_singleton, if_pos (decide_eq_true hstates.hasTokens)]

/-- A gained rule is collected from the line that states it. -/
theorem GainsRule.collects {d d' : Draft} {line : List UInt8} {c : Char} {w : Word}
    (h : d.GainsRule c w d') (hstates : Line.States line (.rule c w)) : d.Collects [line] d' where
  kept := by
    intro slot value hvalue
    rw [h.slots slot, hvalue]
  rules := ⟨[(c, w)], .rule hstates .nil, h.gained⟩
  size := by rw [h.size_eq, List.countP_singleton, if_pos (decide_eq_true hstates.hasTokens)]

/-- **Step**: a line that is taken up is collected. -/
theorem collects_of_addLine {d d' : Draft} {line : List UInt8} (h : d.addLine line = .ok d') :
    d.Collects [line] d' := by
  rcases addLine_eq_ok.mp h with ⟨hread, rfl⟩ | ⟨s, hread, hadd⟩
  · exact d.collects_of_blank (readLine_eq_none.mp hread)
  · have hstates : Line.States line s := readLine_eq_some.mp hread
    rcases s.value_or_rule with ⟨slot, value, rfl⟩ | ⟨c, w, rfl⟩
    · exact (add_value_eq_ok.mp hadd).collects hstates
    · exact (add_rule_eq_ok.mp hadd).collects hstates

/-- **Run**: lines taken up one after the other are collected. -/
theorem collects_of_addLines {d d' : Draft} {number : Int32} {lines : List (List UInt8)}
    (h : d.addLines number lines = .ok d') : d.Collects lines d' := by
  induction lines generalizing d number with
  | nil =>
      obtain rfl := Except.ok.inj h
      exact .refl d
  | cons line lines ih =>
      rw [addLines] at h
      cases hline : d.addLine line with
      | error fault =>
          rw [hline] at h
          cases h
      | ok d₁ =>
          rw [hline] at h
          exact (collects_of_addLine hline).trans (ih h)

/-- **One thing a line**: to a draft that lines have been taken up into, a further line without
    tokens changes nothing.  A line with tokens is taken up exactly where it sets one slot that
    is empty, or appends one rule for a symbol that has none, and nothing else changes.  So there
    are as many slots set and rules as there are lines with tokens, the rules are in the order of
    their lines, and whatever lines are still taken up, what is set stays as it is. -/
theorem each_line_gains_one {lines : List (List UInt8)} {number : Int32} {d : Draft}
    (h : addLines {} number lines = .ok d) :
    (∀ line, Line.Spells line [] → d.addLine line = .ok d)
      ∧ (∀ line d', Line.HasTokens line →
          (d.addLine line = .ok d'
            ↔ (∃ slot value, Line.States line (slot.setting value) ∧ d.GainsValue slot value d')
              ∨ ∃ c w, Line.States line (.rule c w) ∧ d.GainsRule c w d'))
      ∧ d.setSlots.card + d.rules.size = lines.countP Line.HasTokens
      ∧ Line.RulesInOrder lines d.rules.toList
      ∧ ∀ number' more d', d.addLines number' more = .ok d' →
          (∀ slot value, d.value? slot = some value → d'.value? slot = some value)
            ∧ d.rules.toList <+: d'.rules.toList := by
  have hcollects := collects_of_addLines h
  refine ⟨?_, ?_, ?_, ?_, ?_⟩
  · intro line hnil
    exact addLine_of_none (readLine_eq_none.mpr hnil)
  · intro line d' htokens
    exact addLine_eq_ok_of_hasTokens htokens
  · -- the draft that reading starts with has nothing set
    have hsize := hcollects.size
    rw [size_empty, Nat.zero_add] at hsize
    exact hsize
  · obtain ⟨rules, hstate, hrules⟩ := hcollects.rules
    rw [hrules]
    exact hstate
  · intro number' more d' hmore
    -- further lines collect onto `d` as its own lines did onto the empty draft
    have hlater := collects_of_addLines hmore
    obtain ⟨rules, -, hrules⟩ := hlater.rules
    exact ⟨hlater.kept, rules, hrules.symm⟩

/-- An erasing rule after a comment line, a line without anything and a comment right behind a
    replacement. -/
theorem each_line_gains_one_leaves :
    ∃ d d', addLines {} 1
          (Line.split "# leaves\naxiom F\n\nrule F FéF#grow\ngenerations 3".toUTF8.data.toList)
        = .ok d
      ∧ Line.Spells " # ∿".toUTF8.data.toList [] ∧ d.addLine " # ∿".toUTF8.data.toList = .ok d
      ∧ Line.HasTokens "rule é".toUTF8.data.toList
      ∧ d.addLine "rule é".toUTF8.data.toList = .ok d'
      ∧ d.setSlots.card + d.rules.size = 3
      ∧ d'.rules.toList = [('F', ['F', 'é', 'F']), ('é', [])]
      ∧ d.addLines 6 ["rule é".toUTF8.data.toList] = .ok d'
      ∧ ∀ slot value, d.value? slot = some value → d'.value? slot = some value := by
  -- the draft is named, so that only the first step evaluates the lines
  obtain ⟨d, hd⟩ : ∃ d : Draft,
      d = { seed := some ['F'], rules := #[('F', ['F', 'é', 'F'])], generations := some 3 } :=
    ⟨_, rfl⟩
  have hlines : addLines {} 1
      (Line.split "# leaves\naxiom F\n\nrule F FéF#grow\ngenerations 3".toUTF8.data.toList)
      = .ok d := by
    rw [hd]
    with_unfolding_all rfl
  obtain ⟨hblank, hstep, hsize, -, hkept⟩ := each_line_gains_one hlines
  have hcomment : Line.Spells " # ∿".toUTF8.data.toList [] := readLine_eq_none.mp rfl
  have hstates : Line.States "rule é".toUTF8.data.toList (.rule 'é' []) :=
    readLine_eq_some.mp rfl
  have hgains : d.GainsRule 'é' [] (d.set (.rule 'é' [])) := by
    rw [hd]
    exact ⟨by simp, rfl, fun _ => rfl⟩
  have hrule : d.addLine "rule é".toUTF8.data.toList = .ok (d.set (.rule 'é' [])) :=
    (hstep _ _ hstates.hasTokens).mpr (Or.inr ⟨'é', [], hstates, hgains⟩)
  have hmore : d.addLines 6 ["rule é".toUTF8.data.toList] = .ok (d.set (.rule 'é' [])) := by
    rw [addLines, hrule]
    rfl
  have hrules : (d.set (.rule 'é' [])).rules.toList = [('F', ['F', 'é', 'F']), ('é', [])] := by
    rw [hd]
    rfl
  exact ⟨d, _, hlines, hcomment, hblank _ hcomment, hstates.hasTokens, hrule, hsize.trans rfl,
    hrules, hmore, (hkept 6 _ _ hmore).1⟩

end Draft

end TurtleGrammar
