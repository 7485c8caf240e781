import Mathlib.Data.List.Nodup
import TurtleGrammar.Proofs.Format

/-! # Held settings — a draft read back from the settings that went into it

    A draft has a field for every slot and a list of rules.  `Draft.held` reads
    any slot as a setting, so that one statement covers all of them.

    - **Slots**: of settings for different entries, a slot holds the one that is
      for it (`held_ofSettings`), and so the order of the settings has no influence.
    - **Rules**: they are kept in order (`rules_ofSettings`).  A set of rules with
      different symbols has none of that order left (`RuleSet.ofList_perm`).
    - **Completion**: what a description is read as is the completed draft of
      its settings (`Grammar.ofBytes_eq_ok`). -/

namespace TurtleGrammar

/-- The rule that a setting is, if it is one. -/
def Setting.rule? : Setting → Option (Char × Word)
  | .rule symbol replacement => some (symbol, replacement)
  | _ => none

/-- The rule of a setting is the setting itself, if it is one. -/
theorem Setting.rule?_eq_some {s : Setting} {c : Char} {w : Word} :
    s.rule? = some (c, w) ↔ s = .rule c w := by
  cases s <;> simp [Setting.rule?]

theorem Setting.mem_rules {ss : List Setting} {c : Char} {w : Word} :
    (c, w) ∈ ss.filterMap Setting.rule? ↔ .rule c w ∈ ss := by
  simp only [List.mem_filterMap, Setting.rule?_eq_some, exists_eq_right]

/-- Settings for different entries give rules for different symbols. -/
theorem Setting.nodup_symbols {ss : List Setting} (h : (ss.map Setting.entry).Nodup) :
    ((ss.filterMap Setting.rule?).map Prod.fst).Nodup := by
  rw [List.Nodup, List.pairwise_map] at h ⊢
  refine List.pairwise_filterMap.mpr (h.imp ?_)
  intro s s' hne (c, w) hs (c', w') hs' heq
  rw [Setting.rule?_eq_some.mp hs, Setting.rule?_eq_some.mp hs'] at hne
  exact hne (congrArg Entry.rule heq)

/-! ## Slots -/

namespace Slot

/-- The values that a slot is for. -/
def Value : Slot → Type
  | preset => Preset
  | seed => Word
  | position => Point Float
  | generations | maxLength => Nat
  | angle | heading | length | scale => Float

/-- The setting that sets a slot to a value. -/
def setting : (slot : Slot) → slot.Value → Setting
  | preset => .preset
  | seed => .seed
  | angle => .angle
  | heading => .heading
  | length => .length
  | scale => .scale
  | position => .position
  | generations => .generations
  | maxLength => .maxLength

theorem entry_setting (slot : Slot) (value : slot.Value) :
    (slot.setting value).entry = .slot slot := by
  cases slot <;> rfl

/-- Different values for a slot are different settings. -/
theorem setting_injective (slot : Slot) : Function.Injective slot.setting := by
  intro value value' h
  cases slot <;> injection h

end Slot

namespace Draft

/-- The value that a slot has. -/
def value? (d : Draft) : (slot : Slot) → Option slot.Value
  | .preset => d.preset
  | .seed => d.seed
  | .angle => d.angle
  | .heading => d.heading
  | .length => d.length
  | .scale => d.scale
  | .position => d.position
  | .generations => d.generations
  | .maxLength => d.maxLength

/-- The setting that a slot holds. -/
def held (d : Draft) (slot : Slot) : Option Setting := (d.value? slot).map slot.setting

theorem held_empty (slot : Slot) : ({} : Draft).held slot = none := by
  cases slot <;> rfl

/-- **Frame**: a setting is held by its own slot and leaves the others alone. -/
theorem held_set (d : Draft) (s : Setting) (slot : Slot) :
    (d.set s).held slot = if s.entry = .slot slot then some s else d.held slot := by
  cases s <;> cases slot <;> rfl

/-- What slots hold and the rules are all of a draft. -/
theorem ext_held {d d' : Draft} (hslots : ∀ slot, d.held slot = d'.held slot)
    (hrules : d.rules = d'.rules) : d = d' := by
  -- a slot wraps its value in a setting of its own, and different values in different ones
  have hvalue : ∀ slot, d.value? slot = d'.value? slot := by
    intro slot
    exact Option.map_injective slot.setting_injective (hslots slot)
  have hpreset : d.preset = d'.preset := hvalue .preset
  have hseed : d.seed = d'.seed := hvalue .seed
  have hangle : d.angle = d'.angle := hvalue .angle
  have hheading : d.heading = d'.heading := hvalue .heading
  have hlength : d.length = d'.length := hvalue .length
  have hscale : d.scale = d'.scale := hvalue .scale
  have hposition : d.position = d'.position := hvalue .position
  have hgenerations : d.generations = d'.generations := hvalue .generations
  have hmaxLength : d.maxLength = d'.maxLength := hvalue .maxLength
  calc d = ⟨d.preset, d.seed, d.rules, d.angle, d.heading, d.length, d.scale, d.position,
        d.generations, d.maxLength⟩ := rfl
    _ = d' := by
        rw [hpreset, hseed, hrules, hangle, hheading, hlength, hscale, hposition, hgenerations,
          hmaxLength]

/-- Of settings for different entries, a slot holds the one that is for it, and what it held
    before only if there is none. -/
theorem held_setAll {ss : List Setting} (hnodup : (ss.map Setting.entry).Nodup) (d : Draft)
    (slot : Slot) (s : Setting) :
    (d.setAll ss).held slot = some s
      ↔ (s ∈ ss ∧ s.entry = .slot slot)
        ∨ d.held slot = some s ∧ ∀ s' ∈ ss, s'.entry ≠ .slot slot := by
  induction ss generalizing d with
  | nil => simp [setAll]
  | cons first ss ih =>
      obtain ⟨hfirst, hnodup⟩ := List.nodup_cons.mp hnodup
      show ((d.set first).setAll ss).held slot = some s ↔ _
      rw [ih hnodup, held_set]
      by_cases hslot : first.entry = .slot slot
      · -- no later setting is for the same slot
        have hlater : ∀ s' ∈ ss, s'.entry ≠ .slot slot := by
          intro s' hs' heq
          exact hfirst (List.mem_map.mpr ⟨s', hs', heq.trans hslot.symm⟩)
        rw [if_pos hslot]
        constructor
        · rintro (⟨hs, hentry⟩ | ⟨hheld, -⟩)
          · exact absurd hentry (hlater s hs)
          · obtain rfl := Option.some.inj hheld
            exact Or.inl ⟨List.mem_cons_self, hslot⟩
        · rintro (⟨hs, hentry⟩ | ⟨-, hnone⟩)
          · rcases List.mem_cons.mp hs with rfl | hs
            · exact Or.inr ⟨rfl, hlater⟩
            · exact absurd hentry (hlater s hs)
          · exact absurd hslot (hnone first List.mem_cons_self)
      · have hmem : (s ∈ first :: ss ∧ s.entry = .slot slot) ↔ (s ∈ ss ∧ s.entry = .slot slot) := by
          rw [List.mem_cons]
          refine and_congr_left ?_
          intro hentry
          exact or_iff_right fun hs => hslot (hs ▸ hentry)
        rw [if_neg hslot, hmem, List.forall_mem_cons, and_iff_right hslot]

/-- The draft that the settings make. -/
def ofSettings (ss : List Setting) : Draft := setAll {} ss

/-- A slot holds the one setting that is for it. -/
theorem held_ofSettings {ss : List Setting} (hnodup : (ss.map Setting.entry).Nodup)
    (slot : Slot) (s : Setting) :
    (ofSettings ss).held slot = some s ↔ s ∈ ss ∧ s.entry = .slot slot := by
  rw [ofSettings, held_setAll hnodup, held_empty]
  simp

/-- A slot has the value that some setting gives to it. -/
theorem value?_ofSettings {ss : List Setting} (hnodup : (ss.map Setting.entry).Nodup)
    (slot : Slot) (value : slot.Value) :
    (ofSettings ss).value? slot = some value ↔ slot.setting value ∈ ss := by
  rw [← (Option.map_injective slot.setting_injective).eq_iff]
  show (ofSettings ss).held slot = some (slot.setting value) ↔ _
  rw [held_ofSettings hnodup, and_iff_left (slot.entry_setting value)]

/-! ## Rules -/

/-- A setting that is a rule is put behind the other rules. -/
theorem rules_set (d : Draft) (s : Setting) :
    (d.set s).rules.toList = d.rules.toList ++ s.rule?.toList := by
  cases s with
  | rule symbol replacement => exact Array.toList_push
  | _ => exact (List.append_nil _).symm

/-- Settings put their rules behind the others, in order. -/
theorem rules_setAll (d : Draft) (ss : List Setting) :
    (d.setAll ss).rules.toList = d.rules.toList ++ ss.filterMap Setting.rule? := by
  induction ss generalizing d with
  | nil => exact (List.append_nil _).symm
  | cons s ss ih =>
      show ((d.set s).setAll ss).rules.toList = _
      rw [ih, rules_set, List.append_assoc, List.filterMap_cons]
      cases s.rule? <;> rfl

theorem rules_ofSettings (ss : List Setting) :
    (ofSettings ss).rules.toList = ss.filterMap Setting.rule? := rules_setAll {} ss

/-! ## Order -/

/-- What a slot holds does not depend on the order of the settings. -/
theorem held_perm {ss ss' : List Setting} (hperm : ss.Perm ss')
    (hnodup : (ss.map Setting.entry).Nodup) (slot : Slot) :
    (ofSettings ss).held slot = (ofSettings ss').held slot := by
  have hnodup' : (ss'.map Setting.entry).Nodup := (hperm.map Setting.entry).nodup_iff.mp hnodup
  refine Option.ext ?_
  intro s
  rw [held_ofSettings hnodup, held_ofSettings hnodup', hperm.mem_iff]

/-- Settings for different entries make the same draft in any order that leaves the rules in
    theirs. -/
theorem ofSettings_perm {ss ss' : List Setting} (hperm : ss.Perm ss')
    (hnodup : (ss.map Setting.entry).Nodup)
    (hrules : ss.filterMap Setting.rule? = ss'.filterMap Setting.rule?) :
    ofSettings ss = ofSettings ss' := by
  refine ext_held (held_perm hperm hnodup) (Array.toList_inj.mp ?_)
  rw [rules_ofSettings, rules_ofSettings, hrules]

end Draft

/-! ## Completion -/

namespace Draft

/-- Filling, slot by slot: where nothing was set the preset counts, if there is one. -/
theorem fill_eq (d : Draft) :
    d.fill = { d with
      seed := d.seed <|> d.preset.map Preset.seed
      rules :=
        if d.rules.isEmpty then ((d.preset.map Preset.rules).getD []).toArray else d.rules
      angle := d.angle <|> d.preset.map Preset.turnAngle
      scale := d.scale <|> d.preset.map Preset.lengthFactor } := by
  obtain ⟨preset, seed, rules, angle, heading, length, scale, position, generations, maxLength⟩ := d
  -- without a preset there is nothing to fill in, and the alternatives fall away
  cases preset with
  | some p => rfl
  | none =>
      have hkeep : ∀ {α : Type} (o : Option α), (o <|> none) = o := by
        intro α o
        cases o <;> rfl
      have hrules : (if rules.isEmpty then #[] else rules) = rules := by
        by_cases hempty : rules.isEmpty = true
        · rw [if_pos hempty, Array.isEmpty_iff.mp hempty]
        · rw [if_neg hempty]
      simp only [fill, Option.map_none, Option.getD_none, hkeep, hrules]

/-- Rules are filled in only where no rule is. -/
theorem rules_fill (d : Draft) :
    d.fill.rules.toList =
      if d.rules.toList = [] then (d.preset.map Preset.rules).getD [] else d.rules.toList := by
  rw [fill_eq]
  show (if d.rules.isEmpty then _ else d.rules).toList = _
  by_cases hempty : d.rules.isEmpty = true
  · have hnil : d.rules.toList = [] := by rw [Array.isEmpty_iff.mp hempty]
    rw [if_pos hempty, if_pos hnil]
  · have hcons : d.rules.toList ≠ [] := by
      intro hnil
      exact hempty (Array.isEmpty_iff.mpr (Array.toList_eq_nil_iff.mp hnil))
    rw [if_neg hempty, if_neg hcons]

/-- **Inversion**: a completed draft has a seed, its own or the preset's, and a number of
    generations. -/
theorem complete_eq_ok {d : Draft} {g : Grammar} :
    d.complete = .ok g
      ↔ ∃ seed n, d.fill.seed = some seed ∧ d.generations = some n
          ∧ g = { preset := d.preset, seed, rules := d.fill.rules.toList,
                  config := d.fill.config, generations := n, maxLength := d.maxLength } := by
  -- filling touches neither the preset nor the two limits
  have hkept : d.fill.preset = d.preset ∧ d.fill.generations = d.generations
      ∧ d.fill.maxLength = d.maxLength := by
    rw [fill_eq]
    exact ⟨rfl, rfl, rfl⟩
  obtain ⟨hpreset, hgenerations, hmaxLength⟩ := hkept
  rw [complete, toGrammar, ← hpreset, ← hgenerations, ← hmaxLength]
  cases d.fill.seed with
  | none =>
      constructor
      · rintro ⟨⟩
      · rintro ⟨seed, n, ⟨⟩, -⟩
  | some seed =>
      cases d.fill.generations with
      | none =>
          constructor
          · rintro ⟨⟩
          · rintro ⟨seed, n, -, ⟨⟩, -⟩
      | some n =>
          constructor
          · intro h
            exact ⟨seed, n, rfl, rfl, (Except.ok.inj h).symm⟩
          · rintro ⟨seed', n', hseed, hn, rfl⟩
            rw [Option.some.inj hseed, Option.some.inj hn]

end Draft

/-! ## Lines that go together -/

/-- Each of the lines can be read, and no two of them set the same entry. -/
structure Line.Fit (lines : List (List UInt8)) : Prop where
  readable : ∀ line ∈ lines, ∃ o, readLine line = .ok o
  once : ((Line.settings lines).map Setting.entry).Nodup

/-- Lines fit together when each can be read and no two set the same entry. -/
theorem Line.fit_iff {lines : List (List UInt8)} :
    Line.Fit lines ↔
      (∀ line ∈ lines, ∃ o, readLine line = .ok o)
        ∧ ((Line.settings lines).map Setting.entry).Nodup :=
  ⟨fun h => ⟨h.readable, h.once⟩, fun ⟨hread, honce⟩ => ⟨hread, honce⟩⟩

theorem Line.settings_perm {lines lines' : List (List UInt8)} (h : lines.Perm lines') :
    (Line.settings lines).Perm (Line.settings lines') :=
  h.filterMap Line.setting?

/-- Lines fit together in any order. -/
theorem Line.Fit.perm {lines lines' : List (List UInt8)} (h : Line.Fit lines)
    (hperm : lines.Perm lines') : Line.Fit lines' where
  readable := by
    intro line hline
    exact h.readable line (hperm.mem_iff.mpr hline)
  once := ((Line.settings_perm hperm).map Setting.entry).nodup_iff.mp h.once

namespace Grammar

/-- Lines that go together are read as the completed draft of their settings. -/
theorem ofLines_eq_ok {name : String} {lines : List (List UInt8)} {g : Grammar} :
    ofLines name lines = .ok g
      ↔ Line.Fit lines ∧ (Draft.ofSettings (Line.settings lines)).complete = .ok g := by
  rw [ofLines]
  cases hadd : Draft.addLines {} 1 lines with
  | error e =>
      constructor
      · rintro ⟨⟩
      · rintro ⟨hfit, -⟩
        -- nothing is set in the empty draft, so lines that go together are taken up
        have hok := (@Draft.addLines_eq_ok {} _ 1 lines).mpr
          ⟨hfit.readable, hfit.once, fun s _ => Draft.has_empty s.entry, rfl⟩
        rw [hadd] at hok
        cases hok
  | ok d =>
      obtain ⟨hread, honce, -, rfl⟩ := Draft.addLines_eq_ok.mp hadd
      rw [and_iff_right ⟨hread, honce⟩]
      exact mapError_eq_ok

/-- Bytes are read as the pieces between their line feeds. -/
theorem ofBytes_eq_ok {name : String} {bytes : List UInt8} {g : Grammar} :
    ofBytes name bytes = .ok g
      ↔ Line.Fit (bytes.splitOn Line.feed)
        ∧ (Draft.ofSettings (Line.settings (bytes.splitOn Line.feed))).complete = .ok g := by
  have hread : (∀ line ∈ bytes.splitOn Line.feed, ∃ o, readLine line = .ok o)
      ↔ ∀ line ∈ Line.split bytes, ∃ o, readLine line = .ok o :=
    Line.forall_mem_splitOn ⟨none, readLine_nil⟩ bytes
  rw [ofBytes, ofLines_eq_ok, Line.fit_iff, Line.fit_iff, Line.settings_splitOn, hread]

end Grammar

end TurtleGrammar
