import Mathlib.Data.List.Basic
import TurtleGrammar.Proofs.Held

/-! # Origins — where each part of a grammar comes from

    A part of a grammar is what a line of the description says, or what the
    preset has for it, or what a turtle does that was told nothing, and the
    first of these that exists is the one that counts.

    - `Grammar.ComesFrom` says so part by part.  The rules are one part: a
      single rule line keeps out every rule of the preset.  Where a step
      starts and how long it is the preset never says.
    - The line that names the preset can stand anywhere (`ofBytes_moved`),
      since the draft is filled after the last line.
    - A description that leaves everything to the preset is the preset
      (`ofBytes_described`). -/

namespace TurtleGrammar

/-- Some line of the bytes states the setting. -/
def Says (bytes : List UInt8) (s : Setting) : Prop :=
  ∃ line ∈ bytes.splitOn Line.feed, Line.States line s

theorem says_iff {bytes : List UInt8} {s : Setting} :
    Says bytes s ↔ s ∈ Line.settings (bytes.splitOn Line.feed) :=
  Line.mem_settings.symm

/-- Only presets of the catalog can be named. -/
theorem mem_catalog_of_named {bytes : List UInt8} {p : Preset} (h : Says bytes (.preset p)) :
    p ∈ Preset.catalog := by
  obtain ⟨line, -, keyword, tokens, -, hstated⟩ := h
  cases hstated with
  | preset hp => exact hp

/-- The value is the stated one, if one is, and otherwise the fallback. -/
structure StatedOr {α : Type} (stated : α → Prop) (fallback value : α) : Prop where
  own : ∀ a, stated a → value = a
  rest : (∀ a, ¬ stated a) → value = fallback

/-- A value with a fallback is the stated one, or else the fallback. -/
theorem StatedOr.getD {α : Type} {stated : α → Prop} {o : Option α}
    (h : ∀ a, o = some a ↔ stated a) (fallback : α) :
    StatedOr stated fallback (o.getD fallback) where
  own := by
    intro a ha
    rw [(h a).mpr ha, Option.getD_some]
  rest := by
    intro hnone
    have ho : o = none := Option.eq_none_iff_forall_ne_some.mpr fun a ha => hnone a ((h a).mp ha)
    rw [ho, Option.getD_none]

/-- What holds of every stated value and of the fallback holds of the value. -/
theorem StatedOr.elim {α : Type} {stated P : α → Prop} {fallback value : α}
    (h : StatedOr stated fallback value) (hown : ∀ a, stated a → P a) (hrest : P fallback) :
    P value := by
  by_cases hsome : ∃ a, stated a
  · obtain ⟨a, ha⟩ := hsome
    rw [h.own a ha]
    exact hown a ha
  · rw [h.rest (not_exists.mp hsome)]
    exact hrest

/-- Every part of the grammar comes from a line of the bytes, else from the preset that they
    name, else from the settings of a turtle that was told nothing. -/
structure Grammar.ComesFrom (g : Grammar) (bytes : List UInt8) : Prop where
  preset : ∀ p, g.preset = some p ↔ Says bytes (.preset p)
  seed : StatedOr (fun w => Says bytes (.seed w)) ((g.preset.map Preset.seed).getD []) g.seed
  /-- There always is a seed: the empty word is not fallen back to. -/
  start : (∃ w, Says bytes (.seed w)) ∨ ∃ p, g.preset = some p
  /-- If there is a rule line, the rules are those of the rule lines. -/
  rules_own : (∃ c w, Says bytes (.rule c w)) →
    ∀ c w, g.ruleSet.get? c = some w ↔ Says bytes (.rule c w)
  rules_rest : (∀ c w, ¬ Says bytes (.rule c w)) →
    g.ruleSet = (g.preset.map Preset.ruleSet).getD ∅
  /-- A rule line without a replacement erases its symbol. -/
  erased : ∀ line ∈ bytes.splitOn Line.feed, ∀ c, Line.Spells line ["rule".toList, [c]] →
    g.ruleSet.get? c = some []
  turn : StatedOr (fun a => Says bytes (.angle a))
    ((g.preset.map fun p => Angle.ofDegrees p.angleDeg).getD ({} : TurtleConfig).turn)
    g.config.turn
  turn_degrees : ∀ line ∈ bytes.splitOn Line.feed, ∀ t x,
    Line.Spells line ["angle_deg".toList, t] → readFloat? t = some x →
      g.config.turn = Angle.ofDegrees x
  factor : StatedOr (fun x => Says bytes (.scale x))
    ((g.preset.map Preset.lengthFactor).getD ({} : TurtleConfig).factor) g.config.factor
  length : StatedOr (fun l => Says bytes (.length l)) ({} : TurtleConfig).length g.config.length
  position : StatedOr (fun p => Says bytes (.position p)) ({} : TurtleConfig).position
    g.config.position
  heading : StatedOr (fun a => Says bytes (.heading a)) ({} : TurtleConfig).heading
    g.config.heading
  heading_degrees : ∀ line ∈ bytes.splitOn Line.feed, ∀ t x,
    Line.Spells line ["heading_deg".toList, t] → readFloat? t = some x →
      g.config.heading = Angle.ofDegrees x
  generations : Says bytes (.generations g.generations)
  maxLength : ∀ n, g.maxLength = some n ↔ Says bytes (.maxLength n)

/-! ## What a completed draft is made of -/

namespace Draft

/-- The settings of a filled draft, each from its line, the preset or the default. -/
theorem config_fill (d : Draft) :
    d.fill.config =
      { length := d.length.getD ({} : TurtleConfig).length
        position := d.position.getD ({} : TurtleConfig).position
        heading := d.heading.getD ({} : TurtleConfig).heading
        turn := d.angle.getD ((d.preset.map Preset.turnAngle).getD ({} : TurtleConfig).turn)
        factor :=
          d.scale.getD ((d.preset.map Preset.lengthFactor).getD ({} : TurtleConfig).factor) } := by
  have hnext : ∀ (o o' : Option Float) (x : Float), (o <|> o').getD x = o.getD (o'.getD x) := by
    intro o o' x
    cases o <;> rfl
  rw [fill_eq]
  simp only [config, hnext]

/-- A seed is filled in only where none is, and only from a preset. -/
theorem seed_of_fill {d : Draft} {seed : Word} (h : d.fill.seed = some seed) :
    seed = d.seed.getD ((d.preset.map Preset.seed).getD [])
      ∧ (d.seed = some seed ∨ ∃ p, d.preset = some p) := by
  rw [fill_eq] at h
  replace h : (d.seed <|> d.preset.map Preset.seed) = some seed := h
  cases hseed : d.seed with
  | some w =>
      rw [hseed] at h
      obtain rfl : w = seed := Option.some.inj h
      exact ⟨rfl, Or.inl rfl⟩
  | none =>
      rw [hseed] at h
      obtain ⟨p, hp, rfl⟩ := Option.map_eq_some_iff.mp h
      rw [hp]
      exact ⟨rfl, Or.inr ⟨p, rfl⟩⟩

end Draft

/-! ## Where the parts come from -/

namespace Grammar

/-- The rules are those of the settings, if any of these is a rule, and else the preset's. -/
theorem ruleSet_of_complete {ss : List Setting} {g : Grammar}
    (hnodup : (ss.map Setting.entry).Nodup)
    (h : (Draft.ofSettings ss).complete = .ok g) :
    (∀ c w, .rule c w ∈ ss → ∀ c w, g.ruleSet.get? c = some w ↔ .rule c w ∈ ss)
      ∧ ((∀ c w, .rule c w ∉ ss) → g.ruleSet = (g.preset.map Preset.ruleSet).getD ∅) := by
  obtain ⟨seed, n, -, -, rfl⟩ := Draft.complete_eq_ok.mp h
  have hfill := (Draft.ofSettings ss).rules_fill
  rw [Draft.rules_ofSettings] at hfill
  simp only [ruleSet, hfill]
  -- one rule of its own is enough to set the rules of the preset aside
  constructor
  · intro c w hmem
    have hne : ss.filterMap Setting.rule? ≠ [] := List.ne_nil_of_mem (Setting.mem_rules.mpr hmem)
    intro c w
    rw [if_neg hne, RuleSet.get?_ofList (Setting.nodup_symbols hnodup), Setting.mem_rules]
  · intro hnone
    have hnil : ss.filterMap Setting.rule? = [] := by
      refine List.eq_nil_iff_forall_not_mem.mpr ?_
      rintro ⟨c, w⟩ hmem
      exact hnone c w (Setting.mem_rules.mp hmem)
    rw [if_pos hnil]
    cases (Draft.ofSettings ss).preset with
    | none => rfl
    | some p => rfl

/-- **Origins**: every part of a grammar that has been read comes from where it may come from. -/
theorem comesFrom_of_ofBytes {name : String} {bytes : List UInt8} {g : Grammar}
    (h : ofBytes name bytes = .ok g) : g.ComesFrom bytes := by
  obtain ⟨hfit, hcomplete⟩ := ofBytes_eq_ok.mp h
  obtain ⟨hown, hrest⟩ := ruleSet_of_complete hfit.once hcomplete
  simp only [← says_iff] at hown hrest
  -- what a slot of the draft holds is what a line says
  have hheld : ∀ (slot : Slot) (value : slot.Value),
      (Draft.ofSettings (Line.settings (bytes.splitOn Line.feed))).value? slot = some value
        ↔ Says bytes (slot.setting value) := by
    intro slot value
    rw [says_iff]
    exact Draft.value?_ofSettings hfit.once slot value
  obtain ⟨seed, n, hfill, hn, rfl⟩ := Draft.complete_eq_ok.mp hcomplete
  generalize Draft.ofSettings (Line.settings (bytes.splitOn Line.feed)) = d at *
  obtain ⟨hseed, hstart⟩ := Draft.seed_of_fill hfill
  have hconfig := d.config_fill
  have hturn : StatedOr (fun a => Says bytes (.angle a))
      ((d.preset.map fun p => Angle.ofDegrees p.angleDeg).getD ({} : TurtleConfig).turn)
      d.fill.config.turn := by
    rw [hconfig]
    exact .getD (hheld .angle) _
  have hheading : StatedOr (fun a => Says bytes (.heading a)) ({} : TurtleConfig).heading
      d.fill.config.heading := by
    rw [hconfig]
    exact .getD (hheld .heading) _
  exact
    { preset := hheld .preset
      seed := by
        rw [hseed]
        exact .getD (hheld .seed) _
      start := hstart.imp (fun h => ⟨seed, (hheld .seed seed).mp h⟩) id
      rules_own := fun ⟨c, w, hrule⟩ => hown c w hrule
      rules_rest := hrest
      erased := by
        intro line hline c hspells
        have hrule : Says bytes (.rule c []) := ⟨line, hline, _, _, hspells, .erasure c⟩
        exact (hown c [] hrule c []).mpr hrule
      turn := hturn
      turn_degrees := by
        intro line hline t x hspells ht
        exact hturn.own _ ⟨line, hline, _, _, hspells, .angleDeg ht⟩
      factor := by
        rw [hconfig]
        exact .getD (hheld .scale) _
      length := by
        rw [hconfig]
        exact .getD (hheld .length) _
      position := by
        rw [hconfig]
        exact .getD (hheld .position) _
      heading := hheading
      heading_degrees := by
        intro line hline t x hspells ht
        exact hheading.own _ ⟨line, hline, _, _, hspells, .headingDeg ht⟩
      generations := (hheld .generations n).mp hn
      maxLength := hheld .maxLength }

/-! ## Where the preset is named -/

/-- Lines can be taken in another order that leaves the rules in theirs. -/
theorem ofBytes_perm {name name' : String} {bytes bytes' : List UInt8} {g : Grammar}
    (hlines : (bytes.splitOn Line.feed).Perm (bytes'.splitOn Line.feed))
    (hrules : (Line.settings (bytes.splitOn Line.feed)).filterMap Setting.rule?
      = (Line.settings (bytes'.splitOn Line.feed)).filterMap Setting.rule?)
    (h : ofBytes name bytes = .ok g) : ofBytes name' bytes' = .ok g := by
  obtain ⟨hfit, hcomplete⟩ := ofBytes_eq_ok.mp h
  refine ofBytes_eq_ok.mpr ⟨hfit.perm hlines, ?_⟩
  rw [← Draft.ofSettings_perm (Line.settings_perm hlines) hfit.once hrules]
  exact hcomplete

/-- The line that names the preset can be moved to any other place. -/
theorem ofBytes_moved {name name' : String} {bytes bytes' : List UInt8}
    {before after before' after' : List (List UInt8)} {line : List UInt8} {p : Preset}
    (hbytes : bytes.splitOn Line.feed = before ++ line :: after)
    (hbytes' : bytes'.splitOn Line.feed = before' ++ line :: after')
    (hothers : before ++ after = before' ++ after') (hline : Line.States line (.preset p))
    {g : Grammar} (h : ofBytes name bytes = .ok g) : ofBytes name' bytes' = .ok g := by
  have hlines : (before ++ line :: after).Perm (before' ++ line :: after') := by
    refine List.perm_middle.trans ?_
    rw [hothers]
    exact List.perm_middle.symm
  -- the moved line is no rule, and the others keep their order
  have hrules : ∀ before after : List (List UInt8),
      (Line.settings (before ++ line :: after)).filterMap Setting.rule?
        = (Line.settings (before ++ after)).filterMap Setting.rule? := by
    intro before after
    simp only [Line.settings, List.filterMap_append,
      List.filterMap_cons_some (Line.setting?_eq_some_iff.mpr hline)]
    rfl
  refine ofBytes_perm ?_ ?_ h
  · rw [hbytes, hbytes']
    exact hlines
  · rw [hbytes, hbytes', hrules, hrules, hothers]

end Grammar

/-! ## Descriptions that leave everything to the preset -/

/-- The bytes name the preset, say how many generations to grow and how long the first step
    is, in lines of any order, and say nothing else. -/
def Preset.DescribedBy (p : Preset) (n : Nat) (l : Float) (bytes : List UInt8) : Prop :=
  ∃ (named counted measured : List UInt8) (blank : List (List UInt8)) (t u : Word),
    (bytes.splitOn Line.feed).Perm (named :: counted :: measured :: blank)
      ∧ Line.Spells named ["preset".toList, p.name.toList]
      ∧ Line.Spells counted ["generations".toList, t] ∧ readCount? t = some n
      ∧ Line.Spells measured ["length".toList, u] ∧ readFloat? u = some l
      ∧ ∀ line ∈ blank, Line.Spells line []

theorem Line.settings_of_blank {blank : List (List UInt8)}
    (h : ∀ line ∈ blank, readLine line = .ok none) : Line.settings blank = [] := by
  refine List.filterMap_eq_nil_iff.mpr ?_
  intro line hline
  rw [Line.setting?, h line hline]
  rfl

namespace Grammar

/-- Such a description is read as the preset with these numbers. -/
theorem ofBytes_described {name : String} {bytes : List UInt8} {p : Preset} {n : Nat} {l : Float}
    (hp : p ∈ Preset.catalog) (hl : l.isFinite = true) (h : p.DescribedBy n l bytes) :
    ofBytes name bytes = .ok
      { preset := p, seed := p.seed, rules := p.rules, config := p.turtleConfig l,
        generations := n } := by
  obtain ⟨named, counted, measured, blank, t, u, hlines, hnamed, hcounted, ht, hmeasured, hu,
    hblank⟩ := h
  have hpreset := readLine_eq_some.mpr ⟨_, _, hnamed, .preset hp⟩
  have hgenerations := readLine_eq_some.mpr ⟨_, _, hcounted, .generations ht⟩
  have hlength := readLine_eq_some.mpr ⟨_, _, hmeasured, .length hu hl⟩
  have hempty : ∀ line ∈ blank, readLine line = .ok none := by
    intro line hline
    exact readLine_eq_none.mpr (hblank line hline)
  -- the three settings in the order of the description; which line comes first does not matter
  have hsettings : (Line.settings (bytes.splitOn Line.feed)).Perm
      [.preset p, .generations n, .length l] := by
    have hread : Line.settings (named :: counted :: measured :: blank)
        = .preset p :: .generations n :: .length l :: Line.settings blank := by
      simp [Line.settings, Line.setting?, hpreset, hgenerations, hlength, Except.toOption]
    rw [Line.settings_of_blank hempty] at hread
    rw [← hread]
    exact Line.settings_perm hlines
  have hfit : Line.Fit (bytes.splitOn Line.feed) := by
    constructor
    · intro line hline
      have hmem := hlines.mem_iff.mp hline
      simp only [List.mem_cons] at hmem
      rcases hmem with rfl | rfl | rfl | hmem
      · exact ⟨_, hpreset⟩
      · exact ⟨_, hgenerations⟩
      · exact ⟨_, hlength⟩
      · exact ⟨none, hempty line hmem⟩
    · refine (hsettings.map Setting.entry).nodup_iff.mpr ?_
      simp [Setting.entry]
  have hrules : (Line.settings (bytes.splitOn Line.feed)).filterMap Setting.rule? = [] :=
    List.perm_nil.mp (hsettings.filterMap Setting.rule?)
  refine ofBytes_eq_ok.mpr ⟨hfit, ?_⟩
  rw [Draft.ofSettings_perm hsettings hfit.once hrules]
  rfl

/-- **Where a grammar comes from**: each part from its line, else from the preset, else from a
    turtle's own settings.  It makes no difference which line names the preset.  A description
    that says no more than a preset's name, the generations and the length of a step grows and
    walks as the preset does. -/
theorem preset_resolution :
    (∀ name bytes g, ofBytes name bytes = .ok g → g.ComesFrom bytes)
      ∧ (∀ name name' bytes bytes' before after before' after' line p,
          bytes.splitOn Line.feed = before ++ line :: after →
          bytes'.splitOn Line.feed = before' ++ line :: after' →
          before ++ after = before' ++ after' → Line.States line (.preset p) →
          ∀ g, ofBytes name bytes = .ok g ↔ ofBytes name' bytes' = .ok g)
      ∧ ∀ name bytes p n l, p ∈ Preset.catalog → l.isFinite = true → p.DescribedBy n l bytes →
          ∃ g, ofBytes name bytes = .ok g ∧ g.expand = .ok (p.lsystem.advanceBy n)
            ∧ g.walk
              = .ok ((Turtle.new (p.turtleConfig l)).run (p.lsystem.advanceBy n).current) := by
  refine ⟨?_, ?_, ?_⟩
  · intro name bytes g h
    exact comesFrom_of_ofBytes h
  · intro name name' bytes bytes' before after before' after' line p hbytes hbytes' hothers hline g
    -- moving the line back is moving it too, with the two contents exchanged
    constructor
    · intro h
      exact ofBytes_moved hbytes hbytes' hothers hline h
    · intro h
      exact ofBytes_moved hbytes' hbytes hothers.symm hline h
  · intro name bytes p n l hp hl h
    exact ⟨_, ofBytes_described hp hl h, rfl, rfl⟩

/-- Two generations of the snowflake, the preset named last but for an empty line. -/
theorem preset_resolution_koch :
    ∃ g, ofBytes "koch" "length 2.5 # first step\ngenerations 2\npreset koch\n".toUTF8.data.toList
        = .ok g
      ∧ g.expand = .ok (Preset.koch.lsystem.advanceBy 2) := by
  have hdescribed : Preset.koch.DescribedBy 2 2.5
      "length 2.5 # first step\ngenerations 2\npreset koch\n".toUTF8.data.toList := by
    refine ⟨"preset koch".toUTF8.data.toList, "generations 2".toUTF8.data.toList,
      "length 2.5 # first step".toUTF8.data.toList, [[]], "2".toList, "2.5".toList,
      ?_, ?_, ?_, by decide, ?_, rfl, ?_⟩
    · decide
    · exact Line.spells_iff.mpr ⟨_, rfl, by decide⟩
    · exact Line.spells_iff.mpr ⟨_, rfl, by decide⟩
    · exact Line.spells_iff.mpr ⟨_, rfl, by decide⟩
    · intro line hline
      rw [List.mem_singleton.mp hline]
      exact Line.spells_iff.mpr ⟨[], rfl, rfl⟩
  obtain ⟨g, hread, hexpand, -⟩ := preset_resolution.2.2 "koch" _ Preset.koch 2 2.5
    (by simp [Preset.catalog]) (by decide) hdescribed
  exact ⟨g, hread, hexpand⟩

end Grammar

end TurtleGrammar
