import Mathlib.Data.List.Basic
import TurtleGrammar.Proofs.Held

/-! # Line order — a description is a set of lines

    Lines are taken up one by one and the first that does not fit ends the
    reading, but no line can fit in one place and not in another: a line is
    refused because of what it is, or because of a second line for the same
    entry.  So every order of the lines is read, or none is.

    Of the order in which lines were read a draft keeps that of the rules, and
    a set of rules does not keep that either. -/

namespace TurtleGrammar

/-- The lines as a text, with line feeds between them. -/
def Line.join (lines : List (List UInt8)) : List UInt8 := [Line.feed].intercalate lines

/-- The grammars differ at most in the order of their rules. -/
structure Grammar.Agrees (g g' : Grammar) : Prop where
  preset : g.preset = g'.preset
  seed : g.seed = g'.seed
  generations : g.generations = g'.generations
  maxLength : g.maxLength = g'.maxLength
  config : g.config = g'.config
  ruleSet : g.ruleSet = g'.ruleSet

namespace Grammar.Agrees

variable {g g' : Grammar}

/-- Growth looks at the rules as a set. -/
theorem expand_eq (h : g.Agrees g') : g.expand = g'.expand := by
  rw [expand, expand, lsystem, lsystem, h.seed, h.ruleSet, h.maxLength, h.generations]

/-- Grammars that agree are walked alike. -/
theorem walk_eq (h : g.Agrees g') : g.walk = g'.walk := by
  rw [walk, walk, h.expand_eq, h.config]

end Grammar.Agrees

/-! ## Drafts whose rules are in another order -/

namespace Draft

theorem held_rules (d : Draft) (rules : Array (Char × Word)) (slot : Slot) :
    ({ d with rules } : Draft).held slot = d.held slot := by
  cases slot <;> rfl

/-- Filling other slots has nothing to do with the rules. -/
theorem fill_rules (d : Draft) (rules : Array (Char × Word)) :
    ({ d with rules } : Draft).fill =
      { d.fill with rules := ({ d with rules } : Draft).fill.rules } := by
  rw [fill_eq d, fill_eq]

/-- Rules are filled in for both drafts or for none, and their order is no part of the set. -/
theorem ruleSet_fill_perm {d d' : Draft} (hpreset : d.preset = d'.preset)
    (hrules : d.rules.toList.Perm d'.rules.toList) (hnodup : (d.rules.toList.map Prod.fst).Nodup) :
    RuleSet.ofList d.fill.rules.toList = RuleSet.ofList d'.fill.rules.toList := by
  rw [rules_fill, rules_fill, hpreset]
  by_cases hnil : d.rules.toList = []
  · have hnil' : d'.rules.toList = [] := by
      rw [hnil] at hrules
      exact List.nil_perm.mp hrules
    rw [if_pos hnil, if_pos hnil']
  · have hcons : d'.rules.toList ≠ [] := by
      intro hnil'
      rw [hnil'] at hrules
      exact hnil (List.perm_nil.mp hrules)
    rw [if_neg hnil, if_neg hcons]
    exact RuleSet.ofList_perm hrules hnodup

/-- Settings for different entries complete a draft in every order or in none. -/
theorem complete_perm {ss ss' : List Setting} (hperm : ss.Perm ss')
    (hnodup : (ss.map Setting.entry).Nodup) {g : Grammar}
    (h : (ofSettings ss).complete = .ok g) :
    ∃ g', (ofSettings ss').complete = .ok g' ∧ g.Agrees g' := by
  have hrules : (ofSettings ss).rules.toList.Perm (ofSettings ss').rules.toList := by
    rw [rules_ofSettings, rules_ofSettings]
    exact hperm.filterMap Setting.rule?
  have hsymbols : ((ofSettings ss).rules.toList.map Prod.fst).Nodup := by
    rw [rules_ofSettings]
    exact Setting.nodup_symbols hnodup
  -- the drafts differ in the order of their rules only
  have hdraft : ofSettings ss'
      = { ofSettings ss with rules := (ofSettings ss').rules } := by
    refine ext_held ?_ rfl
    intro slot
    exact (held_perm hperm hnodup slot).symm.trans (held_rules _ _ slot).symm
  generalize ofSettings ss = d at *
  generalize ofSettings ss' = d' at *
  have hfill : d'.fill = { d.fill with rules := d'.fill.rules } := by
    have heq := fill_rules d d'.rules
    rwa [← hdraft] at heq
  obtain ⟨seed, n, hseed, hn, rfl⟩ := complete_eq_ok.mp h
  refine ⟨_, complete_eq_ok.mpr ⟨seed, n, ?_, ?_, rfl⟩, ?_⟩
  · rw [hfill]
    exact hseed
  · rw [hdraft]
    exact hn
  · exact
      { preset := by rw [hdraft]
        seed := rfl
        generations := rfl
        maxLength := by rw [hdraft]
        config := by
          rw [hfill]
          rfl
        ruleSet := ruleSet_fill_perm (by rw [hdraft]) hrules hsymbols }

end Draft

/-! ## Lines in another order -/

/-- Joined lines are cut into the same lines again, if none of them is cut further. -/
theorem Line.splitOn_join {lines : List (List UInt8)} (hfeed : ∀ line ∈ lines, Line.feed ∉ line)
    (hne : lines ≠ []) : (Line.join lines).splitOn Line.feed = lines :=
  List.splitOn_intercalate Line.feed hfeed hne

namespace Grammar

/-- Joined lines are read as the completed draft of their settings. -/
theorem ofBytes_join_eq_ok {name : String} {lines : List (List UInt8)}
    (hfeed : ∀ line ∈ lines, Line.feed ∉ line) {g : Grammar} :
    ofBytes name (Line.join lines) = .ok g
      ↔ Line.Fit lines ∧ (Draft.ofSettings (Line.settings lines)).complete = .ok g := by
  cases lines with
  | nil =>
      -- no lines make the empty text, which is not cut into any
      show ofLines name [] = .ok g ↔ _
      exact ofLines_eq_ok
  | cons line lines => rw [ofBytes_eq_ok, Line.splitOn_join hfeed (List.cons_ne_nil line lines)]

/-- What one order of the lines is read as, every other is, up to the order of the rules. -/
theorem ofBytes_join_perm {name : String} {lines lines' : List (List UInt8)}
    (hfeed : ∀ line ∈ lines, Line.feed ∉ line) (hfeed' : ∀ line ∈ lines', Line.feed ∉ line)
    (hperm : lines.Perm lines') {g : Grammar} (h : ofBytes name (Line.join lines) = .ok g) :
    ∃ g', ofBytes name (Line.join lines') = .ok g' ∧ g.Agrees g' := by
  obtain ⟨hfit, hcomplete⟩ := (ofBytes_join_eq_ok hfeed).mp h
  obtain ⟨g', hcomplete', hagrees⟩ :=
    Draft.complete_perm (Line.settings_perm hperm) hfit.once hcomplete
  exact ⟨g', (ofBytes_join_eq_ok hfeed').mpr ⟨hfit.perm hperm, hcomplete'⟩, hagrees⟩

/-- **Line order**: lines are read in every order or in none, and what they are read as has the
    same parts and the same rules, grows the same generations or is refused for the same
    reason, and walks the same way. -/
theorem line_order_irrelevant {lines lines' : List (List UInt8)}
    (hfeed : ∀ line ∈ lines, Line.feed ∉ line) (hperm : lines.Perm lines') (name : String) :
    ((∃ g, ofBytes name (Line.join lines) = .ok g)
        ↔ ∃ g, ofBytes name (Line.join lines') = .ok g)
      ∧ ∀ g g', ofBytes name (Line.join lines) = .ok g →
          ofBytes name (Line.join lines') = .ok g' →
          g.Agrees g' ∧ g.expand = g'.expand ∧ g.walk = g'.walk := by
  have hfeed' : ∀ line ∈ lines', Line.feed ∉ line := by
    intro line hline
    exact hfeed line (hperm.mem_iff.mpr hline)
  refine ⟨⟨?_, ?_⟩, ?_⟩
  · rintro ⟨g, h⟩
    obtain ⟨g', h', -⟩ := ofBytes_join_perm hfeed hfeed' hperm h
    exact ⟨g', h'⟩
  · rintro ⟨g, h⟩
    obtain ⟨g', h', -⟩ := ofBytes_join_perm hfeed' hfeed hperm.symm h
    exact ⟨g', h'⟩
  · intro g g' h h'
    obtain ⟨g'', hread, hagrees⟩ := ofBytes_join_perm hfeed hfeed' hperm h
    obtain rfl : g'' = g' := Except.ok.inj (hread.symm.trans h')
    exact ⟨hagrees, hagrees.expand_eq, hagrees.walk_eq⟩

/-- Rules that replace a preset's, in either order and on either side of its name. -/
theorem line_order_irrelevant_koch :
    ∃ g g', ofText "koch" "rule F F[+X]F\nrule X\npreset koch\ngenerations 2" = .ok g
      ∧ ofText "koch" "rule X\ngenerations 2\npreset koch\nrule F F[+X]F" = .ok g'
      ∧ g.walk = g'.walk := by
  let line (text : String) : List UInt8 := text.toUTF8.data.toList
  have horder := @line_order_irrelevant
    [line "rule F F[+X]F", line "rule X", line "preset koch", line "generations 2"]
    [line "rule X", line "generations 2", line "preset koch", line "rule F F[+X]F"]
    (by decide) (by decide) "koch"
  have hjoin : Line.join [line "rule F F[+X]F", line "rule X", line "preset koch",
      line "generations 2"] = line "rule F F[+X]F\nrule X\npreset koch\ngenerations 2" := by
    decide
  have hjoin' : Line.join [line "rule X", line "generations 2", line "preset koch",
      line "rule F F[+X]F"] = line "rule X\ngenerations 2\npreset koch\nrule F F[+X]F" := by
    decide
  rw [hjoin, hjoin'] at horder
  -- only the first order is evaluated, and the theorem answers for the second
  have hok : (ofBytes "koch" (line "rule F F[+X]F\nrule X\npreset koch\ngenerations 2")).isOk
      = true := by
    decide +kernel
  obtain ⟨g, h⟩ := exists_eq_ok_of_isOk hok
  obtain ⟨g', h'⟩ := horder.1.mp ⟨g, h⟩
  exact ⟨g, g', h, h', (horder.2 g g' h h').2.2⟩

end Grammar

end TurtleGrammar
