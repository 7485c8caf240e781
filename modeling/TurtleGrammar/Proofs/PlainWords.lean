import TurtleGrammar.Proofs.Building
import TurtleGrammar.Proofs.Occurring
import TurtleGrammar.Proofs.Origins

/-! # Plain words — what cannot come up in a generation

    A blank ends a token and a `#` ends the line, so a token has neither.  The
    words of a grammar are tokens, or they are those of a preset, which are
    written the same way.  What is read is therefore `Grammar.Tidy`: the seed
    and the replacements are plain, the seed is not empty, and no symbol has
    two rules.

    Plain symbols become plain symbols, so the set of them is closed in the
    sense of `RuleSet.Closed`, and every generation stays in it. -/

namespace TurtleGrammar

/-- The symbol can be part of a token: it begins no comment, and it is not blank. -/
def IsPlain (c : Char) : Prop := c ≠ '#' ∧ isBlank c = false

instance (c : Char) : Decidable (IsPlain c) :=
  inferInstanceAs (Decidable (c ≠ '#' ∧ isBlank c = false))

/-! ## Tokens -/

namespace Line

/-- Tokens are made of the characters of their text that are not blank. -/
theorem Separates.mem_token {tokens : List Word} {cs : List Char} (h : Separates tokens cs) :
    ∀ t ∈ tokens, t ≠ [] ∧ ∀ c ∈ t, c ∈ cs ∧ isBlank c = false := by
  induction h with
  | nil => exact fun t ht => absurd ht List.not_mem_nil
  | blank _ _ ih =>
      intro t ht
      obtain ⟨hne, hchars⟩ := ih t ht
      exact ⟨hne, fun c hc => (hchars c hc).imp_left (List.mem_cons_of_mem _)⟩
  | token hne hword _ _ ih =>
      rw [List.forall_mem_cons]
      refine ⟨⟨hne, fun c hc => ⟨List.mem_append_left _ hc, hword c hc⟩⟩, ?_⟩
      intro t ht
      obtain ⟨hne', hchars⟩ := ih t ht
      exact ⟨hne', fun c hc => (hchars c hc).imp_left (List.mem_append_right _)⟩

/-- No token is empty, and none has a blank or a comment sign. -/
theorem Spells.plain {line : List UInt8} {tokens : List Word} (h : Spells line tokens) :
    ∀ t ∈ tokens, t ≠ [] ∧ ∀ c ∈ t, IsPlain c := by
  obtain ⟨cs, text, -, ⟨hcomment, -⟩, hseparates⟩ := h
  intro t ht
  obtain ⟨hne, hchars⟩ := hseparates.mem_token t ht
  refine ⟨hne, ?_⟩
  intro c hc
  obtain ⟨hmem, hblank⟩ := hchars c hc
  exact ⟨ne_of_mem_of_not_mem hmem hcomment, hblank⟩

end Line

/-- A seed that is stated is not empty, and all its symbols are plain. -/
theorem seed_of_says {bytes : List UInt8} {w : Word} (h : Says bytes (.seed w)) :
    w ≠ [] ∧ ∀ c ∈ w, IsPlain c := by
  obtain ⟨line, -, keyword, tokens, hspells, hstated⟩ := h
  cases hstated with
  | seed => exact hspells.plain w (by simp)

/-- A replacement is a token, or there is none and its symbol is erased. -/
theorem replacement_of_says {bytes : List UInt8} {c : Char} {w : Word}
    (h : Says bytes (.rule c w)) : ∀ d ∈ w, IsPlain d := by
  obtain ⟨line, -, keyword, tokens, hspells, hstated⟩ := h
  cases hstated with
  | erasure => exact fun d hd => absurd hd List.not_mem_nil
  | rule => exact (hspells.plain w (by simp)).2

/-! ## Grammars -/

/-- The seed is not empty, no symbol has two rules, and what words are made of is plain. -/
structure Grammar.Tidy (g : Grammar) : Prop where
  seed_ne_nil : g.seed ≠ []
  seed : ∀ c ∈ g.seed, IsPlain c
  symbols : (g.rules.map Prod.fst).Nodup
  replacements : ∀ rule ∈ g.rules, ∀ c ∈ rule.2, IsPlain c

namespace Preset

/-- The curves of the catalog are written in plain symbols. -/
theorem plain_of_mem {p : Preset} (hp : p ∈ catalog) {c : Char}
    (hc : c ∈ p.seed ++ p.rules.flatMap Prod.snd) : IsPlain c := by
  have hall : catalog.all (fun p =>
      (p.seed ++ p.rules.flatMap Prod.snd).all fun c => decide (IsPlain c)) = true := by
    decide +kernel
  exact of_decide_eq_true (List.all_eq_true.mp (List.all_eq_true.mp hall p hp) c hc)

/-- What a preset has for a grammar is tidy. -/
theorem tidy {p : Preset} (hp : p ∈ catalog) :
    (p.seed ≠ [] ∧ ∀ c ∈ p.seed, IsPlain c) ∧ (p.rules.map Prod.fst).Nodup
      ∧ ∀ rule ∈ p.rules, ∀ c ∈ rule.2, IsPlain c := by
  have hall : ∀ p ∈ catalog, p.seed ≠ [] ∧ (p.rules.map Prod.fst).Nodup := by decide
  obtain ⟨hne, hnodup⟩ := hall p hp
  refine ⟨⟨hne, ?_⟩, hnodup, ?_⟩
  · intro c hc
    exact plain_of_mem hp (List.mem_append_left _ hc)
  · intro rule hrule c hc
    exact plain_of_mem hp (List.mem_append_right _ (List.mem_flatMap.mpr ⟨rule, hrule, hc⟩))

end Preset

namespace Grammar

/-- The rules are those of the lines, or those of the preset that a line names, or there are
    none. -/
theorem rules_of_ofBytes {name : String} {bytes : List UInt8} {g : Grammar}
    (h : ofBytes name bytes = .ok g) :
    g.rules = (Line.settings (bytes.splitOn Line.feed)).filterMap Setting.rule?
      ∨ (∃ p, g.preset = some p ∧ g.rules = p.rules) ∨ g.rules = [] := by
  obtain ⟨-, hcomplete⟩ := ofBytes_eq_ok.mp h
  obtain ⟨seed, n, -, -, rfl⟩ := Draft.complete_eq_ok.mp hcomplete
  have hrules := Draft.rules_fill (Draft.ofSettings (Line.settings (bytes.splitOn Line.feed)))
  rw [Draft.rules_ofSettings] at hrules
  -- the preset is asked for rules only if no line has one
  by_cases hnil : (Line.settings (bytes.splitOn Line.feed)).filterMap Setting.rule? = []
  · rw [if_pos hnil] at hrules
    refine Or.inr ?_
    cases hpreset : (Draft.ofSettings (Line.settings (bytes.splitOn Line.feed))).preset with
    | none =>
        rw [hpreset] at hrules
        exact Or.inr hrules
    | some p =>
        rw [hpreset] at hrules
        exact Or.inl ⟨p, rfl, hrules⟩
  · rw [if_neg hnil] at hrules
    exact Or.inl hrules

/-- What is read is tidy, with a preset or without. -/
theorem tidy_of_ofBytes {name : String} {bytes : List UInt8} {g : Grammar}
    (h : ofBytes name bytes = .ok g) : g.Tidy := by
  have hfrom := comesFrom_of_ofBytes h
  -- a preset that has been named is in the catalog, and the catalog is tidy
  have htidy : ∀ p, g.preset = some p → p ∈ Preset.catalog := fun p hp =>
    mem_catalog_of_named ((hfrom.preset p).mp hp)
  have hseed : g.seed ≠ [] ∧ ∀ c ∈ g.seed, IsPlain c := by
    rcases hfrom.start with ⟨w, hw⟩ | ⟨p, hp⟩
    · rw [hfrom.seed.own w hw]
      exact seed_of_says hw
    · refine hfrom.seed.elim (fun _ => seed_of_says) ?_
      rw [hp]
      exact (Preset.tidy (htidy p hp)).1
  have hrules : (g.rules.map Prod.fst).Nodup ∧ ∀ rule ∈ g.rules, ∀ c ∈ rule.2, IsPlain c := by
    rcases rules_of_ofBytes h with hown | ⟨p, hp, hrules⟩ | hnone
    · rw [hown]
      refine ⟨Setting.nodup_symbols (ofBytes_eq_ok.mp h).1.once, ?_⟩
      rintro ⟨c, w⟩ hrule
      exact replacement_of_says (says_iff.mpr (Setting.mem_rules.mp hrule))
    · rw [hrules]
      exact (Preset.tidy (htidy p hp)).2
    · rw [hnone]
      exact ⟨List.nodup_nil, fun rule hrule => absurd hrule List.not_mem_nil⟩
  exact ⟨hseed.1, hseed.2, hrules.1, hrules.2⟩

/-! ## Generations -/

/-- Each rule is found, and there are no others. -/
theorem Tidy.get?_ruleSet {g : Grammar} (h : g.Tidy) (c : Char) (w : Word) :
    g.ruleSet.get? c = some w ↔ (c, w) ∈ g.rules :=
  RuleSet.get?_ofList h.symbols

/-- A tidy grammar has a rule for as many symbols as it lists rules. -/
theorem Tidy.size_ruleSet {g : Grammar} (h : g.Tidy) : g.ruleSet.size = g.rules.length := by
  rw [ruleSet, RuleSet.size_ofList, List.toFinset_card_of_nodup h.symbols, List.length_map]

/-- Plain symbols become plain symbols. -/
theorem Tidy.closed {g : Grammar} (h : g.Tidy) : g.ruleSet.Closed g.seed {c | IsPlain c} where
  seed := h.seed
  image := by
    intro c hc d hd
    cases hget : g.ruleSet.get? c with
    | none =>
        rw [RuleSet.image_of_none hget, List.mem_singleton] at hd
        rw [hd]
        exact hc
    | some w =>
        rw [RuleSet.image_of_some hget] at hd
        exact h.replacements (c, w) ((h.get?_ruleSet c w).mp hget) d hd

/-- **Run**: all generations of a tidy grammar consist of plain symbols. -/
theorem Tidy.plain_generation {g : Grammar} (h : g.Tidy) (n : Nat) :
    ∀ c ∈ (g.lsystem.advanceBy n).current, IsPlain c := by
  intro c hc
  refine h.closed.of_occurs (LSystem.occurs_of_mem_grown g.ruleSet g.seed n c ?_)
  rw [LSystem.grown, LSystem.advance_iterate]
  exact hc

/-- **Plain words**: what is read has a seed that is not empty and rules for different symbols,
    so each of them is found and all of them are counted.  However far it grows, nothing in it is
    blank or a comment sign. -/
theorem generations_are_plain {name : String} {bytes : List UInt8} {g : Grammar}
    (h : ofBytes name bytes = .ok g) :
    g.seed ≠ []
      ∧ ((g.rules.map Prod.fst).Nodup ∧ g.ruleSet.size = g.rules.length
          ∧ ∀ c w, g.ruleSet.get? c = some w ↔ (c, w) ∈ g.rules)
      ∧ ∀ n, ∀ c ∈ (g.lsystem.advanceBy n).current, c ≠ '#' ∧ isBlank c = false := by
  have htidy := tidy_of_ofBytes h
  exact ⟨htidy.seed_ne_nil, ⟨htidy.symbols, htidy.size_ruleSet, htidy.get?_ruleSet⟩,
    htidy.plain_generation⟩

/-- A comment right behind a token, a blank that is none in ASCII, and a preset for the seed. -/
theorem generations_are_plain_koch :
    ∃ g, ofText "koch" "preset koch#flake\nrule F F[é]F\u3000#wide\nrule é\ngenerations 3" = .ok g
      ∧ g.seed ≠ [] ∧ g.ruleSet.size = g.rules.length
      ∧ ∀ n, ∀ c ∈ (g.lsystem.advanceBy n).current, c ≠ '#' ∧ isBlank c = false := by
  have hok : (ofText "koch"
      "preset koch#flake\nrule F F[é]F\u3000#wide\nrule é\ngenerations 3").isOk = true := by
    decide +kernel
  obtain ⟨g, h⟩ := exists_eq_ok_of_isOk hok
  obtain ⟨hseed, ⟨-, hsize, -⟩, hplain⟩ := generations_are_plain h
  exact ⟨g, h, hseed, hsize, hplain⟩

end Grammar

end TurtleGrammar
