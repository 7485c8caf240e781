import Mathlib.Data.List.Basic
import TurtleGrammar.Proofs.Drafts
import TurtleGrammar.Proofs.Forms
import TurtleGrammar.Proofs.Tokens

/-! # The format of descriptions

    `IsDescription` says of any bytes whether they are a description, in terms
    of what their lines spell and of nothing that is computed on the way: not
    the tokens that were found, not the draft, not the preset that was filled
    in.  `Grammar.ofBytes` reads exactly the bytes that are one. -/

namespace TurtleGrammar

/-- The line states the setting: so its tokens do. -/
def Line.States (line : List UInt8) (s : Setting) : Prop :=
  ∃ keyword tokens, Line.Spells line (keyword :: tokens) ∧ Setting.Stated keyword tokens s

/-- The bytes follow the format of descriptions. -/
structure IsDescription (bytes : List UInt8) : Prop where
  /-- Every line is text. -/
  encoded : ∀ line ∈ bytes.splitOn Line.feed, ∃ cs, Line.Encodes line cs
  /-- Every line with tokens states something. -/
  stated : ∀ line ∈ bytes.splitOn Line.feed, ∀ keyword tokens,
    Line.Spells line (keyword :: tokens) → ∃ s, Setting.Stated keyword tokens s
  /-- No two lines set the same entry. -/
  once : (bytes.splitOn Line.feed).Pairwise fun line line' =>
    ∀ s s', Line.States line s → Line.States line' s' → s.entry ≠ s'.entry
  /-- Some line sets the number of generations. -/
  generations : ∃ line ∈ bytes.splitOn Line.feed, ∃ n, Line.States line (.generations n)
  /-- Some line sets the seed, or names a preset to take it from. -/
  start : ∃ line ∈ bytes.splitOn Line.feed,
    (∃ w, Line.States line (.seed w)) ∨ ∃ p, Line.States line (.preset p)

/-! ## What reading a line finds -/

/-- **Inversion**: a line is no text, or it has no tokens, or its first token is read as a
    keyword with the others as arguments. -/
theorem readLine_cases (line : List UInt8) :
    ((¬ ∃ cs, Line.Encodes line cs) ∧ readLine line = .error .unreadable)
      ∨ (Line.Spells line [] ∧ readLine line = .ok none)
      ∨ ∃ keyword tokens, Line.Spells line (keyword :: tokens)
          ∧ ((∃ fault, Setting.read keyword tokens = .error fault
                ∧ readLine line = .error (.faulty keyword fault))
            ∨ ∃ s, Setting.read keyword tokens = .ok s ∧ readLine line = .ok (some s)) := by
  -- the three steps of reading, in their order: decoding, tokens, then what they set
  cases hline : Line.decode? line with
  | none =>
      refine Or.inl ⟨Line.decode?_eq_none.mp hline, ?_⟩
      rw [readLine, hline]
  | some cs =>
      refine Or.inr ?_
      cases htokens : Line.tokens cs with
      | nil =>
          refine Or.inl ⟨Line.spells_iff.mpr ⟨cs, hline, htokens⟩, ?_⟩
          simp only [readLine, hline, htokens]
      | cons keyword tokens =>
          refine Or.inr ⟨keyword, tokens, Line.spells_iff.mpr ⟨cs, hline, htokens⟩, ?_⟩
          simp only [readLine, hline, htokens]
          cases hread : Setting.read keyword tokens with
          | error fault => exact Or.inl ⟨fault, rfl, rfl⟩
          | ok s => exact Or.inr ⟨s, rfl, rfl⟩

/-- A line is read as a setting exactly when it states the setting. -/
theorem readLine_eq_some {line : List UInt8} {s : Setting} :
    readLine line = .ok (some s) ↔ Line.States line s := by
  constructor
  · intro h
    rcases readLine_cases line with ⟨-, hread⟩ | ⟨-, hread⟩ | ⟨keyword, tokens, hspells, hcase⟩
    · exact nomatch h.symm.trans hread
    · exact nomatch h.symm.trans hread
    · rcases hcase with ⟨fault, -, hread⟩ | ⟨s', hs', hread⟩
      · exact nomatch h.symm.trans hread
      · obtain rfl := Option.some.inj (Except.ok.inj (h.symm.trans hread))
        exact ⟨keyword, tokens, hspells, Setting.read_eq_ok.mp hs'⟩
  · rintro ⟨keyword, tokens, hspells, hstated⟩
    rcases readLine_cases line with ⟨hno, -⟩ | ⟨hnil, -⟩ | ⟨keyword', tokens', hspells', hcase⟩
    · obtain ⟨cs, -, hcs, -⟩ := hspells
      exact absurd ⟨cs, hcs⟩ hno
    · exact nomatch hspells.inj hnil
    · -- a line spells its tokens in one way, so these are the ones that were read
      obtain ⟨rfl, rfl⟩ := List.cons.inj (hspells.inj hspells')
      rw [hstated.read_eq] at hcase
      rcases hcase with ⟨fault, hfault, -⟩ | ⟨s', hs', hread⟩
      · exact nomatch hfault
      · rw [hread, Except.ok.inj hs']

/-- A line is accepted by itself exactly when it is text and its tokens, if there are any, state
    something. -/
theorem readLine_isOk {line : List UInt8} :
    (∃ o, readLine line = .ok o)
      ↔ (∃ cs, Line.Encodes line cs)
        ∧ ∀ keyword tokens, Line.Spells line (keyword :: tokens)
            → ∃ s, Setting.Stated keyword tokens s := by
  rcases readLine_cases line with ⟨hno, hread⟩ | ⟨hnil, hread⟩ | ⟨keyword, tokens, hspells, hcase⟩
  · rw [hread]
    refine iff_of_false ?_ (fun h => hno h.1)
    rintro ⟨o, ho⟩
    exact nomatch ho
  · refine iff_of_true ⟨none, hread⟩ ⟨?_, ?_⟩
    · obtain ⟨cs, -, hcs, -⟩ := hnil
      exact ⟨cs, hcs⟩
    · intro keyword tokens hspells
      exact nomatch hspells.inj hnil
  · -- a line with tokens is text, so all depends on whether the tokens state something
    have htext : ∃ cs, Line.Encodes line cs := by
      obtain ⟨cs, -, hcs, -⟩ := hspells
      exact ⟨cs, hcs⟩
    rw [and_iff_right htext]
    rcases hcase with ⟨fault, hfault, hread⟩ | ⟨s, hs, hread⟩
    · rw [hread]
      refine iff_of_false ?_ ?_
      · rintro ⟨o, ho⟩
        exact nomatch ho
      · intro h
        obtain ⟨s, hs⟩ := h keyword tokens hspells
        exact nomatch hfault.symm.trans hs.read_eq
    · refine iff_of_true ⟨some s, hread⟩ ?_
      intro keyword' tokens' hspells'
      obtain ⟨rfl, rfl⟩ := List.cons.inj (hspells.inj hspells')
      exact ⟨s, Setting.read_eq_ok.mp hs⟩

theorem Line.setting?_eq_some_iff {line : List UInt8} {s : Setting} :
    Line.setting? line = some s ↔ Line.States line s :=
  Line.setting?_eq_some.trans readLine_eq_some

/-- A line says nothing exactly when it is text without tokens. -/
theorem readLine_eq_none {line : List UInt8} : readLine line = .ok none ↔ Line.Spells line [] := by
  rcases readLine_cases line with ⟨hno, hread⟩ | ⟨hnil, hread⟩ | ⟨keyword, tokens, hspells, hcase⟩
  · rw [hread]
    refine iff_of_false (by rintro ⟨⟩) ?_
    rintro ⟨cs, -, hcs, -⟩
    exact hno ⟨cs, hcs⟩
  · exact iff_of_true hread hnil
  · have hsome : readLine line ≠ .ok none := by
      rcases hcase with ⟨fault, -, hread⟩ | ⟨s, -, hread⟩
      · rw [hread]
        rintro ⟨⟩
      · rw [hread]
        rintro ⟨⟩
    refine iff_of_false hsome ?_
    intro hnil
    cases hspells.inj hnil

theorem readLine_nil : readLine [] = .ok none :=
  readLine_eq_none.mpr ⟨[], [], rfl, ⟨List.not_mem_nil, Or.inl rfl⟩, .nil⟩

/-! ## What makes a draft complete -/

/-- A filled draft makes a grammar exactly when seed and generations are set. -/
theorem Draft.toGrammar_isOk {d : Draft} :
    (∃ g, d.toGrammar = .ok g)
      ↔ d.has (.slot .seed) = true ∧ d.has (.slot .generations) = true := by
  show _ ↔ d.seed.isSome = true ∧ d.generations.isSome = true
  rw [Draft.toGrammar]
  cases d.seed <;> cases d.generations <;> simp

/-- A draft is completed when generations are set and a seed is, or a preset that has one. -/
theorem Draft.complete_isOk {d : Draft} :
    (∃ g, d.complete = .ok g)
      ↔ (d.has (.slot .seed) = true ∨ d.has (.slot .preset) = true)
        ∧ d.has (.slot .generations) = true := by
  rw [Draft.complete, Draft.toGrammar_isOk]
  show d.fill.seed.isSome = true ∧ d.fill.generations.isSome = true
    ↔ (d.seed.isSome = true ∨ d.preset.isSome = true) ∧ d.generations.isSome = true
  rw [Draft.fill]
  cases hpreset : d.preset with
  | none => simp
  | some p => simp

/-! ## What the settings of all lines say -/

/-- The settings of some lines are what any of the lines states. -/
theorem Line.mem_settings {lines : List (List UInt8)} {s : Setting} :
    s ∈ Line.settings lines ↔ ∃ line ∈ lines, Line.States line s := by
  simp only [Line.settings, List.mem_filterMap, Line.setting?_eq_some_iff]

/-- The entries of the settings are different exactly when no two lines set the same. -/
theorem Line.nodup_entries {lines : List (List UInt8)} :
    ((Line.settings lines).map Setting.entry).Nodup
      ↔ lines.Pairwise fun line line' =>
          ∀ s s', Line.States line s → Line.States line' s' → s.entry ≠ s'.entry := by
  rw [List.Nodup, List.pairwise_map, Line.settings, List.pairwise_filterMap]
  simp only [Line.setting?_eq_some_iff]
  constructor
  · intro h
    exact h.imp fun hne s s' hs hs' => hne s hs s' hs'
  · intro h
    exact h.imp fun hne s hs s' hs' => hne s s' hs hs'

theorem Setting.entry_eq_generations {s : Setting} :
    s.entry = .slot .generations ↔ ∃ n, s = .generations n := by
  cases s <;> simp [Setting.entry]

theorem Setting.entry_eq_seed {s : Setting} : s.entry = .slot .seed ↔ ∃ w, s = .seed w := by
  cases s <;> simp [Setting.entry]

theorem Setting.entry_eq_preset {s : Setting} : s.entry = .slot .preset ↔ ∃ p, s = .preset p := by
  cases s <;> simp [Setting.entry]

/-- Some line states a setting of a kind exactly when one of the settings is of the kind. -/
theorem Line.exists_mem_settings {lines : List (List UInt8)} {P : Setting → Prop} :
    (∃ s ∈ Line.settings lines, P s) ↔ ∃ line ∈ lines, ∃ s, Line.States line s ∧ P s := by
  constructor
  · rintro ⟨s, hs, hP⟩
    obtain ⟨line, hline, hstates⟩ := Line.mem_settings.mp hs
    exact ⟨line, hline, s, hstates, hP⟩
  · rintro ⟨line, hline, s, hstates, hP⟩
    exact ⟨s, Line.mem_settings.mpr ⟨line, hline, hstates⟩, hP⟩

/-! ## What reading accepts -/

/-- Lines are read when all of them are taken up and what they set is complete. -/
theorem Grammar.ofLines_isOk {name : String} {lines : List (List UInt8)} :
    (∃ g, Grammar.ofLines name lines = .ok g)
      ↔ ∃ d, Draft.addLines {} 1 lines = .ok d ∧ ∃ g, d.complete = .ok g := by
  rw [Grammar.ofLines]
  cases Draft.addLines {} 1 lines with
  | error e =>
      refine iff_of_false ?_ ?_
      · rintro ⟨g, hg⟩
        exact nomatch hg
      · rintro ⟨d, hd, -⟩
        exact nomatch hd
  | ok d =>
      -- the name of the input appears only in errors, so it plays no part in success
      show (∃ g, d.complete.mapError (ReadError.incomplete name) = .ok g) ↔ _
      simp only [mapError_eq_ok]
      constructor
      · intro hg
        exact ⟨d, rfl, hg⟩
      · rintro ⟨d', hd', hg⟩
        rw [Except.ok.inj hd']
        exact hg

/-- Lines are read when each of them can be, no entry is set twice and what is needed is
    set. -/
theorem Grammar.ofLines_isOk_iff {name : String} {lines : List (List UInt8)} :
    (∃ g, Grammar.ofLines name lines = .ok g)
      ↔ (∀ line ∈ lines, ∃ o, readLine line = .ok o)
        ∧ ((Line.settings lines).map Setting.entry).Nodup
        ∧ ((∃ s ∈ Line.settings lines, s.entry = .slot .seed)
            ∨ ∃ s ∈ Line.settings lines, s.entry = .slot .preset)
        ∧ ∃ s ∈ Line.settings lines, s.entry = .slot .generations := by
  rw [Grammar.ofLines_isOk, ← Draft.has_setAll_empty, ← Draft.has_setAll_empty,
    ← Draft.has_setAll_empty, ← Draft.complete_isOk]
  constructor
  · rintro ⟨d, hd, hg⟩
    obtain ⟨hread, hnodup, -, rfl⟩ := Draft.addLines_eq_ok.mp hd
    exact ⟨hread, hnodup, hg⟩
  · rintro ⟨hread, hnodup, hg⟩
    refine ⟨_, Draft.addLines_eq_ok.mpr ⟨hread, hnodup, ?_, rfl⟩, hg⟩
    intro s _
    exact Draft.has_empty s.entry

/-- The settings are the same whether or not an empty line at the end is dropped. -/
theorem Line.settings_splitOn (bytes : List UInt8) :
    Line.settings (bytes.splitOn Line.feed) = Line.settings (Line.split bytes) := by
  refine Line.filterMap_splitOn ?_ bytes
  rw [Line.setting?, readLine_nil]
  rfl

/-- **The format**: reading accepts exactly the bytes that are a description. -/
theorem Grammar.ofBytes_isOk_iff (name : String) (bytes : List UInt8) :
    (∃ g, Grammar.ofBytes name bytes = .ok g) ↔ IsDescription bytes := by
  -- the format speaks of all pieces between line feeds, reading drops an empty last one
  rw [Grammar.ofBytes, Grammar.ofLines_isOk_iff, ← Line.settings_splitOn,
    ← Line.forall_mem_splitOn ⟨none, readLine_nil⟩, Line.nodup_entries]
  simp only [readLine_isOk, Setting.entry_eq_seed, Setting.entry_eq_preset,
    Setting.entry_eq_generations, Line.exists_mem_settings]
  constructor
  · rintro ⟨hread, honce, hstart, ⟨line, hline, s, hs, n, rfl⟩⟩
    refine ⟨fun line h => (hread line h).1, fun line h => (hread line h).2, honce,
      ⟨line, hline, n, hs⟩, ?_⟩
    rcases hstart with ⟨line, hline, s, hs, w, rfl⟩ | ⟨line, hline, s, hs, p, rfl⟩
    · exact ⟨line, hline, Or.inl ⟨w, hs⟩⟩
    · exact ⟨line, hline, Or.inr ⟨p, hs⟩⟩
  · rintro ⟨hencoded, hstated, honce, ⟨line, hline, n, hs⟩, hstart⟩
    refine ⟨fun line h => ⟨hencoded line h, hstated line h⟩, honce, ?_,
      ⟨line, hline, _, hs, n, rfl⟩⟩
    rcases hstart with ⟨line, hline, ⟨w, hs⟩ | ⟨p, hs⟩⟩
    · exact Or.inl ⟨line, hline, _, hs, w, rfl⟩
    · exact Or.inr ⟨line, hline, _, hs, p, rfl⟩

end TurtleGrammar
