import Mathlib.Algebra.Group.Nat.Defs
import Mathlib.Data.Nat.Find
import TurtleGrammar.Proofs.Faults
import TurtleGrammar.Proofs.Held

/-! # Refusals — which line is reported, and how

    Reading stops at the first line that is rejected.  `Line.Rejected` says why
    a line can be, given the lines before it, and `Line.FirstRejected` which
    line of a description is the first; neither mentions a draft.

    - **Step**: after lines that are all accepted, taking up a line fails exactly
      for the reason why the line is rejected (`Draft.addLine_eq_error`).
    - **Run**: taking up lines fails exactly at the first rejected one, with its
      number in 32 bits (`Draft.addLines_eq_error`).
    - **Report**: so the messages are those of the first rejected line, whatever
      follows it, and without one those of what the description lacks
      (`Grammar.refusal_located`).  The number in them is the line's own below
      `2 ^ 31`, and wrong there (`Grammar.refusal_located_wraps`). -/

namespace TurtleGrammar

/-! ## Rejected lines -/

namespace Line

/-- After the earlier lines, the line is rejected for the given reason.  A line that is
    wrong by itself is so whatever the earlier lines have set. -/
inductive Rejected (earlier : List (List UInt8)) (line : List UInt8) : LineFault → Prop where
  | unreadable : (¬ ∃ cs, Encodes line cs) → Rejected earlier line .unreadable
  | faulty {keyword : Word} {tokens : List Word} {fault : Fault} :
      Spells line (keyword :: tokens) → Setting.Faulty keyword tokens fault →
      Rejected earlier line (.faulty keyword fault)
  | repeated {line' : List UInt8} {s s' : Setting} :
      States line s → line' ∈ earlier → States line' s' → s'.entry = s.entry →
      Rejected earlier line (.repeated s.entry)

/-- Line number `n` is rejected; lines are counted from `1`, whatever they say. -/
def RejectedAt (lines : List (List UInt8)) (n : Nat) (fault : LineFault) : Prop :=
  ∃ i line, n = i + 1 ∧ lines[i]? = some line ∧ Rejected (lines.take i) line fault

/-- Line number `n` is the first that is rejected. -/
structure FirstRejected (lines : List (List UInt8)) (n : Nat) (fault : LineFault) : Prop where
  rejected : RejectedAt lines n fault
  first : ∀ m < n, ∀ fault', ¬ RejectedAt lines m fault'

/-- The first rejected line, if there is one, is not too far down for its number to be held in
    32 bits. -/
def Countable (lines : List (List UInt8)) : Prop :=
  ∀ n fault, FirstRejected lines n fault → n < 2 ^ 31

end Line

/-! ## One line -/

theorem readLine_of_unreadable {line : List UInt8} (h : ¬ ∃ cs, Line.Encodes line cs) :
    readLine line = .error .unreadable := by
  rw [readLine, Line.decode?_eq_none.mpr h]

/-- A line with a wrong keyword or wrong arguments cannot be read. -/
theorem readLine_of_faulty {line : List UInt8} {keyword : Word} {tokens : List Word}
    {fault : Fault} (hspells : Line.Spells line (keyword :: tokens))
    (h : Setting.Faulty keyword tokens fault) :
    readLine line = .error (.faulty keyword fault) := by
  obtain ⟨cs, hline, htokens⟩ := Line.spells_iff.mp hspells
  simp only [readLine, hline, htokens, h.read_eq]

namespace Draft

theorem has_ofSettings {ss : List Setting} {e : Entry} :
    (ofSettings ss).has e = true ↔ ∃ s ∈ ss, s.entry = e := has_setAll_empty

/-- **Inversion**: a setting is refused exactly when its entry has been set. -/
theorem add_eq_error {d : Draft} {s : Setting} {e : Entry} :
    d.add s = .error e ↔ d.has s.entry = true ∧ e = s.entry := by
  rw [add]
  by_cases h : d.has s.entry = true
  · rw [if_pos h, and_iff_right h, Except.error.injEq]
    exact eq_comm
  · rw [if_neg h]
    refine iff_of_false ?_ (fun hhas => h hhas.1)
    rintro ⟨⟩

/-- **Step**: a line fails exactly for the reason why it is rejected after the earlier
    ones. -/
theorem addLine_eq_error {earlier : List (List UInt8)} {line : List UInt8} {fault : LineFault} :
    (ofSettings (Line.settings earlier)).addLine line = .error fault
      ↔ Line.Rejected earlier line fault := by
  constructor
  · intro h
    rcases readLine_cases line with ⟨hno, hread⟩ | ⟨-, hread⟩ | ⟨keyword, tokens, hspells, hcase⟩
    · rw [addLine_of_error hread] at h
      obtain rfl := Except.error.inj h
      exact .unreadable hno
    · rw [addLine_of_none hread] at h
      cases h
    · rcases hcase with ⟨fault', hfault, hread⟩ | ⟨s, hs, hread⟩
      · rw [addLine_of_error hread] at h
        obtain rfl := Except.error.inj h
        exact .faulty hspells (Setting.read_eq_error.mp hfault)
      · have hstates : Line.States line s := readLine_eq_some.mp hread
        -- a line that states something can only be refused for what an earlier line has set
        rw [addLine_of_some hread, mapError_eq_error] at h
        obtain ⟨e, hadd, rfl⟩ := h
        obtain ⟨hhas, rfl⟩ := add_eq_error.mp hadd
        obtain ⟨s', hs', hentry⟩ := has_ofSettings.mp hhas
        obtain ⟨line', hline', hstates'⟩ := Line.mem_settings.mp hs'
        exact .repeated hstates hline' hstates' hentry
  · intro h
    cases h with
    | unreadable hno => exact addLine_of_error (readLine_of_unreadable hno)
    | faulty hspells hfaulty => exact addLine_of_error (readLine_of_faulty hspells hfaulty)
    | @repeated line' s s' hstates hline' hstates' hentry =>
        have hhas : (ofSettings (Line.settings earlier)).has s.entry = true :=
          has_ofSettings.mpr ⟨s', Line.mem_settings.mpr ⟨line', hline', hstates'⟩, hentry⟩
        rw [addLine_of_some (readLine_eq_some.mpr hstates), add_eq_error.mpr ⟨hhas, rfl⟩]
        rfl

/-- A line that is taken up adds what it says. -/
theorem addLine_ofSettings {earlier : List (List UInt8)} {line : List UInt8} {d : Draft}
    (h : (ofSettings (Line.settings earlier)).addLine line = .ok d) :
    d = ofSettings (Line.settings (earlier ++ [line])) := by
  have hsettings : Line.settings (earlier ++ [line])
      = Line.settings earlier ++ (Line.setting? line).toList := by
    rw [Line.settings, List.filterMap_append]
    show _ ++ [line].filterMap Line.setting? = _
    cases hs : Line.setting? line with
    | none => rw [List.filterMap_cons_none hs]; rfl
    | some s => rw [List.filterMap_cons_some hs]; rfl
  rw [hsettings, ofSettings, setAll, List.foldl_append]
  rcases addLine_eq_ok.mp h with ⟨hread, rfl⟩ | ⟨s, hread, hadd⟩
  · rw [Line.setting?, hread]
    rfl
  · rw [Line.setting?, hread]
    exact (add_eq_ok.mp hadd).2.symm

end Draft

/-! ## The first rejected line -/

namespace Line

/-- A line is rejected for one reason only. -/
theorem Rejected.inj {earlier : List (List UInt8)} {line : List UInt8} {fault fault' : LineFault}
    (h : Rejected earlier line fault) (h' : Rejected earlier line fault') : fault = fault' :=
  Except.error.inj
    ((Draft.addLine_eq_error.mpr h).symm.trans (Draft.addLine_eq_error.mpr h'))

/-- A rejected line is one of the lines. -/
theorem RejectedAt.le {lines : List (List UInt8)} {n : Nat} {fault : LineFault}
    (h : RejectedAt lines n fault) : n ≤ lines.length := by
  obtain ⟨i, line, rfl, hline, -⟩ := h
  exact (List.getElem?_eq_some_iff.mp hline).1

theorem RejectedAt.inj {lines : List (List UInt8)} {n : Nat} {fault fault' : LineFault}
    (h : RejectedAt lines n fault) (h' : RejectedAt lines n fault') : fault = fault' := by
  obtain ⟨i, line, rfl, hline, hrejected⟩ := h
  obtain ⟨i', line', hi, hline', hrejected'⟩ := h'
  obtain rfl := Nat.succ.inj hi
  obtain rfl := Option.some.inj (hline.symm.trans hline')
  exact hrejected.inj hrejected'

/-- The line with the index `i` has the number `i + 1`. -/
theorem rejectedAt_succ {lines : List (List UInt8)} {i : Nat} {fault : LineFault} :
    RejectedAt lines (i + 1) fault
      ↔ ∃ line, lines[i]? = some line ∧ Rejected (lines.take i) line fault := by
  constructor
  · rintro ⟨i', line, hi, h⟩
    obtain rfl := Nat.succ.inj hi
    exact ⟨line, h⟩
  · rintro ⟨line, h⟩
    exact ⟨i, line, rfl, h⟩

/-- Whether a line is rejected has to do with the lines up to it only. -/
theorem rejectedAt_take {lines : List (List UInt8)} {n m : Nat} {fault : LineFault} (h : m ≤ n) :
    RejectedAt (lines.take n) m fault ↔ RejectedAt lines m fault := by
  refine exists_congr fun i => exists_congr fun line => and_congr_right ?_
  rintro rfl
  rw [List.getElem?_take_of_lt h, List.take_take, Nat.min_eq_left (Nat.le_of_succ_le h)]

/-- Further lines make no difference to whether an earlier one is rejected. -/
theorem rejectedAt_append {earlier lines : List (List UInt8)} {m : Nat} {fault : LineFault}
    (h : m ≤ earlier.length) :
    RejectedAt (earlier ++ lines) m fault ↔ RejectedAt earlier m fault := by
  rw [← rejectedAt_take h, List.take_left]

/-- The line behind some others is rejected after these. -/
theorem rejectedAt_length {earlier lines : List (List UInt8)} {line : List UInt8}
    {fault : LineFault} :
    RejectedAt (earlier ++ line :: lines) (earlier.length + 1) fault
      ↔ Rejected earlier line fault := by
  have hat : (earlier ++ line :: lines)[earlier.length]? = some line := by
    rw [List.getElem?_append_right le_rfl, Nat.sub_self, List.getElem?_cons_zero]
  rw [rejectedAt_succ, hat, List.take_left]
  constructor
  · rintro ⟨line', hline', h⟩
    obtain rfl := Option.some.inj hline'
    exact h
  · intro h
    exact ⟨line, rfl, h⟩

/-- Of the rejected lines one is the first, and that for one reason. -/
theorem FirstRejected.inj {lines : List (List UInt8)} {n n' : Nat} {fault fault' : LineFault}
    (h : FirstRejected lines n fault) (h' : FirstRejected lines n' fault') :
    n = n' ∧ fault = fault' := by
  have hn : n = n' := by
    rcases Nat.lt_trichotomy n n' with hlt | heq | hlt
    · exact absurd h.rejected (h'.first n hlt fault)
    · exact heq
    · exact absurd h'.rejected (h.first n' hlt fault')
  subst hn
  exact ⟨rfl, h.rejected.inj h'.rejected⟩

/-- What follows the first rejected line makes no difference to it. -/
theorem FirstRejected.of_take {lines lines' : List (List UInt8)} {n : Nat} {fault : LineFault}
    (h : FirstRejected lines n fault) (htake : lines'.take n = lines.take n) :
    FirstRejected lines' n fault where
  rejected := by
    rw [← rejectedAt_take le_rfl, htake, rejectedAt_take le_rfl]
    exact h.rejected
  first := by
    intro m hm fault' hrejected
    rw [← rejectedAt_take hm.le, htake, rejectedAt_take hm.le] at hrejected
    exact h.first m hm fault' hrejected

/-- Fewer than `2 ^ 31` lines can be counted. -/
theorem countable_of_length {lines : List (List UInt8)} (h : lines.length < 2 ^ 31) :
    Countable lines :=
  fun _ _ hfirst => hfirst.rejected.le.trans_lt h

/-- Where a line is rejected, one is the first. -/
theorem exists_firstRejected {lines : List (List UInt8)}
    (h : ∃ n fault, RejectedAt lines n fault) : ∃ n fault, FirstRejected lines n fault := by
  classical
  obtain ⟨fault, hfault⟩ := Nat.find_spec h
  refine ⟨Nat.find h, fault, hfault, ?_⟩
  intro m hm fault' hrejected
  exact Nat.find_min h hm ⟨fault', hrejected⟩

/-- A line without tokens is never rejected. -/
theorem not_rejected_of_spells_nil {earlier : List (List UInt8)} {blank : List UInt8}
    {fault : LineFault} (hblank : Spells blank []) : ¬ Rejected earlier blank fault := by
  intro h
  have herror := Draft.addLine_eq_error.mpr h
  rw [Draft.addLine_of_none (readLine_eq_none.mpr hblank)] at herror
  cases herror

/-- Line feeds before a line make as many empty lines. -/
theorem splitOn_replicate_feed (n : Nat) {line : List UInt8} (hone : feed ∉ line) :
    (List.replicate n feed ++ line).splitOn feed = List.replicate n [] ++ [line] := by
  induction n with
  | zero => exact List.splitOn_eq_singleton hone
  | succ n ih =>
      have hsplit := List.splitOn_append_cons_self (a := feed) [] (List.replicate n feed ++ line)
      rw [ih] at hsplit
      exact hsplit

/-- A line that cannot be read is rejected, whatever stands before it. -/
theorem rejected_of_readLine {earlier : List (List UInt8)} {line : List UInt8} {fault : LineFault}
    (h : readLine line = .error fault) : Rejected earlier line fault :=
  Draft.addLine_eq_error.mp (Draft.addLine_of_error h)

/-- A line that is rejected after empty lines is the first that is. -/
theorem firstRejected_replicate (n : Nat) {line : List UInt8} {fault : LineFault}
    (h : Rejected (List.replicate n []) line fault) :
    FirstRejected (List.replicate n [] ++ [line]) (n + 1) fault where
  rejected := by
    have hat : RejectedAt (List.replicate n [] ++ [line]) ((List.replicate n []).length + 1)
        fault := rejectedAt_length.mpr h
    rwa [List.length_replicate] at hat
  first := by
    rintro m hm fault' ⟨i, line', rfl, hline', hrejected⟩
    have hi : i < (List.replicate n ([] : List UInt8)).length := by
      rw [List.length_replicate]
      omega
    rw [List.getElem?_append_left hi, List.getElem?_replicate, if_pos (by omega)] at hline'
    obtain rfl := Option.some.inj hline'
    exact not_rejected_of_spells_nil (readLine_eq_none.mp readLine_nil) hrejected

end Line

/-! ## All lines -/

namespace Draft

/-- Taking up lines after accepted ones fails exactly at the first that is rejected. -/
theorem addLines_after_eq_error {earlier lines : List (List UInt8)} {number : Int32}
    {fault : LineFault} (haccepted : ∀ m fault', ¬ Line.RejectedAt earlier m fault') :
    (ofSettings (Line.settings earlier)).addLines (Int32.ofNat (earlier.length + 1)) lines
        = .error (number, fault)
      ↔ ∃ n, Line.FirstRejected (earlier ++ lines) n fault ∧ number = Int32.ofNat n := by
  induction lines generalizing earlier with
  | nil =>
      rw [List.append_nil]
      refine iff_of_false ?_ ?_
      · rintro ⟨⟩
      · rintro ⟨n, h, -⟩
        exact haccepted n fault h.rejected
  | cons line lines ih =>
      rw [addLines]
      cases hline : (ofSettings (Line.settings earlier)).addLine line with
      | error fault' =>
          -- the line is rejected, and no line before it is
          have hfirst : Line.FirstRejected (earlier ++ line :: lines) (earlier.length + 1) fault' :=
            { rejected := Line.rejectedAt_length.mpr (addLine_eq_error.mp hline)
              first := by
                intro m hm fault'' hrejected
                rw [Line.rejectedAt_append (Nat.le_of_lt_succ hm)] at hrejected
                exact haccepted m fault'' hrejected }
          constructor
          · intro h
            obtain ⟨rfl, rfl⟩ := Prod.mk.inj (Except.error.inj h)
            exact ⟨_, hfirst, rfl⟩
          · rintro ⟨n, h, rfl⟩
            obtain ⟨rfl, rfl⟩ := hfirst.inj h
            rfl
      | ok d =>
          have hnot : ∀ m fault', ¬ Line.RejectedAt (earlier ++ [line]) m fault' := by
            intro m fault' hrejected
            rcases Nat.le_or_eq_of_le_succ (hrejected.le.trans_eq List.length_append) with hm | rfl
            · rw [Line.rejectedAt_append hm] at hrejected
              exact haccepted m fault' hrejected
            · have herror := addLine_eq_error.mpr (Line.rejectedAt_length.mp hrejected)
              rw [herror] at hline
              cases hline
          have happend : earlier ++ line :: lines = (earlier ++ [line]) ++ lines :=
            List.append_cons earlier line lines
          -- one more line taken up is one more in the number, in `Nat` and in 32 bits alike
          have hnumber : Int32.ofNat (earlier.length + 1) + 1
              = Int32.ofNat ((earlier ++ [line]).length + 1) := by
            rw [List.length_append, List.length_singleton, Int32.ofNat_add (earlier.length + 1) 1]
            rfl
          rw [happend, ← ih hnot, ← addLine_ofSettings hline, hnumber]

/-- **Run**: taking up lines fails exactly at the first that is rejected, with as much of its
    number as 32 bits hold. -/
theorem addLines_eq_error {lines : List (List UInt8)} {number : Int32} {fault : LineFault} :
    addLines {} 1 lines = .error (number, fault)
      ↔ ∃ n, Line.FirstRejected lines n fault ∧ number = Int32.ofNat n := by
  have hnil : ∀ m fault', ¬ Line.RejectedAt [] m fault' := by
    rintro m fault' ⟨i, line, -, hline, -⟩
    cases hline
  exact addLines_after_eq_error hnil

/-- Of fewer than `2 ^ 31` lines, the number tells which one is the first rejected. -/
theorem firstRejected_of_addLines {lines : List (List UInt8)} {n : Nat} {fault : LineFault}
    (hlength : lines.length < 2 ^ 31) (hn : n < 2 ^ 31)
    (h : addLines {} 1 lines = .error (Int32.ofNat n, fault)) :
    Line.FirstRejected lines n fault := by
  obtain ⟨m, hfirst, hnumber⟩ := addLines_eq_error.mp h
  have hm : m < 2 ^ 31 := hfirst.rejected.le.trans_lt hlength
  have hint := congrArg Int32.toInt hnumber
  rw [Int32.toInt_ofNat_of_lt hn, Int32.toInt_ofNat_of_lt hm] at hint
  obtain rfl := Int.ofNat.inj hint
  exact hfirst

/-- Lines none of which is rejected are taken up. -/
theorem addLines_of_accepted {lines : List (List UInt8)}
    (haccepted : ∀ n fault, ¬ Line.RejectedAt lines n fault) :
    addLines {} 1 lines = .ok (ofSettings (Line.settings lines)) := by
  cases hadd : addLines {} 1 lines with
  | error e =>
      obtain ⟨n, hfirst, -⟩ := addLines_eq_error.mp hadd
      exact absurd hfirst.rejected (haccepted n e.2)
  | ok d =>
      obtain ⟨-, -, -, rfl⟩ := addLines_eq_ok.mp hadd
      rfl

/-- An empty line at the end says nothing. -/
theorem addLines_append_nil (d : Draft) (number : Int32) (lines : List (List UInt8)) :
    d.addLines number (lines ++ [[]]) = d.addLines number lines := by
  induction lines generalizing d number with
  | nil =>
      simp only [List.nil_append, addLines, addLine_of_none readLine_nil]
  | cons line lines ih =>
      rw [List.cons_append, addLines, addLines]
      cases d.addLine line with
      | error fault => rfl
      | ok d' => exact ih d' (number + 1)

end Draft

/-! ## Descriptions that lack something -/

namespace Draft

/-- Filling sets the seed where there is a preset to take it from. -/
theorem has_fill_seed (d : Draft) :
    d.fill.has (.slot .seed) = (d.has (.slot .seed) || d.has (.slot .preset)) := by
  rw [fill_eq]
  show (d.seed <|> d.preset.map Preset.seed).isSome = (d.seed.isSome || d.preset.isSome)
  cases d.seed <;> cases d.preset <;> rfl

/-- Nothing but a line sets the number of generations. -/
theorem has_fill_generations (d : Draft) :
    d.fill.has (.slot .generations) = d.has (.slot .generations) := by
  rw [fill_eq]
  rfl

/-- **Inversion**: what a draft lacks is its seed, its number of generations or both. -/
theorem toGrammar_eq_error {d : Draft} {slots : List Slot} :
    d.toGrammar = .error slots
      ↔ (d.has (.slot .seed) = false ∧ d.has (.slot .generations) = true ∧ slots = [.seed])
        ∨ (d.has (.slot .seed) = true ∧ d.has (.slot .generations) = false
            ∧ slots = [.generations])
        ∨ (d.has (.slot .seed) = false ∧ d.has (.slot .generations) = false
            ∧ slots = [.seed, .generations]) := by
  obtain ⟨preset, seed, rules, angle, heading, length, scale, position, generations, maxLength⟩ := d
  cases seed <;> cases generations <;> simp [toGrammar, unset, has, eq_comm]

end Draft

namespace Line

/-- No line states a seed, and none a preset to take it from. -/
def LackSeed (lines : List (List UInt8)) : Prop :=
  ∀ line ∈ lines, (∀ w, ¬ States line (.seed w)) ∧ ∀ p, ¬ States line (.preset p)

/-- No line states the number of generations. -/
def LackGenerations (lines : List (List UInt8)) : Prop :=
  ∀ line ∈ lines, ∀ n, ¬ States line (.generations n)

/-- The lines lack something that is called so in messages. -/
inductive Lack (lines : List (List UInt8)) : String → Prop where
  | seed : LackSeed lines → ¬ LackGenerations lines → Lack lines "axiom"
  | generations : ¬ LackSeed lines → LackGenerations lines → Lack lines "generations"
  | both : LackSeed lines → LackGenerations lines → Lack lines "axiom, generations"

/-- A seed is lacking when filling from the preset leaves its slot empty. -/
theorem lackSeed_iff {lines : List (List UInt8)} :
    LackSeed lines ↔ (Draft.ofSettings (settings lines)).fill.has (.slot .seed) = false := by
  rw [Draft.has_fill_seed, Bool.or_eq_false_iff]
  simp only [← Bool.not_eq_true, Draft.has_ofSettings, Setting.entry_eq_seed,
    Setting.entry_eq_preset, exists_mem_settings]
  constructor
  · intro h
    constructor
    · rintro ⟨line, hline, s, hs, w, rfl⟩
      exact (h line hline).1 w hs
    · rintro ⟨line, hline, s, hs, p, rfl⟩
      exact (h line hline).2 p hs
  · rintro ⟨hseed, hpreset⟩ line hline
    constructor
    · intro w hs
      exact hseed ⟨line, hline, _, hs, w, rfl⟩
    · intro p hs
      exact hpreset ⟨line, hline, _, hs, p, rfl⟩

theorem lackGenerations_iff {lines : List (List UInt8)} :
    LackGenerations lines
      ↔ (Draft.ofSettings (settings lines)).fill.has (.slot .generations) = false := by
  rw [Draft.has_fill_generations, ← Bool.not_eq_true, Draft.has_ofSettings]
  simp only [Setting.entry_eq_generations, exists_mem_settings]
  constructor
  · rintro h ⟨line, hline, s, hs, n, rfl⟩
    exact h line hline n hs
  · intro h line hline n hs
    exact h ⟨line, hline, _, hs, n, rfl⟩

/-- What the lines lack is what their draft is not complete without. -/
theorem lack_iff {lines : List (List UInt8)} {fields : String} :
    Lack lines fields
      ↔ ∃ slots, (Draft.ofSettings (settings lines)).complete = .error slots
          ∧ fields = ", ".intercalate (slots.map Slot.name) := by
  simp only [Draft.complete, Draft.toGrammar_eq_error, ← Bool.not_eq_false, ← lackSeed_iff,
    ← lackGenerations_iff]
  constructor
  · intro h
    -- which of the two are missing decides the list of fields, so three cases on either side
    cases h with
    | seed hseed hgenerations => exact ⟨_, Or.inl ⟨hseed, hgenerations, rfl⟩, rfl⟩
    | generations hseed hgenerations =>
        exact ⟨_, Or.inr (Or.inl ⟨hseed, hgenerations, rfl⟩), rfl⟩
    | both hseed hgenerations => exact ⟨_, Or.inr (Or.inr ⟨hseed, hgenerations, rfl⟩), rfl⟩
  · rintro ⟨slots, ⟨hseed, hgenerations, rfl⟩ | ⟨hseed, hgenerations, rfl⟩
      | ⟨hseed, hgenerations, rfl⟩, rfl⟩
    · exact .seed hseed hgenerations
    · exact .generations hseed hgenerations
    · exact .both hseed hgenerations

end Line

/-! ## Reports -/

/-- The messages about line number `n` of the named description, outermost first. -/
inductive LineFault.Chain (name : String) (n : Nat) : LineFault → List String → Prop where
  | unreadable : Chain name n .unreadable
      [s!"{name}:{n}: read error", "stream did not contain valid UTF-8"]
  | faulty (keyword : Word) (fault : Fault) : Chain name n (.faulty keyword fault)
      [s!"{name}:{n}: parse error", "while parsing keyword " ++ String.ofList keyword,
        fault.message]
  | slot (s : Slot) : Chain name n (.repeated (.slot s))
      [s!"{name}:{n}: parse error", s.name ++ " is already set"]
  | rule (symbol : Char) : Chain name n (.repeated (.rule symbol))
      [s!"{name}:{n}: parse error",
        "rule for '" ++ String.singleton symbol ++ "' is already set"]

/-- Lines of the named description are refused with these messages. -/
inductive Line.Refused (name : String) (lines : List (List UInt8)) : List String → Prop where
  /-- The first rejected line is reported, and no other. -/
  | atLine {n : Nat} {fault : LineFault} {chain : List String} :
      FirstRejected lines n fault → fault.Chain name n chain → Refused name lines chain
  /-- No line is rejected, but something is lacking. -/
  | incomplete {fields : String} :
      (∀ n fault, ¬ RejectedAt lines n fault) → Lack lines fields →
      Refused name lines [s!"{name}: the following field(s) were unset: {fields}"]

/-- Below `2 ^ 31` the number of a line is written the same from 32 bits. -/
theorem Line.toString_number {n : Nat} (hn : n < 2 ^ 31) :
    toString (Int32.ofNat n) = toString n := by
  show toString (Int32.ofNat n).toInt = toString n
  rw [Int32.toInt_ofNat_of_lt hn]
  rfl

theorem Fault.text_report (fault : Fault) : fault.report.text = fault.message := by
  cases fault <;> rfl

namespace LineFault

theorem Chain.inj {name : String} {n : Nat} {fault : LineFault} {chain chain' : List String}
    (h : fault.Chain name n chain) (h' : fault.Chain name n chain') : chain = chain' := by
  cases h <;> cases h' <;> rfl

/-- An error at a line is worded as the chain of its fault, as long as the number of the line
    is below `2 ^ 31`. -/
theorem chain_reports (name : String) {n : Nat} (hn : n < 2 ^ 31) (fault : LineFault) :
    fault.Chain name n
      ((ReadError.atLine name (Int32.ofNat n) fault).reports.map Report.text) := by
  -- below `2 ^ 31` the counter prints as the number of the line
  have hread : s!"{name}:{Int32.ofNat n}" ++ ": " ++ "read error" = s!"{name}:{n}: read error" := by
    rw [Line.toString_number hn, String.append_assoc]
    rfl
  have hparse : s!"{name}:{Int32.ofNat n}" ++ ": " ++ "parse error"
      = s!"{name}:{n}: parse error" := by
    rw [Line.toString_number hn, String.append_assoc]
    rfl
  cases fault with
  | unreadable =>
      show Chain name n _ [s!"{name}:{Int32.ofNat n}" ++ ": " ++ "read error", _]
      rw [hread]
      exact .unreadable
  | faulty keyword fault =>
      show Chain name n _
        [s!"{name}:{Int32.ofNat n}" ++ ": " ++ "parse error", _, fault.report.text]
      rw [hparse, Fault.text_report]
      exact .faulty keyword fault
  | repeated entry =>
      show Chain name n _ [s!"{name}:{Int32.ofNat n}" ++ ": " ++ "parse error", _]
      rw [hparse]
      cases entry with
      | slot s => exact .slot s
      | rule symbol => exact .rule symbol

end LineFault

namespace Grammar

/-- An empty line more at the end does not change what is read. -/
theorem ofBytes_eq_ofLines (name : String) (bytes : List UInt8) :
    ofBytes name bytes = ofLines name (bytes.splitOn Line.feed) := by
  rcases Line.splitOn_eq bytes with h | h
  · rw [ofBytes, h]
  · rw [ofBytes, h, ofLines, ofLines, Draft.addLines_append_nil]

/-- The first rejected line decides the error. -/
theorem ofLines_of_rejected {lines : List (List UInt8)} {n : Nat} {fault : LineFault}
    (name : String) (h : Line.FirstRejected lines n fault) :
    ofLines name lines = .error (.atLine name (Int32.ofNat n) fault) := by
  rw [ofLines, Draft.addLines_eq_error.mpr ⟨n, h, rfl⟩]

/-- A line that cannot be read is reported under its number in 32 bits, be it as far down as it
    may. -/
theorem ofBytes_replicate_feed (name : String) (n : Nat) {line : List UInt8} {fault : LineFault}
    (hone : Line.feed ∉ line) (h : readLine line = .error fault) :
    ofBytes name (List.replicate n Line.feed ++ line)
      = .error (.atLine name (Int32.ofNat (n + 1)) fault) := by
  rw [ofBytes_eq_ofLines, Line.splitOn_replicate_feed n hone]
  exact ofLines_of_rejected name (Line.firstRejected_replicate n (Line.rejected_of_readLine h))

/-- Lines none of which is rejected are judged by what all of them say. -/
theorem ofLines_of_accepted {lines : List (List UInt8)} (name : String)
    (h : ∀ n fault, ¬ Line.RejectedAt lines n fault) :
    ofLines name lines
      = (Draft.ofSettings (Line.settings lines)).complete.mapError (.incomplete name) := by
  rw [ofLines, Draft.addLines_of_accepted h]

/-- The messages of an error are the ones with which the lines are refused. -/
theorem refused_of_ofLines {name : String} {lines : List (List UInt8)} {e : ReadError}
    (hcountable : Line.Countable lines) (h : ofLines name lines = .error e) :
    Line.Refused name lines (e.reports.map Report.text) := by
  -- a rejected line is reported before anybody asks for what is missing
  by_cases hsome : ∃ n fault, Line.RejectedAt lines n fault
  · obtain ⟨n, fault, hfirst⟩ := Line.exists_firstRejected hsome
    rw [ofLines_of_rejected name hfirst] at h
    obtain rfl := Except.error.inj h
    exact .atLine hfirst (fault.chain_reports name (hcountable n fault hfirst))
  · have hnone : ∀ n fault, ¬ Line.RejectedAt lines n fault :=
      fun n fault hrejected => hsome ⟨n, fault, hrejected⟩
    rw [ofLines_of_accepted name hnone, mapError_eq_error] at h
    obtain ⟨slots, hcomplete, rfl⟩ := h
    exact .incomplete hnone (Line.lack_iff.mpr ⟨slots, hcomplete, rfl⟩)

/-- Lines that are refused give an error with these messages. -/
theorem ofLines_of_refused {name : String} {lines : List (List UInt8)} {chain : List String}
    (hcountable : Line.Countable lines) (h : Line.Refused name lines chain) :
    ∃ e, ofLines name lines = .error e ∧ e.reports.map Report.text = chain := by
  cases h with
  | @atLine n fault _ hfirst hchain =>
      refine ⟨_, ofLines_of_rejected name hfirst, ?_⟩
      exact (fault.chain_reports name (hcountable n fault hfirst)).inj hchain
  | incomplete hnone hlack =>
      obtain ⟨slots, hcomplete, rfl⟩ := Line.lack_iff.mp hlack
      refine ⟨.incomplete name slots, ?_, rfl⟩
      rw [ofLines_of_accepted name hnone, hcomplete]
      rfl

/-- **Refusal**: the messages of an error are those of the first rejected line, with its
    number, or of what the description lacks if no line is rejected.  The number is right as
    long as it is below `2 ^ 31`.  What follows the first rejected line makes no difference to
    the error, wherever the line is. -/
theorem refusal_located (name : String) (bytes : List UInt8) :
    (Line.Countable (bytes.splitOn Line.feed) →
        ∀ chain, (∃ e, ofBytes name bytes = .error e ∧ e.reports.map Report.text = chain)
          ↔ Line.Refused name (bytes.splitOn Line.feed) chain)
      ∧ ∀ n fault, Line.FirstRejected (bytes.splitOn Line.feed) n fault →
          ∃ e, ∀ bytes', (bytes'.splitOn Line.feed).take n = (bytes.splitOn Line.feed).take n →
            ofBytes name bytes' = .error e := by
  constructor
  · intro hcountable chain
    rw [ofBytes_eq_ofLines]
    constructor
    · rintro ⟨e, he, rfl⟩
      exact refused_of_ofLines hcountable he
    · intro h
      exact ofLines_of_refused hcountable h
  · intro n fault hfirst
    -- the first `n` lines decide, and they are the same
    refine ⟨.atLine name (Int32.ofNat n) fault, ?_⟩
    intro bytes' htake
    rw [ofBytes_eq_ofLines, ofLines_of_rejected name (hfirst.of_take htake)]

/-- The seed set again on line 3, after an empty line; nothing after that line matters. -/
theorem refusal_located_repetition :
    ∃ e, e.reports.map Report.text = ["dup.lsys:3: parse error", "axiom is already set"]
      ∧ ∀ bytes, (bytes.splitOn Line.feed).take 3
            = ["axiom F".toUTF8.data.toList, [], "axiom X".toUTF8.data.toList] →
          ofBytes "dup.lsys" bytes = .error e := by
  have hlength : ("axiom F\n\naxiom X".toUTF8.data.toList.splitOn Line.feed).length < 2 ^ 31 := by
    decide
  have hfirst : Line.FirstRejected ("axiom F\n\naxiom X".toUTF8.data.toList.splitOn Line.feed) 3
      (.repeated (.slot .seed)) :=
    Draft.firstRejected_of_addLines hlength (by decide) rfl
  obtain ⟨hchain, hrest⟩ := refusal_located "dup.lsys" "axiom F\n\naxiom X".toUTF8.data.toList
  obtain ⟨e, he, htext⟩ :=
    (hchain (Line.countable_of_length hlength) _).mpr (.atLine hfirst (.slot .seed))
  obtain ⟨e', he'⟩ := hrest 3 _ hfirst
  obtain rfl := Except.error.inj ((he' _ rfl).symm.trans he)
  exact ⟨e', htext, he'⟩

/-- Line `2 ^ 31` is reported under the number `-2147483648`, with which no line is refused. -/
theorem refusal_located_wraps :
    let bytes := List.replicate 2147483647 Line.feed ++ "x".toUTF8.data.toList
    let chain := ["a:-2147483648: parse error", "while parsing keyword x", "unrecognized keyword"]
    Line.FirstRejected (bytes.splitOn Line.feed) 2147483648 (.faulty ['x'] .unknownKeyword)
      ∧ (∃ e, ofBytes "a" bytes = .error e ∧ e.reports.map Report.text = chain)
      ∧ ¬ Line.Refused "a" (bytes.splitOn Line.feed) chain := by
  have hx : readLine "x".toUTF8.data.toList = .error (.faulty ['x'] .unknownKeyword) := rfl
  -- the number of line feeds is kept as a variable, so that no proof step writes them out
  obtain ⟨n, hn⟩ : ∃ n, n = 2147483647 := ⟨_, rfl⟩
  rw [← hn, show 2147483648 = n + 1 by omega]
  intro bytes chain
  have hfirst : Line.FirstRejected (bytes.splitOn Line.feed) (n + 1)
      (.faulty ['x'] .unknownKeyword) := by
    rw [Line.splitOn_replicate_feed n (by decide)]
    exact Line.firstRejected_replicate n (Line.rejected_of_readLine hx)
  have herror : ofBytes "a" bytes
      = .error (.atLine "a" (-2147483648) (.faulty ['x'] .unknownKeyword)) := by
    rw [ofBytes_replicate_feed "a" n (by decide) hx, hn]
    rfl
  refine ⟨hfirst, ⟨_, herror, rfl⟩, ?_⟩
  · intro hrefused
    generalize hsame : chain = chain' at hrefused
    cases hrefused with
    | atLine hfirst' hchain =>
        obtain ⟨hm, rfl⟩ := hfirst'.inj hfirst
        rw [hm, hn] at hchain
        cases hchain
        exact absurd (List.cons_eq_cons.mp hsame).1 (by decide)
    | incomplete hnone => exact hnone _ _ hfirst.rejected

end Grammar

end TurtleGrammar
