import Mathlib.Order.Bounds.Basic
import TurtleGrammar.Proofs.Faults
import TurtleGrammar.Proofs.Held

/-! # Expectations — the leftmost problem of a line is the one reported

    A keyword expects certain arguments (`Keyword.expected`), and the tokens
    after it are counted off against them.  At a place where an argument is
    expected, the token can be missing or not of the right type; then the
    argument is `Unread`.

    - **A first place** where the argument is unread decides the message, and
      when a token stands there nothing behind it can change the message.
    - **No such place**: a token in excess is reported, if there is one.
    - **Neither**: the arguments are what was expected.  What they amount to can
      still be refused (`Keyword.Refuses`), for three keywords only.  Otherwise
      it is the one thing that the keyword is there to set.

    `ArgError.Leftmost` takes parameters and tokens apart where a problem is;
    here the place is a number. -/

namespace TurtleGrammar

/-! ## What is expected -/

namespace Keyword

/-- The arguments expected after a keyword that is followed by so many tokens. -/
def expected : Keyword → Nat → List Param
  | preset, _ => [⟨"name", .text⟩]
  | seed, _ => [⟨"axiom", .text⟩]
  -- a bare symbol needs no replacement
  | rule, 1 => [⟨"symbol", .symbol⟩]
  | rule, _ => [⟨"symbol", .symbol⟩, ⟨"replacement", .text⟩]
  | angleRad, _ | angleDeg, _ => [⟨"angle", .number⟩]
  | headingRad, _ | headingDeg, _ => [⟨"heading", .number⟩]
  | length, _ => [⟨"length", .number⟩]
  | scale, _ => [⟨"scale", .number⟩]
  | position, _ => [⟨"x", .number⟩, ⟨"y", .number⟩]
  | generations, _ | maxLength, _ => [⟨"n", .count⟩]

/-- The slot that a keyword sets.  A rule is for no slot. -/
def slot? : Keyword → Option Slot
  | preset => some .preset
  | seed => some .seed
  | rule => none
  | angleRad | angleDeg => some .angle
  | headingRad | headingDeg => some .heading
  | length => some .length
  | scale => some .scale
  | position => some .position
  | generations => some .generations
  | maxLength => some .maxLength

/-- Arguments that were all read amount to nothing that can be set, and this is why. -/
inductive Refuses : Keyword → List Word → Fault → Prop where
  | unknownPreset {name : Word} : (∀ p ∈ Preset.catalog, name ≠ p.name.toList) →
      Refuses preset [name] (.unknownPreset (String.ofList name))
  | lengthNotFinite {t : Word} {x : Float} : readFloat? t = some x → ¬ x.isFinite = true →
      Refuses length [t] .lengthNotFinite
  | scaleNotPositive {t : Word} {x : Float} : readFloat? t = some x →
      ¬ (0 < x ∧ x.isFinite = true) → Refuses scale [t] .scaleNotPositive

/-- A rule expects a replacement unless its symbol is the only token. -/
theorem expected_rule (count : Nat) :
    rule.expected count
      = ⟨"symbol", .symbol⟩ :: if count = 1 then [] else [⟨"replacement", .text⟩] := by
  by_cases hone : count = 1
  · rw [if_pos hone, hone, expected]
  · rw [if_neg hone, expected]
    exact hone

/-- What a keyword expects are the parameters of the form that it is read with. -/
theorem params_form (k : Keyword) (count : Nat) : (k.form count).params = k.expected count := by
  cases k with
  | rule =>
      rw [expected_rule, form]
      by_cases hone : count = 1
      · rw [if_pos hone, if_pos hone]
        rfl
      · rw [if_neg hone, if_neg hone]
        rfl
  | _ => rfl

theorem name_injective {k k' : Keyword} (h : k.name.toList = k'.name.toList) : k = k' :=
  Option.some.inj ((ofToken?_name k).symm.trans (ofToken?_eq_some.mpr h))

/-- The number of tokens decides only whether a rule has a replacement, and any token is one. -/
theorem expected_take {k : Keyword} {count i : Nat} {p : Param}
    (hp : (k.expected count)[i]? = some p) (htype : p.type ≠ .text) (count' : Nat) :
    (k.expected count').take (i + 1) = (k.expected count).take (i + 1) := by
  cases k with
  -- only a rule expects something else for another number of tokens: no second argument for one
  | rule =>
      rw [expected_rule] at hp ⊢
      rw [expected_rule]
      cases i with
      | zero => rfl
      | succ i =>
          rw [List.getElem?_cons_succ] at hp
          have hmem := List.mem_of_getElem? hp
          by_cases hone : count = 1
          · rw [if_pos hone] at hmem
            cases hmem
          · rw [if_neg hone, List.mem_singleton] at hmem
            exact absurd (congrArg Param.type hmem) htype
  | _ => rfl

end Keyword

/-! ## Places -/

/-- The argument expected at the place is not there, or it is not of its type. -/
def Unread (params : List Param) (tokens : List Word) (i : Nat) : Prop :=
  ∃ p, params[i]? = some p ∧ ∀ t, tokens[i]? = some t → p.type.read? t = none

/-- A token at an unread place is not of the type expected there. -/
theorem Unread.read?_eq_none {params : List Param} {tokens : List Word} {i : Nat} {p : Param}
    {t : Word} (h : Unread params tokens i) (hp : params[i]? = some p) (ht : tokens[i]? = some t) :
    p.type.read? t = none := by
  obtain ⟨p', hp', hunread⟩ := h
  obtain rfl := Option.some.inj (hp.symm.trans hp')
  exact hunread t ht

theorem Unread.lt_length {params : List Param} {tokens : List Word} {i : Nat}
    (h : Unread params tokens i) : i < params.length := by
  obtain ⟨p, hp, -⟩ := h
  exact (List.getElem?_eq_some_iff.mp hp).1

/-- Behind the first parameter and the first token the places are counted one less. -/
theorem unread_succ {p : Param} {params : List Param} {t : Word} {tokens : List Word} {i : Nat} :
    Unread (p :: params) (t :: tokens) (i + 1) ↔ Unread params tokens i := Iff.rfl

/-- Up to a place before which nothing is unread, every argument is read. -/
theorem readAs_take {params : List Param} {tokens : List Word} {i : Nat} (hi : i ≤ params.length)
    (hread : ∀ j < i, ¬ Unread params tokens j) :
    ReadAs (params.take i) (tokens.take i) ∧ i ≤ tokens.length := by
  induction i generalizing params tokens with
  | zero => exact ⟨.nil, Nat.zero_le _⟩
  | succ i ih =>
      cases params with
      | nil => exact absurd hi (Nat.not_succ_le_zero i)
      -- if the token were missing or did not parse, the first place itself would be unread
      | cons p params =>
          have hfirst : ¬ Unread (p :: params) tokens 0 := hread 0 (Nat.succ_pos i)
          cases tokens with
          | nil => exact absurd ⟨p, rfl, fun t ht => nomatch ht⟩ hfirst
          | cons t tokens =>
              obtain ⟨hrest, hlength⟩ := ih (Nat.le_of_succ_le_succ hi)
                fun j hj hunread => hread (j + 1) (Nat.succ_lt_succ hj) (unread_succ.mpr hunread)
              refine ⟨.cons ?_ hrest, Nat.succ_le_succ hlength⟩
              cases hvalue : p.type.read? t with
              | some value => exact ⟨value, rfl⟩
              | none =>
                  refine absurd ⟨p, rfl, ?_⟩ hfirst
                  rintro t' ⟨⟩
                  exact hvalue

/-- What has been read is read whatever comes after it. -/
theorem ReadAs.not_unread {params : List Param} {tokens : List Word} (h : ReadAs params tokens)
    (more : List Param) (rest : List Word) :
    ∀ i < params.length, ¬ Unread (params ++ more) (tokens ++ rest) i := by
  induction h with
  | nil => exact fun i hi => absurd hi (Nat.not_lt_zero i)
  | @cons p t params tokens hvalue _ ih =>
      intro i hi hunread
      cases i with
      | zero =>
          obtain ⟨value, hvalue⟩ := hvalue
          rw [hunread.read?_eq_none rfl rfl] at hvalue
          cases hvalue
      | succ i => exact ih i (Nat.lt_of_succ_lt_succ hi) (unread_succ.mp hunread)

/-- Where no place is unread, the parameters are read from as many tokens. -/
theorem readAs_of_read {params : List Param} {tokens : List Word}
    (h : ∀ i, ¬ Unread params tokens i) : ReadAs params (tokens.take params.length) := by
  obtain ⟨hread, -⟩ := readAs_take (Nat.le_refl params.length) fun j _ => h j
  rw [List.take_length] at hread
  exact hread

theorem take_succ_append {α : Type} {l : List α} {i : Nat} {a : α} (h : l[i]? = some a)
    (rest : List α) : l.take (i + 1) ++ rest = l.take i ++ a :: rest := by
  rw [List.take_add_one, h, List.append_assoc]
  rfl

theorem take_cons_drop {α : Type} {l : List α} {i : Nat} {a : α} (h : l[i]? = some a) :
    l.take i ++ a :: l.drop (i + 1) = l := by
  rw [← take_succ_append h, List.take_append_drop]

namespace ArgError.Leftmost

variable {params : List Param} {tokens : List Word} {i : Nat} {p : Param}

/-- All arguments before the first that is unread are read. -/
theorem readAs_of_isLeast (h : IsLeast {i | Unread params tokens i} i) (hp : params[i]? = some p) :
    ReadAs (params.take i) (tokens.take i) ∧ i ≤ tokens.length := by
  obtain ⟨hi, -⟩ := List.getElem?_eq_some_iff.mp hp
  refine readAs_take (Nat.le_of_lt hi) ?_
  intro j hj hunread
  exact absurd (h.2 hunread) (Nat.not_le.mpr hj)

/-- A least unread place without a token is a missing parameter. -/
theorem missing_of_isLeast (h : IsLeast {i | Unread params tokens i} i) (hp : params[i]? = some p)
    (hnone : tokens[i]? = none) : Leftmost params tokens (.missing p.name) := by
  obtain ⟨hread, -⟩ := readAs_of_isLeast h hp
  rw [List.take_of_length_le (List.getElem?_eq_none_iff.mp hnone)] at hread
  rw [← take_cons_drop hp]
  exact .missing hread

/-- Neither the tokens behind the first that cannot be read nor the parameters behind its own
    make a difference. -/
theorem malformed_of_isLeast (h : IsLeast {i | Unread params tokens i} i)
    (hp : params[i]? = some p) {t : Word} (ht : tokens[i]? = some t) {params' : List Param}
    (hparams : params'.take (i + 1) = params.take (i + 1)) (rest : List Word) :
    Leftmost params' (tokens.take (i + 1) ++ rest) (.malformed t p.type) := by
  obtain ⟨hread, -⟩ := readAs_of_isLeast h hp
  rw [← List.take_append_drop (i + 1) params', hparams, take_succ_append hp, take_succ_append ht]
  exact .malformed hread (h.1.read?_eq_none hp ht)

/-- When all is read, the first token left over is one too many. -/
theorem extra_of_read (h : ∀ i, ¬ Unread params tokens i) {t : Word}
    (ht : tokens[params.length]? = some t) : Leftmost params tokens (.extra t) := by
  rw [← take_cons_drop ht]
  exact .extra (readAs_of_read h)

end ArgError.Leftmost

/-! ## Arguments that are all read -/

/-- Tokens that match their parameters can be read. -/
theorem ReadAs.exists_readArgs {params : List Param} {tokens : List Word}
    (h : ReadAs params tokens) : ∃ args, readArgs params tokens = .ok args := by
  induction h with
  | nil => exact ⟨(), rfl⟩
  | cons hvalue _ ih =>
      obtain ⟨value, hvalue⟩ := hvalue
      obtain ⟨args, hargs⟩ := ih
      refine ⟨(value, args), ?_⟩
      rw [readArgs_cons hvalue, hargs]
      rfl

/-- Tokens that match their parameters have no problem to report. -/
theorem ReadAs.not_leftmost {params : List Param} {tokens : List Word} (h : ReadAs params tokens)
    (e : ArgError) : ¬ e.Leftmost params tokens := by
  intro hleft
  obtain ⟨args, hargs⟩ := h.exists_readArgs
  rw [readArgs_eq_error.mpr hleft] at hargs
  cases hargs

namespace Keyword

/-- The leftmost problem with what is expected is the fault of the line. -/
theorem read_of_leftmost {k : Keyword} {tokens : List Word} {e : ArgError}
    (h : e.Leftmost (k.expected tokens.length) tokens) :
    Setting.read k.name.toList tokens = .error (.argument e) := by
  refine (Setting.Faulty.argument k ?_).read_eq
  rw [params_form]
  exact h

/-- A line whose arguments are all read is refused for what they amount to, if it is. -/
theorem refuses_of_faulty {k : Keyword} {tokens : List Word} {fault : Fault}
    (hread : ReadAs (k.expected tokens.length) tokens)
    (h : Setting.Faulty k.name.toList tokens fault) : k.Refuses tokens fault := by
  generalize hk : k.name.toList = keyword at h
  cases h with
  | unknownKeyword _ hnone => exact absurd hk.symm (hnone k)
  -- ruled out: where every argument has been read there is no leftmost problem
  | argument k' hleft =>
      obtain rfl := name_injective hk
      rw [params_form] at hleft
      exact absurd hleft (hread.not_leftmost _)
  | unknownPreset hnone =>
      obtain rfl : k = .preset := name_injective hk
      exact .unknownPreset hnone
  | lengthNotFinite hx hfinite =>
      obtain rfl : k = .length := name_injective hk
      exact .lengthNotFinite hx hfinite
  | scaleNotPositive hx hpositive =>
      obtain rfl : k = .scale := name_injective hk
      exact .scaleNotPositive hx hpositive

end Keyword

/-! ## What is set -/

/-- The slot that an entry is, if it is one. -/
def Entry.slot? : Entry → Option Slot
  | slot s => some s
  | rule _ => none

theorem Entry.slot?_eq_some {e : Entry} {s : Slot} : e.slot? = some s ↔ e = .slot s := by
  cases e <;> simp [slot?]

/-- What a keyword states goes into the slot of the keyword. -/
theorem Setting.Stated.slot?_entry {keyword : Word} {tokens : List Word} {s : Setting}
    (h : Setting.Stated keyword tokens s) :
    ∃ k : Keyword, keyword = k.name.toList ∧ s.entry.slot? = k.slot? := by
  cases h with
  | preset => exact ⟨.preset, rfl, rfl⟩
  | seed => exact ⟨.seed, rfl, rfl⟩
  | erasure => exact ⟨.rule, rfl, rfl⟩
  | rule => exact ⟨.rule, rfl, rfl⟩
  | angleRad => exact ⟨.angleRad, rfl, rfl⟩
  | angleDeg => exact ⟨.angleDeg, rfl, rfl⟩
  | headingRad => exact ⟨.headingRad, rfl, rfl⟩
  | headingDeg => exact ⟨.headingDeg, rfl, rfl⟩
  | length => exact ⟨.length, rfl, rfl⟩
  | scale => exact ⟨.scale, rfl, rfl⟩
  | position => exact ⟨.position, rfl, rfl⟩
  | generations => exact ⟨.generations, rfl, rfl⟩
  | maxLength => exact ⟨.maxLength, rfl, rfl⟩

namespace Draft

/-- The draft of a single setting has nothing but what its keyword is there to set. -/
theorem held_single {k : Keyword} {tokens : List Word} {s : Setting}
    (h : Setting.Stated k.name.toList tokens s) (slot : Slot) :
    (({} : Draft).set s).held slot = if k.slot? = some slot then some s else none := by
  obtain ⟨k', hname, hslot⟩ := h.slot?_entry
  obtain rfl := Keyword.name_injective hname
  simp only [held_set, held_empty, ← hslot, Entry.slot?_eq_some]

end Draft

namespace Keyword

/-- A token that is not of the type expected is refused whatever follows it. -/
theorem read_of_malformed {k : Keyword} {tokens : List Word} {i : Nat} {p : Param} {t : Word}
    (h : IsLeast {i | Unread (k.expected tokens.length) tokens i} i)
    (hp : (k.expected tokens.length)[i]? = some p) (ht : tokens[i]? = some t) (rest : List Word) :
    Setting.read k.name.toList (tokens.take (i + 1) ++ rest)
      = .error (.argument (.malformed t p.type)) := by
  have htype : p.type ≠ .text := by
    intro htext
    have hnone := h.1.read?_eq_none hp ht
    rw [htext] at hnone
    cases hnone
  exact read_of_leftmost (.malformed_of_isLeast h hp ht (expected_take hp htype _) rest)

/-- The keyword with the tokens is refused with the message. -/
def Reports (k : Keyword) (tokens : List Word) (message : String) : Prop :=
  ∃ fault, Setting.read k.name.toList tokens = .error fault ∧ fault.message = message

/-- The keyword with the tokens sets what they state, in its slot or as a rule, and nothing
    else. -/
structure Sets (k : Keyword) (tokens : List Word) (s : Setting) (d : Draft) : Prop where
  stated : Setting.Stated k.name.toList tokens s
  added : ({} : Draft).add s = .ok d
  slots : ∀ slot, d.held slot = if k.slot? = some slot then some s else none
  rules : d.rules.toList = s.rule?.toList

/-- What is stated is set, and nothing else. -/
theorem sets_of_stated {k : Keyword} {tokens : List Word} {s : Setting}
    (h : Setting.Stated k.name.toList tokens s) : k.Sets tokens s (({} : Draft).set s) where
  stated := h
  added := Draft.add_eq_ok.mpr ⟨Draft.has_empty s.entry, rfl⟩
  slots := Draft.held_single h
  rules := Draft.rules_set {} s

/-- Arguments as expected are refused for what they amount to, or this is set. -/
theorem refuses_or_sets {k : Keyword} {tokens : List Word}
    (h : ReadAs (k.expected tokens.length) tokens) :
    (∃ fault, Setting.read k.name.toList tokens = .error fault ∧ k.Refuses tokens fault)
      ∨ ∃ s d, Setting.read k.name.toList tokens = .ok s ∧ k.Sets tokens s d := by
  cases hline : Setting.read k.name.toList tokens with
  | error fault =>
      exact Or.inl ⟨fault, rfl, refuses_of_faulty h (Setting.read_eq_error.mp hline)⟩
  | ok s => exact Or.inr ⟨s, _, rfl, sets_of_stated (Setting.read_eq_ok.mp hline)⟩

/-- **The leftmost problem is reported.**  At the first place where an argument is unread, it is
    said to be missing, or its token to be of the wrong type, whatever tokens follow.  If there
    is no such place, the first token in excess is named.  If there is none of these either, the
    line is refused only for a preset, a length or a scale out of range, and otherwise it sets
    what its arguments state. -/
theorem leftmost_reported (k : Keyword) (tokens : List Word) :
    let params := k.expected tokens.length
    (∀ i p, IsLeast {i | Unread params tokens i} i → params[i]? = some p →
        (tokens[i]? = none → k.Reports tokens ("missing token for " ++ p.name))
          ∧ ∀ t, tokens[i]? = some t →
              let message := "error parsing \"" ++ String.ofList t ++ "\" as type " ++ p.type.name
              k.Reports tokens message
                ∧ ∀ rest, k.Reports (tokens.take (i + 1) ++ rest) message)
      ∧ ((∀ i, ¬ Unread params tokens i) →
          (∀ t, tokens[params.length]? = some t →
              k.Reports tokens
                ("found extra token(s) starting with \"" ++ String.ofList t ++ "\""))
            ∧ (tokens[params.length]? = none →
              (∃ fault, Setting.read k.name.toList tokens = .error fault ∧ k.Refuses tokens fault)
                ∨ ∃ s d, Setting.read k.name.toList tokens = .ok s ∧ k.Sets tokens s d)) := by
  intro params
  refine ⟨?_, ?_⟩
  · intro i p hleast hp
    refine ⟨?_, ?_⟩
    · intro hnone
      exact ⟨_, read_of_leftmost (.missing_of_isLeast hleast hp hnone), rfl⟩
    · intro t ht message
      have hrest : ∀ rest, k.Reports (tokens.take (i + 1) ++ rest) message :=
        fun rest => ⟨_, read_of_malformed hleast hp ht rest, rfl⟩
      -- the line itself is the case of the tokens that it has behind the place
      have hline := hrest (tokens.drop (i + 1))
      rw [List.take_append_drop] at hline
      exact ⟨hline, hrest⟩
  · intro hread
    refine ⟨?_, ?_⟩
    · intro t ht
      exact ⟨_, read_of_leftmost (.extra_of_read hread ht), rfl⟩
    · intro hend
      have hreadAs := readAs_of_read hread
      rw [List.take_of_length_le (List.getElem?_eq_none_iff.mp hend)] at hreadAs
      exact refuses_or_sets hreadAs

/-- A position with too few tokens, with a wrong one before one too many, with one too many only,
    and as it should be. -/
theorem leftmost_reported_position :
    let words (texts : List String) : List Word := texts.map String.toList
    (IsLeast {i | Unread (position.expected 1) (words ["4"]) i} 1
        ∧ position.Reports (words ["4"]) "missing token for y")
      ∧ (IsLeast {i | Unread (position.expected 3) (words ["4", "5°", "6"]) i} 1
        ∧ position.Reports (words ["4", "5°", "6"]) "error parsing \"5°\" as type f64"
        ∧ ∀ rest, position.Reports (words ["4", "5°"] ++ rest)
            "error parsing \"5°\" as type f64")
      ∧ ((∀ i, ¬ Unread (position.expected 3) (words ["4", "5", "6"]) i)
        ∧ position.Reports (words ["4", "5", "6"]) "found extra token(s) starting with \"6\"")
      ∧ (∀ i, ¬ Unread (position.expected 2) (words ["4", "5"]) i)
        ∧ ∃ s d, Setting.read "position".toList (words ["4", "5"]) = .ok s
          ∧ ({} : Draft).add s = .ok d ∧ d.held .position = some s ∧ d.held .length = none := by
  intro words
  let x : Param := ⟨"x", .number⟩
  let y : Param := ⟨"y", .number⟩
  have hx : ReadAs [x] (words ["4"]) := .cons ⟨_, rfl⟩ .nil
  have hxy : ReadAs [x, y] (words ["4", "5"]) := .cons ⟨_, rfl⟩ (.cons ⟨_, rfl⟩ .nil)
  -- the first argument is read in each of the four lines
  have hleast : ∀ rest, Unread [x, y] (words ["4"] ++ rest) 1 →
      IsLeast {i | Unread [x, y] (words ["4"] ++ rest) i} 1 := by
    intro rest hunread
    refine ⟨hunread, ?_⟩
    intro i hi
    refine Nat.pos_of_ne_zero ?_
    rintro rfl
    exact hx.not_unread [y] rest 0 Nat.one_pos hi
  have hread : ∀ rest, ∀ i, ¬ Unread [x, y] (words ["4", "5"] ++ rest) i := by
    intro rest i hunread
    exact hxy.not_unread [] rest i hunread.lt_length hunread
  have hmissing := hleast [] ⟨y, rfl, fun t ht => by cases ht⟩
  have hwrong := hleast (words ["5°", "6"]) ⟨y, rfl, fun t ht => by cases ht; rfl⟩
  obtain ⟨hfour, -⟩ := leftmost_reported position (words ["4"])
  obtain ⟨hwrongLine, -⟩ := leftmost_reported position (words ["4", "5°", "6"])
  obtain ⟨-, hlong⟩ := leftmost_reported position (words ["4", "5", "6"])
  obtain ⟨-, hfit⟩ := leftmost_reported position (words ["4", "5"])
  refine ⟨⟨hmissing, (hfour 1 y hmissing rfl).1 rfl⟩, ⟨hwrong, (hwrongLine 1 y hwrong rfl).2 _ rfl⟩,
    ⟨hread (words ["6"]), (hlong (hread (words ["6"]))).1 _ rfl⟩, hread [], ?_⟩
  rcases (hfit (hread [])).2 rfl with ⟨fault, -, hrefuses⟩ | ⟨s, d, hs, hsets⟩
  · cases hrefuses
  · exact ⟨s, d, hs, hsets.added, hsets.slots .position, hsets.slots .length⟩

end Keyword

end TurtleGrammar
