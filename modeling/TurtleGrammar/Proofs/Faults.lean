import Mathlib.Data.List.Forall2
import TurtleGrammar.Proofs.Forms

/-! # Faults — why a line is wrong by itself

    `Setting.Stated` lists what a line can say.  `Setting.Faulty` lists why a
    line can fail to say anything, one rule a cause, in terms of the keyword
    and its arguments.  Reading finds exactly the causes of this list
    (`Setting.read_eq_error`), so a line that states nothing has one of them
    (`Setting.exists_stated_iff`).

    Arguments are judged from left to right.  `ArgError.Leftmost` says where the
    first problem is by what stands before it: parameters and tokens that go
    together, one for one. -/

namespace TurtleGrammar

/-! ## The leftmost problem of the arguments -/

/-- The tokens can be read as the types of the parameters, one for one. -/
def ReadAs : List Param → List Word → Prop :=
  List.Forall₂ fun p t => ∃ value, p.type.read? t = some value

/-- The error is the leftmost reason why the tokens do not match the parameters. -/
inductive ArgError.Leftmost : List Param → List Word → ArgError → Prop where
  /-- The tokens end before the parameter. -/
  | missing {read unread : List Param} {p : Param} {tokens : List Word} :
      ReadAs read tokens → Leftmost (read ++ p :: unread) tokens (.missing p.name)
  /-- The token at the place of the parameter is not of its type. -/
  | malformed {read unread : List Param} {p : Param} {tokens rest : List Word} {token : Word} :
      ReadAs read tokens → p.type.read? token = none →
      Leftmost (read ++ p :: unread) (tokens ++ token :: rest) (.malformed token p.type)
  /-- The parameters end before the token. -/
  | extra {params : List Param} {tokens rest : List Word} {token : Word} :
      ReadAs params tokens → Leftmost params (tokens ++ token :: rest) (.extra token)

/-- A problem stays the leftmost one behind a token that can be read. -/
theorem ArgError.Leftmost.cons {p : Param} {params : List Param} {token : Word}
    {tokens : List Word} {value : p.type.Value} {e : ArgError}
    (hvalue : p.type.read? token = some value) (h : e.Leftmost params tokens) :
    e.Leftmost (p :: params) (token :: tokens) := by
  cases h with
  | missing hread => exact .missing (.cons ⟨value, hvalue⟩ hread)
  | malformed hread hnone => exact .malformed (.cons ⟨value, hvalue⟩ hread) hnone
  | extra hread => exact .extra (.cons ⟨value, hvalue⟩ hread)

/-- After a token that can be read, the others are read as if they were alone. -/
theorem readArgs_cons {p : Param} {token : Word} {value : p.type.Value}
    (hvalue : p.type.read? token = some value) (params : List Param) (tokens : List Word) :
    readArgs (p :: params) (token :: tokens) = (readArgs params tokens).map (value, ·) := by
  rw [readArgs, hvalue]
  rfl

/-- What has been read makes no difference to the errors that follow. -/
theorem readArgs_append_of_error {read params : List Param} {before tokens : List Word}
    {e : ArgError} (hread : ReadAs read before) (h : readArgs params tokens = .error e) :
    readArgs (read ++ params) (before ++ tokens) = .error e := by
  induction hread with
  | nil => exact h
  | cons hvalue _ ih =>
      obtain ⟨value, hvalue⟩ := hvalue
      rw [List.cons_append, List.cons_append, readArgs_cons hvalue, ih]
      rfl

/-- **Arguments**: the problem reported is the leftmost one. -/
theorem readArgs_eq_error {params : List Param} {tokens : List Word} {e : ArgError} :
    readArgs params tokens = .error e ↔ e.Leftmost params tokens := by
  constructor
  · intro h
    -- each error of the reader is a problem at the first place where reading stops
    induction params generalizing tokens with
    | nil =>
        cases tokens with
        | nil => cases h
        | cons token rest =>
            obtain rfl := Except.error.inj h
            show ArgError.Leftmost [] ([] ++ token :: rest) _
            exact .extra .nil
    | cons p params ih =>
        cases tokens with
        | nil =>
            obtain rfl := Except.error.inj h
            show ArgError.Leftmost ([] ++ p :: params) [] _
            exact .missing .nil
        | cons token rest =>
            cases hvalue : p.type.read? token with
            | none =>
                rw [readArgs, hvalue] at h
                obtain rfl := Except.error.inj h
                show ArgError.Leftmost ([] ++ p :: params) ([] ++ token :: rest) _
                exact .malformed .nil hvalue
            | some value =>
                rw [readArgs_cons hvalue] at h
                cases hrest : readArgs params rest with
                | ok args =>
                    rw [hrest] at h
                    cases h
                | error e' =>
                    rw [hrest] at h
                    obtain rfl := Except.error.inj h
                    exact (ih hrest).cons hvalue
  · intro h
    -- what can be read before the problem is passed over
    cases h with
    | @missing _ unread p _ hread =>
        have hend : readArgs (p :: unread) [] = .error (.missing p.name) := rfl
        have happend := readArgs_append_of_error hread hend
        rw [List.append_nil] at happend
        exact happend
    | malformed hread hnone =>
        refine readArgs_append_of_error hread ?_
        rw [readArgs, hnone]
    | @extra _ _ rest token hread =>
        have hend : readArgs [] (token :: rest) = .error (.extra token) := rfl
        have happend := readArgs_append_of_error hread hend
        rw [List.append_nil] at happend
        exact happend

/-! ## Forms -/

/-- A form fails in its arguments, or it makes nothing of them. -/
theorem Form.read_eq_error {form : Form} {tokens : List Word} {fault : Fault} :
    form.read tokens = .error fault
      ↔ (∃ e : ArgError, e.Leftmost form.params tokens ∧ fault = .argument e)
        ∨ ∃ args, readArgs form.params tokens = .ok args ∧ form.make args = .error fault := by
  simp only [← readArgs_eq_error]
  rw [Form.read]
  cases hargs : readArgs form.params tokens with
  | error e =>
      constructor
      · intro h
        exact Or.inl ⟨e, rfl, (Except.error.inj h).symm⟩
      · rintro (⟨e', he, rfl⟩ | ⟨args, hok, -⟩)
        · rw [Except.error.inj he]
        · cases hok
  | ok args =>
      constructor
      · intro hmake
        exact Or.inr ⟨args, rfl, hmake⟩
      · rintro (⟨e, he, -⟩ | ⟨args', hok, hmake⟩)
        · cases he
        · rw [← Except.ok.inj hok] at hmake
          exact hmake

/-- A problem with the arguments comes before anything that their values may be wrong by. -/
theorem ArgError.Leftmost.read_eq {form : Form} {tokens : List Word} {e : ArgError}
    (h : e.Leftmost form.params tokens) : form.read tokens = .error (.argument e) :=
  Form.read_eq_error.mpr (Or.inl ⟨e, h, rfl⟩)

/-- A form that makes something of all arguments fails in them only. -/
theorem Form.leftmost_of_read {form : Form} {tokens : List Word} {fault : Fault}
    (hmake : ∀ args, ∃ s, form.make args = .ok s) (h : form.read tokens = .error fault) :
    ∃ e : ArgError, e.Leftmost form.params tokens ∧ fault = .argument e := by
  rcases Form.read_eq_error.mp h with hargument | ⟨args, -, herror⟩
  · exact hargument
  · obtain ⟨s, hs⟩ := hmake args
    rw [hs] at herror
    cases herror

namespace Keyword

/-- A form with one parameter fails for its arguments or for the value of the one token. -/
theorem unary_read_eq_error {name : String} {type : ArgType}
    {make : type.Value → Except Fault Setting} {tokens : List Word} {fault : Fault} :
    (unary name type make).read tokens = .error fault
      ↔ (∃ e : ArgError, e.Leftmost [⟨name, type⟩] tokens ∧ fault = .argument e)
        ∨ ∃ t v, tokens = [t] ∧ type.read? t = some v ∧ make v = .error fault := by
  rw [Form.read_eq_error]
  exact or_congr_right exists_readArgs_singleton

theorem ofToken?_eq_none {token : Word} :
    ofToken? token = none ↔ ∀ k : Keyword, token ≠ k.name.toList := by
  rw [Option.eq_none_iff_forall_ne_some]
  simp only [ne_eq, ofToken?_eq_some]

/-- A preset is refused when the catalog has none of that name. -/
theorem makePreset_eq_error {name : Word} {fault : Fault} :
    makePreset name = .error fault
      ↔ (∀ p ∈ Preset.catalog, name ≠ p.name.toList)
        ∧ fault = .unknownPreset (String.ofList name) := by
  cases h : makePreset name with
  | ok s =>
      obtain ⟨p, hp, hname, -⟩ := makePreset_eq_ok.mp h
      refine iff_of_false ?_ (fun hnone => hnone.1 p hp hname)
      rintro ⟨⟩
  | error fault' =>
      have hnone : ∀ p ∈ Preset.catalog, name ≠ p.name.toList := by
        intro p hp hname
        rw [makePreset_eq_ok.mpr ⟨p, hp, hname, rfl⟩] at h
        cases h
      -- there is only one way in which a name can be wrong
      have hfault : fault' = .unknownPreset (String.ofList name) := by
        rw [makePreset] at h
        split at h
        · cases h
        · exact (Except.error.inj h).symm
      rw [and_iff_right hnone, hfault, Except.error.injEq]
      exact eq_comm

theorem makeLength_eq_error {x : Float} {fault : Fault} :
    makeLength x = .error fault ↔ ¬ x.isFinite = true ∧ fault = .lengthNotFinite := by
  rw [makeLength]
  by_cases h : x.isFinite = true
  · rw [if_pos h]
    refine iff_of_false ?_ (fun hno => hno.1 h)
    rintro ⟨⟩
  · rw [if_neg h, and_iff_right h, Except.error.injEq]
    exact eq_comm

theorem makeScale_eq_error {x : Float} {fault : Fault} :
    makeScale x = .error fault
      ↔ ¬ (0 < x ∧ x.isFinite = true) ∧ fault = .scaleNotPositive := by
  have hrange : (decide (0 < x) && x.isFinite) = true ↔ 0 < x ∧ x.isFinite = true := by
    rw [Bool.and_eq_true, decide_eq_true_iff]
  rw [makeScale, ← hrange]
  by_cases h : (decide (0 < x) && x.isFinite) = true
  · rw [if_pos h]
    refine iff_of_false ?_ (fun hno => hno.1 h)
    rintro ⟨⟩
  · rw [if_neg h, and_iff_right h, Except.error.injEq]
    exact eq_comm

/-- A rule makes something of its arguments, with a replacement or without. -/
theorem form_rule_make (count : Nat) :
    ∀ args, ∃ s, (rule.form count).make args = .ok s := by
  by_cases hone : count = 1
  · have hform : rule.form count = unary "symbol" .symbol fun c => .ok (.rule c []) := if_pos hone
    rw [hform]
    exact fun _ => ⟨_, rfl⟩
  · have hform : rule.form count
        = binary ⟨"symbol", .symbol⟩ ⟨"replacement", .text⟩ fun c w => .ok (.rule c w) :=
      if_neg hone
    rw [hform]
    exact fun _ => ⟨_, rfl⟩

end Keyword

/-! ## Lines -/

/-- The keyword with the arguments is wrong by itself, and this is why. -/
inductive Setting.Faulty : Word → List Word → Fault → Prop where
  | unknownKeyword {keyword : Word} (tokens : List Word) :
      (∀ k : Keyword, keyword ≠ k.name.toList) → Faulty keyword tokens .unknownKeyword
  | argument (k : Keyword) {tokens : List Word} {e : ArgError} :
      e.Leftmost (k.form tokens.length).params tokens →
      Faulty k.name.toList tokens (.argument e)
  | unknownPreset {name : Word} : (∀ p ∈ Preset.catalog, name ≠ p.name.toList) →
      Faulty "preset".toList [name] (.unknownPreset (String.ofList name))
  | lengthNotFinite {t : Word} {x : Float} : readFloat? t = some x → ¬ x.isFinite = true →
      Faulty "length".toList [t] .lengthNotFinite
  | scaleNotPositive {t : Word} {x : Float} : readFloat? t = some x →
      ¬ (0 < x ∧ x.isFinite = true) → Faulty "scale".toList [t] .scaleNotPositive

/-- Where a form fails, its line is wrong by itself. -/
theorem Setting.faulty_of_form {k : Keyword} {tokens : List Word} {fault : Fault}
    (h : (k.form tokens.length).read tokens = .error fault) :
    Setting.Faulty k.name.toList tokens fault := by
  have hargument : (∃ e : ArgError, e.Leftmost (k.form tokens.length).params tokens
      ∧ fault = .argument e) → Setting.Faulty k.name.toList tokens fault := by
    rintro ⟨e, he, rfl⟩
    exact .argument k he
  -- three keywords have a range to keep to; the others make something of all arguments
  cases k with
  | preset =>
      rcases Keyword.unary_read_eq_error.mp h with hleft | ⟨t, v, rfl, hv, hmake⟩
      · exact hargument hleft
      · obtain rfl := Option.some.inj hv
        obtain ⟨hnone, rfl⟩ := Keyword.makePreset_eq_error.mp hmake
        exact .unknownPreset hnone
  | length =>
      rcases Keyword.unary_read_eq_error.mp h with hleft | ⟨t, x, rfl, hx, hmake⟩
      · exact hargument hleft
      · obtain ⟨hfin, rfl⟩ := Keyword.makeLength_eq_error.mp hmake
        exact .lengthNotFinite hx hfin
  | scale =>
      rcases Keyword.unary_read_eq_error.mp h with hleft | ⟨t, x, rfl, hx, hmake⟩
      · exact hargument hleft
      · obtain ⟨hpos, rfl⟩ := Keyword.makeScale_eq_error.mp hmake
        exact .scaleNotPositive hx hpos
  | rule => exact hargument (Form.leftmost_of_read (Keyword.form_rule_make tokens.length) h)
  | _ => exact hargument (Form.leftmost_of_read (fun _ => ⟨_, rfl⟩) h)

/-- What is wrong with a line is found in reading it. -/
theorem Setting.Faulty.read_eq {keyword : Word} {tokens : List Word} {fault : Fault}
    (h : Setting.Faulty keyword tokens fault) : Setting.read keyword tokens = .error fault := by
  cases h with
  | unknownKeyword _ hnone => rw [Setting.read, Keyword.ofToken?_eq_none.mpr hnone]
  | argument k he =>
      -- the arguments are read before any value is looked at
      rw [Setting.read_name]
      exact he.read_eq
  | unknownPreset hnone =>
      rw [show "preset" = Keyword.preset.name from rfl, Setting.read_name, Keyword.form]
      refine Keyword.unary_read_eq_error.mpr (Or.inr ⟨_, _, rfl, rfl, ?_⟩)
      exact Keyword.makePreset_eq_error.mpr ⟨hnone, rfl⟩
  | lengthNotFinite hx hfin =>
      rw [show "length" = Keyword.length.name from rfl, Setting.read_name, Keyword.form]
      refine Keyword.unary_read_eq_error.mpr (Or.inr ⟨_, _, rfl, hx, ?_⟩)
      exact Keyword.makeLength_eq_error.mpr ⟨hfin, rfl⟩
  | scaleNotPositive hx hpos =>
      rw [show "scale" = Keyword.scale.name from rfl, Setting.read_name, Keyword.form]
      refine Keyword.unary_read_eq_error.mpr (Or.inr ⟨_, _, rfl, hx, ?_⟩)
      exact Keyword.makeScale_eq_error.mpr ⟨hpos, rfl⟩

/-- **Reading a line** fails exactly for the reason why it is wrong by itself. -/
theorem Setting.read_eq_error {keyword : Word} {tokens : List Word} {fault : Fault} :
    Setting.read keyword tokens = .error fault ↔ Setting.Faulty keyword tokens fault := by
  constructor
  · intro h
    rw [Setting.read] at h
    split at h
    · rename_i hnone
      obtain rfl := Except.error.inj h
      exact .unknownKeyword tokens (Keyword.ofToken?_eq_none.mp hnone)
    · rename_i k hk
      rw [Keyword.ofToken?_eq_some.mp hk]
      exact Setting.faulty_of_form h
  · intro h
    exact h.read_eq

/-- A line states something unless it is wrong by itself. -/
theorem Setting.exists_stated_iff {keyword : Word} {tokens : List Word} :
    (∃ s, Setting.Stated keyword tokens s) ↔ ¬ ∃ fault, Setting.Faulty keyword tokens fault := by
  simp only [← Setting.read_eq_ok, ← Setting.read_eq_error]
  cases Setting.read keyword tokens with
  | ok s =>
      refine iff_of_true ⟨s, rfl⟩ ?_
      rintro ⟨fault, hfault⟩
      cases hfault
  | error fault =>
      refine iff_of_false ?_ (fun hnone => hnone ⟨fault, rfl⟩)
      rintro ⟨s, hs⟩
      cases hs

end TurtleGrammar
