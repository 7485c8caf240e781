import Mathlib.Data.List.Basic
import TurtleGrammar.Description.Setting

/-! # Forms — which keywords and arguments make a setting

    `Setting.Stated` lists what a line can say, one rule a kind of line: the
    keyword as it is spelled, the arguments it takes, their range and the
    setting they amount to.  Reading a line by the form of its keyword finds
    exactly the settings of this list (`Setting.read_eq_ok`). -/

namespace TurtleGrammar

/-- The keyword with the arguments states the setting. -/
inductive Setting.Stated : Word → List Word → Setting → Prop where
  | preset {p : Preset} : p ∈ Preset.catalog →
      Stated "preset".toList [p.name.toList] (.preset p)
  | seed (w : Word) : Stated "axiom".toList [w] (.seed w)
  /-- A rule without a replacement erases its symbol. -/
  | erasure (c : Char) : Stated "rule".toList [[c]] (.rule c [])
  /-- Any token is a replacement; what is replaced is a single symbol. -/
  | rule (c : Char) (w : Word) : Stated "rule".toList [[c], w] (.rule c w)
  | angleRad {t : Word} {x : Float} : readFloat? t = some x →
      Stated "angle_rad".toList [t] (.angle x)
  | angleDeg {t : Word} {x : Float} : readFloat? t = some x →
      Stated "angle_deg".toList [t] (.angle (Angle.ofDegrees x))
  | headingRad {t : Word} {x : Float} : readFloat? t = some x →
      Stated "heading_rad".toList [t] (.heading x)
  | headingDeg {t : Word} {x : Float} : readFloat? t = some x →
      Stated "heading_deg".toList [t] (.heading (Angle.ofDegrees x))
  /-- A length is finite. -/
  | length {t : Word} {x : Float} : readFloat? t = some x → x.isFinite = true →
      Stated "length".toList [t] (.length x)
  /-- A scale is positive and finite. -/
  | scale {t : Word} {x : Float} : readFloat? t = some x → 0 < x → x.isFinite = true →
      Stated "scale".toList [t] (.scale x)
  | position {t u : Word} {x y : Float} : readFloat? t = some x → readFloat? u = some y →
      Stated "position".toList [t, u] (.position ⟨x, y⟩)
  | generations {t : Word} {n : Nat} : readCount? t = some n →
      Stated "generations".toList [t] (.generations n)
  | maxLength {t : Word} {n : Nat} : readCount? t = some n →
      Stated "max_length".toList [t] (.maxLength n)

/-! ## Names -/

theorem Preset.find?_eq_some {name : String} {p : Preset} :
    Preset.find? name = some p ↔ p ∈ Preset.catalog ∧ p.name = name := by
  constructor
  · intro h
    have hname := List.find?_some (p := fun p : Preset => p.name == name) h
    exact ⟨List.mem_of_find?_eq_some h, eq_of_beq hname⟩
  · rintro ⟨hmem, rfl⟩
    simp only [Preset.catalog, List.mem_cons, List.not_mem_nil, or_false] at hmem
    rcases hmem with rfl | rfl | rfl | rfl | rfl | rfl | rfl | rfl <;> rfl

theorem Keyword.ofToken?_eq_some {token : Word} {k : Keyword} :
    Keyword.ofToken? token = some k ↔ token = k.name.toList := by
  constructor
  · intro h
    have hname := List.find?_some (p := fun k : Keyword => decide (k.name.toList = token)) h
    exact (of_decide_eq_true hname).symm
  · rintro rfl
    exact Keyword.ofToken?_name k

/-! ## Arguments -/

theorem readArgs_nil_eq_ok {tokens : List Word} {args : Args []} :
    readArgs [] tokens = .ok args ↔ tokens = [] := by
  cases tokens with
  | nil => exact iff_of_true rfl rfl
  | cons t rest => exact iff_of_false (fun h => nomatch h) (List.cons_ne_nil t rest)

/-- The first token is read as the first parameter, and the others as the others. -/
theorem readArgs_cons_eq_ok {p : Param} {params : List Param} {tokens : List Word}
    {value : p.type.Value} {values : Args params} :
    readArgs (p :: params) tokens = .ok (value, values)
      ↔ ∃ t rest, tokens = t :: rest ∧ p.type.read? t = some value
          ∧ readArgs params rest = .ok values := by
  constructor
  · intro h
    cases tokens with
    | nil => exact nomatch h
    | cons t rest =>
        rw [readArgs] at h
        -- the token is judged before the rest is looked at
        cases hv : p.type.read? t with
        | none =>
            rw [hv] at h
            exact nomatch h
        | some v =>
            rw [hv] at h
            cases hrest : readArgs params rest with
            | error e =>
                rw [hrest] at h
                exact nomatch h
            | ok vs =>
                rw [hrest] at h
                obtain ⟨rfl, rfl⟩ := Prod.mk.inj (Except.ok.inj h)
                exact ⟨t, rest, rfl, hv, hrest⟩
  · rintro ⟨t, rest, rfl, hv, hrest⟩
    rw [readArgs, hv, hrest]
    rfl

/-- One parameter is read from one token. -/
theorem exists_readArgs_singleton {p : Param} {tokens : List Word} {P : Args [p] → Prop} :
    (∃ args, readArgs [p] tokens = .ok args ∧ P args)
      ↔ ∃ t v, tokens = [t] ∧ p.type.read? t = some v ∧ P (v, ()) := by
  constructor
  · rintro ⟨⟨v, ⟨⟩⟩, hargs, hP⟩
    obtain ⟨t, rest, rfl, hv, hrest⟩ := readArgs_cons_eq_ok.mp hargs
    rw [readArgs_nil_eq_ok.mp hrest]
    exact ⟨t, v, rfl, hv, hP⟩
  · rintro ⟨t, v, rfl, hv, hP⟩
    refine ⟨(v, ()), ?_, hP⟩
    exact readArgs_cons_eq_ok.mpr ⟨t, [], rfl, hv, readArgs_nil_eq_ok.mpr rfl⟩

/-- **Inversion**: a form gives a setting when the arguments can be read and their values are
    right. -/
theorem Form.read_eq_ok {form : Form} {tokens : List Word} {s : Setting} :
    form.read tokens = .ok s
      ↔ ∃ args, readArgs form.params tokens = .ok args ∧ form.make args = .ok s := by
  rw [Form.read]
  cases h : readArgs form.params tokens with
  | error e =>
      refine iff_of_false (fun hread => nomatch hread) ?_
      rintro ⟨args, hargs, -⟩
      exact nomatch hargs
  | ok args =>
      constructor
      · intro hmake
        exact ⟨args, rfl, hmake⟩
      · rintro ⟨args', hargs, hmake⟩
        rw [← Except.ok.inj hargs] at hmake
        exact hmake

namespace Keyword

/-- A form with one parameter takes exactly one token. -/
theorem unary_read_eq_ok {name : String} {type : ArgType}
    {make : type.Value → Except Fault Setting} {tokens : List Word} {s : Setting} :
    (unary name type make).read tokens = .ok s
      ↔ ∃ t v, tokens = [t] ∧ type.read? t = some v ∧ make v = .ok s := by
  rw [Form.read_eq_ok]
  exact exists_readArgs_singleton

/-- A form with two parameters takes exactly two tokens. -/
theorem binary_read_eq_ok {p q : Param} {make : p.type.Value → q.type.Value → Except Fault Setting}
    {tokens : List Word} {s : Setting} :
    (binary p q make).read tokens = .ok s
      ↔ ∃ t u v w, tokens = [t, u] ∧ p.type.read? t = some v ∧ q.type.read? u = some w
          ∧ make v w = .ok s := by
  rw [Form.read_eq_ok]
  constructor
  · rintro ⟨⟨v, w, ⟨⟩⟩, hargs, hmake⟩
    obtain ⟨t, rest, rfl, hv, hrest⟩ := readArgs_cons_eq_ok.mp hargs
    obtain ⟨u, rest, rfl, hw, hrest⟩ := readArgs_cons_eq_ok.mp hrest
    rw [readArgs_nil_eq_ok.mp hrest]
    exact ⟨t, u, v, w, rfl, hv, hw, hmake⟩
  · rintro ⟨t, u, v, w, rfl, hv, hw, hmake⟩
    refine ⟨(v, w, ()), ?_, hmake⟩
    refine readArgs_cons_eq_ok.mpr ⟨t, [u], rfl, hv, ?_⟩
    exact readArgs_cons_eq_ok.mpr ⟨u, [], rfl, hw, readArgs_nil_eq_ok.mpr rfl⟩

/-- A symbol is a token of one character. -/
theorem readSymbol_eq_some {t : Word} {c : Char} :
    ArgType.symbol.read? t = some c ↔ t = [c] := by
  match t with
  | [] => exact iff_of_false (fun h => nomatch h) (fun h => nomatch h)
  | [d] =>
      constructor
      · intro h
        rw [Option.some.inj h]
      · intro h
        rw [(List.cons.inj h).1]
        rfl
  | d :: e :: rest => exact iff_of_false (fun h => nomatch h) (fun h => nomatch h)

/-- A preset is set when the catalog has one of that name. -/
theorem makePreset_eq_ok {name : Word} {s : Setting} :
    makePreset name = .ok s
      ↔ ∃ p ∈ Preset.catalog, name = p.name.toList ∧ s = .preset p := by
  rw [makePreset]
  cases h : Preset.find? (String.ofList name) with
  | none =>
      refine iff_of_false (fun hmake => nomatch hmake) ?_
      rintro ⟨p, hp, rfl, -⟩
      -- the catalog finds every preset that it lists under its own name
      rw [String.ofList_toList, Preset.find?_eq_some.mpr ⟨hp, rfl⟩] at h
      exact nomatch h
  | some p =>
      obtain ⟨hp, hname⟩ := Preset.find?_eq_some.mp h
      constructor
      · intro hmake
        refine ⟨p, hp, ?_, (Except.ok.inj hmake).symm⟩
        rw [hname, String.toList_ofList]
      · rintro ⟨p', hp', rfl, rfl⟩
        rw [String.ofList_toList, Preset.find?_eq_some.mpr ⟨hp', rfl⟩] at h
        rw [Option.some.inj h]

theorem makeLength_eq_ok {x : Float} {s : Setting} :
    makeLength x = .ok s ↔ x.isFinite = true ∧ s = .length x := by
  rw [makeLength]
  by_cases h : x.isFinite = true
  · rw [if_pos h]
    constructor
    · intro hmake
      exact ⟨h, (Except.ok.inj hmake).symm⟩
    · rintro ⟨-, rfl⟩
      rfl
  · rw [if_neg h]
    exact iff_of_false (fun hmake => nomatch hmake) (fun hs => h hs.1)

theorem makeScale_eq_ok {x : Float} {s : Setting} :
    makeScale x = .ok s ↔ 0 < x ∧ x.isFinite = true ∧ s = .scale x := by
  rw [makeScale]
  by_cases h : (decide (0 < x) && x.isFinite) = true
  · rw [if_pos h]
    rw [Bool.and_eq_true, decide_eq_true_iff] at h
    constructor
    · intro hmake
      exact ⟨h.1, h.2, (Except.ok.inj hmake).symm⟩
    · rintro ⟨-, -, rfl⟩
      rfl
  · rw [if_neg h]
    rw [Bool.and_eq_true, decide_eq_true_iff] at h
    exact iff_of_false (fun hmake => nomatch hmake) (fun hs => h ⟨hs.1, hs.2.1⟩)

end Keyword

/-! ## Lines -/

/-- A line is read by the form of its keyword. -/
theorem Setting.read_name (k : Keyword) (tokens : List Word) :
    Setting.read k.name.toList tokens = (k.form tokens.length).read tokens := by
  rw [Setting.read, Keyword.ofToken?_name]

/-- A line without a keyword is not read. -/
theorem Setting.read_eq_ok_name {keyword : Word} {tokens : List Word} {s : Setting}
    (h : Setting.read keyword tokens = .ok s) : ∃ k : Keyword, keyword = k.name.toList := by
  cases hk : Keyword.ofToken? keyword with
  | none =>
      rw [Setting.read, hk] at h
      exact nomatch h
  | some k => exact ⟨k, Keyword.ofToken?_eq_some.mp hk⟩

/-- What a form makes of its tokens is stated by them. -/
theorem Setting.stated_of_form {k : Keyword} {tokens : List Word} {s : Setting}
    (h : (k.form tokens.length).read tokens = .ok s) :
    Setting.Stated k.name.toList tokens s := by
  -- one case a keyword: the shape of its form, its range check, its setting
  cases k with
  | preset =>
      rw [Keyword.form] at h
      obtain ⟨t, v, rfl, hv, hmake⟩ := Keyword.unary_read_eq_ok.mp h
      obtain rfl := Option.some.inj hv
      obtain ⟨p, hp, rfl, rfl⟩ := Keyword.makePreset_eq_ok.mp hmake
      exact .preset hp
  | seed =>
      rw [Keyword.form] at h
      obtain ⟨t, v, rfl, hv, hmake⟩ := Keyword.unary_read_eq_ok.mp h
      obtain rfl := Option.some.inj hv
      obtain rfl := Except.ok.inj hmake
      exact .seed t
  | rule =>
      rw [Keyword.form] at h
      -- the only keyword whose form depends on how many arguments there are
      by_cases hone : tokens.length = 1
      · rw [if_pos hone] at h
        obtain ⟨t, c, rfl, hc, hmake⟩ := Keyword.unary_read_eq_ok.mp h
        obtain rfl := Keyword.readSymbol_eq_some.mp hc
        obtain rfl := Except.ok.inj hmake
        exact .erasure c
      · rw [if_neg hone] at h
        obtain ⟨t, u, c, w, rfl, hc, hw, hmake⟩ := Keyword.binary_read_eq_ok.mp h
        obtain rfl := Keyword.readSymbol_eq_some.mp hc
        obtain rfl := Option.some.inj hw
        obtain rfl := Except.ok.inj hmake
        exact .rule c u
  | angleRad =>
      rw [Keyword.form] at h
      obtain ⟨t, x, rfl, hx, hmake⟩ := Keyword.unary_read_eq_ok.mp h
      obtain rfl := Except.ok.inj hmake
      exact .angleRad hx
  | angleDeg =>
      rw [Keyword.form] at h
      obtain ⟨t, x, rfl, hx, hmake⟩ := Keyword.unary_read_eq_ok.mp h
      obtain rfl := Except.ok.inj hmake
      exact .angleDeg hx
  | headingRad =>
      rw [Keyword.form] at h
      obtain ⟨t, x, rfl, hx, hmake⟩ := Keyword.unary_read_eq_ok.mp h
      obtain rfl := Except.ok.inj hmake
      exact .headingRad hx
  | headingDeg =>
      rw [Keyword.form] at h
      obtain ⟨t, x, rfl, hx, hmake⟩ := Keyword.unary_read_eq_ok.mp h
      obtain rfl := Except.ok.inj hmake
      exact .headingDeg hx
  | length =>
      rw [Keyword.form] at h
      obtain ⟨t, x, rfl, hx, hmake⟩ := Keyword.unary_read_eq_ok.mp h
      obtain ⟨hfin, rfl⟩ := Keyword.makeLength_eq_ok.mp hmake
      exact .length hx hfin
  | scale =>
      rw [Keyword.form] at h
      obtain ⟨t, x, rfl, hx, hmake⟩ := Keyword.unary_read_eq_ok.mp h
      obtain ⟨hpos, hfin, rfl⟩ := Keyword.makeScale_eq_ok.mp hmake
      exact .scale hx hpos hfin
  | position =>
      rw [Keyword.form] at h
      obtain ⟨t, u, x, y, rfl, hx, hy, hmake⟩ := Keyword.binary_read_eq_ok.mp h
      obtain rfl := Except.ok.inj hmake
      exact .position hx hy
  | generations =>
      rw [Keyword.form] at h
      obtain ⟨t, n, rfl, hn, hmake⟩ := Keyword.unary_read_eq_ok.mp h
      obtain rfl := Except.ok.inj hmake
      exact .generations hn
  | maxLength =>
      rw [Keyword.form] at h
      obtain ⟨t, n, rfl, hn, hmake⟩ := Keyword.unary_read_eq_ok.mp h
      obtain rfl := Except.ok.inj hmake
      exact .maxLength hn

/-- What a line states is read from it. -/
theorem Setting.Stated.read_eq {keyword : Word} {tokens : List Word} {s : Setting}
    (h : Setting.Stated keyword tokens s) : Setting.read keyword tokens = .ok s := by
  cases h with
  | preset hp =>
      rw [show "preset" = Keyword.preset.name from rfl, Setting.read_name, Keyword.form]
      refine Keyword.unary_read_eq_ok.mpr ?_
      exact ⟨_, _, rfl, rfl, Keyword.makePreset_eq_ok.mpr ⟨_, hp, rfl, rfl⟩⟩
  | seed w =>
      rw [show "axiom" = Keyword.seed.name from rfl, Setting.read_name, Keyword.form]
      refine Keyword.unary_read_eq_ok.mpr ?_
      exact ⟨_, _, rfl, rfl, rfl⟩
  -- a rule is the keyword whose form depends on the number of tokens
  | erasure c =>
      rw [show "rule" = Keyword.rule.name from rfl, Setting.read_name, Keyword.form,
        if_pos (show [[c]].length = 1 from rfl)]
      refine Keyword.unary_read_eq_ok.mpr ?_
      exact ⟨_, _, rfl, rfl, rfl⟩
  | rule c w =>
      rw [show "rule" = Keyword.rule.name from rfl, Setting.read_name, Keyword.form,
        if_neg (by simp)]
      refine Keyword.binary_read_eq_ok.mpr ?_
      exact ⟨_, _, _, _, rfl, rfl, rfl, rfl⟩
  | angleRad hx =>
      rw [show "angle_rad" = Keyword.angleRad.name from rfl, Setting.read_name, Keyword.form]
      refine Keyword.unary_read_eq_ok.mpr ?_
      exact ⟨_, _, rfl, hx, rfl⟩
  | angleDeg hx =>
      rw [show "angle_deg" = Keyword.angleDeg.name from rfl, Setting.read_name, Keyword.form]
      refine Keyword.unary_read_eq_ok.mpr ?_
      exact ⟨_, _, rfl, hx, rfl⟩
  | headingRad hx =>
      rw [show "heading_rad" = Keyword.headingRad.name from rfl, Setting.read_name, Keyword.form]
      refine Keyword.unary_read_eq_ok.mpr ?_
      exact ⟨_, _, rfl, hx, rfl⟩
  | headingDeg hx =>
      rw [show "heading_deg" = Keyword.headingDeg.name from rfl, Setting.read_name, Keyword.form]
      refine Keyword.unary_read_eq_ok.mpr ?_
      exact ⟨_, _, rfl, hx, rfl⟩
  | length hx hfin =>
      rw [show "length" = Keyword.length.name from rfl, Setting.read_name, Keyword.form]
      refine Keyword.unary_read_eq_ok.mpr ?_
      exact ⟨_, _, rfl, hx, Keyword.makeLength_eq_ok.mpr ⟨hfin, rfl⟩⟩
  | scale hx hpos hfin =>
      rw [show "scale" = Keyword.scale.name from rfl, Setting.read_name, Keyword.form]
      refine Keyword.unary_read_eq_ok.mpr ?_
      exact ⟨_, _, rfl, hx, Keyword.makeScale_eq_ok.mpr ⟨hpos, hfin, rfl⟩⟩
  | position hx hy =>
      rw [show "position" = Keyword.position.name from rfl, Setting.read_name, Keyword.form]
      refine Keyword.binary_read_eq_ok.mpr ?_
      exact ⟨_, _, _, _, rfl, hx, hy, rfl⟩
  | generations hn =>
      rw [show "generations" = Keyword.generations.name from rfl, Setting.read_name, Keyword.form]
      refine Keyword.unary_read_eq_ok.mpr ?_
      exact ⟨_, _, rfl, hn, rfl⟩
  | maxLength hn =>
      rw [show "max_length" = Keyword.maxLength.name from rfl, Setting.read_name, Keyword.form]
      refine Keyword.unary_read_eq_ok.mpr ?_
      exact ⟨_, _, rfl, hn, rfl⟩

/-- **Reading a line** finds exactly the setting that its keyword and arguments state. -/
theorem Setting.read_eq_ok {keyword : Word} {tokens : List Word} {s : Setting} :
    Setting.read keyword tokens = .ok s ↔ Setting.Stated keyword tokens s := by
  constructor
  · intro h
    obtain ⟨k, rfl⟩ := Setting.read_eq_ok_name h
    rw [Setting.read_name] at h
    exact Setting.stated_of_form h
  · intro h
    exact h.read_eq

end TurtleGrammar
