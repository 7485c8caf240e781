import Mathlib.Data.Finset.Card
import TurtleGrammar.Proofs.Canonical

/-! # Building rule sets — the last rule for a symbol counts

    A rule set can be made from a list at once, by inserting one rule after the
    other, or by way of a hash map.  What is found in it depends on the list
    alone, and of several rules for one symbol only the last is found
    (`RuleSet.lastFor?`).

    - **Filling**: anything that rules are put into, so that a rule is found
      where it was put and nowhere else, has the last rules of a list after the
      whole list (`find_foldl`).  Rule sets and hash maps are filled like this.
    - **Displaced rules**: an insertion gives back what was found before it, the
      last one among the rules inserted earlier (`getElem?_exchangeAll`).
    - **Equality**: rule sets in which the same is found are equal
      (`RuleSet.ext_get?`), so lists with the same last rules make one rule set
      and grow the same words. -/

namespace TurtleGrammar

namespace RuleSet

/-- The replacement by the last rule for the symbol, if there is a rule for it. -/
def lastFor? (rules : List (Char × Word)) (c : Char) : Option Word :=
  (rules.filter (·.1 = c)).getLast?.map Prod.snd

/-- The rule set with the rules inserted in their order. -/
def insertAll (r : RuleSet) (rules : List (Char × Word)) : RuleSet :=
  rules.foldl (fun r rule => r.insert rule.1 rule.2) r

/-- `insertAll`, with the replacements that the insertions displace. -/
def exchangeAll (r : RuleSet) : List (Char × Word) → List (Option Word) × RuleSet
  | [] => ([], r)
  | (c, w) :: rules =>
      let (displaced, r) := r.exchange c w
      let (others, r) := exchangeAll r rules
      (displaced :: others, r)

/-- The hash map that is filled with the rules in their order. -/
def hashMap [Hashable Char] (rules : List (Char × Word)) : Std.HashMap Char Word :=
  rules.foldl (fun m rule => m.insert rule.1 rule.2) ∅

/-! ## Filling -/

/-- A first rule counts only if no later one is for the same symbol. -/
theorem lastFor?_cons (rule : Char × Word) (rules : List (Char × Word)) (c : Char) :
    lastFor? (rule :: rules) c
      = (lastFor? rules c).or (if rule.1 = c then some rule.2 else none) := by
  rw [lastFor?, List.filter_cons]
  by_cases hc : rule.1 = c
  · rw [if_pos (decide_eq_true hc), if_pos hc, List.getLast?_cons, lastFor?]
    cases (rules.filter (·.1 = c)).getLast? <;> rfl
  · rw [if_neg (mt of_decide_eq_true hc), if_neg hc, Option.or_none, lastFor?]

/-- What is found after a whole list of rules, from what is found after one. -/
theorem find_foldl {M : Type} {find : M → Char → Option Word} {put : M → Char → Word → M}
    (hput : ∀ m c w d, find (put m c w) d = if c = d then some w else find m d) (m : M)
    (rules : List (Char × Word)) (c : Char) :
    find (rules.foldl (fun m rule => put m rule.1 rule.2) m) c
      = (lastFor? rules c).or (find m c) := by
  induction rules generalizing m with
  | nil => rfl
  | cons rule rules ih =>
      rw [List.foldl_cons, ih, hput, lastFor?_cons, Option.or_assoc]
      by_cases hc : rule.1 = c
      · rw [if_pos hc, if_pos hc, Option.some_or]
      · rw [if_neg hc, if_neg hc, Option.none_or]

/-- After a list of rules has been inserted, its last rule for a symbol is found, or else the one
    that was there. -/
theorem get?_insertAll (r : RuleSet) (rules : List (Char × Word)) (c : Char) :
    (r.insertAll rules).get? c = (lastFor? rules c).or (r.get? c) :=
  find_foldl get?_insert r rules c

/-- A hash map filled from a list holds the last rule for each symbol. -/
theorem getElem?_hashMap [Hashable Char] (rules : List (Char × Word)) (c : Char) :
    (hashMap rules)[c]? = lastFor? rules c := by
  have hput : ∀ (m : Std.HashMap Char Word) c w d,
      (m.insert c w)[d]? = if c = d then some w else m[d]? := by
    intro m c w d
    simp only [Std.HashMap.getElem?_insert, beq_iff_eq]
  have hfind := find_foldl hput ∅ rules c
  rw [Std.HashMap.getElem?_empty, Option.or_none] at hfind
  exact hfind

/-! ## Rule sets of the same rules -/

theorem replacements_insertAll (r : RuleSet) (rules : List (Char × Word)) :
    (r.insertAll rules).replacements
      = rules.foldl (fun m rule => m.insert rule.1 rule.2) r.replacements := by
  induction rules generalizing r with
  | nil => rfl
  | cons rule rules ih => exact ih (r.insert rule.1 rule.2)

theorem insertAll_empty (rules : List (Char × Word)) : insertAll ∅ rules = ofList rules := by
  refine congrArg RuleSet.mk ?_
  rw [Std.ExtTreeMap.ofList_eq_foldl]
  exact replacements_insertAll ∅ rules

/-- **Last rule**: it is the one that is found. -/
theorem get?_ofList_eq (rules : List (Char × Word)) (c : Char) :
    (ofList rules).get? c = lastFor? rules c := by
  rw [← insertAll_empty, get?_insertAll]
  exact Option.or_none

/-- A hash map gives its rules in no particular order, but no two for one symbol. -/
theorem get?_ofHashMap [Hashable Char] (m : Std.HashMap Char Word) (c : Char) :
    (ofHashMap m).get? c = m[c]? := by
  have hnodup : (m.toList.map Prod.fst).Nodup := by
    rw [Std.HashMap.map_fst_toList_eq_keys]
    exact m.nodup_keys
  refine Option.ext ?_
  intro w
  rw [ofHashMap, get?_ofList hnodup, Std.HashMap.mem_toList_iff_getElem?_eq_some]

/-- By way of a hash map the same rule set is made as from the list. -/
theorem ofHashMap_hashMap [Hashable Char] (rules : List (Char × Word)) :
    ofHashMap (hashMap rules) = ofList rules := by
  refine ext_get? ?_
  intro c
  rw [get?_ofHashMap, getElem?_hashMap, get?_ofList_eq]

theorem contains_eq (r : RuleSet) (c : Char) : r.contains c = (r.get? c).isSome :=
  Std.ExtTreeMap.contains_eq_isSome_getElem?

/-- A rule set has as many rules as its list has symbols, each counted once. -/
theorem size_ofList (rules : List (Char × Word)) :
    (ofList rules).size = (rules.map Prod.fst).toFinset.card := by
  have hmem : ∀ c, c ∈ (ofList rules).replacements.keys ↔ c ∈ rules.map Prod.fst := by
    intro c
    rw [← List.contains_iff_mem, Std.ExtTreeMap.contains_keys]
    show (Std.ExtTreeMap.ofList rules).contains c = true ↔ _
    rw [Std.ExtTreeMap.contains_ofList, List.contains_iff_mem]
  have hsymbols : (ofList rules).replacements.keys.toFinset = (rules.map Prod.fst).toFinset := by
    refine Finset.ext ?_
    intro c
    rw [List.mem_toFinset, List.mem_toFinset, hmem]
  rw [← hsymbols, List.toFinset_card_of_nodup Std.ExtTreeMap.nodup_keys,
    Std.ExtTreeMap.length_keys]
  rfl

/-! ## Displaced rules -/

/-- Exchanging rules leaves the same rule set as inserting them. -/
theorem exchangeAll_eq (r : RuleSet) (rules : List (Char × Word)) :
    (r.exchangeAll rules).2 = r.insertAll rules := by
  induction rules generalizing r with
  | nil => rfl
  | cons rule rules ih => exact ih (r.insert rule.1 rule.2)

/-- An insertion gives back what was found right before it. -/
theorem getElem?_exchangeAll (r : RuleSet) (before : List (Char × Word)) (c : Char) (w : Word)
    (after : List (Char × Word)) :
    (r.exchangeAll (before ++ (c, w) :: after)).1[before.length]?
      = some ((r.exchangeAll before).2.get? c) := by
  induction before generalizing r with
  | nil => rfl
  | cons rule before ih => exact ih (r.insert rule.1 rule.2)

/-! ## Equality -/

/-- Two lists make the same rule set exactly when they have the same last rule for each symbol. -/
theorem ofList_eq_iff {rules rules' : List (Char × Word)} :
    ofList rules = ofList rules' ↔ ∀ c, lastFor? rules c = lastFor? rules' c := by
  simp only [← get?_ofList_eq]
  constructor
  · intro h c
    rw [h]
  · exact ext_get?

/-- **All ways to build a rule set agree**: it has the last rule for each symbol, and its size is
    the number of symbols with a rule.  Insertions give back what they displace.  Lists make the
    same rule set exactly when they have the same last rules, as they do when rules for different
    symbols change places, and the same systems then. -/
theorem ways_agree [Hashable Char] (rules : List (Char × Word)) :
    (insertAll ∅ rules = ofList rules ∧ (exchangeAll ∅ rules).2 = ofList rules
        ∧ ofHashMap (hashMap rules) = ofList rules)
      ∧ (∀ c, (ofList rules).get? c = lastFor? rules c
          ∧ (ofList rules).contains c = ((ofList rules).get? c).isSome)
      ∧ (ofList rules).size = (rules.map Prod.fst).toFinset.card
      ∧ (∀ before c w after, rules = before ++ (c, w) :: after →
          (exchangeAll ∅ rules).1[before.length]? = some ((exchangeAll ∅ before).2.get? c))
      ∧ (∀ rules', ofList rules = ofList rules' ↔ ∀ c, lastFor? rules c = lastFor? rules' c)
      ∧ (∀ rules', rules.Perm rules' → (rules.map Prod.fst).Nodup → ofList rules = ofList rules')
      ∧ ∀ rules' seed n,
          ((LSystem.new seed (ofList rules)).advanceBy n
              = (LSystem.new seed (ofList rules')).advanceBy n
            ↔ ∀ c, lastFor? rules c = lastFor? rules' c)
          ∧ ((∀ c, lastFor? rules c = lastFor? rules' c) →
              ((LSystem.new seed (ofList rules)).advanceBy n).history
                = ((LSystem.new seed (ofList rules')).advanceBy n).history) := by
  refine ⟨⟨insertAll_empty rules, ?_, ofHashMap_hashMap rules⟩, ?_, size_ofList rules, ?_,
    fun _ => ofList_eq_iff, fun _ hperm hnodup => ofList_perm hperm hnodup, ?_⟩
  · rw [exchangeAll_eq, insertAll_empty]
  · intro c
    exact ⟨get?_ofList_eq rules c, contains_eq _ c⟩
  · rintro before c w after rfl
    exact getElem?_exchangeAll ∅ before c w after
  · intro rules' seed n
    rw [LSystem.advanceBy_new_inj, ofList_eq_iff]
    refine ⟨Iff.rfl, ?_⟩
    intro hsame
    rw [ofList_eq_iff.mpr hsame]

/-- A rule that takes the place of another, and the two rules that count in either order. -/
theorem ways_agree_replaced :
    let before : List (Char × Word) := [('F', "FF".toList), ('X', [])]
    let rules := before ++ [('F', "F+F".toList)]
    let last : List (Char × Word) := [('X', []), ('F', "F+F".toList)]
    (exchangeAll ∅ rules).1[2]? = some (some "FF".toList)
      ∧ (∀ c, lastFor? rules c = lastFor? last c)
      ∧ (∀ seed n, ((LSystem.new seed (ofList rules)).advanceBy n).history
          = ((LSystem.new seed (ofList last)).advanceBy n).history)
      ∧ last.Perm last.reverse ∧ (last.map Prod.fst).Nodup ∧ ofList last = ofList last.reverse := by
  intro before rules last
  have hlast : ∀ c, lastFor? rules c = lastFor? last c := by
    intro c
    -- only the symbol that is replaced can make a difference
    by_cases hF : 'F' = c
    · rw [← hF]
      rfl
    · simp only [rules, before, last, List.cons_append, List.nil_append, lastFor?_cons,
        if_neg hF, Option.or_none]
  have hperm : last.Perm last.reverse := (List.reverse_perm last).symm
  have hnodup : (last.map Prod.fst).Nodup := by decide
  obtain ⟨-, -, -, hdisplaced, -, -, hsystems⟩ := ways_agree rules
  obtain ⟨-, -, -, -, -, horder, -⟩ := ways_agree last
  have hthird := hdisplaced before 'F' "F+F".toList [] rfl
  have hbefore : (exchangeAll ∅ before).2.get? 'F' = some "FF".toList := by decide
  rw [hbefore] at hthird
  exact ⟨hthird, hlast, fun seed n => (hsystems last seed n).2 hlast, hperm, hnodup,
    horder _ hperm hnodup⟩

end RuleSet

end TurtleGrammar
