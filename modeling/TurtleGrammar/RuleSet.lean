import Std.Data.ExtTreeMap
import Std.Data.HashMap

/-! # Rule sets — words, and one replacement a symbol

    A symbol is one code point and a word is a finite sequence of symbols.
    Nothing in the library looks inside a symbol: a letter outside ASCII is
    one symbol like any other, so lengths count code points and never bytes.

    A rule set maps symbols to the words that replace them.  A symbol without
    a rule is kept.  Two rule sets are equal exactly when they give the same
    replacement to every symbol, whatever order their rules arrived in, and
    the rules are listed by code point.

    - `RuleSet.ofList`, `RuleSet.ofHashMap` and repeated `RuleSet.insert` are
      the ways to build one; of several rules for one symbol the last counts.
    - `RuleSet.apply` is one simultaneous pass over a word: every symbol is
      replaced by its image, and a replacement is never scanned again within
      the pass.
    - `RuleSet.applyLength` is the length of a pass without the pass, and
      `RuleSet.applyCount` the same in 64 bits.  The two agree on what is past a
      limit as long as both fit (`RuleSet.lt_applyCount_iff`). -/

namespace TurtleGrammar

/-- A word: symbols in reading order. -/
abbrev Word := List Char

/-- Replacements by symbol.  The empty word is a replacement like any other: it
    erases its symbol. -/
structure RuleSet where
  replacements : Std.ExtTreeMap Char Word
deriving DecidableEq

namespace RuleSet

/-- The rule set that keeps every symbol. -/
def empty : RuleSet := ⟨∅⟩

instance : EmptyCollection RuleSet := ⟨empty⟩
instance : Inhabited RuleSet := ⟨empty⟩

/-- The replacement of `c`, if `c` has a rule. -/
def get? (r : RuleSet) (c : Char) : Option Word := r.replacements[c]?

/-- Whether `c` has a rule. -/
def contains (r : RuleSet) (c : Char) : Bool := r.replacements.contains c

/-- The number of symbols that have a rule. -/
def size (r : RuleSet) : Nat := r.replacements.size

/-- Whether no symbol has a rule. -/
def isEmpty (r : RuleSet) : Bool := r.replacements.isEmpty

/-- The rule set in which `c` is replaced by `w`, whatever replaced it before. -/
def insert (r : RuleSet) (c : Char) (w : Word) : RuleSet := ⟨r.replacements.insert c w⟩

/-- `insert`, with the replacement that it displaces. -/
def exchange (r : RuleSet) (c : Char) (w : Word) : Option Word × RuleSet :=
  (r.get? c, r.insert c w)

/-- The rules of a list; a later rule for a symbol displaces an earlier one. -/
def ofList (rules : List (Char × Word)) : RuleSet := ⟨Std.ExtTreeMap.ofList rules⟩

/-- The rules of a hash map, whose own order has no influence. -/
def ofHashMap [Hashable Char] (rules : Std.HashMap Char Word) : RuleSet := ofList rules.toList

/-- The rules in the order of their symbols' code points. -/
def toList (r : RuleSet) : List (Char × Word) := r.replacements.toList

/-- What a single symbol becomes: its replacement, or itself when it has no rule. -/
def image (r : RuleSet) (c : Char) : Word := (r.get? c).getD [c]

/-- One simultaneous pass over a word. -/
def apply (r : RuleSet) (w : Word) : Word := w.flatMap r.image

/-- The length of `apply r w`, found without building the word. -/
def applyLength (r : RuleSet) (w : Word) : Nat := w.foldl (fun n c => n + (r.image c).length) 0

/-- `applyLength` as it is counted in a 64-bit word, which wraps around. -/
def applyCount (r : RuleSet) (w : Word) : UInt64 :=
  w.foldl (fun n c => n + UInt64.ofNat (r.image c).length) 0

/-! ## Which rules are found -/

/-- Rules for different symbols are all found. -/
theorem get?_ofList {rules : List (Char × Word)} (h : (rules.map Prod.fst).Nodup) {c : Char}
    {w : Word} : (ofList rules).get? c = some w ↔ (c, w) ∈ rules := by
  have hdistinct : rules.Pairwise fun a b => ¬ compare a.1 b.1 = .eq := by
    rw [List.Nodup, List.pairwise_map] at h
    exact h.imp fun hne heq => hne (Std.compare_eq_iff_eq.mp heq)
  have hfound : ∀ w, (c, w) ∈ rules → (ofList rules).get? c = some w := by
    intro w hmem
    exact Std.ExtTreeMap.getElem?_ofList_of_mem Std.ReflCmp.compare_self hdistinct hmem
  constructor
  · intro hget
    -- a symbol found has a rule in the list, and this rule is found as well
    by_cases hc : (rules.map Prod.fst).contains c = true
    · obtain ⟨⟨c', w'⟩, hmem, rfl⟩ := List.mem_map.mp (List.contains_iff_mem.mp hc)
      rw [hfound w' hmem] at hget
      rw [← Option.some.inj hget]
      exact hmem
    · have hnone : (ofList rules).get? c = none :=
        Std.ExtTreeMap.getElem?_ofList_of_contains_eq_false (by simpa using hc)
      exact nomatch hnone.symm.trans hget
  · exact hfound w

/-- Rule sets that give every symbol the same replacement are equal. -/
theorem ext_get? {r r' : RuleSet} (h : ∀ c, r.get? c = r'.get? c) : r = r' :=
  congrArg RuleSet.mk (Std.ExtTreeMap.ext_getElem? fun {c} => h c)

/-- An inserted rule is found, and no other rule is touched. -/
theorem get?_insert (r : RuleSet) (c : Char) (w : Word) (d : Char) :
    (r.insert c w).get? d = if c = d then some w else r.get? d := by
  rw [get?, insert, Std.ExtTreeMap.getElem?_insert]
  simp only [Std.compare_eq_iff_eq]
  rfl

/-- The order of rules for different symbols is no part of their set. -/
theorem ofList_perm {rules rules' : List (Char × Word)} (hperm : rules.Perm rules')
    (h : (rules.map Prod.fst).Nodup) : ofList rules = ofList rules' := by
  have h' : (rules'.map Prod.fst).Nodup := (hperm.map Prod.fst).nodup_iff.mp h
  refine ext_get? ?_
  intro c
  refine Option.ext ?_
  intro w
  rw [get?_ofList h, get?_ofList h', hperm.mem_iff]

/-! ## What a pass does to a word -/

theorem image_of_some {r : RuleSet} {c : Char} {w : Word} (h : r.get? c = some w) :
    r.image c = w := by
  rw [image, h]
  rfl

theorem image_of_none {r : RuleSet} {c : Char} (h : r.get? c = none) : r.image c = [c] := by
  rw [image, h]
  rfl

@[simp] theorem apply_nil (r : RuleSet) : r.apply [] = [] := rfl

/-- A pass over a word begins with what its first symbol becomes. -/
@[simp] theorem apply_cons (r : RuleSet) (c : Char) (w : Word) :
    r.apply (c :: w) = r.image c ++ r.apply w := rfl

/-- A pass never looks across a symbol boundary. -/
@[simp] theorem apply_append (r : RuleSet) (u v : Word) :
    r.apply (u ++ v) = r.apply u ++ r.apply v := List.flatMap_append

/-- Counting on from `n`, symbol by symbol, gives `n` more than the length of the pass. -/
theorem foldl_length_image (r : RuleSet) (n : Nat) (w : Word) :
    w.foldl (fun n c => n + (r.image c).length) n = n + (r.apply w).length := by
  induction w generalizing n with
  | nil => rfl
  | cons c w ih =>
      rw [List.foldl_cons, ih, apply_cons, List.length_append, Nat.add_assoc]

/-- The length found without a pass is the length of the pass. -/
theorem applyLength_eq (r : RuleSet) (w : Word) :
    r.applyLength w = (r.apply w).length := by
  rw [applyLength, foldl_length_image, Nat.zero_add]

/-! ## Lengths in 64 bits -/

/-- Counting on from `n` adds the length of the pass, modulo the range of the word. -/
theorem toNat_foldl_count (r : RuleSet) (n : UInt64) (w : Word) :
    (w.foldl (fun n c => n + UInt64.ofNat (r.image c).length) n).toNat
      = (n.toNat + (r.apply w).length) % UInt64.size := by
  induction w generalizing n with
  | nil => exact (Nat.mod_eq_of_lt n.toNat_lt).symm
  | cons c w ih =>
      rw [List.foldl_cons, ih, apply_cons, List.length_append, UInt64.toNat_add,
        UInt64.toNat_ofNat', UInt64.size]
      omega

/-- The count loses whole multiples of its range and nothing else. -/
theorem toNat_applyCount (r : RuleSet) (w : Word) :
    (r.applyCount w).toNat = r.applyLength w % UInt64.size := by
  rw [applyCount, toNat_foldl_count, applyLength_eq, UInt64.toNat_zero, Nat.zero_add]

/-- A length that fits 64 bits is past a limit that fits exactly when its count is. -/
theorem lt_applyCount_iff {r : RuleSet} {w : Word} {limit : Nat} (hlimit : limit < UInt64.size)
    (hfits : r.applyLength w < UInt64.size) :
    UInt64.ofNat limit < r.applyCount w ↔ limit < r.applyLength w := by
  rw [UInt64.lt_iff_toNat_lt, UInt64.toNat_ofNat_of_lt' hlimit, toNat_applyCount,
    Nat.mod_eq_of_lt hfits]

end RuleSet

end TurtleGrammar
