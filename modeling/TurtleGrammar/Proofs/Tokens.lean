import Mathlib.Data.List.Basic
import Mathlib.Data.List.TakeWhile
import TurtleGrammar.Text.Line

/-! # Tokens — what the bytes of a line spell

    The functions of `Line` cut a text into lines, decode a line, leave its
    comment out and split the rest into tokens.  Here the same steps are
    relations that say what the result is and not how it is found.

    - `Line.Encodes`: the bytes of a line are the encoding of some characters.
    - `Line.Precedes`: a text stands before the first comment sign of a line.
    - `Line.Separates`: a text consists of tokens and blanks, and two tokens
      have a blank between them.
    - `Line.Spells` puts the three together.

    Each of them is shown to hold of exactly the result of its function. -/

namespace TurtleGrammar.Line

/-- The bytes of the line are the characters in UTF-8. -/
def Encodes (line : List UInt8) (cs : List Char) : Prop :=
  line = cs.flatMap String.utf8EncodeChar

/-- The text before the first comment sign of `cs` is `text`. -/
def Precedes (text cs : List Char) : Prop :=
  '#' ∉ text ∧ (cs = text ∨ ∃ comment, cs = text ++ '#' :: comment)

/-- The text consists of the tokens, in order, with blanks around and between them. -/
inductive Separates : List Word → List Char → Prop where
  | nil : Separates [] []
  /-- A blank belongs to no token. -/
  | blank {tokens : List Word} {c : Char} {cs : List Char} :
      isBlank c = true → Separates tokens cs → Separates tokens (c :: cs)
  /-- A token has characters, none of them blank, and goes on up to a blank or the end. -/
  | token {tokens : List Word} {token : Word} {cs : List Char} :
      token ≠ [] → (∀ c ∈ token, isBlank c = false) → (∀ c ∈ cs.head?, isBlank c = true) →
      Separates tokens cs → Separates (token :: tokens) (token ++ cs)

/-- The line is text, and its tokens before a comment are the given ones. -/
def Spells (line : List UInt8) (tokens : List Word) : Prop :=
  ∃ cs text, Encodes line cs ∧ Precedes text cs ∧ Separates tokens text

/-! ## Lines -/

/-- Cutting at every line feed gives the same lines, but for an empty one at the end. -/
theorem splitOn_eq (bytes : List UInt8) :
    bytes.splitOn feed = split bytes ∨ bytes.splitOn feed = split bytes ++ [[]] := by
  rw [split]
  by_cases h : (bytes.splitOn feed).getLast? = some []
  · refine Or.inr ?_
    simp only [if_pos h]
    exact (List.dropLast_append_getLast? [] h).symm
  · refine Or.inl ?_
    simp only [if_neg h]

/-- What holds of the empty line holds of all lines however they are cut. -/
theorem forall_mem_splitOn {P : List UInt8 → Prop} (hnil : P []) (bytes : List UInt8) :
    (∀ line ∈ bytes.splitOn feed, P line) ↔ ∀ line ∈ split bytes, P line := by
  rcases splitOn_eq bytes with h | h
  · rw [h]
  · rw [h, List.forall_mem_append, List.forall_mem_singleton]
    exact and_iff_left hnil

/-- What the empty line does not give is found in the same lines however they are cut. -/
theorem filterMap_splitOn {β : Type} {f : List UInt8 → Option β} (hnil : f [] = none)
    (bytes : List UInt8) : (bytes.splitOn feed).filterMap f = (split bytes).filterMap f := by
  rcases splitOn_eq bytes with h | h
  · rw [h]
  · rw [h, List.filterMap_append, List.filterMap_cons_none hnil, List.filterMap_nil,
      List.append_nil]

/-! ## Characters -/

/-- A line encodes some characters when its bytes are those of their text. -/
theorem encodes_iff {line : List UInt8} {cs : List Char} :
    Encodes line cs ↔ (String.ofList cs).toByteArray = ⟨line.toArray⟩ := by
  rw [Encodes, String.toByteArray_ofList, List.utf8Encode]
  constructor
  · rintro rfl
    exact ByteArray.ext List.data_toByteArray
  · intro h
    rw [← List.toList_data_toByteArray (l := cs.flatMap String.utf8EncodeChar), h]

/-- Decoding gives the characters that the line encodes. -/
theorem decode?_eq_some {line : List UInt8} {cs : List Char} :
    decode? line = some cs ↔ Encodes line cs := by
  rw [encodes_iff, decode?, Option.map_eq_some_iff, String.fromUTF8?]
  constructor
  · rintro ⟨s, hs, rfl⟩
    rw [String.ofList_toList]
    split at hs
    · rw [← Option.some.inj hs]
      rfl
    · exact nomatch hs
  · intro h
    have hvalid : ByteArray.IsValidUTF8 ⟨line.toArray⟩ := h ▸ (String.ofList cs).isValidUTF8
    refine ⟨String.ofList cs, ?_, String.toList_ofList⟩
    rw [dif_pos hvalid]
    exact congrArg some (String.toByteArray_inj.mp h.symm)

theorem decode?_eq_none {line : List UInt8} : decode? line = none ↔ ¬ ∃ cs, Encodes line cs := by
  rw [Option.eq_none_iff_forall_not_mem]
  constructor
  · rintro h ⟨cs, hcs⟩
    exact h cs (decode?_eq_some.mpr hcs)
  · intro h cs hcs
    exact h ⟨cs, decode?_eq_some.mp hcs⟩

/-! ## Comments -/

/-- A line is what precedes its comment, followed by nothing or by a comment. -/
theorem uncomment_precedes (cs : List Char) : Precedes (uncomment cs) cs := by
  constructor
  · intro hmem
    have hall := List.all_eq_true.mp (List.all_takeWhile (p := (· != '#')) (l := cs)) '#' hmem
    exact absurd rfl (bne_iff_ne.mp hall)
  · have hsplit : uncomment cs ++ cs.dropWhile (· != '#') = cs := List.takeWhile_append_dropWhile
    have hstop := List.head?_dropWhile_not (· != '#') cs
    cases hrest : cs.dropWhile (· != '#') with
    | nil =>
        rw [hrest, List.append_nil] at hsplit
        exact Or.inl hsplit.symm
    | cons c comment =>
        rw [hrest] at hsplit hstop
        have hc : c = '#' := by simpa using hstop
        rw [hc] at hsplit
        exact Or.inr ⟨comment, hsplit.symm⟩

/-- What is left of a line without its comment is what precedes the comment. -/
theorem uncomment_eq {cs text : List Char} : uncomment cs = text ↔ Precedes text cs := by
  constructor
  · rintro rfl
    exact uncomment_precedes cs
  · rintro ⟨hnot, hcs⟩
    have hpos : ∀ c ∈ text, (c != '#') = true := by
      intro c hc
      exact bne_iff_ne.mpr fun heq => hnot (heq ▸ hc)
    rcases hcs with rfl | ⟨comment, rfl⟩
    · exact List.takeWhile_eq_self_iff.mpr hpos
    · rw [uncomment, List.takeWhile_append_of_pos hpos]
      exact List.append_nil text

/-! ## Tokens -/

/-- The tokens of a text: its pieces between blanks that are not empty. -/
theorem Separates.pieces_eq {tokens : List Word} {cs : List Char} (h : Separates tokens cs) :
    (cs.splitOnP isBlank).filter (!·.isEmpty) = tokens := by
  induction h with
  | nil => rfl
  | blank hc _ ih =>
      rw [List.splitOnP_cons_eq_if_modifyHead, if_pos hc]
      exact ih
  | @token tokens token cs hne hword hstop _ ih =>
      -- the first cut is right after the token: none of its characters is blank
      have hkeep : ∀ pieces : List Word,
          (token :: pieces).filter (!·.isEmpty) = token :: pieces.filter (!·.isEmpty) := by
        intro pieces
        exact List.filter_cons_of_pos (by simpa using hne)
      cases cs with
      | nil =>
          rw [List.append_nil, List.splitOnP_eq_singleton hword, hkeep, ← ih]
          rfl
      | cons c cs =>
          have hc : isBlank c = true := hstop c rfl
          rw [List.splitOnP_cons_eq_if_modifyHead, if_pos hc] at ih
          rw [List.splitOnP_append_cons_of_forall_mem hword c hc, hkeep]
          exact congrArg (token :: ·) ih

/-- Every text has tokens: skip a blank, or take all characters up to the next one. -/
theorem exists_separates (cs : List Char) : ∃ tokens, Separates tokens cs := by
  match cs with
  | [] => exact ⟨[], .nil⟩
  | c :: cs =>
      by_cases hc : isBlank c = true
      · obtain ⟨tokens, h⟩ := exists_separates cs
        exact ⟨tokens, .blank hc h⟩
      · have hc' : (!isBlank c) = true := by simpa using hc
        -- `c` begins a token that the next blank ends
        let word := cs.takeWhile (!isBlank ·)
        let rest := cs.dropWhile (!isBlank ·)
        have hlen : rest.length ≤ cs.length := (List.dropWhile_sublist _).length_le
        obtain ⟨tokens, h⟩ := exists_separates rest
        refine ⟨(c :: word) :: tokens, ?_⟩
        have hsplit : c :: cs = (c :: word) ++ rest := by
          rw [List.cons_append, List.takeWhile_append_dropWhile]
        rw [hsplit]
        refine .token (List.cons_ne_nil c word) ?_ ?_ h
        · intro d hd
          rcases List.mem_cons.mp hd with rfl | hmem
          · simpa using hc'
          · have hall := List.all_eq_true.mp
              (List.all_takeWhile (p := (!isBlank ·)) (l := cs)) d hmem
            simpa using hall
        · intro d hd
          have hstop := List.head?_dropWhile_not (!isBlank ·) cs
          rw [Option.mem_def.mp hd] at hstop
          simpa using hstop
termination_by cs.length
decreasing_by
  · exact Nat.lt_succ_self _
  · exact Nat.lt_succ_of_le hlen

/-- The pieces between blanks, without the empty ones, are the tokens. -/
theorem pieces_eq_iff {tokens : List Word} {cs : List Char} :
    (cs.splitOnP isBlank).filter (!·.isEmpty) = tokens ↔ Separates tokens cs := by
  constructor
  · rintro rfl
    obtain ⟨tokens, h⟩ := exists_separates cs
    rw [h.pieces_eq]
    exact h
  · intro h
    exact h.pieces_eq

/-- The tokens of a line are those that are separated before its comment. -/
theorem tokens_eq_iff {tokens : List Word} {cs : List Char} :
    Line.tokens cs = tokens ↔ ∃ text, Precedes text cs ∧ Separates tokens text := by
  rw [Line.tokens, pieces_eq_iff]
  constructor
  · intro h
    exact ⟨uncomment cs, uncomment_precedes cs, h⟩
  · rintro ⟨text, htext, h⟩
    rw [uncomment_eq.mpr htext]
    exact h

/-- A line spells the tokens that its decoded characters are split into. -/
theorem spells_iff {line : List UInt8} {tokens : List Word} :
    Spells line tokens ↔ ∃ cs, decode? line = some cs ∧ Line.tokens cs = tokens := by
  constructor
  · rintro ⟨cs, text, hline, htext, h⟩
    exact ⟨cs, decode?_eq_some.mpr hline, tokens_eq_iff.mpr ⟨text, htext, h⟩⟩
  · rintro ⟨cs, hline, h⟩
    obtain ⟨text, htext, h⟩ := tokens_eq_iff.mp h
    exact ⟨cs, text, decode?_eq_some.mp hline, htext, h⟩

theorem Spells.inj {line : List UInt8} {tokens tokens' : List Word} (h : Spells line tokens)
    (h' : Spells line tokens') : tokens = tokens' := by
  obtain ⟨cs, hcs, rfl⟩ := spells_iff.mp h
  obtain ⟨cs', hcs', rfl⟩ := spells_iff.mp h'
  rw [Option.some.inj (hcs.symm.trans hcs')]

end TurtleGrammar.Line
