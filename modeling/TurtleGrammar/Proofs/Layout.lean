import Mathlib.Data.List.Basic
import Mathlib.Data.List.Forall2
import TurtleGrammar.Proofs.LineOrder
import TurtleGrammar.Proofs.Origins
import TurtleGrammar.Proofs.Refusals

/-! # Layout — what a description may look like

    Of a line only the tokens are read (`readLine_congr`), so a line can be
    indented, spread out and commented on without any effect.  A carriage
    return before a line feed is one more blank at the end of its line, if the
    line is text at all, and a line that is no text does not become text by it.

    - `Line.Edit`: the edits of a line that leave its tokens alone.
    - `Relaid`: the same for a whole content, line endings included.  The
      result of reading does not change.
    - A line without tokens that is put in counts as a line: every later line
      has the next number (`Line.rejectedAt_insert`), and below `2 ^ 31` that
      is also the number an error gives (`Report.Renumbered`). -/

namespace TurtleGrammar

/-! ## Edits -/

namespace Line

/-- Blanks that do not end the line. -/
def Gap (s : List Char) : Prop := ∀ c ∈ s, isBlank c = true ∧ c ≠ '\n'

/-- An edit of a line by which no token comes, goes or changes. -/
inductive Edit : List Char → List Char → Prop where
  /-- Blanks are replaced by other blanks. -/
  | between {s s' : List Char} (before after : List Char) :
      Gap s → s ≠ [] → Gap s' → s' ≠ [] → Edit (before ++ s ++ after) (before ++ s' ++ after)
  | indent {s : List Char} (cs : List Char) : Gap s → Edit cs (s ++ cs)
  | trail {s : List Char} (cs : List Char) : Gap s → Edit cs (cs ++ s)
  /-- A comment can stand right after a token. -/
  | comment {text : List Char} (cs : List Char) : '\n' ∉ text → Edit cs (cs ++ '#' :: text)
  /-- What can be added can be removed. -/
  | symm {cs cs' : List Char} : Edit cs cs' → Edit cs' cs

/-- The bytes are the lines with line feeds between them, and perhaps one at the end. -/
def Written (lines : List (List UInt8)) (bytes : List UInt8) : Prop :=
  bytes = join lines ∨ bytes = join lines ++ [feed]

/-- The byte that some put before a line feed. -/
def carriageReturn : UInt8 := 13

/-- The bytes with a carriage return before every line feed. -/
def withReturns (bytes : List UInt8) : List UInt8 :=
  bytes.flatMap fun b => if b = feed then [carriageReturn, feed] else [b]

end Line

/-- The two contents differ in their layout only. -/
inductive Relaid : List UInt8 → List UInt8 → Prop where
  /-- All lines are ended in the other way. -/
  | returns (bytes : List UInt8) : Relaid bytes (Line.withReturns bytes)
  /-- One line is edited. -/
  | line {bytes bytes' line : List UInt8} {before after : List (List UInt8)}
      {cs cs' : List Char} :
      Line.split bytes = before ++ line :: after → Line.Encodes line cs → Line.Edit cs cs' →
      Line.Written (before ++ cs'.flatMap String.utf8EncodeChar :: after) bytes' →
      Relaid bytes bytes'
  /-- One more line feed stands at the very end. -/
  | feed (bytes : List UInt8) : Relaid bytes (bytes ++ [Line.feed])
  | symm {bytes bytes' : List UInt8} : Relaid bytes bytes' → Relaid bytes' bytes
  | trans {bytes bytes' bytes'' : List UInt8} :
      Relaid bytes bytes' → Relaid bytes' bytes'' → Relaid bytes bytes''

/-- The number of a line once another has been put in behind the first `k` lines. -/
def Line.renumber (k number : Nat) : Nat := if k < number then number + 1 else number

/-- The chains of reports about the named description are the same, but for the line number
    in the outermost one, if it has one. -/
inductive Report.Renumbered (name : String) (k : Nat) : List Report → List Report → Prop where
  | atLine (number : Nat) (what : String) (causes : List Report) :
      Renumbered name k (.message s!"{name}:{number}: {what}" :: causes)
        (.message s!"{name}:{Line.renumber k number}: {what}" :: causes)
  /-- No line is to blame. -/
  | whole (fields : String) :
      Renumbered name k [.message s!"{name}: the following field(s) were unset: {fields}"]
        [.message s!"{name}: the following field(s) were unset: {fields}"]

/-! ## Numbers of lines -/

/-- A number is written without a sign. -/
theorem exists_digit_toString (n : Nat) :
    ∃ c cs, (toString n).toList = c :: cs ∧ c.isDigit = true := by
  rw [Nat.toString_eq_repr, Nat.toList_repr]
  obtain ⟨c, cs, hdigits⟩ := List.exists_cons_of_ne_nil (Nat.toDigits_ne_nil (n := n) (b := 10))
  refine ⟨c, cs, hdigits, Nat.isDigit_of_mem_toDigits (b := 10) (n := n) (by decide) le_rfl ?_⟩
  rw [hdigits]
  exact List.mem_cons_self

/-- No line gets a negative number by the lines before it. -/
theorem Report.not_renumbered_of_neg {name : String} {k : Nat} {reports : List Report}
    {number : Int32} {fault : LineFault} (hneg : number.toInt < 0) :
    ¬ Renumbered name k reports (ReadError.atLine name number fault).reports := by
  obtain ⟨m, hm⟩ := Int.eq_negSucc_of_lt_zero hneg
  have hminus : (toString number).toList = '-' :: (toString (m + 1)).toList := by
    show (toString number.toInt).toList = _
    rw [hm]
    exact String.toList_append
  obtain ⟨what, causes, hreports⟩ : ∃ what causes, (ReadError.atLine name number fault).reports
      = .message s!"{name}:{number}: {what}" :: causes := ⟨_, _, rfl⟩
  rw [hreports]
  intro h
  generalize hmessage : s!"{name}:{number}: {what}" = text at h
  -- the two messages differ right behind the name and the colon
  replace hmessage := congrArg String.toList hmessage
  cases h with
  | atLine n what' causes' =>
      simp only [String.toList_append, List.append_assoc, hminus] at hmessage
      obtain ⟨c, cs, hdigits, hc⟩ := exists_digit_toString (Line.renumber k n)
      rw [hdigits] at hmessage
      have hrest := List.append_cancel_left (List.append_cancel_left hmessage)
      obtain rfl := (List.cons.inj hrest).1
      exact absurd hc (by decide)
  | whole fields =>
      simp only [String.toList_append, List.append_assoc, hminus] at hmessage
      have hrest : ':' :: '-' :: _ = ':' :: ' ' :: _ := List.append_cancel_left hmessage
      exact absurd (List.cons.inj (List.cons.inj hrest).2).1 (by decide)

/-! ## Bytes of characters -/

namespace Line

/-- A byte of the ASCII range is a character of its own and no part of another. -/
theorem toNat_of_mem_encode {c : Char} {b : UInt8} (h : b ∈ String.utf8EncodeChar c)
    (hb : b.toNat < 128) : c.toNat = b.toNat := by
  have hval : c.val.toNat = c.toNat := rfl
  rw [String.utf8EncodeChar.eq_1] at h
  simp only [hval] at h
  -- in a longer encoding the high bit of every byte is set
  split at h
  · obtain rfl := List.mem_singleton.mp h
    rw [UInt8.toNat_ofNat']
    omega
  · exfalso
    split at h
    · simp only [List.mem_cons, List.not_mem_nil, or_false] at h
      rcases h with rfl | rfl <;> rw [UInt8.toNat_ofNat'] at hb <;> omega
    · split at h
      · simp only [List.mem_cons, List.not_mem_nil, or_false] at h
        rcases h with rfl | rfl | rfl <;> rw [UInt8.toNat_ofNat'] at hb <;> omega
      · simp only [List.mem_cons, List.not_mem_nil, or_false] at h
        rcases h with rfl | rfl | rfl | rfl <;> rw [UInt8.toNat_ofNat'] at hb <;> omega

/-- A line feed among the bytes is one among the characters. -/
theorem Encodes.feed_mem_iff {line : List UInt8} {cs : List Char} (h : Encodes line cs) :
    feed ∈ line ↔ '\n' ∈ cs := by
  rw [h, List.mem_flatMap]
  constructor
  · rintro ⟨c, hc, hmem⟩
    have hn : c.toNat = '\n'.toNat := toNat_of_mem_encode hmem (by decide)
    rwa [← Char.toNat_inj.mp hn]
  · intro hn
    exact ⟨'\n', hn, by decide⟩

/-- A carriage return at the end of a line is a character of the line, if the line is text, and
    otherwise it does not make it text. -/
theorem encodes_append_return {line : List UInt8} {cs : List Char} :
    Encodes (line ++ [carriageReturn]) cs ↔ ∃ ds, cs = ds ++ ['\r'] ∧ Encodes line ds := by
  have hreturn : String.utf8EncodeChar '\r' = [carriageReturn] := by decide
  constructor
  · intro h
    rcases List.eq_nil_or_concat' cs with rfl | ⟨ds, c, rfl⟩
    · exact absurd h (List.append_ne_nil_of_right_ne_nil line (List.cons_ne_nil _ _))
    · rw [Encodes, List.flatMap_append, List.flatMap_singleton] at h
      -- the last character encodes to the last byte, and a carriage return is no part of any other
      have hlast : carriageReturn ∈ String.utf8EncodeChar c := by
        refine List.mem_of_getLast? ?_
        calc (String.utf8EncodeChar c).getLast?
            = (ds.flatMap String.utf8EncodeChar ++ String.utf8EncodeChar c).getLast? :=
              (List.getLast?_append_of_ne_nil _ String.utf8EncodeChar_ne_nil).symm
          _ = (line ++ [carriageReturn]).getLast? := congrArg List.getLast? h.symm
          _ = some carriageReturn := List.getLast?_concat
      have hc : c.toNat = '\r'.toNat := toNat_of_mem_encode hlast (by decide)
      obtain rfl := Char.toNat_inj.mp hc
      rw [hreturn] at h
      exact ⟨ds, rfl, List.append_cancel_right h⟩
  · rintro ⟨ds, rfl, h⟩
    rw [Encodes, List.flatMap_append, List.flatMap_singleton, hreturn, h]

end Line

/-! ## Tokens of an edited line -/

namespace Line

theorem Gap.not_comment {s : List Char} (h : Gap s) : '#' ∉ s := by
  intro hmem
  exact absurd (h '#' hmem).1 (by decide)

/-- Two texts with blanks between them have the tokens of both. -/
theorem Separates.append {ts us : List Word} {as bs s : List Char} (hgap : Gap s) (hne : s ≠ [])
    (ha : Separates ts as) (hb : Separates us bs) : Separates (ts ++ us) (as ++ (s ++ bs)) := by
  have hblanks : Separates us (s ++ bs) := by
    clear hne
    induction s with
    | nil => exact hb
    | cons c s ih =>
        obtain ⟨hc, hgap⟩ := List.forall_mem_cons.mp hgap
        exact .blank hc.1 (ih hgap)
  induction ha with
  | nil => exact hblanks
  | blank hc _ ih => exact .blank hc ih
  | @token tokens token cs htoken hword hstop _ ih =>
      rw [List.cons_append, List.append_assoc]
      refine .token htoken hword ?_ ih
      -- the token ends where it did, if need be at the first of the blanks
      intro c hc
      cases cs with
      | nil =>
          rw [List.nil_append, List.head?_append_of_ne_nil _ hne] at hc
          exact (hgap c (List.mem_of_mem_head? hc)).1
      | cons d cs => exact hstop c hc

/-- Behind a comment sign nothing counts; otherwise what stands before blanks and what stands
    after them are read apart from each other. -/
theorem tokens_gap {cs s ds : List Char} (hgap : Gap s) (hne : s ≠ []) :
    tokens (cs ++ s ++ ds) = if '#' ∈ cs then tokens cs else tokens cs ++ tokens ds := by
  obtain ⟨text, ⟨hnot, hcs⟩, htokens⟩ := tokens_eq_iff.mp (rfl : tokens cs = tokens cs)
  rw [List.append_assoc]
  -- either no comment has begun before the blanks, or they are part of it
  rcases hcs with rfl | ⟨comment, hcs⟩
  · obtain ⟨text', ⟨hnot', hds⟩, htokens'⟩ := tokens_eq_iff.mp (rfl : tokens ds = tokens ds)
    rw [if_neg hnot]
    refine tokens_eq_iff.mpr ⟨cs ++ (s ++ text'), ⟨?_, ?_⟩, htokens.append hgap hne htokens'⟩
    · simp only [List.mem_append, not_or]
      exact ⟨hnot, hgap.not_comment, hnot'⟩
    · rcases hds with rfl | ⟨comment, rfl⟩
      · exact Or.inl rfl
      · exact Or.inr ⟨comment, by simp only [List.append_assoc]⟩
  · have hmem : '#' ∈ cs := by
      rw [hcs]
      exact List.mem_append_right text List.mem_cons_self
    rw [if_pos hmem]
    refine tokens_eq_iff.mpr ⟨text, ⟨hnot, Or.inr ⟨comment ++ (s ++ ds), ?_⟩⟩, htokens⟩
    rw [hcs, List.append_assoc, List.cons_append]

/-- Blanks at the end of a line add no token. -/
theorem tokens_append_blanks {cs s : List Char} (hgap : Gap s) : tokens (cs ++ s) = tokens cs := by
  by_cases hne : s = []
  · rw [hne, List.append_nil]
  · have h : tokens (cs ++ s ++ []) = _ := tokens_gap hgap hne
    have hnil : tokens [] = [] := rfl
    rwa [List.append_nil, hnil, List.append_nil, ite_self] at h

/-- A comment at the end of a line adds no token, and ends none. -/
theorem tokens_append_comment (cs text : List Char) : tokens (cs ++ '#' :: text) = tokens cs := by
  obtain ⟨before, ⟨hnot, hcs⟩, htokens⟩ := tokens_eq_iff.mp (rfl : tokens cs = tokens cs)
  refine tokens_eq_iff.mpr ⟨before, ⟨hnot, Or.inr ?_⟩, htokens⟩
  rcases hcs with rfl | ⟨comment, rfl⟩
  · exact ⟨text, rfl⟩
  · exact ⟨comment ++ '#' :: text, by rw [List.append_assoc, List.cons_append]⟩

/-- **Edits**: whatever the edit, the tokens are the same. -/
theorem Edit.tokens_eq {cs cs' : List Char} (h : Edit cs cs') : tokens cs = tokens cs' := by
  induction h with
  | between before after hgap hne hgap' hne' => rw [tokens_gap hgap hne, tokens_gap hgap' hne']
  | @indent s cs hgap =>
      by_cases hne : s = []
      · rw [hne, List.nil_append]
      · have h : tokens ([] ++ s ++ cs) = _ := tokens_gap hgap hne
        exact h.symm
  | trail cs hgap => exact (tokens_append_blanks hgap).symm
  | comment cs _ => exact (tokens_append_comment cs _).symm
  | symm _ ih => exact ih.symm

/-- An edit leaves a line one line. -/
theorem Edit.newline_mem_iff {cs cs' : List Char} (h : Edit cs cs') : '\n' ∈ cs ↔ '\n' ∈ cs' := by
  have hgap : ∀ {s : List Char}, Gap s → '\n' ∉ s := by
    intro s hs hmem
    exact (hs '\n' hmem).2 rfl
  induction h with
  | between before after hs _ hs' _ =>
      simp only [List.mem_append, hgap hs, hgap hs']
  | indent cs hs => simp only [List.mem_append, hgap hs, false_or]
  | trail cs hs => simp only [List.mem_append, hgap hs, or_false]
  | comment cs htext =>
      simp only [List.mem_append, List.mem_cons, htext, or_false]
      exact (or_iff_left (by decide)).symm
  | symm _ ih => exact ih.symm

end Line

/-! ## Reading an edited line -/

/-- A line is read by its tokens. -/
theorem readLine_congr {line line' : List UInt8} {cs cs' : List Char} (h : Line.Encodes line cs)
    (h' : Line.Encodes line' cs') (htokens : Line.tokens cs = Line.tokens cs') :
    readLine line = readLine line' := by
  simp only [readLine, Line.decode?_eq_some.mpr h, Line.decode?_eq_some.mpr h', htokens]

/-- A carriage return at its end makes no difference to what a line says. -/
theorem readLine_append_return (line : List UInt8) :
    readLine (line ++ [Line.carriageReturn]) = readLine line := by
  by_cases htext : ∃ cs, Line.Encodes line cs
  · obtain ⟨cs, hcs⟩ := htext
    have hgap : Line.Gap ['\r'] := List.forall_mem_singleton.mpr (by decide)
    exact readLine_congr (Line.encodes_append_return.mpr ⟨cs, rfl, hcs⟩) hcs
      (Line.tokens_append_blanks hgap)
  · have hreturn : ¬ ∃ cs, Line.Encodes (line ++ [Line.carriageReturn]) cs := by
      rintro ⟨cs, hcs⟩
      obtain ⟨ds, -, hds⟩ := Line.encodes_append_return.mp hcs
      exact htext ⟨ds, hds⟩
    rw [readLine_of_unreadable htext, readLine_of_unreadable hreturn]

/-- Lines that say the same are taken up alike. -/
theorem Draft.addLines_congr {lines lines' : List (List UInt8)}
    (h : List.Forall₂ (fun line line' => readLine line = readLine line') lines lines') (d : Draft)
    (number : Int32) : d.addLines number lines = d.addLines number lines' := by
  induction h generalizing d number with
  | nil => rfl
  | @cons line line' lines lines' hline _ ih =>
      have hadd : d.addLine line = d.addLine line' := by rw [addLine, addLine, hline]
      rw [addLines, addLines, hadd]
      cases d.addLine line' with
      | error fault => rfl
      | ok d' => exact ih d' (number + 1)

/-! ## Putting a line in -/

namespace Line

variable {before after : List (List UInt8)} {blank : List UInt8}

/-- A line without tokens states no setting. -/
theorem settings_insert (hblank : Spells blank []) :
    settings (before ++ blank :: after) = settings (before ++ after) := by
  have hnone : setting? blank = none := by
    rw [setting?, readLine_eq_none.mpr hblank]
    rfl
  rw [settings, settings, List.filterMap_append, List.filterMap_append,
    List.filterMap_cons_none hnone]

/-- Why a line is rejected does not depend on lines without tokens before it. -/
theorem rejected_insert (hblank : Spells blank []) {line : List UInt8} {fault : LineFault} :
    Rejected (before ++ blank :: after) line fault ↔ Rejected (before ++ after) line fault := by
  rw [← Draft.addLine_eq_error, ← Draft.addLine_eq_error, settings_insert hblank]

/-- The rejected lines are those from before, with their new numbers. -/
theorem rejectedAt_insert (hblank : Spells blank []) {m : Nat} {fault : LineFault} :
    RejectedAt (before ++ blank :: after) m fault
      ↔ ∃ n, m = renumber before.length n ∧ RejectedAt (before ++ after) n fault := by
  have hbehind : ∀ j, RejectedAt (before ++ blank :: after) (before.length + j + 1 + 1) fault
      ↔ RejectedAt (before ++ after) (before.length + j + 1) fault := by
    intro j
    have hline : (before ++ blank :: after)[before.length + j + 1]?
        = (before ++ after)[before.length + j]? := by
      rw [Nat.add_assoc, List.getElem?_append_right (Nat.le_add_right _ _),
        List.getElem?_append_right (Nat.le_add_right _ _), Nat.add_sub_cancel_left,
        Nat.add_sub_cancel_left, List.getElem?_cons_succ]
    rw [rejectedAt_succ, rejectedAt_succ, hline, Nat.add_assoc, List.take_length_add_append,
      List.take_length_add_append, List.take_succ_cons]
    exact exists_congr fun line => and_congr_right fun _ => rejected_insert hblank
  constructor
  · intro h
    -- before the new line, at it, or behind it, where every number is one more than before
    rcases Nat.lt_trichotomy m (before.length + 1) with hm | rfl | hm
    · have hle : m ≤ before.length := Nat.le_of_lt_succ hm
      refine ⟨m, by rw [renumber, if_neg (by omega)], ?_⟩
      rw [rejectedAt_append hle] at h ⊢
      exact h
    · exact absurd (rejectedAt_length.mp h) (not_rejected_of_spells_nil hblank)
    · obtain ⟨j, rfl⟩ : ∃ j, m = before.length + j + 1 + 1 := ⟨m - before.length - 2, by omega⟩
      exact ⟨before.length + j + 1, by rw [renumber, if_pos (by omega)], (hbehind j).mp h⟩
  · rintro ⟨n, rfl, h⟩
    rw [renumber]
    by_cases hn : before.length < n
    · obtain ⟨j, rfl⟩ : ∃ j, n = before.length + j + 1 := ⟨n - before.length - 1, by omega⟩
      rw [if_pos hn]
      exact (hbehind j).mpr h
    · rw [if_neg hn, rejectedAt_append (by omega)]
      rwa [rejectedAt_append (by omega)] at h

/-- The first rejected line stays the first, under its new number. -/
theorem FirstRejected.insert (hblank : Spells blank []) {n : Nat} {fault : LineFault}
    (h : FirstRejected (before ++ after) n fault) :
    FirstRejected (before ++ blank :: after) (renumber before.length n) fault where
  rejected := (rejectedAt_insert hblank).mpr ⟨n, rfl, h.rejected⟩
  first := by
    intro m hm fault' hrejected
    obtain ⟨n', rfl, hrejected'⟩ := (rejectedAt_insert hblank).mp hrejected
    refine h.first n' ?_ fault' hrejected'
    -- numbers keep their order
    rw [renumber, renumber] at hm
    split at hm <;> split at hm <;> omega

end Line

/-! ## Contents -/

namespace Line

/-- There is no line feed in what is cut at line feeds. -/
theorem feed_not_mem_of_mem_splitOn {bytes line : List UInt8} (h : line ∈ bytes.splitOn feed) :
    feed ∉ line := by
  induction bytes generalizing line with
  | nil =>
      obtain rfl := List.mem_singleton.mp h
      exact List.not_mem_nil
  | cons b bytes ih =>
      rw [List.splitOn_cons_eq_if_modifyHead] at h
      -- a feed begins a new line, and any other byte is put in front of the first line
      by_cases hb : b = feed
      · rw [if_pos (beq_iff_eq.mpr hb)] at h
        rcases List.mem_cons.mp h with rfl | hmem
        · exact List.not_mem_nil
        · exact ih hmem
      · rw [if_neg (by simpa using hb)] at h
        obtain ⟨first, rest, hlines⟩ := List.exists_cons_of_ne_nil (List.splitOn_ne_nil feed bytes)
        rw [hlines, List.modifyHead_cons] at h
        rw [hlines] at ih
        rcases List.mem_cons.mp h with rfl | hmem
        · rw [List.mem_cons, not_or]
          exact ⟨Ne.symm hb, ih List.mem_cons_self⟩
        · exact ih (List.mem_cons_of_mem first hmem)

theorem feed_not_mem_split (bytes : List UInt8) : ∀ line ∈ split bytes, feed ∉ line :=
  (forall_mem_splitOn List.not_mem_nil bytes).mp fun _ => feed_not_mem_of_mem_splitOn

/-- Empty lines before a line are written as line feeds. -/
theorem join_replicate_feed (n : Nat) {line : List UInt8} (hone : feed ∉ line) :
    join (List.replicate n [] ++ [line]) = List.replicate n feed ++ line := by
  rw [← splitOn_replicate_feed n hone]
  exact List.intercalate_splitOn feed

/-- Line feeds before a line that is not empty make as many empty lines. -/
theorem split_replicate_feed (n : Nat) {line : List UInt8} (hone : feed ∉ line)
    (hne : line ≠ []) : split (List.replicate n feed ++ line) = List.replicate n [] ++ [line] := by
  have hlast : (List.replicate n [] ++ [line]).getLast? ≠ some [] := by
    rw [List.getLast?_concat]
    exact fun h => hne (Option.some.inj h)
  rw [split, splitOn_replicate_feed n hone]
  exact if_neg hlast

/-- A carriage return before every line feed is one at the end of every line but the last. -/
theorem splitOn_withReturns (bytes : List UInt8) :
    List.Forall₂ (fun line' line => line' = line ∨ line' = line ++ [carriageReturn])
      ((withReturns bytes).splitOn feed) (bytes.splitOn feed) := by
  induction bytes with
  | nil => exact .cons (Or.inl rfl) .nil
  | cons b bytes ih =>
      rw [List.splitOn_cons_eq_if_modifyHead]
      by_cases hb : b = feed
      · have hreturns : withReturns (b :: bytes)
            = [carriageReturn] ++ feed :: withReturns bytes := by
          rw [withReturns, List.flatMap_cons, if_pos hb]
          rfl
        rw [hreturns, if_pos (beq_iff_eq.mpr hb),
          List.splitOn_append_cons_self_of_not_mem (by decide)]
        exact .cons (Or.inr rfl) ih
      · have hreturns : withReturns (b :: bytes) = b :: withReturns bytes := by
          rw [withReturns, List.flatMap_cons, if_neg hb]
          rfl
        have hbeq : ¬ (b == feed) = true := by simpa using hb
        rw [hreturns, List.splitOn_cons_eq_if_modifyHead, if_neg hbeq, if_neg hbeq]
        -- the byte goes to the first line of both
        generalize (withReturns bytes).splitOn feed = lines' at ih
        generalize bytes.splitOn feed = lines at ih
        cases ih with
        | nil => exact .nil
        | cons hline hrest =>
            refine .cons ?_ hrest
            rcases hline with rfl | rfl
            · exact Or.inl rfl
            · exact Or.inr rfl

end Line

namespace Grammar

/-- Lines that say the same are read as the same grammar or refused for the same reason. -/
theorem ofLines_congr {lines lines' : List (List UInt8)}
    (h : List.Forall₂ (fun line line' => readLine line = readLine line') lines lines')
    (name : String) : ofLines name lines = ofLines name lines' := by
  rw [ofLines, ofLines, Draft.addLines_congr h]

theorem ofLines_append_nil (name : String) (lines : List (List UInt8)) :
    ofLines name (lines ++ [[]]) = ofLines name lines := by
  rw [ofLines, ofLines, Draft.addLines_append_nil]

theorem ofBytes_append_feed (name : String) (bytes : List UInt8) :
    ofBytes name (bytes ++ [Line.feed]) = ofBytes name bytes := by
  rw [ofBytes_eq_ofLines, ofBytes_eq_ofLines, List.splitOn_append_cons_self, List.splitOn_nil,
    ofLines_append_nil]

/-- Lines are read back from the bytes in which they are written. -/
theorem ofBytes_of_written {lines : List (List UInt8)} {bytes : List UInt8}
    (hfeed : ∀ line ∈ lines, Line.feed ∉ line) (h : Line.Written lines bytes) (name : String) :
    ofBytes name bytes = ofLines name lines := by
  have hjoin : ofBytes name (Line.join lines) = ofLines name lines := by
    cases lines with
    | nil => rfl
    | cons line lines => rw [ofBytes_eq_ofLines, Line.splitOn_join hfeed (List.cons_ne_nil _ _)]
  rcases h with rfl | rfl
  · exact hjoin
  · rw [ofBytes_append_feed, hjoin]

theorem ofBytes_withReturns (name : String) (bytes : List UInt8) :
    ofBytes name (Line.withReturns bytes) = ofBytes name bytes := by
  rw [ofBytes_eq_ofLines, ofBytes_eq_ofLines]
  refine ofLines_congr ((Line.splitOn_withReturns bytes).imp ?_) name
  rintro line' line (rfl | rfl)
  · rfl
  · exact readLine_append_return line

/-- An edit of one line makes no difference. -/
theorem ofBytes_edit {bytes bytes' line : List UInt8} {before after : List (List UInt8)}
    {cs cs' : List Char} (hsplit : Line.split bytes = before ++ line :: after)
    (hline : Line.Encodes line cs) (hedit : Line.Edit cs cs')
    (hwritten : Line.Written (before ++ cs'.flatMap String.utf8EncodeChar :: after) bytes')
    (name : String) : ofBytes name bytes' = ofBytes name bytes := by
  have hfeed := Line.feed_not_mem_split bytes
  rw [hsplit, List.forall_mem_append, List.forall_mem_cons] at hfeed
  have hline' : Line.Encodes (cs'.flatMap String.utf8EncodeChar) cs' := rfl
  have hfeed' : ∀ l ∈ before ++ cs'.flatMap String.utf8EncodeChar :: after, Line.feed ∉ l := by
    rw [List.forall_mem_append, List.forall_mem_cons, hline'.feed_mem_iff,
      ← hedit.newline_mem_iff, ← hline.feed_mem_iff]
    exact hfeed
  rw [ofBytes_of_written hfeed' hwritten, ofBytes, hsplit]
  refine ofLines_congr (List.rel_append ?_ (.cons ?_ ?_)) name
  · exact List.forall₂_same.mpr fun _ _ => rfl
  · exact readLine_congr hline' hline hedit.tokens_eq.symm
  · exact List.forall₂_same.mpr fun _ _ => rfl

/-- A line without tokens that is put in changes nothing but the numbers of the lines behind
    it. -/
theorem ofLines_insert {before after : List (List UInt8)} {blank : List UInt8}
    (hblank : Line.Spells blank []) (hcountable : Line.Countable (before ++ blank :: after))
    (name : String) :
    (∀ g, ofLines name (before ++ after) = .ok g →
        ofLines name (before ++ blank :: after) = .ok g)
      ∧ ∀ e, ofLines name (before ++ after) = .error e →
          ∃ e', ofLines name (before ++ blank :: after) = .error e'
            ∧ Report.Renumbered name before.length e.reports e'.reports := by
  -- some line is rejected, and is so under its new number, or reading ends with completion
  by_cases hsome : ∃ n fault, Line.RejectedAt (before ++ after) n fault
  · obtain ⟨n, fault, hfirst⟩ := Line.exists_firstRejected hsome
    have hnew := hcountable _ _ (hfirst.insert hblank)
    have hold : n < 2 ^ 31 := by
      rw [Line.renumber] at hnew
      split at hnew <;> omega
    rw [ofLines_of_rejected name hfirst, ofLines_of_rejected name (hfirst.insert hblank)]
    refine ⟨fun g => nofun, ?_⟩
    rintro e ⟨⟩
    refine ⟨_, rfl, ?_⟩
    rw [ReadError.reports, ReadError.reports, Line.toString_number hold, Line.toString_number hnew]
    exact .atLine n _ _
  · have hnone : ∀ n fault, ¬ Line.RejectedAt (before ++ after) n fault :=
      fun n fault hrejected => hsome ⟨n, fault, hrejected⟩
    have hnone' : ∀ n fault, ¬ Line.RejectedAt (before ++ blank :: after) n fault := by
      intro n fault hrejected
      obtain ⟨m, -, hrejected'⟩ := (Line.rejectedAt_insert hblank).mp hrejected
      exact hnone m fault hrejected'
    rw [ofLines_of_accepted name hnone, ofLines_of_accepted name hnone',
      Line.settings_insert hblank]
    refine ⟨fun g hg => hg, ?_⟩
    intro e he
    refine ⟨e, he, ?_⟩
    obtain ⟨slots, -, rfl⟩ := mapError_eq_error.mp he
    exact .whole _

/-- Lines that are put in between are read like any others. -/
theorem ofBytes_of_insert {bytes bytes' blank : List UInt8} {before after : List (List UInt8)}
    (hsplit : Line.split bytes = before ++ after) (hone : Line.feed ∉ blank)
    (hwritten : Line.Written (before ++ blank :: after) bytes') (name : String) :
    ofBytes name bytes' = ofLines name (before ++ blank :: after) := by
  have hfeed := Line.feed_not_mem_split bytes
  rw [hsplit, List.forall_mem_append] at hfeed
  refine ofBytes_of_written ?_ hwritten name
  rw [List.forall_mem_append, List.forall_mem_cons]
  exact ⟨hfeed.1, hone, hfeed.2⟩

/-- **Layout**: contents that differ in their layout only are read as the same grammar or refused
    for the same reason.  A line without tokens changes nothing but the numbers of the lines
    behind it, as long as the first rejected line has a number below `2 ^ 31`. -/
theorem layout_irrelevant (name : String) :
    (∀ bytes bytes', Relaid bytes bytes' → ofBytes name bytes' = ofBytes name bytes)
      ∧ ∀ bytes bytes' blank before after,
          Line.split bytes = before ++ after → Line.Spells blank [] → Line.feed ∉ blank →
          Line.Written (before ++ blank :: after) bytes' →
          Line.Countable (before ++ blank :: after) →
            (∀ g, ofBytes name bytes = .ok g → ofBytes name bytes' = .ok g)
              ∧ ∀ e, ofBytes name bytes = .error e →
                  ∃ e', ofBytes name bytes' = .error e'
                    ∧ Report.Renumbered name before.length e.reports e'.reports := by
  constructor
  · intro bytes bytes' h
    -- the layouts form an equivalence, and each generating edit keeps what is read
    induction h with
    | returns bytes => exact ofBytes_withReturns name bytes
    | line hsplit hline hedit hwritten => exact ofBytes_edit hsplit hline hedit hwritten name
    | feed bytes => exact ofBytes_append_feed name bytes
    | symm _ ih => exact ih.symm
    | trans _ _ ih ih' => exact ih'.trans ih
  · intro bytes bytes' blank before after hsplit hblank hone hwritten hcountable
    rw [ofBytes_of_insert hsplit hone hwritten, ofBytes, hsplit]
    exact ofLines_insert hblank hcountable name

/-- A misspelt keyword on the second line: neither carriage returns nor a comment right after the
    last token move the error, and a comment line at the top moves it to line 3. -/
theorem layout_irrelevant_misspelt :
    let line (text : String) : List UInt8 := text.toUTF8.data.toList
    let fault : LineFault := .faulty "angel".toList .unknownKeyword
    Relaid (line "axiom F\nangel 60") (line "axiom F\r\nangel 60#°")
      ∧ ofText "koch" "axiom F\r\nangel 60#°" = ofText "koch" "axiom F\nangel 60"
      ∧ ofText "koch" "axiom F\nangel 60" = .error (.atLine "koch" 2 fault)
      ∧ Line.split (line "axiom F\nangel 60") = [] ++ [line "axiom F", line "angel 60"]
      ∧ Line.Spells (line "# ∿") []
      ∧ Line.Countable ([] ++ line "# ∿" :: [line "axiom F", line "angel 60"])
      ∧ ofText "koch" "# ∿\naxiom F\nangel 60\n" = .error (.atLine "koch" 3 fault)
      ∧ Report.Renumbered "koch" 0 (ReadError.atLine "koch" 2 fault).reports
          (ReadError.atLine "koch" 3 fault).reports := by
  intro line fault
  have hreturns : Line.split (Line.withReturns (line "axiom F\nangel 60"))
      = [line "axiom F\r"] ++ line "angel 60" :: [] := by
    decide
  have hline : Line.Encodes (line "angel 60") "angel 60".toList := rfl
  have hcomment : Line.Edit "angel 60".toList ("angel 60".toList ++ '#' :: ['°']) :=
    .comment _ (by decide)
  have hrelaid : Relaid (line "axiom F\nangel 60") (line "axiom F\r\nangel 60#°") :=
    .trans (.returns _) (.line hreturns hline hcomment (Or.inl (by decide)))
  -- the texts are read by evaluation, and only the edits need the theorem
  have herror : ofText "koch" "axiom F\nangel 60" = .error (.atLine "koch" 2 fault) := rfl
  have herror' : ofText "koch" "# ∿\naxiom F\nangel 60\n" = .error (.atLine "koch" 3 fault) := rfl
  have hsplit : Line.split (line "axiom F\nangel 60")
      = [] ++ [line "axiom F", line "angel 60"] := by
    decide
  have hblank : Line.Spells (line "# ∿") [] :=
    ⟨"# ∿".toList, [], rfl, ⟨List.not_mem_nil, Or.inr ⟨" ∿".toList, rfl⟩⟩, .nil⟩
  have hcountable : Line.Countable ([] ++ line "# ∿" :: [line "axiom F", line "angel 60"]) :=
    Line.countable_of_length (by decide)
  obtain ⟨hsame, hinsert⟩ := layout_irrelevant "koch"
  obtain ⟨-, hmoved⟩ := hinsert _ (line "# ∿\naxiom F\nangel 60\n") _ _ _ hsplit hblank
    (by decide) (Or.inr (by decide)) hcountable
  obtain ⟨e, he, hrenumbered⟩ := hmoved _ herror
  obtain rfl := Except.error.inj (he.symm.trans herror')
  exact ⟨hrelaid, hsame _ _ hrelaid, herror, hsplit, hblank, hcountable, herror', hrenumbered⟩

/-- A blank line put before line `2 ^ 31 - 1` moves the error there to line `-2147483648`. -/
theorem layout_irrelevant_wraps :
    let bytes (n : Nat) : List UInt8 := List.replicate n Line.feed ++ "x".toUTF8.data.toList
    let fault : LineFault := .faulty ['x'] .unknownKeyword
    Line.Spells [] [] ∧ Line.Written ([] ++ [] :: Line.split (bytes 2147483646)) (bytes 2147483647)
      ∧ ofBytes "a" (bytes 2147483646) = .error (.atLine "a" 2147483647 fault)
      ∧ ofBytes "a" (bytes 2147483647) = .error (.atLine "a" (-2147483648) fault)
      ∧ ¬ Report.Renumbered "a" 0 (ReadError.atLine "a" 2147483647 fault).reports
          (ReadError.atLine "a" (-2147483648) fault).reports := by
  have hx : readLine "x".toUTF8.data.toList = .error (.faulty ['x'] .unknownKeyword) := rfl
  -- the number of line feeds stays a variable, for no step can write so many out
  obtain ⟨n, hn⟩ : ∃ n, n = 2147483646 := ⟨_, rfl⟩
  rw [← hn, show 2147483647 = n + 1 by omega]
  intro bytes fault
  have hwritten : Line.Written ([] ++ [] :: Line.split (bytes n)) (bytes (n + 1)) := by
    rw [Line.split_replicate_feed n (by decide) (by decide)]
    exact Or.inl (Line.join_replicate_feed (n + 1) (by decide)).symm
  refine ⟨readLine_eq_none.mp readLine_nil, hwritten, ?_, ?_, ?_⟩
  · rw [ofBytes_replicate_feed "a" n (by decide) hx, hn]
    rfl
  · rw [ofBytes_replicate_feed "a" (n + 1) (by decide) hx, hn]
    rfl
  · exact Report.not_renumbered_of_neg (by decide)

end Grammar

end TurtleGrammar
