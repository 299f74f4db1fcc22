import WorkLedger.Json.Decoder
import WorkLedger.Proofs.Json.Numerals
import WorkLedger.Proofs.Json.Strings

/-!
# Documents in JSON

A document without flaws, whose numerals are proper, is read back from its text, be it
written without blanks or in lines. The blanks of a new line stand where the reader passes
over blanks, and a numeral ends in front of them.
-/

namespace WorkLedger.Json

mutual

/-- Whether a document is free of flaws and its numerals are proper. -/
def IsProper : Json → Prop
  | number n => n.IsProper
  | array items => AreProper items
  | object members => AreMembersProper members
  | broken _ => False
  | _ => True

/-- Whether all of some documents are proper. -/
def AreProper : List Json → Prop
  | [] => True
  | j :: rest => j.IsProper ∧ AreProper rest

/-- Whether the values of all of some members are proper. -/
def AreMembersProper : List (String × Json) → Prop
  | [] => True
  | (_, j) :: rest => j.IsProper ∧ AreMembersProper rest

end

theorem areProper_iff {items : List Json} : AreProper items ↔ ∀ j ∈ items, j.IsProper := by
  induction items with
  | nil => simp [AreProper]
  | cons j rest ih => simp [AreProper, ih]

theorem areMembersProper_iff {members : List (String × Json)} :
    AreMembersProper members ↔ ∀ m ∈ members, m.2.IsProper := by
  induction members with
  | nil => simp [AreMembersProper]
  | cons m rest ih => simp [AreMembersProper, ih]

theorem skipBlank_cons {c : Char} (h : isBlank c = false) (cs : List Char) :
    skipBlank (c :: cs) = c :: cs :=
  List.dropWhile_cons_of_neg (by rw [h]; exact Bool.false_ne_true)

theorem skipBlank_append {gap : List Char} (h : ∀ c ∈ gap, isBlank c = true) (cs : List Char) :
    skipBlank (gap ++ cs) = skipBlank cs := by
  rw [skipBlank, List.dropWhile_append_of_pos h]
  rfl

namespace Indent

theorem isBlank_of_mem_newline {i : Indent} : ∀ c ∈ i.newline, isBlank c = true := by
  cases i with
  | none => exact fun _ hc => absurd hc List.not_mem_nil
  | some depth =>
      intro c hc
      rcases List.mem_cons.mp hc with rfl | hc
      · rfl
      · rw [List.eq_of_mem_replicate hc]
        rfl

/-- What stands between the colon behind a name and the value. -/
def gap : Indent → List Char
  | none => []
  | some _ => [' ']

theorem colon_eq (i : Indent) : i.colon = ':' :: i.gap := by
  cases i <;> rfl

theorem isBlank_of_mem_gap {i : Indent} : ∀ c ∈ i.gap, isBlank c = true := by
  cases i with
  | none => exact fun _ hc => absurd hc List.not_mem_nil
  | some depth =>
      intro c hc
      rw [List.mem_singleton.mp hc]
      rfl

theorem skipBlank_newline (i : Indent) {c : Char} (hc : isBlank c = false) (cs : List Char) :
    skipBlank (i.newline ++ c :: cs) = c :: cs := by
  rw [skipBlank_append isBlank_of_mem_newline, skipBlank_cons hc]

end Indent

section

variable {gap : List Char} (h : ∀ c ∈ gap, isBlank c = true) (fuel : ℕ) (cs : List Char)

include h

theorem takeValue_append : takeValue fuel (gap ++ cs) = takeValue fuel cs := by
  cases fuel with
  | zero => rfl
  | succ fuel => simp only [takeValue, skipBlank_append h]

theorem takeItems_append : takeItems fuel (gap ++ cs) = takeItems fuel cs := by
  cases fuel with
  | zero => rfl
  | succ fuel => simp only [takeItems, takeValue_append h]

theorem takeMembers_append : takeMembers fuel (gap ++ cs) = takeMembers fuel cs := by
  cases fuel with
  | zero => rfl
  | succ fuel => simp only [takeMembers, skipBlank_append h]

end

theorem takeUnits?_quote (s : String) (rest : List Char) :
    takeUnits? (s.toList.flatMap escape ++ '"' :: rest) = some (s.toList.map unitOf, rest) :=
  takeUnits?_flatMap_escape s.toList rest

/-- The characters that have a meaning of their own in front of a value. -/
def marks : List Char := [' ', '\t', '\n', '\r', 'n', 't', 'f', '"', '[', ']', '\x7b', '\x7d']

theorem char_notMem_marks (d : Digit) : d.char ∉ marks := by
  revert d
  decide

theorem isBlank_of_notMem_marks {c : Char} (h : c ∉ marks) : isBlank c = false := by
  simp only [marks, List.mem_cons, not_or] at h
  simp [isBlank, h]

/-- A proper numeral begins with no mark. -/
theorem exists_chars {n : Numeral} (h : n.IsProper) :
    ∃ c cs, n.chars = c :: cs ∧ c ∉ marks := by
  obtain ⟨negative, whole, fraction, exponent⟩ := n
  cases negative with
  | true => exact ⟨'-', _, rfl, by decide⟩
  | false =>
      cases whole with
      | nil => cases h.whole
      | cons d ds => exact ⟨d.char, _, rfl, char_notMem_marks d⟩

theorem takeValue_of_notMem_marks {c : Char} (h : c ∉ marks) (cs : List Char) (fuel : ℕ)
    {n : Numeral} {rest : List Char} (hread : takeNumeral? (c :: cs) = some (n, rest)) :
    takeValue (fuel + 1) (c :: cs) = (number n, rest) := by
  rw [takeValue, skipBlank_cons (isBlank_of_notMem_marks h)]
  split
  case h_7 => rw [hread]
  all_goals
    next heq =>
      cases heq
      exact absurd (by decide) h

theorem takeValue_number {n : Numeral} (h : n.IsProper) (fuel : ℕ) {rest : List Char}
    (hrest : Stops rest) : takeValue (fuel + 1) (n.chars ++ rest) = (number n, rest) := by
  have hread := takeNumeral?_chars h hrest
  obtain ⟨c, cs, hchars, hc⟩ := exists_chars h
  rw [hchars, List.cons_append] at hread ⊢
  exact takeValue_of_notMem_marks hc _ fuel hread

theorem takeValue_string (s : String) (fuel : ℕ) (rest : List Char) :
    takeValue (fuel + 1) (quote s ++ rest) = (string s, rest) := by
  have hunits := takeUnits?_quote s rest
  rw [quote, List.cons_append, List.append_assoc, takeValue, skipBlank_cons rfl]
  simp [hunits, joinUnits?_map_unitOf]

/-- A proper document begins with a character that is no blank and closes nothing. -/
theorem exists_chars_document {j : Json} (h : j.IsProper) (i : Indent) :
    ∃ c cs, chars i j = c :: cs ∧ isBlank c = false ∧ c ≠ ']' := by
  cases j with
  | null => exact ⟨_, _, rfl, rfl, by decide⟩
  | bool b => cases b <;> exact ⟨_, _, rfl, rfl, by decide⟩
  | number n =>
      obtain ⟨c, cs, hchars, hc⟩ := exists_chars h
      refine ⟨c, cs, hchars, isBlank_of_notMem_marks hc, ?_⟩
      rintro rfl
      exact hc (by decide)
  | string s => exact ⟨_, _, rfl, rfl, by decide⟩
  | array items => cases items <;> exact ⟨_, _, rfl, rfl, by decide⟩
  | object members =>
      rcases members with _ | ⟨⟨name, j⟩, rest⟩ <;> exact ⟨_, _, rfl, rfl, by decide⟩
  | broken flaw => cases h

section

variable (i : Indent)

/-- An array with items is opened by its bracket. -/
theorem takeValue_array {j : Json} (h : j.IsProper) (fuel : ℕ) (cs : List Char) :
    takeValue (fuel + 1) ('[' :: (i.newline ++ (chars i j ++ cs))) =
      (array (takeItems fuel (chars i j ++ cs)).1, (takeItems fuel (chars i j ++ cs)).2) := by
  obtain ⟨c, tail, hchars, hblank, hclose⟩ := exists_chars_document h i
  rw [takeValue, skipBlank_cons rfl, hchars, List.cons_append]
  simp only [i.skipBlank_newline hblank]
  split
  next heq =>
    cases heq
    exact absurd rfl hclose
  next => rfl

theorem takeValue_object (name : String) (fuel : ℕ) (cs : List Char) :
    takeValue (fuel + 1) ('\x7b' :: (i.newline ++ (quote name ++ cs))) =
      (object (takeMembers fuel (quote name ++ cs)).1,
        (takeMembers fuel (quote name ++ cs)).2) := by
  rw [takeValue, skipBlank_cons rfl, quote, List.cons_append]
  simp only [i.skipBlank_newline (show isBlank '"' = false from rfl)]
  rfl

end

section

variable {fuel : ℕ} {cs rest : List Char} {j : Json} (i : Indent) (name : String)

theorem takeMembers_last {k : Indent}
    (hvalue : takeValue fuel cs = (j, k.newline ++ '\x7d' :: rest)) :
    takeMembers (fuel + 1) (quote name ++ (i.colon ++ cs)) = ([(name, j)], rest) := by
  have hunits := takeUnits?_quote name (i.colon ++ cs)
  rw [i.colon_eq, List.cons_append] at hunits ⊢
  rw [quote, List.cons_append, List.append_assoc, takeMembers, skipBlank_cons rfl]
  simp [hunits, joinUnits?_map_unitOf, skipBlank_cons (show isBlank ':' = false from rfl),
    takeValue_append Indent.isBlank_of_mem_gap, hvalue,
    k.skipBlank_newline (show isBlank '\x7d' = false from rfl)]

theorem takeMembers_next (hvalue : takeValue fuel cs = (j, ',' :: rest)) :
    takeMembers (fuel + 1) (quote name ++ (i.colon ++ cs)) =
      ((name, j) :: (takeMembers fuel rest).1, (takeMembers fuel rest).2) := by
  have hunits := takeUnits?_quote name (i.colon ++ cs)
  rw [i.colon_eq, List.cons_append] at hunits ⊢
  rw [quote, List.cons_append, List.append_assoc, takeMembers, skipBlank_cons rfl]
  simp [hunits, joinUnits?_map_unitOf, skipBlank_cons (show isBlank ':' = false from rfl),
    takeValue_append Indent.isBlank_of_mem_gap, hvalue,
    skipBlank_cons (show isBlank ',' = false from rfl)]

end

theorem stops_newline (i : Indent) {c : Char} (hc : goesOn c = false) (rest : List Char) :
    Stops (i.newline ++ c :: rest) := by
  cases i with
  | none => exact stops_cons hc _
  | some depth => exact stops_cons rfl _

theorem stops_itemsChars (i k : Indent) (js : List Json) (rest : List Char) :
    Stops (itemsChars i js ++ (k.newline ++ ']' :: rest)) := by
  cases js with
  | nil => exact stops_newline k rfl rest
  | cons j js => exact stops_cons rfl _

theorem stops_membersChars (i k : Indent) (ms : List (String × Json)) (rest : List Char) :
    Stops (membersChars i ms ++ (k.newline ++ '\x7d' :: rest)) := by
  rcases ms with _ | ⟨⟨name, j⟩, ms⟩
  · exact stops_newline k rfl rest
  · exact stops_cons rfl _

/-- What is read with some fuel: proper documents with as many characters, and the
rest of an array or an object after its opening character. -/
structure ReadsBack (fuel : ℕ) : Prop where
  value : ∀ (i : Indent) (j : Json) (rest : List Char), j.IsProper → Stops rest →
    (chars i j).length ≤ fuel → takeValue fuel (chars i j ++ rest) = (j, rest)
  items : ∀ (i k : Indent) (j : Json) (js : List Json) (rest : List Char),
    j.IsProper → AreProper js → (chars i j).length + (itemsChars i js).length < fuel →
      takeItems fuel (chars i j ++ (itemsChars i js ++ (k.newline ++ ']' :: rest))) =
        (j :: js, rest)
  members : ∀ (i k : Indent) (name : String) (j : Json) (ms : List (String × Json))
    (rest : List Char), j.IsProper → AreMembersProper ms →
    (chars i j).length + (membersChars i ms).length < fuel →
      takeMembers fuel (quote name ++ (i.colon ++ (chars i j ++
        (membersChars i ms ++ (k.newline ++ '\x7d' :: rest))))) = ((name, j) :: ms, rest)

section

variable {fuel : ℕ} (ih : ReadsBack fuel)

include ih

theorem takeValue_succ {i : Indent} {j : Json} (h : j.IsProper) {rest : List Char}
    (hrest : Stops rest) (hfuel : (chars i j).length ≤ fuel + 1) :
    takeValue (fuel + 1) (chars i j ++ rest) = (j, rest) := by
  cases j with
  | null => rfl
  | bool b => cases b <;> rfl
  | number n => exact takeValue_number h fuel hrest
  | string s => exact takeValue_string s fuel rest
  | array items =>
      cases items with
      | nil => rfl
      | cons j js =>
          simp only [chars, List.cons_append, List.append_assoc, List.nil_append,
            List.length_cons, List.length_append] at hfuel ⊢
          rw [takeValue_array _ h.1, ih.items _ _ j js rest h.1 h.2 (by omega)]
  | object members =>
      rcases members with _ | ⟨⟨name, j⟩, ms⟩
      · rfl
      · simp only [chars, List.cons_append, List.append_assoc, List.nil_append,
          List.length_cons, List.length_append] at hfuel ⊢
        rw [takeValue_object, ih.members _ _ name j ms rest h.1 h.2 (by omega)]
  | broken flaw => cases h

theorem takeItems_succ (i k : Indent) {j : Json} {js : List Json} (h : j.IsProper)
    (hs : AreProper js) (rest : List Char)
    (hfuel : (chars i j).length + (itemsChars i js).length < fuel + 1) :
    takeItems (fuel + 1) (chars i j ++ (itemsChars i js ++ (k.newline ++ ']' :: rest))) =
      (j :: js, rest) := by
  have hvalue := ih.value i j _ h (stops_itemsChars i k js rest) (by omega)
  cases js with
  | nil =>
      rw [itemsChars, List.nil_append] at hvalue ⊢
      simp only [takeItems, hvalue, k.skipBlank_newline (show isBlank ']' = false from rfl)]
  | cons next js =>
      simp only [itemsChars, List.cons_append, List.append_assoc, List.length_cons,
        List.length_append] at hfuel hvalue ⊢
      have hitems := ih.items i k next js rest hs.1 hs.2 (by omega)
      simp only [takeItems, hvalue, skipBlank_cons (show isBlank ',' = false from rfl),
        takeItems_append i.isBlank_of_mem_newline, hitems]

theorem takeMembers_succ (i k : Indent) {name : String} {j : Json} {ms : List (String × Json)}
    (h : j.IsProper) (hs : AreMembersProper ms) (rest : List Char)
    (hfuel : (chars i j).length + (membersChars i ms).length < fuel + 1) :
    takeMembers (fuel + 1) (quote name ++ (i.colon ++ (chars i j ++
      (membersChars i ms ++ (k.newline ++ '\x7d' :: rest))))) = ((name, j) :: ms, rest) := by
  have hvalue := ih.value i j _ h (stops_membersChars i k ms rest) (by omega)
  rcases ms with _ | ⟨⟨next, following⟩, ms⟩
  · exact takeMembers_last i name hvalue
  · simp only [membersChars, List.cons_append, List.append_assoc, List.length_cons,
      List.length_append] at hfuel hvalue ⊢
    have hmembers := ih.members i k next following ms rest hs.1 hs.2 (by omega)
    rw [takeMembers_next i name hvalue, takeMembers_append i.isBlank_of_mem_newline, hmembers]

end

/-- Every document takes at least one character, so the fuel is never used up. -/
theorem readsBack (fuel : ℕ) : ReadsBack fuel := by
  induction fuel with
  | zero =>
      refine ⟨fun i j rest h _ hfuel => ?_,
        fun _ _ _ _ _ _ _ hfuel => absurd hfuel (Nat.not_lt_zero _),
        fun _ _ _ _ _ _ _ _ hfuel => absurd hfuel (Nat.not_lt_zero _)⟩
      obtain ⟨c, cs, hchars, _⟩ := exists_chars_document h i
      rw [hchars] at hfuel
      cases hfuel
  | succ fuel ih =>
      exact ⟨fun i j rest h hrest => takeValue_succ ih h hrest,
        fun i k j js rest h hs => takeItems_succ ih i k h hs rest,
        fun i k name j ms rest h hs => takeMembers_succ ih i k h hs rest⟩

/-- A proper document is read back from its characters. -/
theorem ofChars_chars {j : Json} (h : j.IsProper) (i : Indent) :
    ofChars (chars i j) = ⟨j, true⟩ := by
  have hfuel : (chars i j).length ≤ 2 * (chars i j).length + 2 := by omega
  have hread := (readsBack _).value i j [] h stops_nil hfuel
  rw [List.append_nil] at hread
  rw [ofChars, hread]
  rfl

/-- A proper document is read back from its text without blanks. -/
theorem ofText_compact {j : Json} (h : j.IsProper) : ofText j.compact = ⟨j, true⟩ := by
  rw [ofText, compact, String.toList_ofList, ofChars_chars h]

/-- A proper document is read back from its text in lines. -/
theorem ofText_pretty {j : Json} (h : j.IsProper) : ofText j.pretty = ⟨j, true⟩ := by
  rw [ofText, pretty, String.toList_ofList, ofChars_chars h]

section

variable {α : Type} (d : Decoder α)

theorem whole_complete (j : Json) : d.whole ⟨j, true⟩ = d j := by
  rw [Decoder.whole]
  cases d j <;> rfl

variable {j : Json} (h : j.IsProper)

include h

/-- Reading the text of a proper document is decoding the document. -/
theorem read_compact : d.read j.compact = d j := by
  rw [Decoder.read, ofText_compact h, whole_complete]

theorem read_pretty : d.read j.pretty = d j := by
  rw [Decoder.read, ofText_pretty h, whole_complete]

end

end WorkLedger.Json
