import WorkLedger.Json.Parser

/-!
# Numerals in JSON

JSON has no needless zero before the point, and no exponent without digits. A numeral
that keeps to this is proper. It is read back from its characters, whatever follows
it, as long as that does not go on with the numeral.
-/

namespace WorkLedger

/-- A numeral is proper if there are digits before the point, without a needless zero,
and in its exponent, if it has one. -/
structure Numeral.IsProper (n : Numeral) : Prop where
  whole : Json.isWhole n.whole = true
  exponent : ∀ e, n.exponent = some e → e.digits ≠ []

namespace Json

/-- Whether a numeral can go on with a character. -/
def goesOn (c : Char) : Bool :=
  (Digit.ofChar? c).isSome || c == '.' || c == 'e' || c == 'E'

/-- What follows does not go on with a numeral. -/
def Stops (rest : List Char) : Prop := ∀ c ∈ rest.head?, goesOn c = false

theorem stops_nil : Stops [] := fun _ hc => absurd hc nofun

theorem stops_cons {c : Char} (h : goesOn c = false) (rest : List Char) : Stops (c :: rest) := by
  intro d hd
  obtain rfl : c = d := Option.some.inj hd
  exact h

theorem Stops.head {rest : List Char} (h : Stops rest) {c : Char} (hc : c ∈ rest.head?) :
    Digit.ofChar? c = none ∧ c ≠ '.' ∧ c ≠ 'e' ∧ c ≠ 'E' := by
  have hstops := h c hc
  simp only [goesOn, Bool.or_eq_false_iff, beq_eq_false_iff_ne, Option.isSome_eq_false_iff,
    Option.isNone_iff_eq_none, and_assoc] at hstops
  exact hstops

/-- Digits are read up to the first character that is none. -/
theorem takeDigits_map_char (ds : List Digit) {rest : List Char}
    (h : ∀ c ∈ rest.head?, Digit.ofChar? c = none) :
    takeDigits (ds.map Digit.char ++ rest) = (ds, rest) := by
  induction ds with
  | nil =>
      cases rest with
      | nil => rfl
      | cons c rest =>
          rw [List.map_nil, List.nil_append, takeDigits, h c rfl]
  | cons d ds ih => simp [takeDigits, ih]

theorem takeSigned?_chars {e : Exponent} (h : e.digits ≠ []) {rest : List Char}
    (hrest : Stops rest) : takeSigned? (e.chars ++ rest) = some (e, rest) := by
  obtain ⟨negative, ds⟩ := e
  have hdigits := takeDigits_map_char ds fun c hc => (hrest.head hc).1
  cases ds with
  | nil => exact absurd rfl h
  | cons d ds => cases negative <;> simp only [takeSigned?, Exponent.chars, List.cons_append,
      Bool.false_eq_true, if_false, if_true, hdigits]

theorem takeExponent?_of_ne {cs : List Char} (h : ∀ c ∈ cs.head?, c ≠ 'e' ∧ c ≠ 'E') :
    takeExponent? cs = some (none, cs) := by
  unfold takeExponent?
  split
  · exact absurd rfl (h _ rfl).1
  · exact absurd rfl (h _ rfl).2
  · rfl

theorem takeFraction?_of_ne {cs : List Char} (h : ∀ c ∈ cs.head?, c ≠ '.') :
    takeFraction? cs = some ([], cs) := by
  unfold takeFraction?
  split
  · exact absurd rfl (h _ rfl)
  · rfl

/-- The characters of an exponent, with the letter before it. -/
def exponentChars : Option Exponent → List Char
  | none => []
  | some e => 'e' :: e.chars

theorem takeExponent?_chars {o : Option Exponent} (h : ∀ e, o = some e → e.digits ≠ [])
    {rest : List Char} (hrest : Stops rest) :
    takeExponent? (exponentChars o ++ rest) = some (o, rest) := by
  cases o with
  | none => exact takeExponent?_of_ne fun c hc => (hrest.head hc).2.2
  | some e =>
      rw [exponentChars, List.cons_append, takeExponent?, takeSigned?_chars (h e rfl) hrest]
      rfl

theorem head_exponentChars (o : Option Exponent) {rest : List Char} (hrest : Stops rest) {c : Char}
    (hc : c ∈ (exponentChars o ++ rest).head?) : Digit.ofChar? c = none ∧ c ≠ '.' := by
  cases o with
  | none =>
      obtain ⟨hdigit, hpoint, _⟩ := hrest.head hc
      exact ⟨hdigit, hpoint⟩
  | some e =>
      obtain rfl : 'e' = c := Option.some.inj hc
      decide

/-- The characters of the digits after the point, with the point. -/
def fractionChars (ds : List Digit) : List Char :=
  if ds.isEmpty then [] else '.' :: ds.map Digit.char

theorem takeFraction?_chars (ds : List Digit) {rest : List Char}
    (hrest : ∀ c ∈ rest.head?, Digit.ofChar? c = none ∧ c ≠ '.') :
    takeFraction? (fractionChars ds ++ rest) = some (ds, rest) := by
  cases ds with
  | nil => exact takeFraction?_of_ne fun c hc => (hrest c hc).2
  | cons d ds =>
      have hdigits := takeDigits_map_char (d :: ds) fun c hc => (hrest c hc).1
      simp only [fractionChars, List.isEmpty_cons, Bool.false_eq_true, if_false, List.cons_append,
        takeFraction?, hdigits]

theorem head_fractionChars (ds : List Digit) {rest : List Char}
    (hrest : ∀ c ∈ rest.head?, Digit.ofChar? c = none ∧ c ≠ '.') {c : Char}
    (hc : c ∈ (fractionChars ds ++ rest).head?) : Digit.ofChar? c = none := by
  cases ds with
  | nil => exact (hrest c hc).1
  | cons d ds =>
      obtain rfl : '.' = c := Option.some.inj hc
      decide

theorem char_ne_minus (d : Digit) : d.char ≠ '-' := by
  revert d
  decide

/-- Without a minus in front, a numeral is read from its digits on. -/
theorem takeNumeral?_of_ne {cs : List Char} (h : ∀ c ∈ cs.head?, c ≠ '-') {ds : List Digit}
    {after : List Char} (hdigits : takeDigits cs = (ds, after)) (hwhole : isWhole ds = true) :
    takeNumeral? cs = (takeFraction? after).bind fun x =>
      (takeExponent? x.2).map fun y => (⟨false, ds, x.1, y.1⟩, y.2) := by
  unfold takeNumeral?
  split
  next negative unsigned hsign =>
    split at hsign
    · exact absurd rfl (h _ rfl)
    · obtain ⟨rfl, rfl⟩ := Prod.mk.inj hsign
      simp only [hdigits, hwhole, if_true]

/-- A proper numeral is read back from its characters. -/
theorem takeNumeral?_chars {n : Numeral} (h : n.IsProper) {rest : List Char}
    (hrest : Stops rest) : takeNumeral? (n.chars ++ rest) = some (n, rest) := by
  obtain ⟨negative, whole, fraction, exponent⟩ := n
  have hexponent := takeExponent?_chars h.exponent hrest
  have hfraction := takeFraction?_chars fraction fun c hc => head_exponentChars exponent hrest hc
  have hwhole := takeDigits_map_char whole fun c hc => head_fractionChars fraction
    (fun c hc => head_exponentChars exponent hrest hc) hc
  have hchars : Numeral.chars ⟨negative, whole, fraction, exponent⟩ ++ rest =
      (if negative then ['-'] else []) ++ (whole.map Digit.char ++
        (fractionChars fraction ++ (exponentChars exponent ++ rest))) := by
    cases exponent <;>
      simp only [Numeral.chars, fractionChars, exponentChars, List.append_assoc]
  rw [hchars]
  cases negative with
  | true =>
      have hproper : isWhole whole = true := h.whole
      simp [takeNumeral?, hwhole, hfraction, hexponent, hproper]
  | false =>
      have hhead : ∀ c ∈ (whole.map Digit.char ++ (fractionChars fraction ++
          (exponentChars exponent ++ rest))).head?, c ≠ '-' := by
        cases whole with
        | nil => cases h.whole
        | cons d ds =>
            intro c hc
            obtain rfl : d.char = c := Option.some.inj hc
            exact char_ne_minus d
      have hunsigned := takeNumeral?_of_ne hhead hwhole h.whole
      simpa [hfraction, hexponent] using hunsigned

end Json

end WorkLedger
