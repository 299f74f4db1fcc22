import Mathlib.Data.List.Basic

/-!
# Text between separators

Two texts of the form field, separator, rest are equal only if their fields,
separators and rests are, provided that no separator occurs in the fields, or
that none occurs in the rests. Nothing is assumed about the other part. A list
of fields that can be told apart one at a time can be told apart as a whole.
-/

namespace WorkLedger

namespace Separator

variable {α : Type*}

/-- A text is over, or goes on with a separator. -/
def Ended (p : α → Bool) (x : List α) : Prop := ∀ c ∈ x.head?, p c = true

theorem ended_cons {p : α → Bool} {c : α} (hc : p c = true) (x : List α) :
    Ended p (c :: x) := by
  intro d hd
  obtain rfl := Option.some.inj hd
  exact hc

theorem Ended.mono {p q : α → Bool} {x : List α} (h : Ended p x)
    (hpq : ∀ c, p c = true → q c = true) : Ended q x := fun c hc => hpq c (h c hc)

/-- A field without separators is over where the text is, or at the first one. -/
theorem eq_of_ended {p : α → Bool} {a b x y : List α} (ha : ∀ c ∈ a, p c = false)
    (hb : ∀ c ∈ b, p c = false) (hx : Ended p x) (hy : Ended p y) (h : a ++ x = b ++ y) :
    a = b ∧ x = y := by
  induction a generalizing b with
  | nil =>
      cases b with
      | nil => exact ⟨rfl, h⟩
      | cons d b =>
          rw [List.nil_append] at h
          have hsep : p d = true := hx d (by rw [h]; rfl)
          rw [hb d List.mem_cons_self] at hsep
          cases hsep
  | cons c a ih =>
      cases b with
      | nil =>
          rw [List.nil_append] at h
          have hsep : p c = true := hy c (by rw [← h]; rfl)
          rw [ha c List.mem_cons_self] at hsep
          cases hsep
      | cons d b =>
          obtain ⟨rfl, hrest⟩ := List.cons_eq_cons.mp h
          obtain ⟨rfl, hend⟩ := ih (fun z hz => ha z (List.mem_cons_of_mem c hz))
            (fun z hz => hb z (List.mem_cons_of_mem c hz)) hrest
          exact ⟨rfl, hend⟩

/-- The first separator ends a field without any. -/
theorem eq_of_first [DecidableEq α] {a b x y : List α} {s : α} (ha : s ∉ a) (hb : s ∉ b)
    (h : a ++ s :: x = b ++ s :: y) : a = b ∧ x = y := by
  have hended : ∀ z, Ended (fun c => decide (c = s)) (s :: z) :=
    ended_cons (decide_eq_true rfl)
  have hfree : ∀ {f : List α}, s ∉ f → ∀ c ∈ f, decide (c = s) = false := by
    intro f hf c hc
    rw [decide_eq_false_iff_not]
    rintro rfl
    exact hf hc
  obtain ⟨hfield, hrest⟩ := eq_of_ended (hfree ha) (hfree hb) (hended x) (hended y) h
  exact ⟨hfield, (List.cons_eq_cons.mp hrest).2⟩

/-- The last separator begins a rest without any. -/
theorem eq_of_last [DecidableEq α] {a b x y : List α} {s : α} (hx : s ∉ x) (hy : s ∉ y)
    (h : a ++ s :: x = b ++ s :: y) : a = b ∧ x = y := by
  have hreverse : x.reverse ++ s :: a.reverse = y.reverse ++ s :: b.reverse := by
    simpa using congrArg List.reverse h
  obtain ⟨hrest, hfield⟩ := eq_of_first (fun hmem => hx (List.mem_reverse.mp hmem))
    (fun hmem => hy (List.mem_reverse.mp hmem)) hreverse
  exact ⟨List.reverse_injective hfield, List.reverse_injective hrest⟩

/-- Fields that determine their content, given their size and that the text is
over behind them or goes on with a separator, determine it in lists as well. -/
theorem map_eq_of_flatMap {β γ δ : Type*} {p : α → Bool} {write : β → List α}
    {size : β → γ} {content : β → δ} (hwrite : ∀ a x, Ended p (write a ++ x))
    (hfield : ∀ {a b : β} {x y : List α}, Ended p x → Ended p y → size a = size b →
      write a ++ x = write b ++ y → content a = content b ∧ x = y)
    {as bs : List β} {x y : List α} (hx : Ended p x) (hy : Ended p y)
    (hsize : as.map size = bs.map size)
    (h : as.flatMap write ++ x = bs.flatMap write ++ y) :
    as.map content = bs.map content ∧ x = y := by
  have hended : ∀ {z : List α}, Ended p z → ∀ cs : List β,
      Ended p (cs.flatMap write ++ z) := by
    intro z hz cs
    cases cs with
    | nil => exact hz
    | cons c cs =>
        rw [List.flatMap_cons, List.append_assoc]
        exact hwrite c _
  induction as generalizing bs with
  | nil =>
      obtain rfl : bs = [] := List.map_eq_nil_iff.mp hsize.symm
      exact ⟨rfl, h⟩
  | cons a as ih =>
      cases bs with
      | nil => cases hsize
      | cons b bs =>
          obtain ⟨hhead, htail⟩ := List.cons_eq_cons.mp hsize
          rw [List.flatMap_cons, List.flatMap_cons, List.append_assoc,
            List.append_assoc] at h
          obtain ⟨hcontent, hrest⟩ := hfield (hended hx as) (hended hy bs) hhead h
          obtain ⟨hcontents, hend⟩ := ih htail hrest
          refine ⟨?_, hend⟩
          rw [List.map_cons, List.map_cons, hcontent, hcontents]

end Separator

end WorkLedger
