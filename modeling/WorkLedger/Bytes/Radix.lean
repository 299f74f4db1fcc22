/-!
# Digits of a number in a base

`digits b n` lists the digits of `n` in base `b`, the most significant first; zero has none. The
recursion runs on a bound for the number of digits (a number below `2 ^ k` has at most `k` of them),
so it reduces on closed numbers. `value` reads a list of digits back.
-/

namespace WorkLedger.Radix

/-- Puts the digits of `n` in front of `low`, `bound` digits at most. -/
def digitsOnto (b : Nat) (hb : 0 < b) : Nat → Nat → List (Fin b) → List (Fin b)
  | 0, _, low => low
  | bound + 1, n, low =>
    if n = 0 then low else digitsOnto b hb bound (n / b) (⟨n % b, Nat.mod_lt n hb⟩ :: low)

/-- The digits of `n` in base `b`, the most significant first, without leading zeros. -/
def digits (b : Nat) (hb : 0 < b) (n : Nat) : List (Fin b) :=
  digitsOnto b hb (n.log2 + 1) n []

/-- The number that a list of digits stands for. -/
def value {b : Nat} (ds : List (Fin b)) : Nat :=
  ds.foldl (fun n d => n * b + d.val) 0

@[simp] theorem value_nil {b : Nat} : value ([] : List (Fin b)) = 0 := rfl

theorem value_append_singleton {b : Nat} (ds : List (Fin b)) (d : Fin b) :
    value (ds ++ [d]) = value ds * b + d.val := by
  simp [value]

end WorkLedger.Radix
