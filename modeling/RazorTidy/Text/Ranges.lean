import RazorTidy.Text.Basic

/-!
# Code point ranges

A character class given by data is a list of closed code point ranges in ascending order.
-/

set_option autoImplicit false

namespace RazorTidy.Text

/-- Closed ranges of code points, in ascending order and apart from each other. -/
abbrev Ranges := List (Nat × Nat)

namespace Ranges

/-- Whether a code point lies in one of the ranges. The search ends at the first range above it. -/
def contains (n : Nat) : Ranges → Bool
  | [] => false
  | (low, high) :: rest => if n < low then false else if n ≤ high then true else contains n rest

/-- Ranges in ascending order with a gap between neighbours, all from `least` upwards. -/
def ascendingFrom (least : Nat) : Ranges → Bool
  | [] => true
  | (low, high) :: rest => least ≤ low && low ≤ high && ascendingFrom (high + 1) rest

end Ranges

end RazorTidy.Text
