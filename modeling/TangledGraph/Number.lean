/-!
# Floats at their edges

Infinity, the greatest finite float, and the operations that decide what
becomes of values that are not finite.
-/
namespace TangledGraph

def infinity : Float := Float.ofBits 0x7FF0000000000000

def greatestFinite : Float := Float.ofBits 0x7FEFFFFFFFFFFFFF

/-- The nearest finite float; a value that is not a number becomes zero. -/
def clamp (x : Float) : Float :=
  if x.isNaN then 0.0
  else if x == infinity then greatestFinite
  else if x == -infinity then -greatestFinite
  else x

/-- The lesser of two floats, of zeros the second; a value that is not a number
loses to any other. -/
def lesser (x y : Float) : Float := if y.isNaN || x < y then x else y

/-- The greater of two floats, of zeros the second; a value that is not a number
loses to any other. -/
def greater (x y : Float) : Float := if y.isNaN || y < x then x else y

end TangledGraph
