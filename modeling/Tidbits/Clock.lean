import Mathlib.Data.Int.Notation

/-!
# Clock readings

`poTime_getDouble` as an exact number: an integer number of nanoseconds.  The
half nanosecond that the function adds is the same in every reading and drops
out of every difference.
-/

namespace Tidbits

/-- A clock reading in nanoseconds. -/
abbrev Time := ℤ

/-- A duration of `n` milliseconds. -/
def milliseconds (n : ℤ) : Time := n * 1000000

end Tidbits
