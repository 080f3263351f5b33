import Redzone.Ir.Function

/-!
# Redzones of globals

A global is followed by a redzone of about a quarter of its size, within bounds, which also fills up
the global to a multiple of the least redzone.
-/

namespace Redzone

/-- The greatest redzone of a global, before it is filled up. -/
def maxGlobalRedzone : Nat := 1 <<< 18

/-- The least redzone of a global, which is also the alignment of a global that has one. -/
def minGlobalRedzone (granularity : Nat) : Nat := max granularity 32

/-- The redzone behind a global of `size` bytes, if the bounds leave one. -/
def globalRedzone? (size granularity : Nat) : Except Fault Nat :=
  let least := minGlobalRedzone granularity
  if least ≤ maxGlobalRedzone then
    let quarter := min (max (size / least / 4 * least) least) maxGlobalRedzone
    if size % least = 0 then .ok quarter else checkedSub (quarter + least) (size % least)
  else
    .error (.emptyRedzoneRange least maxGlobalRedzone)

end Redzone
