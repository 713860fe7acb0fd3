import Tecdsa.Code.Field
import Tecdsa.Lib.Draws

/-!
# `src/rng.cpp`: the generator as a tape of draws

`mpz_urandomm` draws uniformly below its bound; which numbers it draws is the
tape's choice.
-/

namespace Tecdsa

/-- A program on the draws of one `Rng`. -/
abbrev Rand := Draws Stop

/-- `mpz_urandomm`: an integer in `[0, upper)`. -/
def mpzUrandomm (upper : Int) : Rand Int :=
  Draws.draw .exhausted fun x => decide (0 ≤ x) && decide (x < upper)

def uniformBelow (upperExclusive : Int) : Rand Int := mpzUrandomm upperExclusive

def uniformNonzeroBelow (upperExclusive : Int) : Rand Int :=
  Draws.doWhile .exhausted (mpzUrandomm upperExclusive) (· == 0)

end Tecdsa
