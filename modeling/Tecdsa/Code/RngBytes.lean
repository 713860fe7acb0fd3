import Tecdsa.Code.Paillier
import Tecdsa.Code.Rfc6979

/-!
# `src/rng.cpp`: `fill_bytes`

A second copy of the right-aligned export of `int2octets`, without its early
return for 0.
-/

namespace Tecdsa

open Paillier (mpzUrandomb)

/-- What `mpz_export` writes: nothing for 0. -/
def mpzExportBytes (x : Int) : Octets := if x = 0 then [] else mpzExport x

/-- The `n` octets of `out`, all of which it overwrites.  `offset` is a
`size_t`, as in `int2octets`. -/
def fillBytes (n : Nat) : Rand Octets :=
  if n = 0 then pure []
  else do
    let r ← mpzUrandomb (n * 8)
    let out := List.replicate n 0
    let actualBytes := (mpzSizeinbase2 r + 7) / 8
    if actualBytes = 0 then return out
    else if n < actualBytes then Draws.throw .overrun
    else
      let offset := n - actualBytes
      return out.take offset ++ memcpy (out.drop offset) (mpzExportBytes r)

end Tecdsa
