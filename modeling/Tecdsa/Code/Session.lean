import Tecdsa.Code.Threshold
import Tecdsa.Lib.Lockstep

/-!
# A caller of the threshold functions

What `bench/bench_all.cpp` and `tests/test_tecdsa.cpp` do with one `Rng`: any
number of keys, presigns and signatures, in any order, a presign used for
several messages, draws made for something else in between.  An exception
leaves the generator where the call stopped; the caller may go on.
-/

namespace Tecdsa

inductive Call where
  | keygen
  /-- `threshold_presign` with the key of that index -/
  | presign (key : Nat)
  /-- `threshold_sign` with the presign of that index, on `double_sha256(msg)` -/
  | sign (presign : Nat) (msg : Octets)
  /-- draws made for something else -/
  | elsewhere (count : Nat)

/-- A signature, what it was made from, and the tape of its call. -/
structure Emitted where
  key : ThresholdKey
  presign : ThresholdPresign
  msg : Octets
  sig : Signature
  tape : List Int
deriving DecidableEq

structure Session where
  tape : List Int
  keys : List ThresholdKey
  presigns : List (ThresholdKey × ThresholdPresign)
  emitted : List Emitted

namespace Session

def start (tape : List Int) : Session := ⟨tape, [], [], []⟩

def step (build : Build) (st : Session) : Call → Session
  | .keygen =>
    match (thresholdKeygen build).run st.tape with
    | (.ok key, rest) => { st with tape := rest, keys := st.keys ++ [key] }
    | (.error _, rest) => { st with tape := rest }
  | .presign i =>
    match st.keys[i]? with
    | none => st
    | some key =>
      match (thresholdPresign build key).run st.tape with
      | (.ok p, rest) => { st with tape := rest, presigns := st.presigns ++ [(key, p)] }
      | (.error _, rest) => { st with tape := rest }
  | .sign i msg =>
    match st.presigns[i]? with
    | none => st
    | some (key, p) =>
      match (thresholdSign build key p (doubleSha256 msg)).run st.tape with
      | (.ok sig, rest) =>
        { st with tape := rest, emitted := st.emitted ++ [⟨key, p, msg, sig, st.tape⟩] }
      | (.error _, rest) => { st with tape := rest }
  | .elsewhere count => { st with tape := st.tape.drop count }

def run (build : Build) (tape : List Int) (calls : List Call) : Session :=
  calls.foldl (step build) (start tape)

/-! ## Failed asserts -/

/-- A failed `assert` ends the program; an exception does not. -/
def isAssertion {α : Type} : Run α → Bool
  | .error (.assertion _) => true
  | _ => false

/-- The call ends the program. -/
def aborts (build : Build) (st : Session) : Call → Bool
  | .keygen => isAssertion ((thresholdKeygen build).run st.tape).1
  | .presign i =>
    match st.keys[i]? with
    | none => false
    | some key => isAssertion ((thresholdPresign build key).run st.tape).1
  | .sign i msg =>
    match st.presigns[i]? with
    | none => false
    | some (key, p) => isAssertion ((thresholdSign build key p (doubleSha256 msg)).run st.tape).1
  | .elsewhere _ => false

/-- The session up to the call that ends the program, if one does. -/
def runUntilAbort (build : Build) (tape : List Int) (calls : List Call) : Session × Bool :=
  Lockstep.runUntil (aborts build) (step build) (start tape) calls

end Session

end Tecdsa
