import Tecdsa.Proof.ResidueRing
import Tecdsa.Proof.Scalars
import Tecdsa.Proof.CurveOrder
import Tecdsa.Proof.FixedWidth
import Tecdsa.Proof.Sha256Padding
import Tecdsa.Proof.HashCollision
import Tecdsa.Proof.HashExtension
import Tecdsa.Proof.HashScalar
import Tecdsa.Proof.Sha256Eval
import Tecdsa.Proof.NonceEval
import Tecdsa.Proof.NonceSeparation
import Tecdsa.Proof.NonceCollision
import Tecdsa.Proof.Sign
import Tecdsa.Proof.Tamper
import Tecdsa.Proof.Malleability
import Tecdsa.Proof.PublicKey
import Tecdsa.Proof.Beaver
import Tecdsa.Proof.MaskedInverse
import Tecdsa.Proof.KeyFlow
import Tecdsa.Proof.ZeroR
import Tecdsa.Proof.Simulatable
import Tecdsa.Proof.Session
import Tecdsa.Proof.Builds
import Tecdsa.Proof.NonceReuse
import Tecdsa.Proof.Sampling
import Tecdsa.Proof.BeaverView
import Tecdsa.Proof.Pipeline
import Tecdsa.Proof.Paillier
import Tecdsa.Proof.PaillierKey
import Tecdsa.Proof.PaillierBijection
import Tecdsa.Proof.PaillierTapes
import Tecdsa.Proof.PaillierSampling
import Tecdsa.Proof.Inversions
import Tecdsa.Proof.Bench
import Tecdsa.Proof.BenchReport
