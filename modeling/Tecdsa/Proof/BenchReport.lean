import Tecdsa.Proof.Bench
import Tecdsa.Proof.PaillierSampling
import Tecdsa.Proof.Sampling

/-!
# When the benchmark reports

A run that returns has signed every message, and nothing else can keep it from
returning: given a key that signs message `i` for each `i`, OpenSSL's keys and
primes for Paillier, the tape is put together from the draws of each call.  The
threshold scenarios sign with the nonce 1, whose `s` is not zero under one of
the keys 1 and 2.

    a report on some tape ↔ the messages can be signed, the keys can be made      (benchAll_ends)
-/

namespace Tecdsa

namespace Bench

open Residue

/-! ## Calls -/

theorem one_range : NonzeroBelow Secp256k1.n 1 := ⟨by decide, by decide⟩

theorem uniformNonzeroBelow_canReturn {q x : Int} (hx : NonzeroBelow q x) :
    (uniformNonzeroBelow q).CanReturn (· = x) :=
  ⟨[x], x, rfl, fun _ => run_uniformNonzeroBelow_iff.mpr ⟨0, rfl, hx⟩⟩

theorem generateKeypair_canReturn {d : Int} (hd : NonzeroBelow Secp256k1.n d) :
    (generateKeypair .release).CanReturn fun kp => kp.d = d := by
  obtain ⟨Q, -, hden⟩ := scalarMul_base (canon_of_range hd).rep
  exact ⟨[d], ⟨d, Q⟩, rfl, fun _ => run_generateKeypair_iff.mpr ⟨0, rfl, hd, hden⟩⟩

/-- Under this key the nonce 1 has an `s` that is not zero. -/
def NonceOneSigns (key : ThresholdKey) (h : Sha256Hash) : Prop :=
  (hashToScalar h Secp256k1.n : Fn) + (Secp256k1.gx : Fn) * ((key.skA : Fn) * (key.skB : Fn)) ≠ 0

/-- The key 1 or the key 2. -/
theorem exists_share (ζ : Fn) : ∃ a, NonzeroBelow Secp256k1.n a ∧ ζ + (Secp256k1.gx : Fn) * (a : Fn) ≠ 0 := by
  by_cases hone : ζ + (Secp256k1.gx : Fn) * ((1 : Int) : Fn) = 0
  · refine ⟨2, ⟨by decide, by decide⟩, ?_⟩
    intro htwo
    -- the two sums are `gx` apart
    have hgx : (Secp256k1.gx : Fn) = 0 := by
      push_cast at hone htwo
      linear_combination htwo - hone
    exact cast_ne_zero_of_range (show NonzeroBelow Secp256k1.n Secp256k1.gx from ⟨by decide, by decide⟩) hgx
  · exact ⟨1, one_range, hone⟩

theorem thresholdKeygen_canReturn (h : Sha256Hash) :
    (thresholdKeygen .release).CanReturn fun key => NonceOneSigns key h := by
  obtain ⟨a, ha, hsigns⟩ := exists_share (hashToScalar h Secp256k1.n : Fn)
  obtain ⟨Q, -, hden, -⟩ := scalarMul_product ha one_range
  have hkey : NonceOneSigns ⟨a, 1, Q⟩ h := by
    unfold NonceOneSigns
    rwa [Int.cast_one, mul_one]
  exact ⟨[a, 1], _, hkey, fun _ => run_thresholdKeygen_iff.mpr ⟨0, 0, rfl, ha, one_range, hden⟩⟩

theorem thresholdPresign_canReturn (key : ThresholdKey) :
    (thresholdPresign .release key).CanReturn fun p => PresignDrawn key p ∧ p.kA = 1 ∧ p.kB = 1 := by
  have hzero : Canon Secp256k1.n 0 := by decide
  obtain ⟨R, hrun, -⟩ := run_thresholdPresign .release key one_range one_range hzero hzero []
  obtain ⟨-, hp⟩ := run_thresholdPresign_draws.mp hrun
  exact ⟨[1, 1, 0, 0], _, ⟨hp, rfl, rfl⟩, fun _ => run_thresholdPresign_iff.mpr ⟨⟨0, 0, rfl⟩, hp⟩⟩

/-- The nonce point of the nonce 1 is `G`. -/
theorem presign_r_eq {key : ThresholdKey} {p : ThresholdPresign} (hp : PresignDrawn key p) (hA : p.kA = 1)
    (hB : p.kB = 1) : p.r = Secp256k1.gx := by
  have hden := hp.R
  rw [hA, hB, ← Int.cast_mul, one_mul, secp_base_intCast, one_zsmul] at hden
  rw [hp.r, hden.record_unique generator_denotes hp.finite]
  decide

theorem thresholdSign_canReturn {key : ThresholdKey} {p : ThresholdPresign} (hkey : KeyDrawn key)
    (hp : PresignDrawn key p) (hA : p.kA = 1) (hB : p.kB = 1) {h : Sha256Hash} (hs : NonceOneSigns key h) :
    (thresholdSign .release key p h).CanReturn fun _ => True := by
  have hagreed := hp.agreed hkey.skA hkey.skB
  have hs0 : signScalar ((p.k1 + p.k2) % Secp256k1.n) (hashToScalar h Secp256k1.n) p.r
      ((p.sk1 + p.sk2) % Secp256k1.n) ≠ 0 := by
    intro h0
    apply hs
    have hσ := (signScalar_rep _ _ _ _).eq_zero_iff.mp h0
    rw [hagreed.k, hagreed.sk, presign_r_eq hp hA hB, hA, hB] at hσ
    rw [cast_emod n_pos.le, cast_emod n_pos.le, Int.cast_mul, Int.cast_mul, Int.cast_one, one_mul, inv_one,
      one_mul] at hσ
    exact hσ
  have hrun (rest : List Int) := run_thresholdSign_masked hagreed.shares hagreed.k_ne_zero h sampleTape_canon
    (by decide) .release key rest rfl
  simp only [if_neg hs0] at hrun
  exact ⟨sampleTape.toList, _, trivial, hrun⟩

/-! ## Inputs -/

/-- Inputs that every scenario can sign. -/
structure Signable (fuel i : Nat) (x : Input) : Prop where
  input : InputOk i x
  single : ∃ sig, signWithHash .release fuel x.singleKey.d x.hash = .ok sig
  coSigner : ∃ sig, signWithHash .release fuel x.coSignerKey.d x.hash = .ok sig
  nonce : x.thresholdPresign.kA = 1 ∧ x.thresholdPresign.kB = 1
  threshold : NonceOneSigns x.thresholdKey x.hash

theorem makeInput_canReturn {fuel i : Nat} {opensslKey : Nat → Bool} (hkey : opensslKey i = true) {d : Int}
    (hd : NonzeroBelow Secp256k1.n d)
    (hsig : ∃ sig, signWithHash .release fuel d (doubleSha256 (benchMessage i)) = .ok sig) :
    (makeInput .release opensslKey i).CanReturn (Signable fuel i) := by
  have hdraws : (makeInput .release opensslKey i).CanReturn fun x => x.singleKey.d = d ∧ x.coSignerKey.d = d ∧
      (x.thresholdPresign.kA = 1 ∧ x.thresholdPresign.kB = 1) ∧
      NonceOneSigns x.thresholdKey (doubleSha256 (benchMessage i)) := by
    refine (generateKeypair_canReturn hd).bind ?_
    intro single hsingle
    refine (generateKeypair_canReturn hd).bind ?_
    intro coSigner hco
    refine (thresholdKeygen_canReturn (doubleSha256 (benchMessage i))).bind ?_
    intro tk htk
    refine (thresholdPresign_canReturn tk).bind ?_
    rintro p ⟨-, hp⟩
    refine (uniformNonzeroBelow_canReturn one_range).bind ?_
    rintro k rfl
    obtain ⟨R, hR, -⟩ := scalarMul_base (canon_of_range one_range).rep
    refine (Draws.CanReturn.lift (hR .release) (P := fun _ => True) trivial).bind ?_
    intro S _
    rw [hkey]
    exact Draws.CanReturn.pure ⟨hsingle, hco, hp, htk⟩
  refine (hdraws.and_returns (makeInput_ends .release opensslKey (Nat.lt_succ_self i)).returns).mono ?_
  rintro x ⟨⟨hsingle, hco, hnonce, hthreshold⟩, hx, -⟩
  have hhash := hx.hash
  exact {
    input := hx
    single := by rwa [hsingle, hhash]
    coSigner := by rwa [hco, hhash]
    nonce := hnonce
    threshold := by rwa [hhash] }

/-! ## Scenarios -/

section
variable {total : Nat}

theorem forLoop_canReturn {α : Type} {f : Nat → Rand α} {P : Nat → α → Prop}
    (h : ∀ i < total, (f i).CanReturn (P i)) :
    (Draws.forLoop f total 0).CanReturn fun as => Filled total as P := by
  have hloop := @Draws.CanReturn.forLoop _ _ f P total 0 fun i _ hi => h i (by omega)
  simp only [Nat.zero_add] at hloop
  exact hloop

theorem runBenchmark_canReturn {α : Type} {f : Nat → Rand α} {n warmup : Nat}
    (h : ∀ i < n + warmup, (f i).CanReturn fun _ => True) :
    (runBenchmark n warmup f).CanReturn fun _ => True := by
  obtain ⟨tape, as, -, hrun⟩ := @forLoop_canReturn (n + warmup) α f (fun _ _ => True) h
  refine ⟨tape, as, trivial, ?_⟩
  intro rest
  rw [run_runBenchmark, Nat.add_comm warmup n, hrun]

/-- A body that starts with a read. -/
theorem Filled.read_canReturn {α β : Type} {as : List α} {P : Nat → α → Prop} (h : Filled total as P) {i : Nat}
    (hi : i < total) {f : α → Rand β} {Q : β → Prop} (hf : ∀ a, P i a → (f a).CanReturn Q) :
    ((monadLift (readAt as i) : Rand α) >>= f).CanReturn Q := by
  obtain ⟨a, hread, -, ha⟩ := h.readAt_eq hi
  refine (Draws.CanReturn.lift hread (P := fun x => x = a) rfl).bind ?_
  rintro _ rfl
  exact hf _ ha

variable {fuel : Nat} {inputs : List Input} (hin : Filled total inputs (Signable fuel)) {i : Nat} (hi : i < total)
include hin hi

theorem scenarioA0_canReturn : (scenarioA0 inputs i).CanReturn fun _ => True := by
  refine hin.read_canReturn hi ?_
  intro x _
  exact Draws.CanReturn.pure trivial

theorem scenarioA1_canReturn : (scenarioA1 .release inputs i).CanReturn fun _ => True := by
  refine hin.read_canReturn hi ?_
  intro x hx
  obtain ⟨sig, hsig, -⟩ := sPhaseOnly_ok hx.input .release
  exact Draws.CanReturn.lift hsig trivial

theorem scenarioA2_canReturn : (scenarioA2 .release fuel inputs i).CanReturn fun _ => True := by
  refine hin.read_canReturn hi ?_
  intro x hx
  obtain ⟨sig, hsig⟩ := hx.single
  exact Draws.CanReturn.lift hsig trivial

theorem scenarioB_canReturn : (scenarioB .release fuel inputs i).CanReturn fun _ => True := by
  refine hin.read_canReturn hi ?_
  intro x hx
  obtain ⟨sigA, hA⟩ := hx.single
  obtain ⟨sigB, hB⟩ := hx.coSigner
  refine (Draws.CanReturn.lift hA (P := fun _ => True) trivial).bind ?_
  intro _ _
  refine (Draws.CanReturn.lift hB (P := fun _ => True) trivial).bind ?_
  intro _ _
  exact Draws.CanReturn.pure trivial

theorem scenarioC1_canReturn : (scenarioC1 .release inputs i).CanReturn fun _ => True := by
  refine hin.read_canReturn hi ?_
  intro x hx
  exact thresholdSign_canReturn hx.input.thresholdKey hx.input.thresholdPresign hx.nonce.1 hx.nonce.2 hx.threshold

theorem scenarioC2_canReturn : (scenarioC2 .release inputs i).CanReturn fun _ => True := by
  refine hin.read_canReturn hi ?_
  intro x hx
  refine (thresholdPresign_canReturn x.thresholdKey).bind ?_
  rintro p ⟨hp, hA, hB⟩
  refine (thresholdSign_canReturn hx.input.thresholdKey hp hA hB hx.threshold).bind ?_
  intro _ _
  exact Draws.CanReturn.pure trivial

/-- The share is encrypted with the draw 1. -/
theorem scenarioC3_canReturn {p q : ℕ} {kp : Paillier.KeyPair} (hpq : Paillier.PrimesOf 1024 p q)
    (hk : Paillier.KeyOf p q kp) {shares : List Int}
    (hshares : Filled total shares fun _ => NonzeroBelow Secp256k1.n) :
    (scenarioC3 .release inputs kp.pub shares i).CanReturn fun _ => True := by
  refine hin.read_canReturn hi ?_
  intro x hx
  refine (thresholdSign_canReturn hx.input.thresholdKey hx.input.thresholdPresign hx.nonce.1 hx.nonce.2
    hx.threshold).bind ?_
  intro _ _
  refine hshares.read_canReturn hi ?_
  rintro share ⟨h1, hn⟩
  have hN := n_lt_paillier hpq hk
  have henc := Paillier.run_encrypt (r := 1) (show Canon kp.pub.n share from ⟨by omega, by omega⟩) (le_refl 1)
    (by omega) (Int.one_gcd)
  refine Draws.CanReturn.bind (P := fun _ => True) ⟨[1], _, trivial, henc⟩ ?_
  intro _ _
  exact Draws.CanReturn.pure trivial

end

/-! ## The program -/

/-- Some private key signs message `i`. -/
def CanSign (fuel i : Nat) : Prop :=
  ∃ d, NonzeroBelow Secp256k1.n d ∧ ∃ sig, sign .release fuel d (benchMessage i) = .ok sig

section
variable {mpzNextprime : Int → Int} (hprime : ∀ x, (mpzNextprime x).toNat.Prime) {fuel : Nat}
  {keyTape : List Int} {opensslKey : Nat → Bool} {iterations : Nat} (htotal : iterations + kWarmup < 2 ^ 31)
include hprime htotal

theorem benchAll_canReturn (hinputs : ∀ i < iterations + kWarmup, opensslKey i = true ∧ CanSign fuel i)
    {kp : Paillier.KeyPair} {rest : List Int}
    (hkp : (Paillier.generateKeys mpzNextprime 1024).run keyTape = (.ok kp, rest)) :
    (benchAll .release fuel mpzNextprime keyTape opensslKey iterations).CanReturn fun _ => True := by
  obtain ⟨p, q, hpq, hk⟩ := Paillier.generateKeys_returns hprime 1024 _ _ _ hkp
  refine (Draws.CanReturn.lift (P := fun total => total = iterations + kWarmup) (if_pos htotal) rfl).bind ?_
  rintro _ rfl
  have hmake : ∀ i < iterations + kWarmup, (makeInput .release opensslKey i).CanReturn (Signable fuel i) := by
    intro i hi
    obtain ⟨hkey, d, hd, hsig⟩ := hinputs i hi
    exact makeInput_canReturn hkey hd hsig
  refine (forLoop_canReturn hmake).bind ?_
  intro inputs hin
  refine (runBenchmark_canReturn fun i hi => scenarioA0_canReturn hin hi).bind ?_
  intro _ _
  refine (runBenchmark_canReturn fun i hi => scenarioA1_canReturn hin hi).bind ?_
  intro _ _
  refine (runBenchmark_canReturn fun i hi => scenarioA2_canReturn hin hi).bind ?_
  intro _ _
  refine (runBenchmark_canReturn fun i hi => scenarioB_canReturn hin hi).bind ?_
  intro _ _
  refine (runBenchmark_canReturn fun i hi => scenarioC1_canReturn hin hi).bind ?_
  intro _ _
  refine (runBenchmark_canReturn fun i hi => scenarioC2_canReturn hin hi).bind ?_
  intro _ _
  refine (Draws.CanReturn.lift (P := fun x => x = kp) (congrArg Prod.fst hkp) rfl).bind ?_
  rintro _ rfl
  have hshare : (uniformNonzeroBelow Secp256k1.n).CanReturn (NonzeroBelow Secp256k1.n) :=
    (uniformNonzeroBelow_canReturn one_range).mono fun _ hx => hx ▸ one_range
  refine (forLoop_canReturn fun _ _ => hshare).bind ?_
  intro shares hshares
  refine (runBenchmark_canReturn fun i hi => scenarioC3_canReturn hin hi hpq hk hshares).bind ?_
  intro _ _
  exact Draws.CanReturn.pure trivial

/-- **A whole run of the benchmark**, for every number of iterations whose sum with the warm-up is
an `int`: it returns a report in which every signature verifies and every share comes back from its
ciphertext, or it ends for want of draws or rounds, with one of the three exceptions that sampling
can cause, or with `return 1` because OpenSSL made no key.  No other exception is thrown and no
vector is read outside its bounds.  Some tape makes it report exactly when OpenSSL makes every key,
each message can be signed, and `generate_keys` returns. -/
theorem benchAll_ends :
    Outcomes fuel mpzNextprime keyTape opensslKey iterations ∧
    ((∃ tape rest rep,
        (benchAll .release fuel mpzNextprime keyTape opensslKey iterations).run tape = (.ok rep, rest)) ↔
      (∀ i < iterations + kWarmup, opensslKey i = true ∧ CanSign fuel i) ∧
        ∃ kp rest, (Paillier.generateKeys mpzNextprime 1024).run keyTape = (.ok kp, rest)) := by
  have houtcomes := benchAll_outcomes hprime fuel keyTape opensslKey htotal
  refine ⟨houtcomes, ?_, ?_⟩
  · rintro ⟨tape, rest, rep, hrun⟩
    have hrep := houtcomes.returns _ _ _ hrun
    refine ⟨?_, rep.paillierKeys, hrep.paillierKeys.1⟩
    intro i hi
    refine ⟨hrep.opensslKeys i hi, ?_⟩
    -- A2 signed the message
    obtain ⟨hlen, ha2⟩ := hrep.a2
    obtain ⟨x, hx, hsig, -⟩ := ha2 i _ (List.getElem?_eq_getElem (hlen.symm ▸ hi))
    exact ⟨x.singleKey.d, (hrep.inputs.2 i x hx).singleKey.1, _, hsig⟩
  · rintro ⟨hinputs, kp, rest, hkp⟩
    obtain ⟨tape, rep, -, hrun⟩ := benchAll_canReturn hprime htotal hinputs hkp
    exact ⟨_, _, rep, hrun []⟩

end

/-! ## One report: a single iteration, all private keys 1 -/

/-- A signature of a message under the key 1: the scalar of the message, the nonce and its point. -/
structure SampleRow where
  i : Nat
  z : Nat
  k : Nat
  x : Nat
  y : Nat

/-- The nonce of the row is the first candidate, its point is finite, and neither `r` nor `s` is zero. -/
theorem SampleRow.canSign {m : SampleRow} (hz : hashToScalar (doubleSha256 (benchMessage m.i)) Secp256k1.n = m.z)
    (hk : nonceCandidate 1 m.z = m.k) (hladder : ladderCheck m.k.log2 m.k m.x m.y = true)
    (hrange : (1 ≤ (m.k : Int) ∧ (m.k : Int) < Secp256k1.n) ∧ (m.x : Int) < Secp256k1.p ∧ (m.y : Int) < Secp256k1.p)
    (hr : (m.x : Int).tmod Secp256k1.n ≠ 0) (hs : ((m.z : Int) + m.x) % Secp256k1.n ≠ 0) (fuel : Nat) :
    CanSign (fuel + 1) m.i := by
  obtain ⟨hkn, hx, hy⟩ := hrange
  have hk0 := cast_ne_zero_of_range hkn
  have hnonce := deriveNonce_of_candidate (d := 1) (by decide) hz hk hkn fuel
  rw [Nat.cast_one] at hnonce
  have hpoint := nsmul_G_denotes hladder hx hy
  obtain ⟨R, hR, hden⟩ := scalarMul_denotes m.k generator_denotes
  rw [← natCast_zsmul] at hpoint
  have hRx : R.x = m.x := by rw [← hpoint.record_unique hden rfl]
  rw [← secp_base_intCast] at hden
  obtain ⟨ρ, -, hρ⟩ := tmod_n_rep hden (hden.finite_of_ne_zero hk0)
  rw [hRx] at hρ
  have hζ := hashToScalar_rep (doubleSha256 (benchMessage m.i))
  obtain ⟨s, hsr, hphase⟩ := signSPhase_spec (canon_of_range one_range).rep hζ (canon_of_range hkn).rep hρ hk0
  have hs0 : s ≠ 0 := by
    intro h0
    apply hs
    have hσ := hsr.eq_zero_iff.mp h0
    rw [mul_eq_zero, or_iff_right (inv_ne_zero hk0), ← hζ.2, hz, ← hρ.2,
      Int.tmod_eq_emod_of_nonneg (Int.natCast_nonneg _), cast_emod n_pos.le, Int.cast_one, mul_one] at hσ
    rw [emod_n_eq_zero_iff, Int.cast_add, hσ]
  have hsig := signWithHash_of_nonce hnonce (hR .release) (show R.x.tmod Secp256k1.n ≠ 0 by rwa [hRx])
  rw [hRx, hphase, if_neg hs0] at hsig
  exact ⟨1, one_range, _, hsig⟩

def sampleRows : List SampleRow :=
  [⟨0, 100947070177784781227999777121597993006183818900578794466743044382235646246639,
    54845649252850554399711590810051789834510951678276419423078032733888438186695,
    2308500980263823101278721567787776258815992330555274980553190836655700703068,
    60993309792292621181499810847857141108360155930130159247515354583156359034474⟩,
   ⟨1, 27718081724144141720494554685054446408865505107257986785403753526461691790322,
    90763577352363316053097031031458861940544381979241266730849855795422669359898,
    106301402812184914148958575148274740270944148407482381547131236272364548220481,
    43186677933712263946663257872168746221477003844826746121375794659279553309655⟩,
   ⟨2, 36701202028288933315758644665747669217721224689093423234089372442428302478496,
    71322384608809048239260690447184497502903289546483861610420926882319152483684,
    37838014111839547730324186744937090216508765508286875332136381327016753287662,
    97568745679517985894900680452719381558273157847800842522825214191253875195669⟩,
   ⟨3, 2882309934997700500995130554245467999710234302660825361397108429774516081404,
    2234165074131274944279853382435086259696331697683015365890790130568100777148,
    29674320537287194244127498748282108769954099639790058887454491132268183651992,
    71958545699909714411067900195843791898985324410215966638171083389578071209639⟩,
   ⟨4, 30471778552582230851573928306922327248052085333059694271224047732873806555901,
    92318499649514207687162132432852901986258951663671583967869070545811752764683,
    1141437443017337850448950603110003114538405948274606430153185565604253392729,
    43568046561416004624616982156260170053985664192728414294492474757958998083800⟩,
   ⟨5, 80681922479306409180235307623190143431664513055792388040592863763988379260780,
    96355368827605739887486073585444671372814838517330666407254228507046160517901,
    33632110022655540356291737851158590979823151555309228728508567524280213946795,
    79646339094861899166821980267373208572402602084850011946413672813881074634239⟩,
   ⟨6, 88889992359419457548875899879453711529563958054602487388182028937115830288733,
    44623563475273727003984112384842162580875116529983228830795039645713360497170,
    37468685811681086654851940504934318356201365209939948331014703778353907029198,
    97458525794238277396791666051578476375014551096857067846764430091081184108313⟩,
   ⟨7, 6923187987646746014188184366921703124605002993057179757696980431342253317904,
    14321199663543124051565163574428809153666736866187519414631326728216102418247,
    105601244044961184569489552367795169750927909417649947916126993253215509701087,
    75605728420852922455241707035757863087541333979274266060318789223967110094867⟩,
   ⟨8, 65927994019083172925282997512314202567130149541983176251347252752973817276878,
    113617690139502546170093586998604588165071296778697096919887666810577585328924,
    19620462608593032890172094086822433663941889583523106311106060262219421933757,
    85835983537013333667605354551834673728531498258051239420848752113369414977569⟩,
   ⟨9, 84236443207830718514933980926398362402120308329223195809433440079699297951491,
    39828302480299620805581658241329952500659944927037959990994744514812264857985,
    81635846025327054263920755923513561917245689773158704777013803538458434552867,
    114301811788866995961269074390940865411573923535950203304811856877727635004475⟩,
   ⟨10, 59496604141799372487560332983563978398327311602500495686573873148771877497203,
    7280135868500617889593444184999826802755467730925857137912350276369356875816,
    38744041143291565677563212585413647656645739357215580395123386285900823203243,
    75999971846770506622292813770407704267843863788283449108107151363789349552655⟩]

set_option maxRecDepth 20000 in
theorem sampleRows_scalar : ∀ m ∈ sampleRows,
    hashToScalar (doubleSha256 (benchMessage m.i)) Secp256k1.n = m.z := by
  unfold doubleSha256
  rw [sha256_eq_eval]
  decide +kernel

set_option maxRecDepth 20000 in
theorem sampleRows_nonce : ∀ m ∈ sampleRows, nonceCandidate 1 m.z = m.k := by
  unfold nonceCandidate NonceState.candidateNat seedState
  rw [hmacSha256_eq_eval]
  decide +kernel

set_option maxRecDepth 20000 in
theorem sampleRows_ladder : ∀ m ∈ sampleRows, ladderCheck m.k.log2 m.k m.x m.y = true := by decide +kernel

theorem sampleRows_range : ∀ m ∈ sampleRows,
    ((1 ≤ (m.k : Int) ∧ (m.k : Int) < Secp256k1.n) ∧ (m.x : Int) < Secp256k1.p ∧ (m.y : Int) < Secp256k1.p) ∧
      (m.x : Int).tmod Secp256k1.n ≠ 0 ∧ ((m.z : Int) + m.x) % Secp256k1.n ≠ 0 := by decide +kernel

theorem sample_canSign {i : Nat} (hi : i < 1 + kWarmup) : CanSign 1 i := by
  have hrow : ∀ i < 1 + kWarmup, ∃ m ∈ sampleRows, m.i = i := by decide
  obtain ⟨m, hm, rfl⟩ := hrow i hi
  obtain ⟨hrange, hr, hs⟩ := sampleRows_range m hm
  exact m.canSign (sampleRows_scalar m hm) (sampleRows_nonce m hm) (sampleRows_ladder m hm) hrange hr hs 0

def samplePrimeP : Nat := 6045 * 2 ^ 1011 + 1

def samplePrimeQ : Nat := 7161 * 2 ^ 1011 + 1

/-- Lucas tests for the two, and for the odd primes before them. -/
def samplePrimes : List Lucas.Test :=
  [⟨2, 1, []⟩, ⟨3, 2, [(2, 1)]⟩, ⟨5, 2, [(2, 2)]⟩, ⟨7, 3, [(2, 1), (3, 1)]⟩, ⟨11, 2, [(2, 1), (5, 1)]⟩,
   ⟨13, 2, [(2, 2), (3, 1)]⟩, ⟨31, 3, [(2, 1), (3, 1), (5, 1)]⟩,
   ⟨samplePrimeP, 22, [(2, 1011), (3, 1), (5, 1), (13, 1), (31, 1)]⟩,
   ⟨samplePrimeQ, 13, [(2, 1011), (3, 1), (7, 1), (11, 1), (31, 1)]⟩]

set_option maxRecDepth 20000 in
theorem samplePrimes_ok : Lucas.Table.ok [] samplePrimes = true := by decide +kernel

theorem prime_of_mem_samplePrimes {q : Nat} (h : q ∈ samplePrimes.map Lucas.Test.p) : q.Prime := by
  obtain ⟨t, ht, rfl⟩ := List.mem_map.mp h
  exact Lucas.Table.prime (fun q hq => by cases hq) samplePrimes_ok t ht

theorem samplePrimes_primesOf : Paillier.PrimesOf 1024 samplePrimeP samplePrimeQ where
  prime_p := prime_of_mem_samplePrimes (by simp [samplePrimes])
  prime_q := prime_of_mem_samplePrimes (by simp [samplePrimes])
  ne := by decide +kernel
  bits_p := by decide +kernel
  bits_q := by decide +kernel
  bits_n := by decide +kernel

/-- The draws of `generate_keys`. -/
def sampleKeyTape : List Int := [(samplePrimeP : Int) - 1, (samplePrimeQ : Int) - 1]

/-- A report for one iteration. -/
theorem benchAll_ends_sample : (∀ x, (Paillier.nextPrime x).toNat.Prime) ∧ 1 + kWarmup < 2 ^ 31 ∧
    ∃ tape rest rep,
      (benchAll .release 1 Paillier.nextPrime sampleKeyTape (fun _ => true) 1).run tape = (.ok rep, rest) ∧
      ReportOk 1 Paillier.nextPrime sampleKeyTape (fun _ => true) 1 rep := by
  have htotal : 1 + kWarmup < 2 ^ 31 := by decide
  obtain ⟨kp, -, hk⟩ := samplePrimes_primesOf.keysOfPrimes_returns
  have hkp := samplePrimes_primesOf.run_generateKeys Paillier.nextPrime_spec hk
  obtain ⟨houtcomes, hreports⟩ := @benchAll_ends _ Paillier.nextPrime_prime 1 sampleKeyTape (fun _ => true) 1 htotal
  obtain ⟨tape, rest, rep, hrun⟩ := hreports.mpr ⟨fun i hi => ⟨rfl, sample_canSign hi⟩, kp, [], hkp⟩
  exact ⟨Paillier.nextPrime_prime, htotal, tape, rest, rep, hrun, houtcomes.returns _ _ _ hrun⟩

end Bench

end Tecdsa
