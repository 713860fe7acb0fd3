import Tecdsa.Code.Threshold
import Tecdsa.Lib.SharedDivision
import Tecdsa.Proof.Verify

/-!
# The two-party functions compute on residues what the protocol computes

`threshold_sign` is a division on shares: of `z + r sk` by `k`.  On canonical
shares and draws in range every value of a run is the canonical representative
of the protocol's value:

    run_generateTriple, beaverMulRun_rep, run_maskedInverseRun, run_thresholdSignRun
-/

namespace Tecdsa

open Residue SharedDivision

/-! ## Draws -/

theorem run_uniformBelow {q x : Int} (hx : Canon q x) (rest : List Int) :
    (uniformBelow q).run (x :: rest) = (.ok x, rest) :=
  Draws.run_draw_cons (by simp [hx.1, hx.2]) rest

/-! ## Triples and products, for every modulus -/

section
variable {q : Int}

/-- The shares of a triple are canonical and denote those of `T'`. -/
structure TripleRep (q : Int) (T : BeaverTriple) (T' : Triple (ZMod q.toNat)) : Prop where
  a1 : Rep q T.a1 T'.a1
  a2 : Rep q T.a2 T'.a2
  b1 : Rep q T.b1 T'.b1
  b2 : Rep q T.b2 T'.b2
  c1 : Rep q T.c1 T'.c1
  c2 : Rep q T.c2 T'.c2

structure ProductRep (q : Int) (P : BeaverRun) (P' : Product (ZMod q.toNat)) : Prop where
  d : Rep q P.d P'.d
  e : Rep q P.e P'.e
  z1 : Rep q P.z1 P'.z1
  z2 : Rep q P.z2 P'.z2

/-- A deal of the tape, as residues. -/
def castDeal (q : Int) (t : Deal Int) : Deal (ZMod q.toNat) := t.map fun x : Int => (x : ZMod q.toNat)

/-- Five draws and the triple made of them. -/
theorem tripleRep_of_draws {a b a1 b1 c1 : Int} (ha : Canon q a) (hb : Canon q b) (ha1 : Canon q a1)
    (hb1 : Canon q b1) (hc1 : Canon q c1) :
    TripleRep q ⟨a1, modSub a a1 q, b1, modSub b b1 q, c1, modSub (modMul a b q) c1 q⟩
      (castDeal q ⟨a, b, a1, b1, c1⟩).triple where
  a1 := ha1.rep
  a2 := modSub_rep ha.rep ha1.rep
  b1 := hb1.rep
  b2 := modSub_rep hb.rep hb1.rep
  c1 := hc1.rep
  c2 := modSub_rep (modMul_rep ha.rep hb.rep) hc1.rep

theorem run_generateTriple {t : Deal Int} (ht : t.All (Canon q)) (rest : List Int) :
    ∃ T, (generateTriple q).run (t.toList ++ rest) = (.ok T, rest) ∧
      TripleRep q T (castDeal q t).triple := by
  obtain ⟨a, b, a1, b1, c1⟩ := t
  obtain ⟨ha, hb, ha1, hb1, hc1⟩ := ht
  refine ⟨_, ?_, tripleRep_of_draws ha hb ha1 hb1 hc1⟩
  show (generateTriple q).run (a :: b :: a1 :: b1 :: c1 :: rest) = _
  unfold generateTriple
  rw [Draws.run_bind_of_ok (run_uniformBelow ha _),
    Draws.run_bind_of_ok (run_uniformBelow hb _), Draws.run_bind_of_ok (run_uniformBelow ha1 _),
    Draws.run_bind_of_ok (run_uniformBelow hb1 _), Draws.run_bind_of_ok (run_uniformBelow hc1 _)]
  rfl

theorem beaverMulRun_rep {x1 x2 y1 y2 : Int} {X1 X2 Y1 Y2 : ZMod q.toNat} {T : BeaverTriple}
    {T' : Triple (ZMod q.toNat)} (hx1 : Rep q x1 X1) (hx2 : Rep q x2 X2) (hy1 : Rep q y1 Y1)
    (hy2 : Rep q y2 Y2) (hT : TripleRep q T T') :
    ProductRep q (beaverMulRun x1 x2 y1 y2 T q) (mul X1 X2 Y1 Y2 T') := by
  have hd := modAdd_rep (modSub_rep hx1 hT.a1) (modSub_rep hx2 hT.a2)
  have he := modAdd_rep (modSub_rep hy1 hT.b1) (modSub_rep hy2 hT.b2)
  exact {
    d := hd
    e := he
    z1 := modAdd_rep (modAdd_rep (modAdd_rep hT.c1 (modMul_rep hd hT.b1)) (modMul_rep he hT.a1))
      (modMul_rep hd he)
    z2 := modAdd_rep (modAdd_rep hT.c2 (modMul_rep hd hT.b2)) (modMul_rep he hT.a2) }

end

/-! ## The masked inverse, for every prime modulus -/

section
variable {q : Int} [Fact q.toNat.Prime]

/-- The Release build inverts everything, the Debug build what is not zero. -/
theorem modInv_rep_of_build {build : Build} {x : Int} {a : ZMod q.toNat} (hx : Rep q x a)
    (h : build = .release ∨ a ≠ 0) : ∃ r, modInv build x q = .ok r ∧ Rep q r a⁻¹ := by
  rcases h with rfl | ha
  · exact modInv_release_rep hx
  · obtain ⟨r, hr, hrep⟩ := modInv_rep hx ha
    exact ⟨r, hr build, hrep⟩

/-- The part of a division that `masked_inverse` computes. -/
structure MaskedRep (q : Int) [Fact q.toNat.Prime] (run : MaskedRun) (r1 r2 : Int)
    (k1 k2 : ZMod q.toNat) (T : Triple (ZMod q.toNat)) : Prop where
  mask1 : run.r1 = r1
  mask2 : run.r2 = r2
  mul : ProductRep q run.mul (SharedDivision.mul k1 k2 r1 r2 T)
  m : Rep q run.m ((k1 + k2) * ((r1 : ZMod q.toNat) + r2))
  kinv1 : Rep q run.kinv1 (r1 * ((k1 + k2) * ((r1 : ZMod q.toNat) + r2))⁻¹)
  kinv2 : Rep q run.kinv2 (r2 * ((k1 + k2) * ((r1 : ZMod q.toNat) + r2))⁻¹)

theorem run_maskedInverseRun {build : Build} {k1 k2 r1 r2 : Int} {K1 K2 : ZMod q.toNat}
    {T : BeaverTriple} {T' : Triple (ZMod q.toNat)} (hk1 : Rep q k1 K1) (hk2 : Rep q k2 K2)
    (hT : TripleRep q T T') (hr1 : Canon q r1) (hr2 : Canon q r2)
    (hb : build = .release ∨ (K1 + K2) * ((r1 : ZMod q.toNat) + r2) ≠ 0) (rest : List Int) :
    ∃ run, (maskedInverseRun build k1 k2 T q).run (r1 :: r2 :: rest) = (.ok run, rest) ∧
      MaskedRep q run r1 r2 K1 K2 T' := by
  have hmul := beaverMulRun_rep hk1 hk2 hr1.rep hr2.rep hT
  have hm : Rep q (modAdd (beaverMulRun k1 k2 r1 r2 T q).z1 (beaverMulRun k1 k2 r1 r2 T q).z2 q)
      ((K1 + K2) * ((r1 : ZMod q.toNat) + r2)) :=
    (modAdd_rep hmul.z1 hmul.z2).of_cast (mul_sum _ _ _ _ _)
  obtain ⟨mInv, hinv, hinvrep⟩ := modInv_rep_of_build hm hb
  refine ⟨⟨r1, r2, beaverMulRun k1 k2 r1 r2 T q,
    modAdd (beaverMulRun k1 k2 r1 r2 T q).z1 (beaverMulRun k1 k2 r1 r2 T q).z2 q,
    modMul r1 mInv q, modMul r2 mInv q⟩, ?_, ?_⟩
  · unfold maskedInverseRun maskedInverseRunWith drawnInv
    simp only [Draws.liftM_self, Draws.run_bind_of_ok (run_uniformBelow hr1 _),
      Draws.run_bind_of_ok (run_uniformBelow hr2 _), Draws.run_lift_bind hinv, Draws.run_pure]
  · exact {
      mask1 := rfl
      mask2 := rfl
      mul := hmul
      m := hm
      kinv1 := modMul_rep hr1.rep hinvrep
      kinv2 := modMul_rep hr2.rep hinvrep }

end

/-! ## Signing -/

/-- The shares a presign holds are canonical. -/
structure CanonPresign (p : ThresholdPresign) : Prop where
  r : Canon Secp256k1.n p.r
  sk1 : Canon Secp256k1.n p.sk1
  sk2 : Canon Secp256k1.n p.sk2
  k1 : Canon Secp256k1.n p.k1
  k2 : Canon Secp256k1.n p.k2

/-- `k` and `z + r sk`, as shared by steps A and B. -/
def signInputs (p : ThresholdPresign) (h : Sha256Hash) : Inputs Fn where
  k1 := p.k1
  k2 := p.k2
  y1 := (hashToScalar h Secp256k1.n : Int) + (p.r : Fn) * p.sk1
  y2 := (p.r : Fn) * p.sk2

/-- The tape, as residues modulo `n`. -/
def castTape (t : Tape Int) : Tape Fn := t.map fun x : Int => (x : Fn)

/-- Every value of the run represents the protocol's. -/
structure SignRep (run : SignRun) (x : Inputs Fn) (t : Tape Int) : Prop where
  tripleInv : TripleRep Secp256k1.n run.tripleInv (castTape t).inv.triple
  mask1 : run.inv.r1 = t.r1
  mask2 : run.inv.r2 = t.r2
  inv : ProductRep Secp256k1.n run.inv.mul (divide x (castTape t)).inv
  m : Rep Secp256k1.n run.inv.m (divide x (castTape t)).m
  tripleS : TripleRep Secp256k1.n run.tripleS (castTape t).mul.triple
  mul : ProductRep Secp256k1.n run.mul (divide x (castTape t)).mul
  s : Rep Secp256k1.n run.s (divide x (castTape t)).s

/-- **A run of `threshold_sign` up to the opened `s` is a division on shares.** -/
theorem run_thresholdSignRun {build : Build} {p : ThresholdPresign} (hp : CanonPresign p)
    (h : Sha256Hash) {t : Tape Int} (ht : t.All (Canon Secp256k1.n))
    (hb : build = .release ∨ (divide (signInputs p h) (castTape t)).m ≠ 0) (rest : List Int) :
    ∃ run, (thresholdSignRun build p h).run (t.toList ++ rest) = (.ok run, rest) ∧
      SignRep run (signInputs p h) t := by
  obtain ⟨inv, r1, r2, mul⟩ := t
  obtain ⟨hinv, hr1, hr2, hmul⟩ := ht
  rw [divide_m] at hb
  have hz := hashToScalar_rep h
  obtain ⟨T1, hT1, hT1rep⟩ := run_generateTriple hinv (r1 :: r2 :: (mul.toList ++ rest))
  obtain ⟨M, hM, hMrep⟩ := run_maskedInverseRun hp.k1.rep hp.k2.rep hT1rep hr1 hr2 hb
    (mul.toList ++ rest)
  obtain ⟨T2, hT2, hT2rep⟩ := run_generateTriple hmul rest
  have hy1 := modAdd_rep hz.1.rep (modMul_rep hp.r.rep hp.sk1.rep)
  have hy2 := modMul_rep hp.r.rep hp.sk2.rep
  have hprod := beaverMulRun_rep hMrep.kinv1 hMrep.kinv2 hy1 hy2 hT2rep
  have hdiv := divide_mul (signInputs p h) (castTape ⟨inv, r1, r2, mul⟩)
  have hs : (divide (signInputs p h) (castTape ⟨inv, r1, r2, mul⟩)).s =
      (divide (signInputs p h) (castTape ⟨inv, r1, r2, mul⟩)).mul.z1 +
        (divide (signInputs p h) (castTape ⟨inv, r1, r2, mul⟩)).mul.z2 := rfl
  rw [hdiv] at hs
  generalize hP : beaverMulRun M.kinv1 M.kinv2 _ _ T2 Secp256k1.n = P at hprod
  refine ⟨⟨T1, M, T2, P, modAdd P.z1 P.z2 Secp256k1.n⟩, ?_, ?_⟩
  rotate_left
  · exact {
      tripleInv := hT1rep
      mask1 := hMrep.mask1
      mask2 := hMrep.mask2
      inv := hMrep.mul
      m := by rw [divide_m]; exact hMrep.m
      tripleS := hT2rep
      mul := by rw [hdiv]; exact hprod
      s := by rw [hs]; exact modAdd_rep hprod.z1 hprod.z2 }
  · rw [Tape.toList_append]
    unfold thresholdSignRun thresholdSignRunWith
    simp only [Draws.liftM_self, maskedInverseRunWith_drawnInv, Draws.run_bind_of_ok hT1, Draws.run_bind_of_ok hM,
      Draws.run_bind_of_ok hT2, Draws.run_pure, hP]

end Tecdsa
