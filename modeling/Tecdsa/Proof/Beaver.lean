import Tecdsa.Proof.KeyFlow

/-!
# `beaver_mul` multiplies, for every modulus

What `generate_triple` deals is a sharing of `a`, `b` and `a b` by canonical
residues, and that is all `beaver_mul` needs of a triple.  No inverse is taken,
so the modulus need not be prime:

    Yields (generateTriple q) (TripleShares q) .exhausted            (generateTriple_yields)
    z1 + z2 = (x1 + x2) (y1 + y2)                                    (beaverMul_sum)
-/

namespace Tecdsa

open Residue SharedDivision

section
variable {q : Int}

/-! ## Triples -/

/-- Canonical shares of `a`, `b` and of their product modulo `q`. -/
structure TripleShares (q : Int) (T : BeaverTriple) : Prop where
  a1 : Canon q T.a1
  a2 : Canon q T.a2
  b1 : Canon q T.b1
  b2 : Canon q T.b2
  c1 : Canon q T.c1
  c2 : Canon q T.c2
  product : (T.a1 + T.a2) * (T.b1 + T.b2) % q = (T.c1 + T.c2) % q

/-- What represents a triple of residues is a triple. -/
theorem TripleRep.shares {T : BeaverTriple} {T' : Triple (ZMod q.toNat)} (h : TripleRep q T T') :
    TripleShares q T where
  a1 := h.a1.1
  a2 := h.a2.1
  b1 := h.b1.1
  b2 := h.b2.1
  c1 := h.c1.1
  c2 := h.c2.1
  product := by
    rw [← cast_eq_cast_iff h.a1.1.pos.le]
    push_cast
    rw [h.a1.2, h.a2.2, h.b1.2, h.b2.2, h.c1.2, h.c2.2]
    exact T'.product.symm

/-- A triple represents the triple of its residues. -/
theorem TripleShares.rep {T : BeaverTriple} (h : TripleShares q T) :
    ∃ T' : Triple (ZMod q.toNat), TripleRep q T T' := by
  have hproduct : (T.c1 : ZMod q.toNat) + T.c2 = (T.a1 + T.a2) * (T.b1 + T.b2) := by
    have hcast := (cast_eq_cast_iff h.a1.pos.le _ _).mpr h.product.symm
    push_cast at hcast
    exact hcast
  exact ⟨⟨T.a1, T.a2, T.b1, T.b2, T.c1, T.c2, hproduct⟩,
    ⟨h.a1.rep, h.a2.rep, h.b1.rep, h.b2.rep, h.c1.rep, h.c2.rep⟩⟩

/-- `generate_triple` deals triples and stops with its draws only. -/
theorem generateTriple_yields (q : Int) :
    (generateTriple q).Yields (TripleShares q) .exhausted := by
  unfold generateTriple
  refine Draws.Yields.bind (uniformBelow_yields q) ?_
  intro a ha
  refine Draws.Yields.bind (uniformBelow_yields q) ?_
  intro b hb
  refine Draws.Yields.bind (uniformBelow_yields q) ?_
  intro a1 ha1
  refine Draws.Yields.bind (uniformBelow_yields q) ?_
  intro b1 hb1
  refine Draws.Yields.bind (uniformBelow_yields q) ?_
  intro c1 hc1
  exact Draws.Yields.pure (tripleRep_of_draws ha hb ha1 hb1 hc1).shares _

/-! ## Products -/

section
variable {T : BeaverTriple} (hT : TripleShares q T) {x1 x2 y1 y2 : Int} (hx1 : Canon q x1)
  (hx2 : Canon q x2) (hy1 : Canon q y1) (hy2 : Canon q y2)

include hT hx1 hx2 hy1 hy2

/-- Both shares stay canonical through the conditional subtractions. -/
theorem beaverMul_canon :
    Canon q (beaverMul x1 x2 y1 y2 T q).1 ∧ Canon q (beaverMul x1 x2 y1 y2 T q).2 := by
  obtain ⟨T', hrep⟩ := hT.rep
  have hmul := beaverMulRun_rep hx1.rep hx2.rep hy1.rep hy2.rep hrep
  exact ⟨hmul.z1.1, hmul.z2.1⟩

theorem beaverMul_sum :
    modAdd (beaverMul x1 x2 y1 y2 T q).1 (beaverMul x1 x2 y1 y2 T q).2 q =
      (x1 + x2) * (y1 + y2) % q := by
  obtain ⟨T', hrep⟩ := hT.rep
  have hmul := beaverMulRun_rep hx1.rep hx2.rep hy1.rep hy2.rep hrep
  have hsum := (modAdd_rep hmul.z1 hmul.z2).of_cast (mul_sum _ _ _ _ T')
  have hprod := rep_emod hx1.pos ((x1 + x2) * (y1 + y2))
  push_cast at hprod
  exact hsum.congr hprod

end

/-- **Beaver multiplication**, on every tape and modulo every `q`.  The second
part says that five draws in range make a triple. -/
theorem beaverMul_correct (q : Int) :
    (generateTriple q).Yields (fun T => TripleShares q T ∧
      ∀ x1 x2 y1 y2 : Int, Canon q x1 → Canon q x2 → Canon q y1 → Canon q y2 →
        (Canon q (beaverMul x1 x2 y1 y2 T q).1 ∧ Canon q (beaverMul x1 x2 y1 y2 T q).2) ∧
        modAdd (beaverMul x1 x2 y1 y2 T q).1 (beaverMul x1 x2 y1 y2 T q).2 q =
          (x1 + x2) * (y1 + y2) % q ∧
        modAdd (beaverMul x2 x1 y2 y1 T q).1 (beaverMul x2 x1 y2 y1 T q).2 q =
          modAdd (beaverMul x1 x2 y1 y2 T q).1 (beaverMul x1 x2 y1 y2 T q).2 q) .exhausted ∧
    ∀ a b a1 b1 c1 : Int, Canon q a → Canon q b → Canon q a1 → Canon q b1 → Canon q c1 →
      ∀ rest, ∃ T, (generateTriple q).run (a :: b :: a1 :: b1 :: c1 :: rest) = (.ok T, rest) := by
  refine ⟨(generateTriple_yields q).mono ?_, ?_⟩
  · intro T hT
    refine ⟨hT, ?_⟩
    intro x1 x2 y1 y2 hx1 hx2 hy1 hy2
    refine ⟨beaverMul_canon hT hx1 hx2 hy1 hy2, beaverMul_sum hT hx1 hx2 hy1 hy2, ?_⟩
    rw [beaverMul_sum hT hx1 hx2 hy1 hy2, beaverMul_sum hT hx2 hx1 hy2 hy1, add_comm x2, add_comm y2]
  · intro a b a1 b1 c1 ha hb ha1 hb1 hc1 rest
    obtain ⟨T, hrun, -⟩ := run_generateTriple (t := ⟨a, b, a1, b1, c1⟩) ⟨ha, hb, ha1, hb1, hc1⟩ rest
    exact ⟨T, hrun⟩

end

/-- A composite modulus. -/
theorem beaverMul_correct_six : (generateTriple 6).run [4, 5, 3, 1, 2] = (.ok ⟨3, 1, 1, 4, 2, 0⟩, []) ∧
    modAdd (beaverMul 5 4 3 5 ⟨3, 1, 1, 4, 2, 0⟩ 6).1 (beaverMul 5 4 3 5 ⟨3, 1, 1, 4, 2, 0⟩ 6).2 6 =
      (5 + 4) * (3 + 5) % 6 := by
  have hrun : (generateTriple 6).run [4, 5, 3, 1, 2] = (.ok ⟨3, 1, 1, 4, 2, 0⟩, []) := by rfl
  refine ⟨hrun, ?_⟩
  rcases (beaverMul_correct 6).1 [4, 5, 3, 1, 2] with ⟨T, rest, hT, -, hmul⟩ | ⟨rest, hstop⟩
  · rw [hrun] at hT
    cases hT
    exact (hmul 5 4 3 5 (by decide) (by decide) (by decide) (by decide)).2.1
  · rw [hrun] at hstop
    cases hstop

end Tecdsa
