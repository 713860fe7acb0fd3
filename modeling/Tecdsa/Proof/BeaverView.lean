import Tecdsa.Proof.Beaver
import Tecdsa.Proof.MaskedInverse
import Tecdsa.Proof.Sampling
import Tecdsa.Proof.Simulatable

/-!
# What a triple, a product and a masked inverse show

Modulo any `q` the dealer's five draws are one to one with the valid triples,
so a party's shares say nothing of `a` and `b`, and what a party sees of
`beaver_mul` does not depend on the other's inputs.  Modulo a prime the value
`masked_inverse` opens is uniform, whatever `k ≠ 0`.

    generateTriple_uniform          deals ~ triples
    beaverMul_simulatable           one view for all inputs of the other party
    maskedInverse_opening_uniform   m ~ r2, and m ~ r1
-/

namespace Tecdsa

open Residue SharedDivision

/-! ## Deals -/

/-- The triple that `generate_triple` makes of its draws. -/
def dealt (q : Int) (t : Deal Int) : BeaverTriple where
  a1 := t.a1
  a2 := modSub t.a t.a1 q
  b1 := t.b1
  b2 := modSub t.b t.b1 q
  c1 := t.c1
  c2 := modSub (modMul t.a t.b q) t.c1 q

section
variable {q : Int}

theorem run_generateTriple_dealt {t : Deal Int} (ht : t.All (Canon q)) (rest : List Int) :
    (generateTriple q).run (t.toList ++ rest) = (.ok (dealt q t), rest) := by
  obtain ⟨a, b, a1, b1, c1⟩ := t
  obtain ⟨ha, hb, ha1, hb1, hc1⟩ := ht
  show (generateTriple q).run (a :: b :: a1 :: b1 :: c1 :: rest) = _
  unfold generateTriple
  rw [Draws.run_bind_of_ok (run_uniformBelow ha _),
    Draws.run_bind_of_ok (run_uniformBelow hb _), Draws.run_bind_of_ok (run_uniformBelow ha1 _),
    Draws.run_bind_of_ok (run_uniformBelow hb1 _), Draws.run_bind_of_ok (run_uniformBelow hc1 _)]
  rfl

/-- The runs that return a triple. -/
theorem run_generateTriple_iff {T : BeaverTriple} {tape rest : List Int} :
    (generateTriple q).run tape = (.ok T, rest) ↔
      ∃ t : Deal Int, t.All (Canon q) ∧ tape = t.toList ++ rest ∧ T = dealt q t := by
  constructor
  · intro h
    obtain ⟨t, ht, rfl⟩ := generateTriple_eq_ok h
    rw [run_generateTriple_dealt ht] at h
    cases h
    exact ⟨t, ht, rfl, rfl⟩
  · rintro ⟨t, ht, rfl, rfl⟩
    exact run_generateTriple_dealt ht rest

theorem modSub_eq_iff {a x y : Int} (ha : Canon q a) (hx : Canon q x) (hy : Canon q y) :
    modSub a x q = y ↔ a = (x + y) % q := by
  have hsum := rep_emod ha.pos (x + y)
  push_cast at hsum
  rw [(modSub_rep ha.rep hx.rep).eq_iff hy.rep, ha.rep.eq_iff hsum, sub_eq_iff_eq_add']

/-- A triple is dealt exactly when it shares what was drawn. -/
theorem dealt_eq_iff {t : Deal Int} (ht : t.All (Canon q)) {T : BeaverTriple} (hT : TripleShares q T) :
    dealt q t = T ↔ t = ⟨(T.a1 + T.a2) % q, (T.b1 + T.b2) % q, T.a1, T.b1, T.c1⟩ := by
  obtain ⟨a, b, a1, b1, c1⟩ := t
  obtain ⟨ha, hb, ha1, hb1, hc1⟩ := ht
  have hab := modMul_rep ha.rep hb.rep
  simp only [dealt, Deal.mk.injEq]
  constructor
  · rintro rfl
    exact ⟨(modSub_eq_iff ha ha1 hT.a2).mp rfl, (modSub_eq_iff hb hb1 hT.b2).mp rfl, rfl, rfl, rfl⟩
  · rintro ⟨ha', hb', rfl, rfl, rfl⟩
    have hc : modMul a b q = (T.c1 + T.c2) % q := by
      rw [← hT.product]
      refine hab.congr ((rep_emod ha.pos _).of_cast ?_)
      rw [ha', hb', cast_emod ha.pos.le, cast_emod ha.pos.le, Int.cast_mul]
    rw [(modSub_eq_iff ha ha1 hT.a2).mpr ha', (modSub_eq_iff hb hb1 hT.b2).mpr hb',
      (modSub_eq_iff hab.1 hc1 hT.c2).mpr hc]

/-- The deal of a triple. -/
def dealOf (q : Int) (T : BeaverTriple) : Deal Int :=
  ⟨(T.a1 + T.a2) % q, (T.b1 + T.b2) % q, T.a1, T.b1, T.c1⟩

theorem dealOf_canon {T : BeaverTriple} (hT : TripleShares q T) : (dealOf q T).All (Canon q) :=
  ⟨canon_emod hT.a1.pos _, canon_emod hT.a1.pos _, hT.a1, hT.b1, hT.c1⟩

theorem dealt_shares {t : Deal Int} (ht : t.All (Canon q)) : TripleShares q (dealt q t) := by
  obtain ⟨a, b, a1, b1, c1⟩ := t
  obtain ⟨ha, hb, ha1, hb1, hc1⟩ := ht
  exact (tripleRep_of_draws ha hb ha1 hb1 hc1).shares

/-- What a party holds of a triple leaves the factors open. -/
theorem existsUnique_deal_of_own {x y z a b : Int} (hx : Canon q x) (hy : Canon q y) (hz : Canon q z)
    (ha : Canon q a) (hb : Canon q b) (i : Party) :
    ∃! t : Deal Int, t.All (Canon q) ∧ (dealt q t).own i = (x, y, z) ∧ t.a = a ∧ t.b = b := by
  cases i with
  | one =>
    refine ⟨⟨a, b, x, y, z⟩, ⟨⟨ha, hb, hx, hy, hz⟩, rfl, rfl, rfl⟩, ?_⟩
    rintro ⟨a', b', a1, b1, c1⟩ ⟨-, hown, rfl, rfl⟩
    simp only [dealt, BeaverTriple.own, Prod.mk.injEq] at hown
    obtain ⟨rfl, rfl, rfl⟩ := hown
    rfl
  | two =>
    obtain ⟨a1, ⟨ha1, hxa⟩, hua⟩ := existsUnique_modSub ha hx
    obtain ⟨b1, ⟨hb1, hyb⟩, hub⟩ := existsUnique_modSub hb hy
    obtain ⟨c1, ⟨hc1, hzc⟩, huc⟩ := existsUnique_modSub (modMul_rep ha.rep hb.rep).1 hz
    refine ⟨⟨a, b, a1, b1, c1⟩, ⟨⟨ha, hb, ha1, hb1, hc1⟩, ?_, rfl, rfl⟩, ?_⟩
    · simp only [dealt, BeaverTriple.own, hxa, hyb, hzc]
    · rintro ⟨a', b', a1', b1', c1'⟩ ⟨⟨-, -, ha1', hb1', hc1'⟩, hown, rfl, rfl⟩
      simp only [dealt, BeaverTriple.own, Prod.mk.injEq] at hown
      obtain ⟨hx', hy', hz'⟩ := hown
      rw [hua a1' ⟨ha1', hx'⟩, hub b1' ⟨hb1', hy'⟩, huc c1' ⟨hc1', hz'⟩]

end

/-- **Triples are dealt uniformly**, modulo every `q`: the tapes that return a
triple are five draws, every valid triple comes from exactly one such tape, and
for each choice of one party's shares and of `a` and `b` there is one as well. -/
theorem generateTriple_uniform (q : Int) :
    (∀ tape rest T, (generateTriple q).run tape = (.ok T, rest) ↔
      ∃ t : Deal Int, tape = t.toList ++ rest ∧ (generateTriple q).run t.toList = (.ok T, [])) ∧
    (∀ T, TripleShares q T ↔ ∃! t : Deal Int, (generateTriple q).run t.toList = (.ok T, [])) ∧
    ∀ (i : Party) (x y z a b : Int), Canon q x → Canon q y → Canon q z → Canon q a → Canon q b →
      ∃! t : Deal Int, ∃ T, (generateTriple q).run t.toList = (.ok T, []) ∧ T.own i = (x, y, z) ∧
        (T.a1 + T.a2) % q = a ∧ (T.b1 + T.b2) % q = b := by
  have hlist (t : Deal Int) (T : BeaverTriple) : (generateTriple q).run t.toList = (.ok T, []) ↔
      t.All (Canon q) ∧ T = dealt q t := by
    rw [run_generateTriple_iff]
    constructor
    · rintro ⟨t', ht', htape, rfl⟩
      rw [List.append_nil] at htape
      obtain ⟨a, b, a1, b1, c1⟩ := t
      obtain ⟨a', b', a1', b1', c1'⟩ := t'
      simp only [Deal.toList, List.cons.injEq, and_true] at htape
      obtain ⟨rfl, rfl, rfl, rfl, rfl⟩ := htape
      exact ⟨ht', rfl⟩
    · rintro ⟨ht, rfl⟩
      exact ⟨t, ht, (List.append_nil _).symm, rfl⟩
  refine ⟨?_, ?_, ?_⟩
  · intro tape rest T
    simp only [hlist, run_generateTriple_iff]
    constructor
    · rintro ⟨t, ht, htape, hT⟩
      exact ⟨t, htape, ht, hT⟩
    · rintro ⟨t, htape, ht, hT⟩
      exact ⟨t, ht, htape, hT⟩
  · intro T
    simp only [hlist]
    constructor
    · intro hT
      refine ⟨dealOf q T, ⟨dealOf_canon hT, ((dealt_eq_iff (dealOf_canon hT) hT).mpr rfl).symm⟩, ?_⟩
      rintro t ⟨ht, hTt⟩
      exact (dealt_eq_iff ht hT).mp hTt.symm
    · rintro ⟨t, ⟨ht, rfl⟩, -⟩
      exact dealt_shares ht
  · intro i x y z a b hx hy hz ha hb
    obtain ⟨t, ⟨ht, hown, rfl, rfl⟩, hu⟩ := existsUnique_deal_of_own hx hy hz ha hb i
    -- the factors of a deal are what its triple shares
    have hfactors (t : Deal Int) (ht : t.All (Canon q)) :
        ((dealt q t).a1 + (dealt q t).a2) % q = t.a ∧ ((dealt q t).b1 + (dealt q t).b2) % q = t.b := by
      have hdeal := (dealt_eq_iff ht (dealt_shares ht)).mp rfl
      exact ⟨(congrArg Deal.a hdeal).symm, (congrArg Deal.b hdeal).symm⟩
    refine ⟨t, ⟨_, (hlist _ _).mpr ⟨ht, rfl⟩, hown, hfactors t ht⟩, ?_⟩
    rintro t' ⟨T, hrun, hown', ha', hb'⟩
    obtain ⟨ht', rfl⟩ := (hlist _ _).mp hrun
    obtain ⟨hfa, hfb⟩ := hfactors t' ht'
    exact hu t' ⟨ht', hown', hfa.symm.trans ha', hfb.symm.trans hb'⟩

/-! ## Products -/

/-- The shares of two factors. -/
structure Factors where
  x1 : Int
  x2 : Int
  y1 : Int
  y2 : Int
deriving DecidableEq

structure Factors.In (q : Int) (f : Factors) : Prop where
  x1 : Canon q f.x1
  x2 : Canon q f.x2
  y1 : Canon q f.y1
  y2 : Canon q f.y2

def Factors.own (f : Factors) : Party → Int × Int
  | .one => (f.x1, f.y1)
  | .two => (f.x2, f.y2)

/-- What a party sees of `beaver_mul`: its shares of the triple, the opened
values and its share of the product. -/
structure ProductView where
  triple : Int × Int × Int
  d : Int
  e : Int
  z : Int
deriving DecidableEq

def productView (i : Party) (f : Factors) (T : BeaverTriple) (q : Int) : ProductView :=
  let run := beaverMulRun f.x1 f.x2 f.y1 f.y2 T q
  { triple := T.own i
    d := run.d
    e := run.e
    z := match i with
      | .one => run.z1
      | .two => run.z2 }

/-- The dealer's draws, in range. -/
def DealIn (q : Int) : Type := {t : Deal Int // t.All (Canon q)}

section
variable {q : Int}

def liftDeal (t : Deal (ZMod q.toNat)) : Deal Int := t.map lift

theorem liftDeal_canon (hq : 0 < q) (t : Deal (ZMod q.toNat)) : (liftDeal t).All (Canon q) := by
  have hcanon (a : ZMod q.toNat) : Canon q (lift a) := (rep_lift hq a).1
  exact ⟨hcanon _, hcanon _, hcanon _, hcanon _, hcanon _⟩

theorem liftDeal_castDeal {t : Deal Int} (ht : t.All (Canon q)) : liftDeal (castDeal q t) = t := by
  obtain ⟨a, b, a1, b1, c1⟩ := t
  obtain ⟨ha, hb, ha1, hb1, hc1⟩ := ht
  simp only [liftDeal, castDeal, Deal.map, lift_cast ha, lift_cast hb, lift_cast ha1, lift_cast hb1,
    lift_cast hc1]

theorem castDeal_liftDeal (hq : 0 < q) (t : Deal (ZMod q.toNat)) : castDeal q (liftDeal t) = t := by
  have hcast (a : ZMod q.toNat) : ((lift a : Int) : ZMod q.toNat) = a := (rep_lift hq a).2
  simp only [liftDeal, castDeal, Deal.map, hcast]

/-- The code's deals are those of residues. -/
def dealEquiv (hq : 0 < q) : DealIn q ≃ Deal (ZMod q.toNat) where
  toFun t := castDeal q t.1
  invFun t := ⟨liftDeal t, liftDeal_canon hq t⟩
  left_inv t := Subtype.ext (liftDeal_castDeal t.2)
  right_inv t := castDeal_liftDeal hq t

/-- Representatives of one view are one view. -/
theorem productView_congr {i : Party} {f f' : Factors} {T T' : BeaverTriple}
    {U U' : Triple (ZMod q.toNat)} {P P' : Product (ZMod q.toNat)} (hT : TripleRep q T U)
    (hT' : TripleRep q T' U') (hP : ProductRep q (beaverMulRun f.x1 f.x2 f.y1 f.y2 T q) P)
    (hP' : ProductRep q (beaverMulRun f'.x1 f'.x2 f'.y1 f'.y2 T' q) P') (hown : U.own i = U'.own i)
    (hd : P.d = P'.d) (he : P.e = P'.e) (hz : P.own i = P'.own i) :
    productView i f T q = productView i f' T' q := by
  have hdd := (hP.d.eq_iff hP'.d).mpr hd
  have hee := (hP.e.eq_iff hP'.e).mpr he
  cases i with
  | one =>
    simp only [Triple.own, Prod.mk.injEq] at hown
    obtain ⟨ha, hb, hc⟩ := hown
    unfold productView
    simp only [ProductView.mk.injEq, BeaverTriple.own, Prod.mk.injEq]
    exact ⟨⟨(hT.a1.eq_iff hT'.a1).mpr ha, (hT.b1.eq_iff hT'.b1).mpr hb, (hT.c1.eq_iff hT'.c1).mpr hc⟩,
      hdd, hee, (hP.z1.eq_iff hP'.z1).mpr hz⟩
  | two =>
    simp only [Triple.own, Prod.mk.injEq] at hown
    obtain ⟨ha, hb, hc⟩ := hown
    unfold productView
    simp only [ProductView.mk.injEq, BeaverTriple.own, Prod.mk.injEq]
    exact ⟨⟨(hT.a2.eq_iff hT'.a2).mpr ha, (hT.b2.eq_iff hT'.b2).mpr hb, (hT.c2.eq_iff hT'.c2).mpr hc⟩,
      hdd, hee, (hP.z2.eq_iff hP'.z2).mpr hz⟩

/-- How far the other party's inputs move. -/
def Factors.moved (f f' : Factors) (q : Int) : Party → ZMod q.toNat × ZMod q.toNat
  | .one => ((f'.x2 : ZMod q.toNat) - f.x2, (f'.y2 : ZMod q.toNat) - f.y2)
  | .two => ((f'.x1 : ZMod q.toNat) - f.x1, (f'.y1 : ZMod q.toNat) - f.y1)

/-- **`beaver_mul` shows a party nothing of the other's inputs**, modulo every
`q`: for two choices of them there is a bijection of deals under which the
party sees the same. -/
theorem beaverMul_simulatable (i : Party) {f f' : Factors} (hf : f.In q) (hf' : f'.In q)
    (hown : f.own i = f'.own i) :
    ∃ e : DealIn q ≃ DealIn q, ∀ t : DealIn q, ∃ T T',
      (generateTriple q).run t.1.toList = (.ok T, []) ∧
      (generateTriple q).run (e t).1.toList = (.ok T', []) ∧
      productView i f T q = productView i f' T' q := by
  have hq := hf.x1.pos
  rcases hδ : f.moved f' q i with ⟨δx, δy⟩
  refine ⟨(dealEquiv hq).trans ((Deal.translateEquiv δx δy i).trans (dealEquiv hq).symm), ?_⟩
  intro t
  obtain ⟨T, hrun, hT⟩ := run_generateTriple t.2 []
  obtain ⟨T', hrun', hT'⟩ := run_generateTriple ((dealEquiv hq).symm ((dealEquiv hq t).translate δx δy i)).2 []
  rw [List.append_nil] at hrun hrun'
  refine ⟨T, T', hrun, hrun', ?_⟩
  have hmoved : castDeal q ((dealEquiv hq).symm ((dealEquiv hq t).translate δx δy i)).1 =
      (castDeal q t.1).translate δx δy i := castDeal_liftDeal hq _
  rw [hmoved] at hT'
  have hP := beaverMulRun_rep hf.x1.rep hf.x2.rep hf.y1.rep hf.y2.rep hT
  have hP' := beaverMulRun_rep hf'.x1.rep hf'.x2.rep hf'.y1.rep hf'.y2.rep hT'
  have hshares := ((castDeal q t.1).own_translate δx δy i).symm
  cases i with
  | one =>
    obtain ⟨hx, hy⟩ := Prod.mk.inj hown
    obtain ⟨rfl, rfl⟩ := Prod.mk.inj hδ
    rw [← hx, ← hy] at hP'
    obtain ⟨hd, he, hz⟩ := mul_translate_one (castDeal q t.1) f.x1 f.x2 f.y1 f.y2 f'.x2 f'.y2
    exact productView_congr hT hT' hP (by rwa [← hx, ← hy]) hshares hd.symm he.symm hz.symm
  | two =>
    obtain ⟨hx, hy⟩ := Prod.mk.inj hown
    obtain ⟨rfl, rfl⟩ := Prod.mk.inj hδ
    rw [← hx, ← hy] at hP'
    obtain ⟨hd, he, hz⟩ := mul_translate_two (castDeal q t.1) f.x1 f.x2 f.y1 f.y2 f'.x1 f'.y1
    exact productView_congr hT hT' hP (by rwa [← hx, ← hy]) hshares hd.symm he.symm hz.symm

end

/-- A composite modulus: party one, and 4, 3 or 0, 1 on the other side. -/
theorem beaverMul_simulatable_six : Factors.In 6 ⟨5, 4, 2, 3⟩ ∧ Factors.In 6 ⟨5, 0, 2, 1⟩ ∧
    ∃ e : DealIn 6 ≃ DealIn 6, ∀ t : DealIn 6, ∃ T T',
      (generateTriple 6).run t.1.toList = (.ok T, []) ∧ (generateTriple 6).run (e t).1.toList = (.ok T', []) ∧
      productView .one ⟨5, 4, 2, 3⟩ T 6 = productView .one ⟨5, 0, 2, 1⟩ T' 6 := by
  have hf : Factors.In 6 ⟨5, 4, 2, 3⟩ := ⟨by decide, by decide, by decide, by decide⟩
  have hf' : Factors.In 6 ⟨5, 0, 2, 1⟩ := ⟨by decide, by decide, by decide, by decide⟩
  exact ⟨hf, hf', beaverMul_simulatable .one hf hf' rfl⟩

/-! ## The opened value of a masked inverse -/

theorem existsUnique_rep {q : Int} (hq : 0 < q) (a : ZMod q.toNat) :
    ∃! x : Int, Canon q x ∧ (x : ZMod q.toNat) = a := by
  refine ⟨lift a, rep_lift hq a, ?_⟩
  rintro x hx
  exact Rep.congr hx (rep_lift hq a)

section
variable {q : Int} [Fact q.toNat.Prime] {k1 k2 : Int} {T : BeaverTriple} {build : Build}

/-- The runs that open `m`. -/
theorem run_maskedInverseRun_opens (hk1 : Canon q k1) (hk2 : Canon q k2) (hT : TripleShares q T) {m : Int}
    (hm : Canon q m) (hb : build = .release ∨ m ≠ 0) (r1 r2 : Int) :
    (∃ run, (maskedInverseRun build k1 k2 T q).run [r1, r2] = (.ok run, []) ∧ run.m = m) ↔
      Canon q r1 ∧ Canon q r2 ∧ ((k1 : ZMod q.toNat) + k2) * ((r1 : ZMod q.toNat) + r2) = m := by
  obtain ⟨T', hT'⟩ := hT.rep
  constructor
  · rintro ⟨run, hrun, rfl⟩
    obtain ⟨r1', r2', hr1, hr2, htape⟩ := maskedInverseRun_eq_ok hrun
    simp only [List.cons.injEq, and_true] at htape
    obtain ⟨rfl, rfl⟩ := htape
    have hmul := beaverMulRun_rep hk1.rep hk2.rep hr1.rep hr2.rep hT'
    have hsum := (modAdd_rep hmul.z1 hmul.z2).of_cast (mul_sum _ _ _ _ _)
    rw [← maskedInverseRun_m hr1 hr2 hrun] at hsum
    exact ⟨hr1, hr2, hsum.2.symm⟩
  · rintro ⟨hr1, hr2, hval⟩
    have hbuild : build = .release ∨ ((k1 : ZMod q.toNat) + k2) * ((r1 : ZMod q.toNat) + r2) ≠ 0 := by
      rw [hval]
      exact hb.imp id hm.cast_ne_zero
    obtain ⟨run, hrun, hrep⟩ := run_maskedInverseRun hk1.rep hk2.rep hT' hr1 hr2 hbuild []
    exact ⟨run, hrun, hrep.m.congr (hm.rep.of_cast hval.symm)⟩

end

/-- **The opened value is uniform**: modulo a prime, for every valid triple
and all shares of `k ≠ 0`, each `m` is opened by exactly one share of the mask
for every value of the other share.  The Debug build stops at `m = 0`. -/
theorem maskedInverse_opening_uniform {q k1 k2 : Int} (hq : q.toNat.Prime) (hk1 : Canon q k1)
    (hk2 : Canon q k2) (hk : (k1 + k2) % q ≠ 0) {T : BeaverTriple} (hT : TripleShares q T) {m : Int}
    (hm : Canon q m) {build : Build} (hb : build = .release ∨ m ≠ 0) :
    (∀ r1, Canon q r1 →
      ∃! r2, ∃ run, (maskedInverseRun build k1 k2 T q).run [r1, r2] = (.ok run, []) ∧ run.m = m) ∧
    ∀ r2, Canon q r2 →
      ∃! r1, ∃ run, (maskedInverseRun build k1 k2 T q).run [r1, r2] = (.ok run, []) ∧ run.m = m := by
  have : Fact q.toNat.Prime := ⟨hq⟩
  have hk0 : (k1 : ZMod q.toNat) + k2 ≠ 0 := fun h => hk ((emod_sum_eq_zero_iff k1 k2).mpr h)
  have hopens := run_maskedInverseRun_opens hk1 hk2 hT hm hb
  have hmask (a b : ZMod q.toNat) : ((k1 : ZMod q.toNat) + k2) * (a + b) = m ↔
      b = ((k1 : ZMod q.toNat) + k2)⁻¹ * m - a := by
    rw [← eq_inv_mul_iff_mul_eq₀ hk0, eq_sub_iff_add_eq']
  refine ⟨?_, ?_⟩
  · intro r1 hr1
    simp only [hopens, hr1, true_and, hmask]
    exact existsUnique_rep hm.pos _
  · intro r2 hr2
    simp only [hopens, hr2, true_and, add_comm _ (r2 : ZMod q.toNat), hmask]
    exact existsUnique_rep hm.pos _

theorem maskedInverse_opening_uniform_seven : (7 : Int).toNat.Prime ∧ (2 + 3 : Int) % 7 ≠ 0 ∧
    TripleShares 7 ⟨0, 0, 0, 0, 0, 0⟩ ∧
    ∀ r1, Canon 7 r1 → ∃! r2, ∃ run,
      (maskedInverseRun .debug 2 3 ⟨0, 0, 0, 0, 0, 0⟩ 7).run [r1, r2] = (.ok run, []) ∧ run.m = 4 := by
  have hq : (7 : Int).toNat.Prime := by decide
  have hk : (2 + 3 : Int) % 7 ≠ 0 := by decide
  have hT : TripleShares 7 ⟨0, 0, 0, 0, 0, 0⟩ :=
    ⟨by decide, by decide, by decide, by decide, by decide, by decide, by decide⟩
  exact ⟨hq, hk, hT, (maskedInverse_opening_uniform hq (by decide) (by decide) hk hT (by decide)
    (Or.inr (by decide))).1⟩

end Tecdsa
