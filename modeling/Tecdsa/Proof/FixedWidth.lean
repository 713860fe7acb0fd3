import Tecdsa.Code.RngBytes
import Tecdsa.Proof.Rfc6979

/-!
# Integers and octet strings of a fixed width

`int2octets` and `bits2int` are inverse between the integers below `256 ^ w`
and the octet strings of length `w`.  `fill_bytes` writes what `int2octets`
does, also for 0 and for leading zero octets, so no string is drawn twice:

    int2octets x w = .ok (Octets.ofNat w x.toNat)                    (int2octets_eq)
    int2octets (bits2int b (8 * w)) w = .ok b                        (int2octets_bits2int)
    (fillBytes w).run (r :: rest) = (.ok (Octets.ofNat w r.toNat), rest)
                                                                     (run_fillBytes)
-/

namespace Tecdsa

open Paillier (mpzUrandomb)

/-! ## Encoding and decoding -/

theorem natAbs_lt_of_lt {w : Nat} {x : Int} (h0 : 0 ≤ x) (hx : x < 2 ^ (8 * w)) :
    x.natAbs < 2 ^ (8 * w) := by
  have hcast : x < ((2 ^ (8 * w) : Nat) : Int) := by
    push_cast
    exact hx
  omega

/-- **The offset does not underflow**, for 0 either. -/
theorem exportWidth_le {w : Nat} {x : Int} (hw : 1 ≤ w) (hx : x.natAbs < 2 ^ (8 * w)) :
    (mpzSizeinbase2 x + 7) / 8 ≤ w := by
  by_cases hz : x = 0
  · subst hz
    exact hw
  · have hbits := mpzSizeinbase2_le hz hx
    omega

theorem mpzImport_ofNat {w : Nat} {x : Int} (h0 : 0 ≤ x) (hx : x.natAbs < 2 ^ (8 * w)) :
    mpzImport (Octets.ofNat w x.toNat) = x := by
  unfold mpzImport
  rw [Octets.toNat_ofNat, Nat.mod_eq_of_lt (by omega), Int.toNat_of_nonneg h0]

theorem bits2int_whole (b : Octets) : bits2int b (8 * b.length) = b.toNat := by
  unfold bits2int
  have hbits : ¬ (b.length * 8 > 8 * b.length) := by omega
  simp only [if_neg hbits, mpzImport]

/-- **Octets are read and written back**, leading zeros included. -/
theorem int2octets_bits2int (b : Octets) :
    int2octets (bits2int b (8 * b.length)) b.length = .ok b := by
  have hlt := Octets.toNat_lt b
  rw [bits2int_whole, int2octets_eq b.length (by omega) (by omega), Int.toNat_natCast,
    Octets.ofNat_toNat]

/-! ## `fill_bytes` -/

theorem run_mpzUrandomb {bits : Nat} {r : Int} (h0 : 0 ≤ r) (hr : r < 2 ^ bits) (rest : List Int) :
    (mpzUrandomb bits).run (r :: rest) = (.ok r, rest) :=
  Draws.run_draw_cons (by simp [h0, hr]) rest

/-- The zero already at `out + offset` stands for the octet that the export of 0
does not write. -/
theorem memcpy_mpzExportBytes (x : Int) :
    memcpy (List.replicate ((mpzSizeinbase2 x + 7) / 8) 0) (mpzExportBytes x) = mpzExport x := by
  unfold mpzExportBytes
  by_cases hz : x = 0
  · subst hz
    rfl
  · rw [if_neg hz, memcpy_replicate, mpzExport, Octets.length_ofNat, Nat.sub_self,
      List.replicate_zero, List.append_nil]

theorem run_fillBytes {w : Nat} {r : Int} (hw : 1 ≤ w) (h0 : 0 ≤ r) (hr : r < 2 ^ (8 * w))
    (rest : List Int) : (fillBytes w).run (r :: rest) = (.ok (Octets.ofNat w r.toNat), rest) := by
  have habs := natAbs_lt_of_lt h0 hr
  have hwidth := exportWidth_le hw habs
  have hsome : ¬ ((mpzSizeinbase2 r + 7) / 8 = 0) := by
    unfold mpzSizeinbase2
    omega
  have hdraw : (mpzUrandomb (w * 8)).run (r :: rest) = (.ok r, rest) :=
    run_mpzUrandomb h0 (by rw [mul_comm]; exact hr) rest
  have hout : Octets.ofNat w r.toNat = (List.replicate w 0).take (w - (mpzSizeinbase2 r + 7) / 8) ++
      memcpy ((List.replicate w 0).drop (w - (mpzSizeinbase2 r + 7) / 8)) (mpzExportBytes r) := by
    rw [List.take_replicate, List.drop_replicate, Nat.min_eq_left (by omega), Nat.sub_sub_self hwidth,
      memcpy_mpzExportBytes, mpzExport, Octets.replicate_append_ofNat hwidth (lt_two_pow_octets r),
      show r.natAbs = r.toNat by omega]
  unfold fillBytes
  rw [if_neg (by omega), Draws.run_bind_of_ok hdraw, hout]
  simp only [if_neg hsome, if_neg (not_lt.mpr hwidth)]
  rfl

/-- A run that returns made one draw, whose octets it returns. -/
theorem fillBytes_eq_ok {w : Nat} (hw : 1 ≤ w) {tape rest : List Int} {b : Octets}
    (h : (fillBytes w).run tape = (.ok b, rest)) :
    ∃ r, (0 ≤ r ∧ r < 2 ^ (8 * w)) ∧ tape = r :: rest ∧ b = Octets.ofNat w r.toNat := by
  have hbody := h
  unfold fillBytes at hbody
  rw [if_neg (by omega)] at hbody
  obtain ⟨r, mid, hdraw, -⟩ := Draws.run_bind_eq_ok hbody
  obtain ⟨rfl, hr⟩ := Draws.run_draw_eq_ok hdraw
  simp only [Bool.and_eq_true, decide_eq_true_eq] at hr
  rw [mul_comm] at hr
  rw [run_fillBytes hw hr.1 hr.2, Prod.mk.injEq, Except.ok.injEq] at h
  exact ⟨r, hr, by rw [h.2], h.1.symm⟩

/-- The number of an octet string is a draw in range. -/
theorem toNat_lt_two_pow (b : Octets) : (b.toNat : Int) < 2 ^ (8 * b.length) := by
  exact_mod_cast Octets.toNat_lt b

theorem run_fillBytes_iff {w : Nat} (hw : 1 ≤ w) {b : Octets} (hb : b.length = w)
    (tape rest : List Int) :
    (fillBytes w).run tape = (.ok b, rest) ↔ tape = (b.toNat : Int) :: rest := by
  subst hb
  constructor
  · intro h
    obtain ⟨r, ⟨h0, hr⟩, htape, hb⟩ := fillBytes_eq_ok hw h
    have hnum : (b.toNat : Int) = r := by
      rw [hb]
      exact mpzImport_ofNat h0 (natAbs_lt_of_lt h0 hr)
    rw [htape, hnum]
  · rintro rfl
    rw [run_fillBytes hw (Int.natCast_nonneg _) (toNat_lt_two_pow b), Int.toNat_natCast,
      Octets.ofNat_toNat]

/-- **Fixed-width encoding and decoding are inverse**, and `fill_bytes` draws
each octet string from one number. -/
theorem fixedWidth_inverse {w : Nat} (hw : 1 ≤ w) :
    (∀ x : Int, 0 ≤ x → x < 256 ^ w → (mpzSizeinbase2 x + 7) / 8 ≤ w ∧
      ∃ bs, int2octets x w = .ok bs ∧ bs.length = w ∧ mpzImport bs = x) ∧
    (∀ b : Octets, b.length = w → int2octets (bits2int b (8 * w)) w = .ok b) ∧
    (∀ r : Int, 0 ≤ r → r < 2 ^ (8 * w) → ∀ rest, ∃ bs, int2octets r w = .ok bs ∧
      (fillBytes w).run (r :: rest) = (.ok bs, rest)) ∧
    ∀ b : Octets, b.length = w → ∃! r : Int, (0 ≤ r ∧ r < 2 ^ (8 * w)) ∧
      ∀ tape rest, (fillBytes w).run tape = (.ok b, rest) ↔ tape = r :: rest := by
  refine ⟨?_, ?_, ?_, ?_⟩
  · intro x h0 hx
    have habs : x.natAbs < 2 ^ (8 * w) := natAbs_lt_of_lt h0 (by rw [pow_mul]; exact hx)
    exact ⟨exportWidth_le hw habs, _, int2octets_eq w h0 (by omega), Octets.length_ofNat _ _,
      mpzImport_ofNat h0 habs⟩
  · rintro b rfl
    exact int2octets_bits2int b
  · intro r h0 hr rest
    have habs := natAbs_lt_of_lt h0 hr
    exact ⟨_, int2octets_eq w h0 (by omega), run_fillBytes hw h0 hr rest⟩
  · intro b hb
    have hlt := toNat_lt_two_pow b
    rw [hb] at hlt
    refine ⟨b.toNat, ⟨⟨Int.natCast_nonneg _, hlt⟩, run_fillBytes_iff hw hb⟩, ?_⟩
    rintro r ⟨-, hrun⟩
    -- the tape that starts with `r` gives `b`
    have hr := (run_fillBytes_iff hw hb [r] []).mp ((hrun [r] []).mpr rfl)
    exact (List.cons.inj hr).1

/-- Two octets, the first of them 0. -/
theorem fixedWidth_inverse_two : 1 ≤ 2 ∧ int2octets (bits2int [0, 5] 16) 2 = .ok [0, 5] ∧
    ∃! r : Int, (0 ≤ r ∧ r < 2 ^ 16) ∧
      ∀ tape rest, (fillBytes 2).run tape = (.ok [0, 5], rest) ↔ tape = r :: rest := by
  obtain ⟨-, hback, -, hdraw⟩ := fixedWidth_inverse (show 1 ≤ 2 by decide)
  exact ⟨by decide, hback [0, 5] rfl, hdraw [0, 5] rfl⟩

end Tecdsa
