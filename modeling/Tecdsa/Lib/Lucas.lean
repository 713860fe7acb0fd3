import Mathlib.NumberTheory.LucasPrimality

/-!
# Primality from a table of Lucas tests

`lucas_primality` asks for a primitive root and the prime factors of `p - 1`.
A table lists one `Test` per prime, factors first; `Table.ok` runs them.

    Table.ok [] tests = true → t ∈ tests → t.p.Prime        (Table.prime)
-/

namespace Lucas

/-- `acc * a ^ e % m` by repeated squaring, for `e < 2 ^ bits`. -/
def powMod (m : Nat) : (bits a e acc : Nat) → Nat
  | 0, _, _, acc => acc % m
  | bits + 1, a, e, acc =>
    powMod m bits (a * a % m) (e / 2) (if e % 2 = 1 then acc * a % m else acc)

theorem powMod_eq (m : Nat) : ∀ (bits a e acc : Nat), e < 2 ^ bits →
    powMod m bits a e acc = acc * a ^ e % m := by
  intro bits
  induction bits with
  | zero =>
    intro a e acc he
    have h0 : e = 0 := by simpa using he
    simp [powMod, h0]
  | succ bits ih =>
    intro a e acc he
    have hhalf : e / 2 < 2 ^ bits := by rw [pow_succ] at he; omega
    -- both branches are the product taken modulo `m` factor by factor
    have hsq : (a * a % m) ^ (e / 2) ≡ (a * a) ^ (e / 2) [MOD m] := (Nat.mod_modEq _ _).pow _
    have hsplit : a ^ e = (a * a) ^ (e / 2) * a ^ (e % 2) := by
      rw [← sq, ← pow_mul, ← pow_add, Nat.div_add_mod]
    simp only [powMod]
    rw [ih _ _ _ hhalf]
    split
    · next hodd =>
      rw [hsplit, hodd, pow_one, ← mul_assoc, mul_right_comm]
      exact (Nat.mod_modEq _ _).mul hsq
    · next heven =>
      have h0 : e % 2 = 0 := by omega
      rw [hsplit, h0, pow_zero, mul_one]
      exact (Nat.ModEq.refl acc).mul hsq

/-- The number tested, its root, and the primes of `p - 1` with exponents. -/
structure Test where
  p : Nat
  root : Nat
  factors : List (Nat × Nat)

def Test.pow (t : Test) (e : Nat) : Nat := powMod t.p (t.p.log2 + 1) t.root e 1

def Test.ok (proved : List Nat) (t : Test) : Bool :=
  decide (2 ≤ t.p) && t.factors.all (fun f => proved.contains f.1) &&
  (t.factors.map fun f => f.1 ^ f.2).prod == t.p - 1 &&
  t.pow (t.p - 1) == 1 && t.factors.all fun f => t.pow ((t.p - 1) / f.1) != 1

/-- Runs the tests in order; each may use the primes before it. -/
def Table.ok : (proved : List Nat) → List Test → Bool
  | _, [] => true
  | proved, t :: ts => t.ok proved && Table.ok (t.p :: proved) ts

theorem Test.pow_eq (t : Test) (e : Nat) (he : e < t.p) : t.pow e = t.root ^ e % t.p := by
  unfold Test.pow
  rw [powMod_eq _ _ _ _ _ (he.trans Nat.lt_log2_self), one_mul]

theorem Test.cast_pow_eq_one (t : Test) (h2 : 2 ≤ t.p) (e : Nat) (he : e < t.p) :
    (t.root : ZMod t.p) ^ e = 1 ↔ t.pow e = 1 := by
  rw [t.pow_eq e he, ← Nat.cast_pow, ← Nat.cast_one, ZMod.natCast_eq_natCast_iff',
    Nat.mod_eq_of_lt (show 1 < t.p by omega)]

theorem Test.prime {proved : List Nat} (hpr : ∀ q ∈ proved, q.Prime) {t : Test}
    (h : t.ok proved = true) : t.p.Prime := by
  unfold Test.ok at h
  simp only [Bool.and_eq_true, decide_eq_true_eq, List.all_eq_true, List.contains_iff_mem,
    beq_iff_eq, bne_iff_ne] at h
  obtain ⟨⟨⟨⟨h2, hfac⟩, hprod⟩, hone⟩, hne⟩ := h
  have hfp : ∀ f ∈ t.factors, f.1.Prime := fun f hf => hpr _ (hfac f hf)
  refine lucas_primality t.p t.root ((t.cast_pow_eq_one h2 _ (by omega)).mpr hone) ?_
  intro q hq hdvd
  rw [← hprod] at hdvd
  obtain ⟨x, hx, hqx⟩ := (Prime.dvd_prod_iff hq.prime).mp hdvd
  obtain ⟨f, hf, rfl⟩ := List.mem_map.mp hx
  have hqf : q = f.1 := (Nat.prime_dvd_prime_iff_eq hq (hfp f hf)).mp (hq.dvd_of_dvd_pow hqx)
  have hlt : (t.p - 1) / q < t.p := lt_of_le_of_lt (Nat.div_le_self _ _) (by omega)
  rw [ne_eq, t.cast_pow_eq_one h2 _ hlt, hqf]
  exact hne f hf

theorem Table.prime : ∀ {proved : List Nat} {ts : List Test}, (∀ q ∈ proved, q.Prime) →
    Table.ok proved ts = true → ∀ t ∈ ts, t.p.Prime := by
  intro proved ts
  induction ts generalizing proved with
  | nil => intro _ _ t ht; cases ht
  | cons t ts ih =>
    intro hpr h u hu
    unfold Table.ok at h
    simp only [Bool.and_eq_true] at h
    have ht := Test.prime hpr h.1
    rcases List.mem_cons.mp hu with rfl | hu
    · exact ht
    · refine ih ?_ h.2 u hu
      intro q hq
      rcases List.mem_cons.mp hq with rfl | hq
      · exact ht
      · exact hpr q hq

end Lucas
