import Mathlib.Tactic.Ring
import Mathlib.Data.List.Induction

/-!
# Bit strings, octet strings and the numbers they spell, big-endian

Standards speak of bit strings, programs of octets and integers.  Each has its
number (`Bits.toNat`, `Octets.toNat`) and is rebuilt from it at a fixed length
(`Bits.ofNat`, `Octets.ofNat`); `Octets.toBits` goes between the two:

    (toBits bs).toNat = bs.toNat                                      (toNat_toBits)
    toBits (Octets.ofNat len v) = Bits.ofNat (8 * len) v              (toBits_ofNat)
    Octets.ofNat bs.length bs.toNat = bs                              (Octets.ofNat_toNat)
    (bs.take k).toNat = bs.toNat / 2 ^ (bs.length - k)                (Bits.toNat_take)
-/

/-- A bit string, leftmost bit first. -/
abbrev Bits := List Bool

/-- An octet string. -/
abbrev Octets := List UInt8

namespace Bits

def toNat (bs : Bits) : Nat := bs.foldl (fun acc b => 2 * acc + b.toNat) 0

/-- The `len` low bits of `v`. -/
def ofNat : (len v : Nat) → Bits
  | 0, _ => []
  | len + 1, v => ofNat len (v / 2) ++ [decide (v % 2 = 1)]

@[simp] theorem toNat_nil : toNat [] = 0 := rfl

theorem toNat_concat (bs : Bits) (b : Bool) : toNat (bs ++ [b]) = 2 * toNat bs + b.toNat := by
  simp [toNat]

theorem toNat_append (as bs : Bits) : toNat (as ++ bs) = toNat as * 2 ^ bs.length + toNat bs := by
  induction bs using List.reverseRecOn with
  | nil => simp
  | append_singleton bs b ih =>
    rw [← List.append_assoc, toNat_concat, toNat_concat, ih, List.length_append, List.length_singleton]
    ring

theorem toNat_lt (bs : Bits) : toNat bs < 2 ^ bs.length := by
  induction bs using List.reverseRecOn with
  | nil => simp
  | append_singleton bs b ih =>
    have hb := b.toNat_le
    rw [toNat_concat, List.length_append, List.length_singleton, pow_succ]
    omega

@[simp] theorem toNat_replicate_false (k : Nat) : toNat (List.replicate k false) = 0 := by
  induction k with
  | zero => rfl
  | succ k ih => rw [List.replicate_succ', toNat_concat, ih]; rfl

@[simp] theorem length_ofNat (len v : Nat) : (ofNat len v).length = len := by
  induction len generalizing v with
  | zero => rfl
  | succ len ih => rw [ofNat, List.length_append, ih, List.length_singleton]

theorem toNat_ofNat (len v : Nat) : toNat (ofNat len v) = v % 2 ^ len := by
  induction len generalizing v with
  | zero => simp [ofNat, Nat.mod_one]
  | succ len ih =>
    have hbit : (decide (v % 2 = 1)).toNat = v % 2 := by
      rcases Nat.mod_two_eq_zero_or_one v with h | h <;> simp [h]
    unfold ofNat
    rw [toNat_concat, ih, hbit, pow_succ', Nat.mod_mul, add_comm]

/-- Bit strings of one length are equal when their numbers are. -/
theorem ext_toNat {as bs : Bits} (hlen : as.length = bs.length) (h : toNat as = toNat bs) :
    as = bs := by
  induction as using List.reverseRecOn generalizing bs with
  | nil => rw [List.length_nil] at hlen; exact (List.eq_nil_of_length_eq_zero hlen.symm).symm
  | append_singleton as a ih =>
    rcases List.eq_nil_or_concat bs with rfl | ⟨bs, b, rfl⟩
    · simp at hlen
    · rw [List.concat_eq_append] at hlen h ⊢
      simp only [List.length_append, List.length_singleton, Nat.add_right_cancel_iff] at hlen
      rw [toNat_concat, toNat_concat] at h
      have ha := a.toNat_le
      have hb := b.toNat_le
      have hab : a = b := by
        have : a.toNat = b.toNat := by omega
        cases a <;> cases b <;> simp_all
      rw [ih hlen (by rw [hab] at h; omega), hab]

theorem ofNat_toNat (bs : Bits) : ofNat bs.length (toNat bs) = bs := by
  apply ext_toNat (length_ofNat _ _)
  rw [toNat_ofNat, Nat.mod_eq_of_lt (toNat_lt bs)]

theorem ofNat_congr {len v w : Nat} (h : v % 2 ^ len = w % 2 ^ len) : ofNat len v = ofNat len w := by
  apply ext_toNat (by simp)
  rw [toNat_ofNat, toNat_ofNat, h]

theorem ofNat_append (m k v : Nat) : ofNat (m + k) v = ofNat m (v / 2 ^ k) ++ ofNat k v := by
  apply ext_toNat (by simp)
  rw [toNat_append, toNat_ofNat, toNat_ofNat, toNat_ofNat, length_ofNat, Nat.add_comm m k, pow_add,
    Nat.mod_mul]
  ring

/-- The leftmost bits are a right shift. -/
theorem toNat_take (k : Nat) (bs : Bits) : toNat (bs.take k) = toNat bs / 2 ^ (bs.length - k) := by
  have h := toNat_append (bs.take k) (bs.drop k)
  have hlt := toNat_lt (bs.drop k)
  rw [List.take_append_drop, List.length_drop] at h
  rw [List.length_drop] at hlt
  rw [h, Nat.mul_comm, Nat.mul_add_div (Nat.two_pow_pos _), Nat.div_eq_of_lt hlt, add_zero]

end Bits

namespace Octets

def toNat (bs : Octets) : Nat := bs.foldl (fun acc b => 256 * acc + b.toNat) 0

/-- The `len` low octets of `v`. -/
def ofNat : (len v : Nat) → Octets
  | 0, _ => []
  | len + 1, v => ofNat len (v / 256) ++ [UInt8.ofNat v]

/-- Each octet as eight bits, most significant first. -/
def toBits (bs : Octets) : Bits := bs.flatMap fun b => Bits.ofNat 8 b.toNat

/-- Octets from left to right; an incomplete octet at the end is dropped. -/
def ofBits : Bits → Octets
  | b₇ :: b₆ :: b₅ :: b₄ :: b₃ :: b₂ :: b₁ :: b₀ :: rest =>
    UInt8.ofNat (Bits.toNat [b₇, b₆, b₅, b₄, b₃, b₂, b₁, b₀]) :: ofBits rest
  | _ => []

@[simp] theorem toNat_nil : toNat [] = 0 := rfl

theorem toNat_concat (bs : Octets) (b : UInt8) : toNat (bs ++ [b]) = 256 * toNat bs + b.toNat := by
  simp [toNat]

@[simp] theorem length_ofNat (len v : Nat) : (ofNat len v).length = len := by
  induction len generalizing v with
  | zero => rfl
  | succ len ih => rw [ofNat, List.length_append, ih, List.length_singleton]

@[simp] theorem toBits_nil : toBits [] = [] := rfl

@[simp] theorem toBits_append (as bs : Octets) : toBits (as ++ bs) = toBits as ++ toBits bs :=
  List.flatMap_append

@[simp] theorem toBits_cons (b : UInt8) (bs : Octets) :
    toBits (b :: bs) = Bits.ofNat 8 b.toNat ++ toBits bs := rfl

@[simp] theorem length_toBits (bs : Octets) : (toBits bs).length = 8 * bs.length := by
  induction bs with
  | nil => rfl
  | cons b bs ih =>
    rw [toBits_cons, List.length_append, Bits.length_ofNat, ih, List.length_cons]
    ring

theorem toBits_take (k : Nat) (bs : Octets) : toBits (bs.take k) = (toBits bs).take (8 * k) := by
  induction bs generalizing k with
  | nil => simp
  | cons b bs ih =>
    cases k with
    | zero => simp
    | succ k =>
      have hfirst : (Bits.ofNat 8 b.toNat).take (8 * (k + 1)) = Bits.ofNat 8 b.toNat :=
        List.take_of_length_le (by rw [Bits.length_ofNat]; omega)
      rw [List.take_succ_cons, toBits_cons, toBits_cons, ih, List.take_append, hfirst,
        Bits.length_ofNat, show 8 * (k + 1) - 8 = 8 * k by omega]

theorem toBits_drop (k : Nat) (bs : Octets) : toBits (bs.drop k) = (toBits bs).drop (8 * k) := by
  have h : toBits (bs.take k) ++ toBits (bs.drop k) = toBits bs := by
    rw [← toBits_append, List.take_append_drop]
  rw [toBits_take] at h
  exact List.append_cancel_left (h.trans (List.take_append_drop (8 * k) (toBits bs)).symm)

theorem toNat_toBits (bs : Octets) : Bits.toNat (toBits bs) = toNat bs := by
  induction bs using List.reverseRecOn with
  | nil => rfl
  | append_singleton bs b ih =>
    have hb := b.toNat_lt
    rw [toBits_append, Bits.toNat_append, ih, toNat_concat, toBits_cons, toBits_nil, List.append_nil,
      Bits.toNat_ofNat, Bits.length_ofNat, Nat.mod_eq_of_lt (by omega)]
    ring

theorem toNat_lt (bs : Octets) : toNat bs < 2 ^ (8 * bs.length) := by
  have h := Bits.toNat_lt (toBits bs)
  rwa [toNat_toBits, length_toBits] at h

theorem toBits_ofNat (len v : Nat) : toBits (ofNat len v) = Bits.ofNat (8 * len) v := by
  induction len generalizing v with
  | zero => rfl
  | succ len ih =>
    unfold ofNat
    rw [toBits_append, ih, toBits_cons, toBits_nil, List.append_nil, Nat.mul_succ,
      Bits.ofNat_append]
    congr 1
    apply Bits.ofNat_congr
    rw [UInt8.toNat_ofNat']
    omega

theorem toNat_ofNat (len v : Nat) : toNat (ofNat len v) = v % 2 ^ (8 * len) := by
  rw [← toNat_toBits, toBits_ofNat, Bits.toNat_ofNat]

@[simp] theorem ofBits_toBits (bs : Octets) : ofBits (toBits bs) = bs := by
  induction bs with
  | nil => rfl
  | cons b bs ih =>
    have hb : Bits.toNat (Bits.ofNat 8 b.toNat) = b.toNat := by
      have := b.toNat_lt
      rw [Bits.toNat_ofNat]
      omega
    rw [toBits_cons]
    show UInt8.ofNat (Bits.toNat (Bits.ofNat 8 b.toNat)) :: ofBits (toBits bs) = b :: bs
    rw [hb, ih, UInt8.ofNat_toNat]

theorem toNat_append (as bs : Octets) :
    toNat (as ++ bs) = toNat as * 2 ^ (8 * bs.length) + toNat bs := by
  rw [← toNat_toBits, toBits_append, Bits.toNat_append, toNat_toBits, toNat_toBits, length_toBits]

@[simp] theorem toNat_replicate_zero (k : Nat) : toNat (List.replicate k 0) = 0 := by
  induction k with
  | zero => rfl
  | succ k ih => rw [List.replicate_succ', toNat_concat, ih]; rfl

theorem toBits_replicate_zero (k : Nat) :
    toBits (List.replicate k 0) = List.replicate (8 * k) false := by
  apply Bits.ext_toNat (by simp)
  rw [toNat_toBits, toNat_replicate_zero, Bits.toNat_replicate_false]

/-- Octet strings of one length are equal when their numbers are. -/
theorem ext_toNat {as bs : Octets} (hlen : as.length = bs.length) (h : toNat as = toNat bs) :
    as = bs := by
  have hbits : toBits as = toBits bs := by
    apply Bits.ext_toNat
    · rw [length_toBits, length_toBits, hlen]
    · rw [toNat_toBits, toNat_toBits, h]
  rw [← ofBits_toBits as, hbits, ofBits_toBits]

theorem ofNat_toNat (bs : Octets) : ofNat bs.length (toNat bs) = bs := by
  apply ext_toNat (length_ofNat _ _)
  rw [toNat_ofNat, Nat.mod_eq_of_lt (toNat_lt bs)]

/-- A number of `k` octets, right-aligned in `len`. -/
theorem replicate_append_ofNat {k len v : Nat} (hk : k ≤ len) (hv : v < 2 ^ (8 * k)) :
    List.replicate (len - k) 0 ++ ofNat k v = ofNat len v := by
  have hlen : v < 2 ^ (8 * len) := lt_of_lt_of_le hv (Nat.pow_le_pow_right (by omega) (by omega))
  apply ext_toNat
  · rw [List.length_append, List.length_replicate, length_ofNat, length_ofNat]
    omega
  · rw [toNat_append, toNat_replicate_zero, toNat_ofNat, toNat_ofNat, Nat.mod_eq_of_lt hv,
      Nat.mod_eq_of_lt hlen, zero_mul, zero_add]

/-- Whole octets are read back. -/
theorem toBits_ofBits : ∀ {bs : Bits}, 8 ∣ bs.length → toBits (ofBits bs) = bs
  | [], _ => rfl
  | b₇ :: b₆ :: b₅ :: b₄ :: b₃ :: b₂ :: b₁ :: b₀ :: rest, h => by
    have hrest : 8 ∣ rest.length := by
      simp only [List.length_cons] at h
      omega
    have hlt := Bits.toNat_lt [b₇, b₆, b₅, b₄, b₃, b₂, b₁, b₀]
    have hbyte : Bits.ofNat 8 (UInt8.ofNat (Bits.toNat [b₇, b₆, b₅, b₄, b₃, b₂, b₁, b₀])).toNat =
        [b₇, b₆, b₅, b₄, b₃, b₂, b₁, b₀] := by
      simp only [List.length_cons, List.length_nil] at hlt
      rw [UInt8.toNat_ofNat', Nat.mod_eq_of_lt (by omega)]
      exact Bits.ofNat_toNat [b₇, b₆, b₅, b₄, b₃, b₂, b₁, b₀]
    unfold ofBits
    rw [toBits_cons, toBits_ofBits hrest, hbyte]
    rfl
  | [_], h | [_, _], h | [_, _, _], h | [_, _, _, _], h | [_, _, _, _, _], h
  | [_, _, _, _, _, _], h | [_, _, _, _, _, _, _], h => by
    simp only [List.length_cons, List.length_nil] at h
    omega

end Octets
