import Tecdsa.Proof.HashCollision

/-!
# Length extension of `sha256`

The digest is the registers after the last chunk, octet for octet, so the chunk
loop can go on from it: a digest and the length of what was hashed give the
digest of every longer message that begins with the padded one.

    resume r.digest = r                                                      (resume_digest)
    sha256 (m ++ padding m.length ++ s) = extend (sha256 m) m.length s       (sha256_extend)

`sha256 (key ++ msg)` authenticates nothing; `rfc6979.cpp` keys by HMAC.
-/

namespace Tecdsa

open IteratedHash

namespace Sha256

/-! ## Registers and digests -/

/-- The registers a digest was stored from. -/
def resume (hash : Sha256Hash) : Regs where
  a := loadWord hash.val 0
  b := loadWord hash.val 4
  c := loadWord hash.val 8
  d := loadWord hash.val 12
  e := loadWord hash.val 16
  f := loadWord hash.val 20
  g := loadWord hash.val 24
  hh := loadWord hash.val 28

theorem storeWord_loadWord {buf : Octets} {i : Nat} (h : i + 4 ≤ buf.length) :
    storeWord (loadWord buf i) = (buf.drop i).take 4 := by
  have hlen : ((buf.drop i).take 4).length = 4 := by
    rw [List.length_take, List.length_drop]
    omega
  have hnum : (loadWord buf i).toNat = Octets.toNat ((buf.drop i).take 4) := by
    rw [take_four_drop h, ← orShift_toNat]
    rfl
  have hround := Octets.ofNat_toNat ((buf.drop i).take 4)
  rw [hlen] at hround
  rw [storeWord_eq, hnum, hround]

theorem digest_resume (hash : Sha256Hash) : (resume hash).digest = hash := by
  obtain ⟨bytes, hlen⟩ := hash
  have hflat := flatten_blocks (show bytes.length = 4 * 8 from hlen)
  simp only [blocks, List.drop_drop, List.flatten_cons, List.flatten_nil] at hflat
  apply Subtype.ext
  unfold Regs.digest Regs.words resume
  simp only [List.flatMap_cons, List.flatMap_nil]
  rw [storeWord_loadWord (by omega), storeWord_loadWord (by omega), storeWord_loadWord (by omega),
    storeWord_loadWord (by omega), storeWord_loadWord (by omega), storeWord_loadWord (by omega),
    storeWord_loadWord (by omega), storeWord_loadWord (by omega)]
  exact hflat

theorem resume_digest (r : Regs) : resume r.digest = r := digest_injective (digest_resume r.digest)

/-! ## The chunk loop in two parts -/

/-- The loop over whole chunks, then over the rest from the registers reached. -/
theorem chunkLoop_append {as bs : Octets} (ha : 64 ∣ as.length) (hb : 64 ∣ bs.length) (r : Regs) :
    chunkLoop (as ++ bs) 0 r = chunkLoop bs 0 (chunkLoop as 0 r) := by
  obtain ⟨j, hj⟩ := ha
  obtain ⟨k, hk⟩ := hb
  have hall : (as ++ bs).length = 0 + 64 * (j + k) := by
    rw [List.length_append]
    omega
  rw [(chunkLoop_fold 0 (j + k) hall r).1, (chunkLoop_fold 0 j (by omega) r).1,
    (chunkLoop_fold 0 k (by omega) _).1, List.drop_zero, List.drop_zero, List.drop_zero,
    blocks_append hj, List.foldl_append]

/-! ## Extension -/

/-- What `pad` appends to a message of `len` octets. -/
def padding (len : Nat) : Octets := 0x80 :: List.replicate (zeroRun len) 0 ++ Octets.ofNat 8 (8 * len)

theorem pad_eq_padding {m : Octets} (hm : m.length < 2 ^ 61) : pad m = m ++ padding m.length := pad_eq hm

/-- The digest of a message of `len` octets, its padding and `suffix`, from that of the message. -/
def extend (hash : Sha256Hash) (len : Nat) (suffix : Octets) : Sha256Hash :=
  (chunkLoop (suffix ++ padding (len + (padding len).length + suffix.length)) 0 (resume hash)).digest

end Sha256

open Sha256

theorem sha256_extend {m suffix : Octets} (h : (m ++ padding m.length ++ suffix).length < 2 ^ 61) :
    sha256 (m ++ padding m.length ++ suffix) = extend (sha256 m) m.length suffix := by
  have hlen : (m ++ padding m.length ++ suffix).length =
      m.length + (padding m.length).length + suffix.length := by
    rw [List.length_append, List.length_append]
  have hm : m.length < 2 ^ 61 := by omega
  have hfirst := length_pad m
  have hwhole := length_pad (m ++ padding m.length ++ suffix)
  rw [pad_eq_padding hm] at hfirst
  rw [pad_eq_padding h, hlen, List.append_assoc, List.length_append] at hwhole
  unfold sha256 extend
  rw [resume_digest, pad_eq_padding hm, pad_eq_padding h, hlen, List.append_assoc (m ++ padding m.length),
    chunkLoop_append hfirst ((Nat.dvd_add_right hfirst).mp hwhole)]

/-- **Length extension.**  The digest of a longer message needs the digest and the length of the
first, not its octets; so two messages of one length that collide still do with anything after them. -/
theorem sha256_extension {m suffix : Octets} (h : (m ++ padding m.length ++ suffix).length < 2 ^ 61) :
    m ++ padding m.length = pad m ∧
    sha256 (m ++ padding m.length ++ suffix) = extend (sha256 m) m.length suffix ∧
    ∀ m' : Octets, m'.length = m.length → sha256 m' = sha256 m →
      sha256 (m' ++ padding m.length ++ suffix) = sha256 (m ++ padding m.length ++ suffix) := by
  refine ⟨?_, sha256_extend h, ?_⟩
  · rw [List.length_append, List.length_append] at h
    exact (pad_eq_padding (by omega)).symm
  · intro m' hlen heq
    have h' : (m' ++ padding m'.length ++ suffix).length < 2 ^ 61 := by
      simp only [List.length_append, hlen] at h ⊢
      exact h
    have hext := sha256_extend h'
    rw [hlen, heq] at hext
    rw [hext, sha256_extend h]

/-- The empty message, its padding and one octet. -/
theorem sha256_extension_nil : ([] ++ padding 0 ++ [1]).length < 2 ^ 61 ∧
    sha256 ([] ++ padding 0 ++ [1]) = extend (sha256 []) 0 [1] := by
  have hlen : ([] ++ padding 0 ++ [1]).length < 2 ^ 61 := by decide
  exact ⟨hlen, (sha256_extension (m := []) hlen).2.1⟩

end Tecdsa
