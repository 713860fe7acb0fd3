import Tecdsa.Code.Field
import Tecdsa.Lib.Octets

/-!
# `src/sha256.cpp`: SHA-256 over octets

The buffer `buf` is a list that only grows, `w[64]` a list filled from the
left; `h[0..7]` and the working variables `a .. hh` are one record.
-/

namespace Tecdsa

/-- `std::array<uint8_t, 32>` -/
abbrev Sha256Hash : Type := {bytes : Octets // bytes.length = 32}

namespace Sha256

/-- For `0 < n < 32`, as in every call. -/
def rotr (x n : UInt32) : UInt32 := (x >>> n) ||| (x <<< (32 - n))

def K : List UInt32 := [
  0x428a2f98, 0x71374491, 0xb5c0fbcf, 0xe9b5dba5,
  0x3956c25b, 0x59f111f1, 0x923f82a4, 0xab1c5ed5,
  0xd807aa98, 0x12835b01, 0x243185be, 0x550c7dc3,
  0x72be5d74, 0x80deb1fe, 0x9bdc06a7, 0xc19bf174,
  0xe49b69c1, 0xefbe4786, 0x0fc19dc6, 0x240ca1cc,
  0x2de92c6f, 0x4a7484aa, 0x5cb0a9dc, 0x76f988da,
  0x983e5152, 0xa831c66d, 0xb00327c8, 0xbf597fc7,
  0xc6e00bf3, 0xd5a79147, 0x06ca6351, 0x14292967,
  0x27b70a85, 0x2e1b2138, 0x4d2c6dfc, 0x53380d13,
  0x650a7354, 0x766a0abb, 0x81c2c92e, 0x92722c85,
  0xa2bfe8a1, 0xa81a664b, 0xc24b8b70, 0xc76c51a3,
  0xd192e819, 0xd6990624, 0xf40e3585, 0x106aa070,
  0x19a4c116, 0x1e376c08, 0x2748774c, 0x34b0bcb5,
  0x391c0cb3, 0x4ed8aa4a, 0x5b9cca4f, 0x682e6ff3,
  0x748f82ee, 0x78a5636f, 0x84c87814, 0x8cc70208,
  0x90befffa, 0xa4506ceb, 0xbef9a3f7, 0xc67178f2]

/-- `h[0..7]`, and the working variables of the round loop. -/
structure Regs where
  a : UInt32
  b : UInt32
  c : UInt32
  d : UInt32
  e : UInt32
  f : UInt32
  g : UInt32
  hh : UInt32
deriving DecidableEq

def init : Regs where
  a := 0x6a09e667
  b := 0xbb67ae85
  c := 0x3c6ef372
  d := 0xa54ff53a
  e := 0x510e527f
  f := 0x9b05688c
  g := 0x1f83d9ab
  hh := 0x5be0cd19

/-! ## Padding -/

/-- `while (buf.size() % 64 != 56) buf.push_back(0x00);` -/
def padLoop (buf : Octets) : Octets :=
  if buf.length % 64 ≠ 56 then padLoop (buf ++ [0x00]) else buf
termination_by (120 - buf.length % 64) % 64
decreasing_by simp only [List.length_append, List.length_singleton]; omega

/-- The length in bits, as eight octets. -/
def lengthBytes (bitlen : UInt64) : Octets :=
  ([7, 6, 5, 4, 3, 2, 1, 0] : List UInt64).map fun i => (bitlen >>> (i * 8)).toUInt8

def pad (data : Octets) : Octets :=
  let bitlen := UInt64.ofNat data.length * 8
  padLoop (data ++ [0x80]) ++ lengthBytes bitlen

/-! ## One chunk -/

def loadWord (buf : Octets) (i : Nat) : UInt32 :=
  ((buf.getD i 0).toUInt32 <<< 24) ||| ((buf.getD (i + 1) 0).toUInt32 <<< 16) |||
    ((buf.getD (i + 2) 0).toUInt32 <<< 8) ||| (buf.getD (i + 3) 0).toUInt32

def scheduleStep (w : List UInt32) (i : Nat) : List UInt32 :=
  let w15 := w.getD (i - 15) 0
  let w2 := w.getD (i - 2) 0
  let s0 := rotr w15 7 ^^^ rotr w15 18 ^^^ (w15 >>> 3)
  let s1 := rotr w2 17 ^^^ rotr w2 19 ^^^ (w2 >>> 10)
  w ++ [w.getD (i - 16) 0 + s0 + w.getD (i - 7) 0 + s1]

def schedule (buf : Octets) (chunk : Nat) : List UInt32 :=
  (List.range' 16 48).foldl scheduleStep ((List.range 16).map fun i => loadWord buf (chunk + 4 * i))

def round (v : Regs) (k w : UInt32) : Regs :=
  let S1 := rotr v.e 6 ^^^ rotr v.e 11 ^^^ rotr v.e 25
  let ch := (v.e &&& v.f) ^^^ (~~~v.e &&& v.g)
  let temp1 := v.hh + S1 + ch + k + w
  let S0 := rotr v.a 2 ^^^ rotr v.a 13 ^^^ rotr v.a 22
  let maj := (v.a &&& v.b) ^^^ (v.a &&& v.c) ^^^ (v.b &&& v.c)
  let temp2 := S0 + maj
  { a := temp1 + temp2, b := v.a, c := v.b, d := v.c,
    e := v.d + temp1, f := v.e, g := v.f, hh := v.g }

/-- `h[i] += …` for the eight words. -/
def Regs.add (h v : Regs) : Regs where
  a := h.a + v.a
  b := h.b + v.b
  c := h.c + v.c
  d := h.d + v.d
  e := h.e + v.e
  f := h.f + v.f
  g := h.g + v.g
  hh := h.hh + v.hh

def compress (h : Regs) (w : List UInt32) : Regs :=
  h.add ((List.range 64).foldl (fun v i => round v (K.getD i 0) (w.getD i 0)) h)

/-- `for (chunk = 0; chunk < buf.size(); chunk += 64)` -/
def chunkLoop (buf : Octets) (chunk : Nat) (h : Regs) : Regs :=
  if chunk < buf.length then chunkLoop buf (chunk + 64) (compress h (schedule buf chunk)) else h
termination_by buf.length - chunk

/-! ## The digest -/

def storeWord (x : UInt32) : Octets :=
  [(x >>> 24).toUInt8, (x >>> 16).toUInt8, (x >>> 8).toUInt8, x.toUInt8]

def Regs.words (h : Regs) : List UInt32 := [h.a, h.b, h.c, h.d, h.e, h.f, h.g, h.hh]

def Regs.digest (h : Regs) : Sha256Hash := ⟨h.words.flatMap storeWord, rfl⟩

end Sha256

def sha256 (data : Octets) : Sha256Hash :=
  (Sha256.chunkLoop (Sha256.pad data) 0 Sha256.init).digest

def doubleSha256 (data : Octets) : Sha256Hash := sha256 (sha256 data).val

/-- `mpz_import` of octets, most significant first. -/
def mpzImport (data : Octets) : Int := data.toNat

def hashToScalar (hash : Sha256Hash) (n : Int) : Int := (mpzImport hash.val).tmod n

end Tecdsa
