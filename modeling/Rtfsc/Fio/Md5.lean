import Mathlib.Data.List.Basic

/-!
# fio: the md5 of a buffer

`md5_update` folds a whole block of 64 bytes into the hash and keeps what is left of the buffer for
the next call. fio reads the hash without a final step, so that it is the chain of `md5_transform`
over the whole blocks and nothing else.
-/

namespace Rtfsc.Fio

/-- `hash` of `struct md5_ctx`: `MD5_HASH_WORDS` words. -/
structure Md5Hash where
  a : UInt32
  b : UInt32
  c : UInt32
  d : UInt32
deriving DecidableEq, Repr

/-- `sizeof(mctx->block)`. -/
def md5BlockSize : Nat := 64

/-- `F1`. -/
def f1 (x y z : UInt32) : UInt32 := z ^^^ (x &&& (y ^^^ z))

/-- `F2`. -/
def f2 (x y z : UInt32) : UInt32 := f1 z x y

/-- `F3`. -/
def f3 (x y z : UInt32) : UInt32 := x ^^^ y ^^^ z

/-- `F4`. -/
def f4 (x y z : UInt32) : UInt32 := y ^^^ (x ||| ~~~z)

/-- `MD5STEP`. -/
def md5Step (f : UInt32 → UInt32 → UInt32 → UInt32) (w x y z input s : UInt32) : UInt32 :=
  let w := w + (f x y z + input)
  (w <<< s ||| w >>> (32 - s)) + x

/-- A word of the block as a little-endian machine reads it. -/
def blockWord (block : List UInt8) (i : Nat) : UInt32 :=
  let byte (j : Nat) : UInt32 := (block.getD (4 * i + j) 0).toUInt32
  byte 0 ||| byte 1 <<< 8 ||| byte 2 <<< 16 ||| byte 3 <<< 24

/-- `md5_transform`. -/
def md5Transform (hash : Md5Hash) (block : List UInt8) : Md5Hash :=
  let word := blockWord block
  let a := hash.a
  let b := hash.b
  let c := hash.c
  let d := hash.d

  let a := md5Step f1 a b c d (word 0 + 0xd76aa478) 7
  let d := md5Step f1 d a b c (word 1 + 0xe8c7b756) 12
  let c := md5Step f1 c d a b (word 2 + 0x242070db) 17
  let b := md5Step f1 b c d a (word 3 + 0xc1bdceee) 22
  let a := md5Step f1 a b c d (word 4 + 0xf57c0faf) 7
  let d := md5Step f1 d a b c (word 5 + 0x4787c62a) 12
  let c := md5Step f1 c d a b (word 6 + 0xa8304613) 17
  let b := md5Step f1 b c d a (word 7 + 0xfd469501) 22
  let a := md5Step f1 a b c d (word 8 + 0x698098d8) 7
  let d := md5Step f1 d a b c (word 9 + 0x8b44f7af) 12
  let c := md5Step f1 c d a b (word 10 + 0xffff5bb1) 17
  let b := md5Step f1 b c d a (word 11 + 0x895cd7be) 22
  let a := md5Step f1 a b c d (word 12 + 0x6b901122) 7
  let d := md5Step f1 d a b c (word 13 + 0xfd987193) 12
  let c := md5Step f1 c d a b (word 14 + 0xa679438e) 17
  let b := md5Step f1 b c d a (word 15 + 0x49b40821) 22

  let a := md5Step f2 a b c d (word 1 + 0xf61e2562) 5
  let d := md5Step f2 d a b c (word 6 + 0xc040b340) 9
  let c := md5Step f2 c d a b (word 11 + 0x265e5a51) 14
  let b := md5Step f2 b c d a (word 0 + 0xe9b6c7aa) 20
  let a := md5Step f2 a b c d (word 5 + 0xd62f105d) 5
  let d := md5Step f2 d a b c (word 10 + 0x02441453) 9
  let c := md5Step f2 c d a b (word 15 + 0xd8a1e681) 14
  let b := md5Step f2 b c d a (word 4 + 0xe7d3fbc8) 20
  let a := md5Step f2 a b c d (word 9 + 0x21e1cde6) 5
  let d := md5Step f2 d a b c (word 14 + 0xc33707d6) 9
  let c := md5Step f2 c d a b (word 3 + 0xf4d50d87) 14
  let b := md5Step f2 b c d a (word 8 + 0x455a14ed) 20
  let a := md5Step f2 a b c d (word 13 + 0xa9e3e905) 5
  let d := md5Step f2 d a b c (word 2 + 0xfcefa3f8) 9
  let c := md5Step f2 c d a b (word 7 + 0x676f02d9) 14
  let b := md5Step f2 b c d a (word 12 + 0x8d2a4c8a) 20

  let a := md5Step f3 a b c d (word 5 + 0xfffa3942) 4
  let d := md5Step f3 d a b c (word 8 + 0x8771f681) 11
  let c := md5Step f3 c d a b (word 11 + 0x6d9d6122) 16
  let b := md5Step f3 b c d a (word 14 + 0xfde5380c) 23
  let a := md5Step f3 a b c d (word 1 + 0xa4beea44) 4
  let d := md5Step f3 d a b c (word 4 + 0x4bdecfa9) 11
  let c := md5Step f3 c d a b (word 7 + 0xf6bb4b60) 16
  let b := md5Step f3 b c d a (word 10 + 0xbebfbc70) 23
  let a := md5Step f3 a b c d (word 13 + 0x289b7ec6) 4
  let d := md5Step f3 d a b c (word 0 + 0xeaa127fa) 11
  let c := md5Step f3 c d a b (word 3 + 0xd4ef3085) 16
  let b := md5Step f3 b c d a (word 6 + 0x04881d05) 23
  let a := md5Step f3 a b c d (word 9 + 0xd9d4d039) 4
  let d := md5Step f3 d a b c (word 12 + 0xe6db99e5) 11
  let c := md5Step f3 c d a b (word 15 + 0x1fa27cf8) 16
  let b := md5Step f3 b c d a (word 2 + 0xc4ac5665) 23

  let a := md5Step f4 a b c d (word 0 + 0xf4292244) 6
  let d := md5Step f4 d a b c (word 7 + 0x432aff97) 10
  let c := md5Step f4 c d a b (word 14 + 0xab9423a7) 15
  let b := md5Step f4 b c d a (word 5 + 0xfc93a039) 21
  let a := md5Step f4 a b c d (word 12 + 0x655b59c3) 6
  let d := md5Step f4 d a b c (word 3 + 0x8f0ccc92) 10
  let c := md5Step f4 c d a b (word 10 + 0xffeff47d) 15
  let b := md5Step f4 b c d a (word 1 + 0x85845dd1) 21
  let a := md5Step f4 a b c d (word 8 + 0x6fa87e4f) 6
  let d := md5Step f4 d a b c (word 15 + 0xfe2ce6e0) 10
  let c := md5Step f4 c d a b (word 6 + 0xa3014314) 15
  let b := md5Step f4 b c d a (word 13 + 0x4e0811a1) 21
  let a := md5Step f4 a b c d (word 4 + 0xf7537e82) 6
  let d := md5Step f4 d a b c (word 11 + 0xbd3af235) 10
  let c := md5Step f4 c d a b (word 2 + 0x2ad7d2bb) 15
  let b := md5Step f4 b c d a (word 9 + 0xeb86d391) 21

  { a := hash.a + a
    b := hash.b + b
    c := hash.c + c
    d := hash.d + d }

/-- `struct md5_ctx`. -/
structure Md5Ctx where
  hash : Md5Hash
  block : List UInt8
  byteCount : UInt64
  sized : block.length = md5BlockSize

/-- The context after `memset`. -/
def Md5Ctx.zero : Md5Ctx where
  hash := { a := 0, b := 0, c := 0, d := 0 }
  block := List.replicate md5BlockSize 0
  byteCount := 0
  sized := List.length_replicate

/-- `memcpy` of some bytes to a place of the block. None of the copies runs past its end. -/
def Md5Ctx.copy (mctx : Md5Ctx) (place : Nat) (data : List UInt8) : Md5Ctx where
  hash := mctx.hash
  block :=
    (mctx.block.take place ++ data ++ mctx.block.drop (place + data.length)).take md5BlockSize
  byteCount := mctx.byteCount
  sized := by
    have hsized := mctx.sized
    simp only [List.length_take, List.length_append, List.length_drop]
    omega

/-- `md5_transform(mctx->hash, mctx->block)`. -/
def Md5Ctx.transform (mctx : Md5Ctx) : Md5Ctx :=
  { mctx with hash := md5Transform mctx.hash mctx.block }

/-- The loop of `md5_update` over the blocks after the first one. -/
def md5Blocks (mctx : Md5Ctx) (data : List UInt8) : Md5Ctx :=
  if _h : md5BlockSize ≤ data.length then
    md5Blocks (mctx.copy 0 (data.take md5BlockSize)).transform (data.drop md5BlockSize)
  else mctx.copy 0 data
termination_by data.length
decreasing_by
  rw [List.length_drop]
  have hpos : 0 < md5BlockSize := by decide
  omega

/-- `md5_update`. -/
def md5Update (mctx : Md5Ctx) (data : List UInt8) : Md5Ctx :=
  let avail := md5BlockSize - (mctx.byteCount &&& 0x3f).toNat
  let mctx := { mctx with byteCount := mctx.byteCount + data.length.toUInt64 }
  if data.length < avail then mctx.copy (md5BlockSize - avail) data
  else
    md5Blocks (mctx.copy (md5BlockSize - avail) (data.take avail)).transform (data.drop avail)

/-- The hash that fio takes from a buffer: `md5_update` on a cleared context. -/
def md5Hash (data : List UInt8) : Md5Hash := (md5Update Md5Ctx.zero data).hash

/-! ## The hash is the chain over the whole blocks -/

/-- `md5_transform` over the whole blocks of a buffer, one after the other. -/
def md5Chain (hash : Md5Hash) (data : List UInt8) : Md5Hash :=
  if _h : md5BlockSize ≤ data.length then
    md5Chain (md5Transform hash (data.take md5BlockSize)) (data.drop md5BlockSize)
  else hash
termination_by data.length
decreasing_by
  rw [List.length_drop]
  have hpos : 0 < md5BlockSize := by decide
  omega

/-- A block that is copied whole is what the transformation takes. -/
theorem Md5Ctx.hash_copy_transform (mctx : Md5Ctx) {data : List UInt8}
    (h : md5BlockSize ≤ data.length) :
    (mctx.copy 0 (data.take md5BlockSize)).transform.hash =
      md5Transform mctx.hash (data.take md5BlockSize) := by
  have hlen : (data.take md5BlockSize).length = md5BlockSize := List.length_take_of_le h
  have hblock : (mctx.copy 0 (data.take md5BlockSize)).block = data.take md5BlockSize := by
    simp only [copy, List.take_zero, List.nil_append, Nat.zero_add, hlen]
    rw [List.take_append_of_le_length (Nat.le_of_eq hlen.symm),
      List.take_of_length_le (Nat.le_of_eq hlen)]
  show md5Transform mctx.hash (mctx.copy 0 (data.take md5BlockSize)).block = _
  rw [hblock]

theorem md5Blocks_hash (mctx : Md5Ctx) (data : List UInt8) :
    (md5Blocks mctx data).hash = md5Chain mctx.hash data := by
  induction mctx, data using md5Blocks.induct with
  | case1 mctx data hge ih =>
    rw [md5Blocks, md5Chain, dif_pos hge, dif_pos hge, ih, mctx.hash_copy_transform hge]
  | case2 mctx data hlt =>
    rw [md5Blocks, md5Chain, dif_neg hlt, dif_neg hlt]
    rfl

/-- The hash of a buffer is the chain over its whole blocks. -/
theorem md5Hash_eq (data : List UInt8) : md5Hash data = md5Chain Md5Ctx.zero.hash data := by
  have havail : md5BlockSize - (Md5Ctx.zero.byteCount &&& 0x3f).toNat = md5BlockSize := rfl
  rw [md5Hash, md5Update, havail, Nat.sub_self, md5Chain]
  rcases Nat.lt_or_ge data.length md5BlockSize with hlt | hge
  · rw [if_pos hlt, dif_neg (Nat.not_le.mpr hlt)]
    rfl
  · rw [if_neg (Nat.not_lt.mpr hge), dif_pos hge, md5Blocks_hash, Md5Ctx.hash_copy_transform _ hge]

/-! ## What is behind the whole blocks -/

/-- How many bytes of a buffer the whole blocks have. -/
def wholeBlocks (n : Nat) : Nat := md5BlockSize * (n / md5BlockSize)

theorem wholeBlocks_ge {n : Nat} (h : md5BlockSize ≤ n) :
    wholeBlocks n = md5BlockSize + wholeBlocks (n - md5BlockSize) := by
  simp only [wholeBlocks, md5BlockSize] at *
  omega

/-- A byte behind the whole blocks does not change the chain. -/
theorem md5Chain_set {k : Nat} (b : UInt8) (hash : Md5Hash) (data : List UInt8)
    (h : wholeBlocks data.length ≤ k) : md5Chain hash (data.set k b) = md5Chain hash data := by
  induction hash, data using md5Chain.induct generalizing k with
  | case1 hash data hge ih =>
    have hwhole := wholeBlocks_ge hge
    have htake : (data.set k b).take md5BlockSize = data.take md5BlockSize :=
      List.take_set_of_le (by omega)
    have hdrop : (data.set k b).drop md5BlockSize =
        (data.drop md5BlockSize).set (k - md5BlockSize) b := by
      rw [List.drop_set, if_neg (by omega)]
    have hge' : md5BlockSize ≤ (data.set k b).length := by rwa [List.length_set]
    have hrest : wholeBlocks (data.drop md5BlockSize).length ≤ k - md5BlockSize := by
      rw [List.length_drop]
      omega
    rw [md5Chain, dif_pos hge', htake, hdrop, ih hrest]
    conv => rhs; rw [md5Chain, dif_pos hge]
  | case2 hash data hlt =>
    have hlt' : ¬md5BlockSize ≤ (data.set k b).length := by rwa [List.length_set]
    rw [md5Chain, dif_neg hlt', md5Chain, dif_neg hlt]

/-- Two buffers of one length that differ in the whole blocks and have the same chain. -/
structure Md5Collision (data data' : List UInt8) : Prop where
  ne : data.take (wholeBlocks data.length) ≠ data'.take (wholeBlocks data.length)
  chain_eq : md5Chain Md5Ctx.zero.hash data = md5Chain Md5Ctx.zero.hash data'

end Rtfsc.Fio
