import Mathlib.Data.Nat.Bitwise
import Mathlib.Tactic.Ring
import Rtfsc.Machine.Outcome

/-!
# Numbers in bytes

A number written byte after byte, the most significant first, is the number again modulo the power of
256 that the bytes have room for.
-/

namespace Rtfsc.Machine

/-- A number from its bytes, the most significant first. -/
def fromBytes (bs : List (BitVec 8)) : Nat :=
  bs.foldl (fun n b => n * 256 + b.toNat) 0

/-- Byte `k` of a signed number: shifted right with its sign, and cut. -/
def byteOf {w : Nat} (x : BitVec w) (k : Nat) : BitVec 8 :=
  ((x.sshiftRight (8 * k)) &&& 0xff#w).setWidth 8

/-- The sign is shifted in above the byte. -/
theorem byteOf_toNat {w : Nat} (x : BitVec w) {k : Nat} (hk : 8 * k + 8 ≤ w) :
    (byteOf x k).toNat = x.toNat / 256 ^ k % 256 := by
  have hbits : byteOf x k = (x >>> (8 * k)).setWidth 8 := by
    apply BitVec.eq_of_getLsbD_eq
    intro i hi
    have hmask : (0xff#w).getLsbD i = true := by
      rw [BitVec.getLsbD_ofNat]
      have h255 : Nat.testBit 255 i = true := by
        rw [show 255 = 2 ^ 8 - 1 by rfl, Nat.testBit_two_pow_sub_one]
        exact decide_eq_true hi
      rw [h255]
      simp only [Bool.and_true, decide_eq_true_eq]
      omega
    rw [byteOf, BitVec.getLsbD_setWidth, BitVec.getLsbD_and, hmask, BitVec.getLsbD_setWidth,
      BitVec.getLsbD_ushiftRight, BitVec.getLsbD_sshiftRight]
    have hin : 8 * k + i < w := by omega
    have hiw : ¬w ≤ i := by omega
    simp [hin, hiw]
  rw [hbits, BitVec.toNat_setWidth, BitVec.toNat_ushiftRight, Nat.shiftRight_eq_div_pow]
  congr 2
  rw [Nat.pow_mul]

theorem fromBytes_cons (b : BitVec 8) (bs : List (BitVec 8)) :
    fromBytes (b :: bs) = b.toNat * 256 ^ bs.length + fromBytes bs := by
  have hfold : ∀ (cs : List (BitVec 8)) (n : Nat),
      cs.foldl (fun n b => n * 256 + b.toNat) n = n * 256 ^ cs.length + fromBytes cs := by
    intro cs
    induction cs with
    | nil => intro n; simp [fromBytes]
    | cons c cs ih =>
      intro n
      rw [fromBytes, List.foldl_cons, List.foldl_cons, ih, ih (0 * 256 + c.toNat),
        List.length_cons, Nat.pow_succ]
      ring
  rw [fromBytes, List.foldl_cons, hfold, Nat.zero_mul, Nat.zero_add]

/-- The `k` lowest bytes. -/
theorem fromBytes_byteOf {w : Nat} (x : BitVec w) {k : Nat} (hk : 8 * k ≤ w) :
    fromBytes ((List.range k).reverse.map (byteOf x)) = x.toNat % 256 ^ k := by
  induction k with
  | zero => rw [Nat.pow_zero, Nat.mod_one]; rfl
  | succ k ih =>
    rw [List.range_succ, List.reverse_append, List.reverse_singleton, List.singleton_append,
      List.map_cons, fromBytes_cons, ih (by omega), byteOf_toNat x (by omega), List.length_map,
      List.length_reverse, List.length_range, Nat.mod_pow_succ, Nat.add_comm, Nat.mul_comm]

/-!
## Buffers of bytes

A buffer is its bytes. A load or a store has no value when it touches a byte that the buffer does not
have; one of no bytes touches nothing, wherever it is.
-/

/-- The `n` bytes from `a` on. -/
def loadBytes (buf : List UInt8) (a n : Nat) : Outcome (List UInt8) :=
  if n = 0 ∨ a + n ≤ buf.length then .ok ((buf.drop a).take n)
  else .error (.outOfBounds (max a buf.length))

/-- The buffer with `bytes` from `a` on. -/
def storeBytes (buf : List UInt8) (a : Nat) (bytes : List UInt8) : Outcome (List UInt8) :=
  if bytes = [] ∨ a + bytes.length ≤ buf.length then
    .ok (buf.take a ++ bytes ++ buf.drop (a + bytes.length))
  else .error (.outOfBounds (max a buf.length))

variable {buf buf' bytes : List UInt8} {a n : Nat}

theorem loadBytes_of_le (h : a + n ≤ buf.length) : loadBytes buf a n = .ok ((buf.drop a).take n) :=
  if_pos (.inr h)

theorem loadBytes_ok_le (h : loadBytes buf a n = .ok bytes) : n = 0 ∨ a + n ≤ buf.length := by
  unfold loadBytes at h
  split at h
  · assumption
  · cases h

theorem storeBytes_of_le (h : a + bytes.length ≤ buf.length) :
    storeBytes buf a bytes = .ok (buf.take a ++ bytes ++ buf.drop (a + bytes.length)) :=
  if_pos (.inr h)

theorem storeBytes_ok_le (h : storeBytes buf a bytes = .ok buf') :
    bytes = [] ∨ a + bytes.length ≤ buf.length := by
  unfold storeBytes at h
  split at h
  · assumption
  · cases h

/-- A store changes no length. -/
theorem storeBytes_length (h : storeBytes buf a bytes = .ok buf') : buf'.length = buf.length := by
  have hle := storeBytes_ok_le h
  unfold storeBytes at h
  rw [if_pos hle] at h
  cases h
  rw [List.length_append, List.length_append, List.length_take, List.length_drop]
  rcases hle with rfl | hle
  · rw [List.length_nil]
    omega
  · omega

end Rtfsc.Machine
