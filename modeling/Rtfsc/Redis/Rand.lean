import Mathlib.Logic.Function.Iterate
import Rtfsc.Machine.Outcome

/-!
# redis: random numbers of 48 bits

`redisLrand48` draws from a linear congruential generator modulo `2 ^ 48`. The number, the multiplier and
the increment are kept in limbs of 16 bits: `next` multiplies limb by limb, truncates each product to an
`int32_t`, and adds up the carries.
-/

namespace Rtfsc.Redis

open Rtfsc.Machine

/-- An array of three limbs, the low one first. -/
structure Limbs where
  l0 : UInt32
  l1 : UInt32
  l2 : UInt32
deriving DecidableEq, Repr

/-- The static `x`, `a` and `c`. -/
structure Rand48 where
  x : Limbs
  a : Limbs
  c : UInt32
deriving DecidableEq, Repr

namespace Rand48

/-! ## The macros -/

/-- `LOW` -/
def low (x : UInt32) : UInt32 := x &&& 0xffff

/-- `HIGH` of an `int32_t`, whose shift keeps the sign. -/
def high (x : Int32) : UInt32 := low (x >>> 16).toUInt32

/-- `MUL(x, y, z)`, which is `z` -/
def mul (x y : UInt32) : UInt32 × UInt32 :=
  let l : Int32 := (x.toUInt64.toInt64 * y.toUInt64.toInt64).toInt32
  (low l.toUInt32, high l)

/-- `CARRY` -/
def carry (x y : UInt32) : UInt32 := if x.toInt32.toInt64 + y.toUInt64.toInt64 > 0xffff then 1 else 0

/-- `ADDEQU(x, y, z)`: the new `x`, and `z` -/
def addequ (x y : UInt32) : UInt32 × UInt32 := (low (x + y), carry x y)

/-! ## The functions -/

/-- The static values before the first call. -/
def initial : Rand48 := ⟨⟨0x330E, 0xABCD, 0x1234⟩, ⟨0xE66D, 0xDEEC, 0x5⟩, 0xB⟩

/-- `next` -/
def next (s : Rand48) : Rand48 :=
  let (p0, p1) := mul s.a.l0 s.x.l0
  let (p0, carry0) := addequ p0 s.c
  let (p1, carry1) := addequ p1 carry0
  let (q0, q1) := mul s.a.l0 s.x.l1
  let (p1, carry0) := addequ p1 q0
  let (r0, r1) := mul s.a.l1 s.x.l0
  let x2 := low (carry0 + carry1 + carry p1 r0 + q1 + r1 +
    s.a.l0 * s.x.l2 + s.a.l1 * s.x.l1 + s.a.l2 * s.x.l0)
  { s with x := ⟨low p0, low (p1 + r0), x2⟩ }

/-- `v << n` of an `int32_t`, which has a value if that is one of the type. -/
def shl (v : Int32) (n : Nat) : Option Int32 :=
  let shifted : Int := v.toInt * (Nat.pow 2 n : Nat)
  if 0 ≤ v.toInt ∧ shifted < 0x80000000 then some (Int32.ofInt shifted) else none

/-- `redisLrand48`. The sum is unsigned, since `x[1] >> 1` is. -/
def redisLrand48 (s : Rand48) : Option (Int32 × Rand48) := do
  let s := s.next
  let top ← shl s.x.l2.toInt32 15
  return ((top.toUInt32 + (s.x.l1 >>> 1)).toInt32, s)

/-- `redisSrand48`, which sets `x`, `a` and `c`. -/
def redisSrand48 (_s : Rand48) (seedval : Int32) : Rand48 :=
  ⟨⟨0x330E, low seedval.toUInt32, high seedval⟩, ⟨0xE66D, 0xDEEC, 0x5⟩, 0xB⟩

/-- So many draws, one after the other. -/
def draws : Nat → Rand48 → Option (List Int32 × Rand48)
  | 0, s => some ([], s)
  | k + 1, s => do
    let (v, s) ← s.redisLrand48
    let (vs, s) ← draws k s
    return (v :: vs, s)

end Rand48

/-! ## The generator -/

/-- Limbs of 16 bits. -/
structure Limbs.Small (l : Limbs) : Prop where
  l0 : l.l0.toNat < 0x10000
  l1 : l.l1.toNat < 0x10000
  l2 : l.l2.toNat < 0x10000

/-- The number in three limbs. -/
def Limbs.value (l : Limbs) : Nat := l.l0.toNat + 0x10000 * l.l1.toNat + 0x100000000 * l.l2.toNat

/-- One step of the generator. -/
def lcg48 (n : Nat) : Nat := (0x5DEECE66D * n + 0xB) % 0x1000000000000

/-- The limbs represent `n`, and `a` and `c` are as `SEED` sets them. -/
structure Rand48.Represents (s : Rand48) (n : Nat) : Prop where
  small : s.x.Small
  value : s.x.value = n
  a : s.a = initial.a
  c : s.c = initial.c

/-! ## Limbs of 16 bits -/

section Limb

variable {u v : UInt32}

theorem low_toNat : (Rand48.low u).toNat = u.toNat % 0x10000 := by
  rw [Rand48.low, UInt32.toNat_and]
  exact Nat.and_two_pow_sub_one_eq_mod u.toNat 16

theorem low_lt : (Rand48.low u).toNat < 0x10000 := by
  rw [low_toNat]
  exact Nat.mod_lt _ (by decide)

/-- The sign that the shift keeps is above the bits that `HIGH` takes. -/
theorem high_toNat : (Rand48.high u.toInt32).toNat = u.toNat / 0x10000 := by
  have hu : u.toNat < 0x100000000 := u.toNat_lt
  have hshift : ((u.toInt32 >>> 16).toUInt32.toNat : Int) = u.toBitVec.toInt / 0x10000 % 0x100000000 := by
    have h : (u.toInt32 >>> 16).toUInt32.toBitVec = u.toBitVec.sshiftRight 16 := rfl
    rw [← UInt32.toNat_toBitVec, h, BitVec.sshiftRight_eq, BitVec.toNat_ofInt, Int.shiftRight_eq_div_pow]
    omega
  rw [BitVec.toInt_eq_toNat_cond] at hshift
  rw [Rand48.high, low_toNat]
  split at hshift <;> simp only [UInt32.toNat_toBitVec] at hshift <;> omega

theorem mul_toNat (hu : u.toNat < 0x10000) (hv : v.toNat < 0x10000) :
    (u * v).toNat = u.toNat * v.toNat := by
  rw [UInt32.toNat_mul, Nat.mod_eq_of_lt]
  calc u.toNat * v.toNat ≤ 0xffff * 0xffff := Nat.mul_le_mul (by omega) (by omega)
    _ < 2 ^ 32 := by decide

/-- The 64-bit product cut to an `int32_t` is the 32-bit one. -/
theorem mul_eq : Rand48.mul u v = (Rand48.low (u * v), Rand48.high (u * v).toInt32) := by
  have hcast (w : UInt32) : w.toUInt64.toInt64.toInt32 = w.toInt32 := by
    apply Int32.toBitVec_inj.mp
    apply BitVec.eq_of_toNat_eq
    simp [BitVec.signExtend_eq_setWidth_of_le]
  have hprod : (u.toUInt64.toInt64 * v.toUInt64.toInt64).toInt32 = (u * v).toInt32 := by
    rw [Int64.toInt32_mul, UInt32.toInt32_mul, hcast, hcast]
  simp only [Rand48.mul, hprod, UInt32.toUInt32_toInt32]

/-- `MUL` gives the two limbs of the product. -/
theorem mul_spec {p : UInt32 × UInt32} (h : Rand48.mul u v = p) (hu : u.toNat < 0x10000)
    (hv : v.toNat < 0x10000) :
    p.1.toNat + 0x10000 * p.2.toNat = u.toNat * v.toNat ∧ p.1.toNat < 0x10000 ∧ p.2.toNat < 0x10000 := by
  have hlt : (u * v).toNat < 0x100000000 := (u * v).toNat_lt
  rw [mul_eq] at h
  rw [← mul_toNat hu hv, ← h, low_toNat, high_toNat]
  omega

theorem toInt_toUInt64 : v.toUInt64.toInt64.toInt = v.toNat := by
  have hv : v.toNat < 0x100000000 := v.toNat_lt
  have h : v.toUInt64.toInt64.toInt = Int.bmod v.toUInt64.toNat (2 ^ 64) :=
    BitVec.toInt_eq_toNat_bmod v.toUInt64.toBitVec
  rw [h, UInt32.toNat_toUInt64, Int.bmod_eq_of_le (by omega) (by omega)]

theorem carry_toNat (hu : u.toNat < 0x10000) (hv : v.toNat < 0x10000) :
    (Rand48.carry u v).toNat = (u.toNat + v.toNat) / 0x10000 := by
  have hsum : (u.toInt32.toInt64 + v.toUInt64.toInt64).toInt = u.toNat + v.toNat := by
    rw [Int64.toInt_add, Int32.toInt_toInt64, toInt_toInt32 (by omega), toInt_toUInt64,
      Int.bmod_eq_of_le (by omega) (by omega)]
  have hgt : u.toInt32.toInt64 + v.toUInt64.toInt64 > 0xffff ↔ 0xffff < u.toNat + v.toNat := by
    rw [gt_iff_lt, Int64.lt_iff_toInt_lt, hsum]
    exact Int.ofNat_lt
  unfold Rand48.carry
  split
  next h =>
    rw [hgt] at h
    rw [UInt32.toNat_one]
    omega
  next h =>
    rw [hgt] at h
    rw [UInt32.toNat_zero]
    omega

/-- `ADDEQU` gives the limb of the sum, and what does not fit in it. -/
theorem addequ_spec {p : UInt32 × UInt32} (h : Rand48.addequ u v = p) (hu : u.toNat < 0x10000)
    (hv : v.toNat < 0x10000) :
    p.1.toNat + 0x10000 * p.2.toNat = u.toNat + v.toNat ∧ p.1.toNat < 0x10000 ∧ p.2.toNat < 0x10000 := by
  rw [← h, Rand48.addequ, low_toNat, carry_toNat hu hv, UInt32.toNat_add]
  omega

end Limb

namespace Rand48

variable {s : Rand48} {n : Nat}

theorem Represents.next (h : s.Represents n) : s.next.Represents (lcg48 n) := by
  obtain ⟨⟨h0, h1, h2⟩, rfl, ha, hc⟩ := h
  obtain ⟨⟨x0, x1, x2⟩, a, c⟩ := s
  dsimp only at h0 h1 h2 ha hc
  subst ha hc
  have ha0 : initial.a.l0.toNat = 0xE66D := rfl
  have ha1 : initial.a.l1.toNat = 0xDEEC := rfl
  have ha2 : initial.a.l2.toNat = 0x5 := rfl
  have hc : initial.c.toNat = 0xB := rfl
  unfold Rand48.next
  dsimp only
  rcases hP : mul initial.a.l0 x0 with ⟨p0, p1⟩
  rcases hC0 : addequ p0 initial.c with ⟨p0', carry0⟩
  rcases hC1 : addequ p1 carry0 with ⟨p1', carry1⟩
  rcases hQ : mul initial.a.l0 x1 with ⟨q0, q1⟩
  rcases hC2 : addequ p1' q0 with ⟨p1'', carry0'⟩
  rcases hR : mul initial.a.l1 x0 with ⟨r0, r1⟩
  dsimp only
  obtain ⟨hP, hp0, hp1⟩ := mul_spec hP (by omega) h0
  obtain ⟨hC0, hp0', hcarry0⟩ := addequ_spec hC0 hp0 (by omega)
  obtain ⟨hC1, hp1', hcarry1⟩ := addequ_spec hC1 hp1 hcarry0
  obtain ⟨hQ, hq0, hq1⟩ := mul_spec hQ (by omega) h1
  obtain ⟨hC2, hp1'', hcarry0'⟩ := addequ_spec hC2 hp1' hq0
  obtain ⟨hR, hr0, hr1⟩ := mul_spec hR (by omega) h0
  have hC3 := carry_toNat hp1'' hr0
  rw [ha0] at hP hQ
  rw [ha1] at hR
  rw [hc] at hC0
  have hcut (k : Nat) : k % 2 ^ 32 % 0x10000 = k % 0x10000 := Nat.mod_mod_of_dvd k (by decide)
  refine ⟨⟨low_lt, low_lt, low_lt⟩, ?_, rfl, rfl⟩
  simp only [Limbs.value, lcg48, low_toNat, UInt32.toNat_add, hC3, mul_toNat (u := initial.a.l0) (by omega) h2,
    mul_toNat (u := initial.a.l1) (by omega) h1, mul_toNat (u := initial.a.l2) (by omega) h0, ha0, ha1, ha2,
    Nat.mod_add_mod, hcut]
  dsimp only at hP hC0 hC1 hQ hC2 hR hp0' hp1'' hr0
  obtain ⟨top, htop⟩ : ∃ top, carry0'.toNat + carry1.toNat + (p1''.toNat + r0.toNat) / 0x10000 + q1.toNat +
    r1.toNat + 0xE66D * x2.toNat + 0xDEEC * x1.toNat + 0x5 * x0.toNat = top := ⟨_, rfl⟩
  -- the carries cancel, and what `a` and `x` give above the limbs is a multiple of `2 ^ 48`
  have hsum : 0x5DEECE66D * (x0.toNat + 0x10000 * x1.toNat + 0x100000000 * x2.toNat) + 0xB =
      p0'.toNat + 0x10000 * ((p1''.toNat + r0.toNat) % 0x10000) + 0x100000000 * top +
        0x1000000000000 * (0xDEEC * x2.toNat + 0x5 * x1.toNat + 0x50000 * x2.toNat) := by
    omega
  rw [htop, hsum, Nat.add_mul_mod_self_left, Nat.mod_eq_of_lt hp0']
  clear hsum htop hC3 hP hQ hR hC0 hC1 hC2
  omega

theorem initial_represents : initial.Represents 0x1234ABCD330E :=
  ⟨⟨by decide, by decide, by decide⟩, rfl, rfl, rfl⟩

theorem redisSrand48_represents {seed : Int32} :
    (s.redisSrand48 seed).Represents (seed.toUInt32.toNat * 0x10000 + 0x330E) := by
  have hx0 : (0x330E : UInt32).toNat = 0x330E := rfl
  have hhigh : (high seed).toNat = seed.toUInt32.toNat / 0x10000 := high_toNat (u := seed.toUInt32)
  refine ⟨⟨?_, low_lt, low_lt⟩, ?_, rfl, rfl⟩
  · exact (by decide : (0x330E : UInt32).toNat < 0x10000)
  · simp only [redisSrand48, Limbs.value, low_toNat, hhigh, hx0]
    omega

/-- A limb can be shifted below the sign. -/
theorem shl_spec {u : UInt32} (hu : u.toNat < 0x10000) :
    ∃ v, shl u.toInt32 15 = some v ∧ v.toUInt32.toNat = u.toNat * 0x8000 := by
  have hshift : u.toInt32.toInt * (Nat.pow 2 15 : Nat) = ((u.toNat * 0x8000 : Nat) : Int) := by
    rw [toInt_toInt32 (by omega), Int.natCast_mul]
  refine ⟨Int32.ofInt ((u.toNat * 0x8000 : Nat) : Int), ?_, ?_⟩
  · rw [shl, hshift, if_pos]
    rw [toInt_toInt32 (by omega)]
    omega
  · have hcast : (Int32.ofInt ((u.toNat * 0x8000 : Nat) : Int)).toUInt32.toBitVec =
        BitVec.ofInt 32 (u.toNat * 0x8000 : Nat) := rfl
    rw [← UInt32.toNat_toBitVec, hcast, BitVec.toNat_ofInt]
    omega

theorem Represents.redisLrand48 (h : s.Represents n) :
    ∃ v, s.redisLrand48 = some (v, s.next) ∧ v.toInt = (lcg48 n / 0x20000 : Nat) := by
  obtain ⟨⟨h0, h1, h2⟩, hvalue, -, -⟩ := h.next
  obtain ⟨top, htop, hnat⟩ := shl_spec h2
  have hhalf : (s.next.x.l1 >>> 1).toNat = s.next.x.l1.toNat / 2 := by
    rw [UInt32.toNat_shiftRight]
    exact Nat.shiftRight_eq_div_pow _ 1
  have hsum : (top.toUInt32 + (s.next.x.l1 >>> 1)).toNat = lcg48 n / 0x20000 := by
    rw [UInt32.toNat_add, hnat, hhalf, ← hvalue, Limbs.value]
    omega
  have hlt : lcg48 n < 0x1000000000000 := Nat.mod_lt _ (by decide)
  refine ⟨(top.toUInt32 + (s.next.x.l1 >>> 1)).toInt32, ?_, ?_⟩
  · simp only [Rand48.redisLrand48, htop, Option.bind_eq_bind, Option.bind_some, Option.pure_def]
  · rw [toInt_toInt32 (by omega), hsum]

/-- Every draw from `s` on is that of the generator from `n` on. -/
def DrawsFrom (s : Rand48) (n : Nat) : Prop :=
  ∀ k, ∃ vs s', s.draws k = some (vs, s') ∧ s'.Represents (lcg48^[k] n) ∧ vs.length = k ∧
    ∀ (i : Nat) (v : Int32), vs[i]? = some v →
      v.toInt = ((lcg48^[i + 1] n / 0x20000 : Nat) : Int) ∧ 0 ≤ v.toInt ∧ v.toInt < 0x80000000

theorem Represents.drawsFrom (h : s.Represents n) : s.DrawsFrom n := by
  intro k
  induction k generalizing s n with
  | zero => exact ⟨[], s, rfl, h, rfl, fun i v hv => by simp at hv⟩
  | succ k ih =>
    obtain ⟨v, hdraw, hv⟩ := h.redisLrand48
    obtain ⟨vs, s', hdraws, hs', hlen, hvs⟩ := ih h.next
    refine ⟨v :: vs, s', ?_, hs', by rw [List.length_cons, hlen], ?_⟩
    · simp only [draws, hdraw, hdraws, Option.bind_eq_bind, Option.bind_some, Option.pure_def]
    · intro i w hw
      cases i with
      | zero =>
        rw [List.getElem?_cons_zero, Option.some.injEq] at hw
        have hlt : lcg48 n < 0x1000000000000 := Nat.mod_lt _ (by decide)
        rw [← hw, hv]
        refine ⟨rfl, ?_, ?_⟩ <;> omega
      | succ i =>
        rw [List.getElem?_cons_succ] at hw
        exact hvs i w hw

/-- The draws are those of the generator, from the first state on and from every seed. -/
theorem redisLrand48_draws :
    initial.DrawsFrom 0x1234ABCD330E ∧
      ∀ (s : Rand48) (seed : Int32),
        (s.redisSrand48 seed).DrawsFrom (seed.toUInt32.toNat * 0x10000 + 0x330E) :=
  ⟨initial_represents.drawsFrom, fun _ _ => redisSrand48_represents.drawsFrom⟩

end Rand48

end Rtfsc.Redis
