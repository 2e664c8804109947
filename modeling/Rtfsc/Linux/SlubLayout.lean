import Rtfsc.Machine.Cells
import Mathlib.Data.Nat.Log
import Mathlib.Data.Nat.Size

/-!
# The layout of a slab cache

`calculate_sizes` puts together the slot of an object (the object, a word for the red zone, the free
pointer where it may not stand in the object, the tracks, the padding on the left) and asks
`calculate_order` for the order of the slab. All sizes are `unsigned int`.
-/

namespace Rtfsc.Linux

open Rtfsc.Machine

/-- `MAX_OBJS_PER_PAGE` -/
def maxObjsPerPage : Nat := 32767

/-- `sizeof(void *)` -/
def wordSize : Nat := 8

/-- A value of type `unsigned int`. -/
def uint (n : Nat) : Nat := n % 2 ^ 32

/-- `ALIGN(x, a)` -/
def slubAlign (x a : Nat) : Nat :=
  uint (x + (a - 1)) &&& (2 ^ 32 - a)

/-- What the architecture and the boot parameters decide. -/
structure SlubSetup where
  pageShift : Nat
  maxOrder : Nat
  slubMinOrder : Nat
  slubMaxOrder : Nat
  slubMinObjects : Nat
  nrCpuIds : Nat
  sizeofTrack : Nat
  pages : pageShift ≤ 16
  slabs : pageShift + maxOrder < 32
  minOrder : slubMinOrder ≤ slubMaxOrder
  lastOrder : slubMaxOrder < maxOrder

/-- The flags of a cache that are read or written here. -/
structure SlabFlags where
  poison : Bool
  typesafeByRcu : Bool
  redZone : Bool
  storeUser : Bool
  cacheDma : Bool
  reclaimAccount : Bool
  objectPoison : Bool
deriving DecidableEq

/-- The flags for the allocation of pages. -/
structure SlabAllocFlags where
  comp : Bool
  dma : Bool
  reclaimable : Bool
deriving DecidableEq

/-- `struct kmem_cache_order_objects`, taken apart. -/
structure OrderObjects where
  order : Nat
  objects : Nat
deriving DecidableEq

/-- `struct kmem_cache` -/
structure KmemCache where
  flags : SlabFlags
  size : Nat
  objectSize : Nat
  offset : Nat
  oo : OrderObjects
  max : OrderObjects
  min : OrderObjects
  allocflags : SlabAllocFlags
  ctor : Bool
  inuse : Nat
  align : Nat
  redLeftPad : Nat
deriving DecidableEq

namespace SlubSetup

variable (c : SlubSetup)

/-- `(unsigned int)PAGE_SIZE << order` -/
def slabSize (order : Nat) : Nat :=
  uint (2 ^ c.pageShift * 2 ^ order)

/-- `get_order`: the least order of a block of that size. -/
def getOrder (size : Nat) : Nat :=
  Nat.clog 2 size - c.pageShift

/-- `order_objects` -/
def orderObjects (order size : Nat) : Nat :=
  c.slabSize order / size

/-- `oo_make` -/
def ooMake (order size : Nat) : OrderObjects :=
  ⟨order, c.orderObjects order size⟩

/-- The loop of `slab_order`, for at most the given number of rounds. -/
def searchOrder (size maxOrder fractLeftover : Nat) : Nat → Nat → Nat
  | 0, order => order
  | n + 1, order =>
    if order ≤ maxOrder then
      if c.slabSize order % size ≤ c.slabSize order / fractLeftover then order
      else searchOrder size maxOrder fractLeftover n (order + 1)
    else order

/-- `slab_order` -/
def slabOrder (size minObjects maxOrder fractLeftover : Nat) : Nat :=
  if maxObjsPerPage < c.orderObjects c.slubMinOrder size then
    uint (c.getOrder (uint (size * maxObjsPerPage)) + (2 ^ 32 - 1))
  else
    let order := max c.slubMinOrder (c.getOrder (uint (minObjects * size)))
    c.searchOrder size maxOrder fractLeftover (maxOrder + 1 - order) order

/-- `while (fraction >= 4)`, for at most the given number of rounds. -/
def tryFractions (size minObjects : Nat) : Nat → Nat → Option Nat
  | 0, _ => none
  | n + 1, fraction =>
    if 4 ≤ fraction then
      let order := c.slabOrder size minObjects c.slubMaxOrder fraction
      if order ≤ c.slubMaxOrder then some order else tryFractions size minObjects n (fraction / 2)
    else none

/-- `while (min_objects > 1)` -/
def tryObjects (size : Nat) : Nat → Option Nat
  | 0 => none
  | 1 => none
  | n + 2 =>
    match c.tryFractions size (n + 2) 4 16 with
    | some order => some order
    | none => tryObjects size (n + 1)

/-- The number of objects with which `calculate_order` begins. -/
def firstMinObjects (size : Nat) : Nat :=
  let minObjects := if c.slubMinObjects = 0 then 4 * (c.nrCpuIds.size + 1) else c.slubMinObjects
  min minObjects (c.orderObjects c.slubMaxOrder size)

/-- `calculate_order`; `none` for `-ENOSYS`. -/
def calculateOrder (size : Nat) : Option Nat :=
  match c.tryObjects size (c.firstMinObjects size) with
  | some order => some order
  | none =>
    let order := c.slabOrder size 1 c.slubMaxOrder 1
    if order ≤ c.slubMaxOrder then some order
    else
      let order := c.slabOrder size 1 c.maxOrder 1
      if order < c.maxOrder then some order else none

/-- `calculate_sizes` before the order is chosen; `kasan_cache_create` leaves the size alone. -/
def layout (s : KmemCache) : KmemCache :=
  let flags := s.flags
  let size := slubAlign s.objectSize wordSize
  let s := { s with flags := { s.flags with
    objectPoison := flags.poison && !flags.typesafeByRcu && !s.ctor } }
  let size := if flags.redZone && size = s.objectSize then uint (size + wordSize) else size
  let s := { s with inuse := size }
  let moved := flags.typesafeByRcu || flags.poison || s.ctor
  let s := if moved then { s with offset := size } else s
  let size := if moved then uint (size + wordSize) else size
  let size := if flags.storeUser then uint (size + uint (2 * c.sizeofTrack)) else size
  let s := if flags.redZone then { s with redLeftPad := slubAlign wordSize s.align } else s
  let size := if flags.redZone then uint (uint (size + wordSize) + s.redLeftPad) else size
  { s with size := slubAlign size s.align }

/-- `calculate_sizes` after the order is chosen. -/
def setOrder (order : Nat) (s : KmemCache) : KmemCache :=
  let s := { s with allocflags := ⟨order ≠ 0, s.flags.cacheDma, s.flags.reclaimAccount⟩ }
  let s := { s with oo := c.ooMake order s.size, min := c.ooMake (c.getOrder s.size) s.size }
  if s.max.objects < s.oo.objects then { s with max := s.oo } else s

/-- `calculate_sizes`: whether it returns a value other than 0, and the cache. -/
def calculateSizes (s : KmemCache) (forcedOrder : Int) : Bool × KmemCache :=
  let s := c.layout s
  let order := if 0 ≤ forcedOrder then some forcedOrder.toNat else c.calculateOrder s.size
  match order with
  | none => (false, s)
  | some order => ((c.setOrder order s).oo.objects ≠ 0, c.setOrder order s)

end SlubSetup

/-!
## What a slab cache is laid out as

The sizes without the width of `unsigned int`, and the order that comes out of the search.
-/

variable {x a b d n o : Nat}

/-! ## Sizes -/

/-- Rounded up to a multiple of `a`. -/
def roundUp (x a : Nat) : Nat :=
  (x + (a - 1)) / a * a

theorem dvd_roundUp (x a : Nat) : a ∣ roundUp x a :=
  Nat.dvd_mul_left a _

theorem le_roundUp (ha : 0 < a) (x : Nat) : x ≤ roundUp x a := by
  have hdiv := Nat.div_add_mod' (x + (a - 1)) a
  have hmod := Nat.mod_lt (x + (a - 1)) ha
  unfold roundUp
  omega

@[simp] theorem uint_of_lt (h : n < 2 ^ 32) : uint n = n :=
  Nat.mod_eq_of_lt h

/-- `ALIGN` is rounding up while the result fits. -/
theorem slubAlign_eq (ha : ∃ k, a = 2 ^ k) (hx : 0 < x) (h : roundUp x a < 2 ^ 32) :
    slubAlign x a = roundUp x a := by
  obtain ⟨k, rfl⟩ := ha
  have hpos := Nat.two_pow_pos k
  have hone : 1 ≤ (x + (2 ^ k - 1)) / 2 ^ k := (Nat.one_le_div_iff hpos).2 (by omega)
  have hk : k < 32 := by
    have hle : 2 ^ k ≤ roundUp x (2 ^ k) := Nat.le_mul_of_pos_left _ hone
    exact (Nat.pow_lt_pow_iff_right (by decide)).1 (hle.trans_lt h)
  have hsplit : 2 ^ 32 = 2 ^ (32 - k) * 2 ^ k := by rw [← Nat.pow_add, Nat.sub_add_cancel hk.le]
  have hsum : x + (2 ^ k - 1) < 2 ^ 32 := by
    have hquot : (x + (2 ^ k - 1)) / 2 ^ k < 2 ^ (32 - k) := by
      unfold roundUp at h
      rw [hsplit] at h
      exact Nat.lt_of_mul_lt_mul_right h
    exact hsplit ▸ (Nat.div_lt_iff_lt_mul hpos).1 hquot
  rw [slubAlign, uint_of_lt hsum, and_highMask hsum hk.le]
  rfl

/-- A field that is appended on a condition. -/
theorem append_field {c : Prop} [Decidable c] (h : x + (if c then d else 0) < 2 ^ 32) :
    (if c then uint (x + d) else x) = x + if c then d else 0 := by
  split
  · next hc => exact uint_of_lt (by rwa [if_pos hc] at h)
  · rfl

namespace KmemCache

variable (c : SlubSetup) (s : KmemCache)

/-- The free pointer may not overwrite the object. -/
def moved : Bool :=
  s.flags.typesafeByRcu || s.flags.poison || s.ctor

/-- The object and, if nothing is left of its last word, a word for the red zone. -/
def plainInuse : Nat :=
  roundUp s.objectSize wordSize +
    if (s.flags.redZone && roundUp s.objectSize wordSize = s.objectSize) = true then wordSize else 0

/-- The free pointer behind the object, and the tracks. -/
def plainBody : Nat :=
  s.plainInuse + (if s.moved = true then wordSize else 0) +
    if s.flags.storeUser = true then 2 * c.sizeofTrack else 0

/-- The padding on both sides. -/
def plainPadded : Nat :=
  s.plainBody c + if s.flags.redZone = true then wordSize + roundUp wordSize s.align else 0

/-- The size of a slot, as a natural number. -/
def plainSize : Nat :=
  roundUp (s.plainPadded c) s.align

/-- Where the object stands in its slot. -/
def objectStart : Nat :=
  if s.flags.redZone then s.redLeftPad else 0

variable {c s}

theorem le_plainInuse : s.objectSize ≤ s.plainInuse :=
  (le_roundUp (by decide) _).trans (Nat.le_add_right ..)

/-- A word of each field of the slot. -/
theorem dvd_plainInuse : wordSize ∣ s.plainInuse := by
  unfold plainInuse
  refine Nat.dvd_add (dvd_roundUp ..) ?_
  split
  · exact dvd_rfl
  · exact dvd_zero _

/-- The first half of `calculate_sizes`, where no addition overflows. -/
theorem layout_eq (hobj : 1 ≤ s.objectSize) (halign : ∃ k, s.align = 2 ^ k)
    (h : s.plainSize c < 2 ^ 32) :
    c.layout s = { s with
      flags := { s.flags with
        objectPoison := s.flags.poison && !s.flags.typesafeByRcu && !s.ctor }
      inuse := s.plainInuse
      offset := if s.moved then s.plainInuse else s.offset
      redLeftPad := if s.flags.redZone then roundUp wordSize s.align else s.redLeftPad
      size := s.plainSize c } := by
  have hpos : 0 < s.align := by
    obtain ⟨k, hk⟩ := halign
    exact hk ▸ Nat.two_pow_pos k
  have hpadded : s.plainPadded c < 2 ^ 32 := (le_roundUp hpos _).trans_lt h
  have hbody : s.plainBody c < 2 ^ 32 := (Nat.le_add_right ..).trans_lt hpadded
  have htracked : s.plainInuse + (if s.moved = true then wordSize else 0) < 2 ^ 32 :=
    (Nat.le_add_right ..).trans_lt hbody
  have hinuse : s.plainInuse < 2 ^ 32 := (Nat.le_add_right ..).trans_lt htracked
  have hword : roundUp s.objectSize wordSize < 2 ^ 32 := (Nat.le_add_right ..).trans_lt hinuse
  have hobject : slubAlign s.objectSize wordSize = roundUp s.objectSize wordSize :=
    slubAlign_eq ⟨3, rfl⟩ hobj hword
  have hsize : slubAlign (s.plainPadded c) s.align = s.plainSize c :=
    slubAlign_eq halign ((hobj.trans le_plainInuse).trans ((Nat.le_add_right ..).trans
      ((Nat.le_add_right ..).trans (Nat.le_add_right ..)))) h
  have hinuseEq : (if (s.flags.redZone && roundUp s.objectSize wordSize = s.objectSize) = true then
      uint (roundUp s.objectSize wordSize + wordSize) else roundUp s.objectSize wordSize) =
        s.plainInuse := append_field hinuse
  have hmoved : (if s.moved = true then uint (s.plainInuse + wordSize) else s.plainInuse) =
      s.plainInuse + if s.moved = true then wordSize else 0 := append_field htracked
  have htracks : (if s.flags.storeUser = true then
      uint (s.plainInuse + (if s.moved = true then wordSize else 0) + uint (2 * c.sizeofTrack))
        else s.plainInuse + if s.moved = true then wordSize else 0) = s.plainBody c := by
    unfold plainBody at hbody ⊢
    split
    · next hst =>
      rw [if_pos hst] at hbody
      rw [uint_of_lt ((Nat.le_add_left ..).trans_lt hbody), uint_of_lt hbody]
    · rfl
  have hpad : s.flags.redZone = true → slubAlign wordSize s.align = roundUp wordSize s.align ∧
      uint (uint (s.plainBody c + wordSize) + roundUp wordSize s.align) = s.plainPadded c := by
    intro hr
    unfold plainPadded at hpadded ⊢
    rw [if_pos hr, ← Nat.add_assoc] at hpadded
    rw [if_pos hr, ← Nat.add_assoc]
    have hleft : roundUp wordSize s.align < 2 ^ 32 := (Nat.le_add_left ..).trans_lt hpadded
    exact ⟨slubAlign_eq halign (by decide) hleft, by
      rw [uint_of_lt ((Nat.le_add_right ..).trans_lt hpadded), uint_of_lt hpadded]⟩
  have hmovedDef : (s.flags.typesafeByRcu || s.flags.poison || s.ctor) = s.moved := rfl
  unfold SlubSetup.layout
  simp only [hobject, hinuseEq, hmovedDef, hmoved, htracks]
  cases hm : s.moved with
  | true =>
    cases hr : s.flags.redZone with
    | true =>
      simp only [if_true, (hpad hr).1, (hpad hr).2, hsize]
    | false =>
      have hbare : s.plainPadded c = s.plainBody c := by simp [plainPadded, hr]
      simp only [if_true, Bool.false_eq_true, if_false, ← hbare, hsize]
  | false =>
    cases hr : s.flags.redZone with
    | true =>
      simp only [if_true, Bool.false_eq_true, if_false, (hpad hr).1, (hpad hr).2, hsize]
    | false =>
      have hbare : s.plainPadded c = s.plainBody c := by simp [plainPadded, hr]
      simp only [Bool.false_eq_true, if_false, ← hbare, hsize]

end KmemCache

end Rtfsc.Linux
