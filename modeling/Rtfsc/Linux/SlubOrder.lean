import Rtfsc.Linux.SlubLayout

/-!
# The order of a slab

The search begins with the least order that holds the objects asked for, and goes on only while fewer
than sixteen objects fit. So the number of objects in the slab that it finds is decided where it begins.
-/

namespace Rtfsc.Linux

open Rtfsc.Machine

namespace SlubSetup

variable {c : SlubSetup} {size n o q r fract mx : Nat}

/-! ## Orders -/

theorem slabSize_eq (ho : o ≤ c.maxOrder) : c.slabSize o = 2 ^ (c.pageShift + o) := by
  rw [slabSize, ← Nat.pow_add]
  apply uint_of_lt
  have hlt := c.slabs
  exact Nat.pow_lt_pow_right (by decide) (by omega)

theorem orderObjects_eq (ho : o ≤ c.maxOrder) :
    c.orderObjects o size = 2 ^ (c.pageShift + o) / size := by
  rw [orderObjects, slabSize_eq ho]

theorem getOrder_le_iff : c.getOrder n ≤ o ↔ n ≤ 2 ^ (c.pageShift + o) := by
  rw [getOrder, Nat.sub_le_iff_le_add', Nat.clog_le_iff_le_pow (by decide)]

theorem getOrder_mono {m : Nat} (h : m ≤ n) : c.getOrder m ≤ c.getOrder n :=
  getOrder_le_iff.2 (h.trans (getOrder_le_iff.1 (le_refl (c.getOrder n))))

theorem orderObjects_mono (h : q ≤ o) (ho : o ≤ c.maxOrder) (size : Nat) :
    c.orderObjects q size ≤ c.orderObjects o size := by
  rw [orderObjects_eq ho, orderObjects_eq (h.trans ho)]
  exact Nat.div_le_div_right (Nat.pow_le_pow_right (by decide) (Nat.add_le_add_left h _))

/-- A slab of the next order holds at most twice as many objects, and one. -/
theorem orderObjects_succ (hsize : 0 < size) (ho : o + 1 ≤ c.maxOrder) :
    c.orderObjects (o + 1) size ≤ 2 * c.orderObjects o size + 1 := by
  rw [orderObjects_eq ho, orderObjects_eq (Nat.le_of_succ_le ho), ← Nat.add_assoc, Nat.pow_succ]
  refine Nat.le_of_lt_succ ((Nat.div_lt_iff_lt_mul hsize).2 ?_)
  have hlt := Nat.lt_mul_div_succ (2 ^ (c.pageShift + o)) hsize
  calc 2 ^ (c.pageShift + o) * 2 < size * (2 ^ (c.pageShift + o) / size + 1) * 2 :=
        Nat.mul_lt_mul_of_pos_right hlt (by decide)
    _ = (2 * (2 ^ (c.pageShift + o) / size) + 1).succ * size := by
        rw [Nat.succ_eq_add_one]
        ring

theorem one_le_orderObjects (hsize : 0 < size) (ho : o ≤ c.maxOrder) (h : c.getOrder size ≤ o) :
    1 ≤ c.orderObjects o size := by
  rw [orderObjects_eq ho]
  exact (Nat.one_le_div_iff hsize).2 (getOrder_le_iff.1 h)

/-! ## The search -/

/-- The search ends where it begins or behind an order of fewer objects than the fraction. -/
theorem searchOrder_cases (hfract : 0 < fract) (size mx n o : Nat) :
    c.searchOrder size mx fract n o = o ∨
      ∃ q, o ≤ q ∧ q ≤ mx ∧ c.searchOrder size mx fract n o = q + 1 ∧
        c.orderObjects q size < fract := by
  induction n generalizing o with
  | zero => exact .inl rfl
  | succ n ih =>
    rw [searchOrder]
    split
    · next ho =>
      split
      · exact .inl rfl
      · next hrem =>
        have hfew : c.orderObjects o size < fract := by
          rcases Nat.eq_zero_or_pos size with rfl | hsize
          · rwa [orderObjects, Nat.div_zero]
          · have hlt : c.slabSize o / fract < size :=
              (Nat.not_le.1 hrem).trans (Nat.mod_lt _ hsize)
            exact Nat.div_lt_of_lt_mul ((Nat.div_lt_iff_lt_mul hfract).1 hlt)
        rcases ih (o + 1) with h | ⟨q, hq, hqm, h, hqf⟩
        · exact .inr ⟨o, le_refl o, ho, h, hfew⟩
        · exact .inr ⟨q, Nat.le_of_succ_le hq, hqm, h, hqf⟩
    · exact .inl rfl

/-- It ends where it begins if enough objects fit there. -/
theorem searchOrder_of_le (hsize : 0 < size) (hfract : 0 < fract) (ho : o ≤ mx)
    (h : fract ≤ c.orderObjects o size) : c.searchOrder size mx fract (n + 1) o = o := by
  have hle : size ≤ c.slabSize o / fract := by
    rw [Nat.le_div_iff_mul_le hfract, Nat.mul_comm]
    exact (Nat.le_div_iff_mul_le hsize).1 h
  rw [searchOrder, if_pos ho, if_pos ((Nat.mod_lt _ hsize).le.trans hle)]

/-- What the search comes to: at least the order where it begins, and no more objects than there or
thirty-one. -/
theorem searchOrder_objects (hsize : 0 < size) (hfract : 0 < fract) (hf : fract ≤ 16)
    (hr : c.searchOrder size mx fract n o < c.maxOrder) :
    o ≤ c.searchOrder size mx fract n o ∧
      c.orderObjects (c.searchOrder size mx fract n o) size ≤ max (c.orderObjects o size) 31 := by
  rcases searchOrder_cases (c := c) hfract size mx n o with h | ⟨q, hq, -, h, hqf⟩
  · rw [h]
    exact ⟨le_refl o, Nat.le_max_left ..⟩
  · rw [h] at hr ⊢
    have hsucc := orderObjects_succ (c := c) hsize hr.le
    exact ⟨Nat.le_succ_of_le hq, (show _ ≤ 31 by omega).trans (Nat.le_max_right ..)⟩

theorem firstOrder_lt (c : SlubSetup) : c.slubMinOrder < c.maxOrder :=
  c.minOrder.trans_lt c.lastOrder

/-- Where a slab of the least order would hold too many objects, the order is chosen by their number. -/
theorem slabOrder_shortcut (hsize : wordSize ≤ size)
    (h : maxObjsPerPage < c.orderObjects c.slubMinOrder size) (m mx fract : Nat) :
    c.slabOrder size m mx fract < c.slubMinOrder ∧
      1 ≤ c.orderObjects (c.slabOrder size m mx fract) size ∧
        c.orderObjects (c.slabOrder size m mx fract) size ≤ maxObjsPerPage := by
  have hpos : 0 < size := (by decide : 0 < wordSize).trans_le hsize
  have hmin := (firstOrder_lt c).le
  have hslab : size * maxObjsPerPage < 2 ^ (c.pageShift + c.slubMinOrder) := by
    rw [orderObjects_eq hmin] at h
    calc size * maxObjsPerPage < size * (maxObjsPerPage + 1) :=
          Nat.mul_lt_mul_of_pos_left (Nat.lt_succ_self _) hpos
      _ ≤ 2 ^ (c.pageShift + c.slubMinOrder) := by
          rw [Nat.mul_comm]
          exact (Nat.le_div_iff_mul_le hpos).1 h
  have hfits : size * maxObjsPerPage < 2 ^ 32 := by
    have hlt := c.slabs
    exact hslab.trans (Nat.pow_lt_pow_right (by decide) (by omega))
  have hle : c.getOrder (size * maxObjsPerPage) ≤ c.slubMinOrder := getOrder_le_iff.2 hslab.le
  obtain ⟨q, hq⟩ : ∃ q, c.getOrder (size * maxObjsPerPage) = q + 1 := by
    refine Nat.exists_eq_succ_of_ne_zero fun hzero => ?_
    have hpage : size * maxObjsPerPage ≤ 2 ^ c.pageShift := getOrder_le_iff.1 hzero.le
    have hsmall : 2 ^ c.pageShift ≤ 2 ^ 16 := Nat.pow_le_pow_right (by decide) c.pages
    have hbig : wordSize * maxObjsPerPage ≤ size * maxObjsPerPage := Nat.mul_le_mul_right _ hsize
    exact absurd (hbig.trans (hpage.trans hsmall)) (by decide)
  have horder : c.slabOrder size m mx fract = q := by
    have hlt : q < 2 ^ 32 := by
      have hslabs := c.slabs
      omega
    rw [slabOrder, if_pos h, uint_of_lt hfits, hq, uint, Nat.add_assoc, Nat.add_sub_cancel' (by decide),
      Nat.add_mod_right, Nat.mod_eq_of_lt hlt]
  have hqmax : q ≤ c.maxOrder := by omega
  have hnot : ¬size * maxObjsPerPage ≤ 2 ^ (c.pageShift + q) := fun hqle => by
    have hge := getOrder_le_iff.2 hqle
    omega
  have hyes : size * maxObjsPerPage ≤ 2 ^ (c.pageShift + q) * 2 := by
    rw [← Nat.pow_succ]
    exact getOrder_le_iff.1 hq.le
  rw [horder, orderObjects_eq hqmax]
  refine ⟨by omega, (Nat.one_le_div_iff hpos).2 ?_, ?_⟩
  · have htwice : size * 2 ≤ size * maxObjsPerPage := Nat.mul_le_mul_left _ (by decide)
    exact Nat.le_of_mul_le_mul_right (htwice.trans hyes) (by decide)
  · exact (Nat.div_lt_of_lt_mul (Nat.not_le.1 hnot)).le

/-- One object is never too many. -/
theorem orderObjects_getOrder_size (hsize : 0 < size)
    (h : c.orderObjects c.slubMinOrder size ≤ maxObjsPerPage) (ho : c.getOrder size ≤ c.maxOrder) :
    c.orderObjects (c.getOrder size) size ≤ maxObjsPerPage := by
  cases hg : c.getOrder size with
  | zero => exact (orderObjects_mono (Nat.zero_le _) (firstOrder_lt c).le _).trans h
  | succ q =>
    rw [hg] at ho
    have hnone : c.orderObjects q size = 0 := by
      rw [orderObjects_eq (Nat.le_of_succ_le ho), Nat.div_eq_zero_iff]
      refine .inr (Nat.not_le.1 fun hle => ?_)
      have hge := getOrder_le_iff.2 hle
      omega
    have hsucc := orderObjects_succ (c := c) hsize ho
    rw [hnone] at hsucc
    exact hsucc.trans (by decide)

/-- Elsewhere the order holds the objects asked for, and too many only if the least order that holds
them does. -/
theorem slabOrder_objects {m : Nat} (hsize : wordSize ≤ size) (hfract : 0 < fract) (hf : fract ≤ 16)
    (hm : 1 ≤ m) (hfits : m * size < 2 ^ 32) (hr : c.slabOrder size m mx fract < c.maxOrder) :
    1 ≤ c.orderObjects (c.slabOrder size m mx fract) size ∧
      (maxObjsPerPage < c.orderObjects c.slubMinOrder size ∨
          c.orderObjects (c.getOrder (m * size)) size ≤ maxObjsPerPage →
        c.orderObjects (c.slabOrder size m mx fract) size ≤ maxObjsPerPage) := by
  have hpos : 0 < size := (by decide : 0 < wordSize).trans_le hsize
  rcases Nat.lt_or_ge maxObjsPerPage (c.orderObjects c.slubMinOrder size) with hmany | hfew
  · obtain ⟨-, hone, hmax⟩ := slabOrder_shortcut hsize hmany m mx fract
    exact ⟨hone, fun _ => hmax⟩
  · have horder : c.slabOrder size m mx fract = c.searchOrder size mx fract
        (mx + 1 - max c.slubMinOrder (c.getOrder (m * size)))
        (max c.slubMinOrder (c.getOrder (m * size))) := by
      rw [slabOrder, if_neg (Nat.not_lt.2 hfew), uint_of_lt hfits]
    rw [horder] at hr ⊢
    obtain ⟨hge, hobjects⟩ := searchOrder_objects hpos hfract hf hr
    refine ⟨one_le_orderObjects hpos hr.le ?_, fun h => hobjects.trans (max_le ?_ (by decide))⟩
    · exact (getOrder_mono (Nat.le_mul_of_pos_left size hm)).trans
        ((Nat.le_max_right ..).trans hge)
    · rcases max_choice c.slubMinOrder (c.getOrder (m * size)) with heq | heq
      · rw [heq]
        exact hfew
      · rw [heq]
        exact h.resolve_left (Nat.not_lt.2 hfew)

/-! ## `calculate_order` -/

theorem tryFractions_some {m fraction : Nat} (h : c.tryFractions size m n fraction = some r) :
    ∃ f, 0 < f ∧ f ≤ fraction ∧ r = c.slabOrder size m c.slubMaxOrder f ∧ r ≤ c.slubMaxOrder := by
  induction n generalizing fraction with
  | zero => cases h
  | succ n ih =>
    rw [tryFractions] at h
    split at h
    · next hfour =>
      dsimp only at h
      split at h
      · next hle =>
        cases h
        exact ⟨fraction, (by decide : 0 < 4).trans_le hfour, le_refl _, rfl, hle⟩
      · obtain ⟨f, hf, hle, hr⟩ := ih h
        exact ⟨f, hf, hle.trans (Nat.div_le_self _ _), hr⟩
    · cases h

theorem tryObjects_some (h : c.tryObjects size n = some r) :
    ∃ m f, 2 ≤ m ∧ m ≤ n ∧ 0 < f ∧ f ≤ 16 ∧ r = c.slabOrder size m c.slubMaxOrder f ∧
      r ≤ c.slubMaxOrder := by
  induction n with
  | zero => cases h
  | succ n ih =>
    cases n with
    | zero => cases h
    | succ n =>
      rw [tryObjects] at h
      split at h
      · next hsome =>
        cases h
        obtain ⟨f, hf, hle, hr⟩ := tryFractions_some hsome
        exact ⟨n + 2, f, by omega, le_refl _, hf, hle, hr⟩
      · obtain ⟨m, f, hm, hle, hr⟩ := ih h
        exact ⟨m, f, hm, Nat.le_succ_of_le hle, hr⟩

/-- The order comes from one of the searches, for at most the first number of objects. -/
theorem calculateOrder_some (h : c.calculateOrder size = some r) :
    r < c.maxOrder ∧ ∃ m mx f, 1 ≤ m ∧ (m = 1 ∨ m ≤ c.firstMinObjects size) ∧ 0 < f ∧ f ≤ 16 ∧
      r = c.slabOrder size m mx f := by
  unfold calculateOrder at h
  split at h
  · next hsome =>
    cases h
    obtain ⟨m, f, hm, hle, hf, hf16, hr, hrle⟩ := tryObjects_some hsome
    exact ⟨hrle.trans_lt c.lastOrder, m, _, f, Nat.le_of_succ_le hm, .inr hle, hf, hf16, hr⟩
  · dsimp only at h
    split at h
    · next hle =>
      cases h
      exact ⟨hle.trans_lt c.lastOrder, 1, _, 1, le_refl 1, .inl rfl, by decide, by decide, rfl⟩
    · split at h
      · next hlt =>
        cases h
        exact ⟨hlt, 1, _, 1, le_refl 1, .inl rfl, by decide, by decide, rfl⟩
      · cases h

/-- The objects that `calculate_order` begins with fit into a slab of `slub_max_order`. -/
theorem firstMinObjects_mul_le (hsize : 0 < size) :
    c.firstMinObjects size * size ≤ 2 ^ (c.pageShift + c.slubMaxOrder) := by
  have hle : c.firstMinObjects size ≤ 2 ^ (c.pageShift + c.slubMaxOrder) / size := by
    rw [← orderObjects_eq c.lastOrder.le]
    exact Nat.min_le_right ..
  exact (Nat.le_div_iff_mul_le hsize).1 hle

/-- Too many objects do not fit: the shortcut is taken, or the least order that holds the first number
of objects does not hold too many. -/
def ObjectsBounded (c : SlubSetup) (size : Nat) : Prop :=
  maxObjsPerPage < c.orderObjects c.slubMinOrder size ∨
    c.orderObjects (c.getOrder (c.firstMinObjects size * size)) size ≤ maxObjsPerPage

instance (c : SlubSetup) (size : Nat) : Decidable (c.ObjectsBounded size) :=
  inferInstanceAs (Decidable (_ ∨ _))

/-- The order that `calculate_order` chooses is below `MAX_ORDER` and holds an object, and where the
condition holds not too many. -/
theorem calculateOrder_objects (hsize : wordSize ≤ size) (hfits : size < 2 ^ 32)
    (h : c.calculateOrder size = some r) :
    r < c.maxOrder ∧ 1 ≤ c.orderObjects r size ∧
      (c.ObjectsBounded size → c.orderObjects r size ≤ maxObjsPerPage) := by
  have hpos : 0 < size := (by decide : 0 < wordSize).trans_le hsize
  have hfirst := firstMinObjects_mul_le (c := c) hpos
  have hlast : c.getOrder (c.firstMinObjects size * size) ≤ c.maxOrder :=
    (getOrder_le_iff.2 hfirst).trans c.lastOrder.le
  have hfirst32 : c.firstMinObjects size * size < 2 ^ 32 := by
    have hslabs := c.slabs
    have hlt := c.lastOrder
    exact hfirst.trans_lt (Nat.pow_lt_pow_right (by decide) (by omega))
  obtain ⟨hr, m, mx, f, hm, hmle, hf, hf16, rfl⟩ := calculateOrder_some h
  have hmfits : m * size < 2 ^ 32 := by
    rcases hmle with rfl | hle
    · rwa [Nat.one_mul]
    · exact (Nat.mul_le_mul_right _ hle).trans_lt hfirst32
  obtain ⟨hone, hmax⟩ := slabOrder_objects hsize hf hf16 hm hmfits hr
  refine ⟨hr, hone, fun hb => hmax ?_⟩
  rcases Nat.lt_or_ge maxObjsPerPage (c.orderObjects c.slubMinOrder size) with hmany | hfew
  · exact .inl hmany
  · have hfirstFew := hb.resolve_left (Nat.not_lt.2 hfew)
    refine .inr ?_
    rcases hmle with rfl | hle
    · rw [Nat.one_mul]
      have hrorder : c.getOrder size ≤ c.maxOrder := by
        by_contra hgt
        have hzero : c.orderObjects (c.slabOrder size 1 mx f) size = 0 := by
          rw [orderObjects_eq hr.le, Nat.div_eq_zero_iff]
          refine .inr (Nat.not_le.1 fun hle => hgt ((getOrder_le_iff.2 hle).trans hr.le))
        omega
      exact orderObjects_getOrder_size hpos hfew hrorder
    · exact (orderObjects_mono (getOrder_mono (Nat.mul_le_mul_right _ hle)) hlast _).trans hfirstFew

/-- Where the condition fails, the order that is chosen holds too many objects. -/
theorem calculateOrder_of_not_bounded (hsize : wordSize ≤ size) (h : ¬c.ObjectsBounded size) :
    ∃ r, c.calculateOrder size = some r ∧ maxObjsPerPage < c.orderObjects r size := by
  have hpos : 0 < size := (by decide : 0 < wordSize).trans_le hsize
  have hfirst := firstMinObjects_mul_le (c := c) hpos
  have hlast : c.getOrder (c.firstMinObjects size * size) ≤ c.slubMaxOrder := getOrder_le_iff.2 hfirst
  have hfirst32 : c.firstMinObjects size * size < 2 ^ 32 := by
    have hslabs := c.slabs
    have hlt := c.lastOrder
    exact hfirst.trans_lt (Nat.pow_lt_pow_right (by decide) (by omega))
  unfold ObjectsBounded at h
  rw [not_or, Nat.not_lt, Nat.not_le] at h
  obtain ⟨hfew, hmany⟩ := h
  generalize hN : c.firstMinObjects size = N at hlast hfirst32 hmany
  -- with one object or none there would not be too many
  obtain ⟨n, rfl⟩ : ∃ n, N = n + 2 := by
    refine ⟨N - 2, ?_⟩
    by_contra hne
    have hle : N * size ≤ size := by
      calc N * size ≤ 1 * size := Nat.mul_le_mul_right _ (by omega)
        _ = size := Nat.one_mul size
    have hcases : c.getOrder size ≤ c.maxOrder ∨ N = 0 := by
      rcases Nat.eq_zero_or_pos N with h0 | hp
      · exact .inr h0
      · have hN1 : N = 1 := by omega
        rw [hN1, Nat.one_mul] at hlast
        exact .inl (hlast.trans c.lastOrder.le)
    rcases hcases with hord | h0
    · have hone := orderObjects_getOrder_size hpos hfew hord
      have hmono := (orderObjects_mono (getOrder_mono hle) hord size).trans hone
      omega
    · have hzero : c.getOrder (N * size) = 0 := by
        refine Nat.le_zero.1 (getOrder_le_iff.2 ?_)
        rw [h0, Nat.zero_mul]
        exact Nat.zero_le _
      rw [hzero] at hmany
      have hmono := orderObjects_mono (Nat.zero_le c.slubMinOrder) (firstOrder_lt c).le size
      omega
  have hstart : max c.slubMinOrder (c.getOrder ((n + 2) * size)) = c.getOrder ((n + 2) * size) := by
    refine Nat.max_eq_right (Nat.le_of_not_lt fun hlt => ?_)
    have hmono := orderObjects_mono hlt.le (firstOrder_lt c).le size
    omega
  have hrounds : c.slubMaxOrder + 1 - c.getOrder ((n + 2) * size) =
      c.slubMaxOrder - c.getOrder ((n + 2) * size) + 1 := by omega
  have hslab : c.slabOrder size (n + 2) c.slubMaxOrder 16 = c.getOrder ((n + 2) * size) := by
    rw [slabOrder, if_neg (Nat.not_lt.2 hfew), uint_of_lt hfirst32]
    dsimp only
    rw [hstart, hrounds]
    exact searchOrder_of_le hpos (by decide) hlast ((by decide : 16 ≤ maxObjsPerPage).trans hmany.le)
  refine ⟨c.getOrder ((n + 2) * size), ?_, hmany⟩
  rw [calculateOrder, hN, tryObjects, tryFractions, if_pos (by decide)]
  dsimp only
  rw [hslab, if_pos hlast]

end SlubSetup

namespace KmemCache

variable {c : SlubSetup} {s : KmemCache}

/-- What a cache must be like for its slabs: at least one and not too many objects fit into one, the
objects and their free pointers are aligned, a free pointer is in its slot, and it is behind the object
where it may not overwrite it. -/
structure Laid (c : SlubSetup) (s : KmemCache) : Prop where
  order : s.oo.order < c.maxOrder
  objects : 1 ≤ 2 ^ c.pageShift * 2 ^ s.oo.order / s.size ∧
    2 ^ c.pageShift * 2 ^ s.oo.order / s.size ≤ maxObjsPerPage
  align : s.align ∣ s.size
  freePointer : wordSize ∣ s.objectStart + s.offset ∧
    s.objectStart + s.offset + wordSize ≤ s.size
  apart : s.moved = true → s.objectSize ≤ s.offset

/-- The object and its free pointer are in the slot. -/
theorem layout_freePointer (hobj : 1 ≤ s.objectSize) (halign : 0 < s.align) (hoff : s.offset = 0) :
    (if s.flags.redZone then roundUp wordSize s.align else 0) +
        (if s.moved then s.plainInuse else s.offset) + wordSize ≤ s.plainSize c := by
  have hinuse : wordSize ≤ s.plainInuse :=
    Nat.le_of_dvd (hobj.trans le_plainInuse) dvd_plainInuse
  have hbody : (if s.moved then s.plainInuse else s.offset) + wordSize ≤ s.plainBody c := by
    unfold plainBody
    split
    · exact Nat.le_add_right ..
    · rw [hoff]
      omega
  have hpadded : s.plainPadded c ≤ s.plainSize c := le_roundUp halign _
  refine le_trans ?_ hpadded
  unfold plainPadded
  split
  · omega
  · omega

theorem calculateSizes_of_none (h : c.calculateOrder (c.layout s).size = none) :
    (c.calculateSizes s (-1)).1 = false := by
  unfold SlubSetup.calculateSizes
  dsimp only
  rw [if_neg (show ¬(0 : Int) ≤ -1 by decide), h]

theorem calculateSizes_of_some {r : Nat} (h : c.calculateOrder (c.layout s).size = some r) :
    c.calculateSizes s (-1) = (decide ((c.setOrder r (c.layout s)).oo.objects ≠ 0),
      c.setOrder r (c.layout s)) := by
  unfold SlubSetup.calculateSizes
  dsimp only
  rw [if_neg (show ¬(0 : Int) ≤ -1 by decide), h]

/-- The order changes nothing of the layout. -/
theorem setOrder_eq (r : Nat) (s : KmemCache) :
    ∃ max allocflags, c.setOrder r s = { s with
      oo := c.ooMake r s.size, min := c.ooMake (c.getOrder s.size) s.size, max, allocflags } := by
  unfold SlubSetup.setOrder
  dsimp only
  split
  · exact ⟨_, _, rfl⟩
  · exact ⟨_, _, rfl⟩

/-- What `calculate_sizes` makes of the order that is chosen. -/
theorem setOrder_layout {r : Nat} (hobj : 1 ≤ s.objectSize) (halign : ∃ k, s.align = 2 ^ k)
    (hplain : s.plainSize c < 2 ^ 32) :
    (c.setOrder r (c.layout s)).oo = c.ooMake r (s.plainSize c) ∧
      (c.setOrder r (c.layout s)).size = s.plainSize c ∧
      (c.setOrder r (c.layout s)).align = s.align ∧
      (c.setOrder r (c.layout s)).objectStart =
        (if s.flags.redZone then roundUp wordSize s.align else 0) ∧
      (c.setOrder r (c.layout s)).offset = (if s.moved then s.plainInuse else s.offset) ∧
      (c.setOrder r (c.layout s)).moved = s.moved ∧
      (c.setOrder r (c.layout s)).objectSize = s.objectSize := by
  obtain ⟨max, allocflags, h⟩ := setOrder_eq (c := c) r (c.layout s)
  rw [h, layout_eq hobj halign hplain]
  refine ⟨rfl, rfl, rfl, ?_, rfl, rfl, rfl⟩
  unfold objectStart
  dsimp only
  split <;> rfl

/-- Pages of 4 KiB and eleven orders, of which slabs use the given ones. -/
def smallPages (slubMaxOrder slubMinObjects : Nat) (h : slubMaxOrder < 11) : SlubSetup :=
  ⟨12, 11, 0, slubMaxOrder, slubMinObjects, 8, 24, by decide, by decide, Nat.zero_le _, h⟩

/-- A new cache whose objects are aligned to a word. -/
def wordAligned (objectSize : Nat) (redZone : Bool) : KmemCache :=
  ⟨⟨false, false, redZone, false, false, false, false⟩, 0, objectSize, 0, ⟨0, 0⟩, ⟨0, 0⟩, ⟨0, 0⟩,
    ⟨false, false, false⟩, false, 0, 8, 0⟩

end KmemCache

end Rtfsc.Linux
