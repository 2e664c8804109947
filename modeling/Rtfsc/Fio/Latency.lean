import Rtfsc.Machine.Samples
import Mathlib.Algebra.Order.BigOperators.Group.List
import Mathlib.Algebra.BigOperators.Ring.Finset
import Mathlib.Algebra.Order.Field.Rat
import Mathlib.Data.Nat.Cast.Order.Ring
import Mathlib.Tactic.Linarith
import Mathlib.Tactic.LinearCombination

/-!
# fio: latency statistics

`add_stat_sample` keeps running sums, and `calc_lat` makes a mean and a deviation of them. What it takes off
the sum of the squares is the square of the mean divided by the number of samples, where the variance has
the product of the two.
-/

namespace Rtfsc.Fio.Latency

open Rtfsc.Machine

/-- `ULONG_MAX` -/
def maxUlong : Nat := 2 ^ 64 - 1

/-- `struct io_stat` -/
structure IoStat where
  val : Nat
  valSq : Nat
  maxVal : Nat
  minVal : Nat
  samples : Nat

/-- The statistics of a new job. -/
def IoStat.fresh : IoStat := ⟨0, 0, 0, maxUlong, 0⟩

/-- An `unsigned long`. -/
def wrapUlong (n : Nat) : Nat := n % (maxUlong + 1)

/-- `add_stat_sample` -/
def addStatSample (is : IoStat) (val : Nat) : IoStat where
  maxVal := runningMax is.maxVal val
  minVal := runningMin is.minVal val
  val := wrapUlong (is.val + val)
  valSq := wrapUlong (is.valSq + wrapUlong (val * val))
  samples := wrapUlong (is.samples + 1)

/-- What `calc_lat` returns. `devSq` is what it takes the root of. -/
structure Lat where
  min : Nat
  max : Nat
  mean : ℚ
  devSq : ℚ

/-- `calc_lat`, with exact numbers. -/
def calcLat (is : IoStat) : Option Lat :=
  if is.samples = 0 then none
  else
    let n : ℚ := is.samples
    let mean : ℚ := is.val / n
    some ⟨is.minVal, is.maxVal, mean, (is.valSq - mean * mean / n) / (n - 1)⟩

/-! ## The sums -/

variable {xs : List Nat} {is : IoStat}

/-- No sum overflows. -/
structure Fits (xs : List Nat) : Prop where
  sum : xs.sum ≤ maxUlong
  sumSq : (xs.map fun x => x * x).sum ≤ maxUlong
  length : xs.length ≤ maxUlong

theorem wrapUlong_eq {n : Nat} (h : n ≤ maxUlong) : wrapUlong n = n :=
  Nat.mod_eq_of_lt (Nat.lt_succ_of_le h)

theorem foldl_val (is : IoStat) (xs : List Nat) (h : is.val + xs.sum ≤ maxUlong) :
    (xs.foldl addStatSample is).val = is.val + xs.sum := by
  induction xs generalizing is with
  | nil => rfl
  | cons x xs ih =>
    rw [List.sum_cons] at h ⊢
    have hval : (addStatSample is x).val = is.val + x := wrapUlong_eq (by omega)
    rw [List.foldl_cons, ih _ (by rw [hval]; omega), hval, Nat.add_assoc]

theorem foldl_valSq (is : IoStat) (xs : List Nat)
    (h : is.valSq + (xs.map fun x => x * x).sum ≤ maxUlong) :
    (xs.foldl addStatSample is).valSq = is.valSq + (xs.map fun x => x * x).sum := by
  induction xs generalizing is with
  | nil => rfl
  | cons x xs ih =>
    rw [List.map_cons, List.sum_cons] at h ⊢
    have hval : (addStatSample is x).valSq = is.valSq + x * x := by
      unfold addStatSample
      dsimp only
      rw [wrapUlong_eq (show x * x ≤ maxUlong by omega), wrapUlong_eq (by omega)]
    rw [List.foldl_cons, ih _ (by rw [hval]; omega), hval, Nat.add_assoc]

theorem foldl_samples (is : IoStat) (xs : List Nat) (h : is.samples + xs.length ≤ maxUlong) :
    (xs.foldl addStatSample is).samples = is.samples + xs.length := by
  induction xs generalizing is with
  | nil => rfl
  | cons x xs ih =>
    rw [List.length_cons] at h ⊢
    have hval : (addStatSample is x).samples = is.samples + 1 := wrapUlong_eq (by omega)
    rw [List.foldl_cons, ih _ (by rw [hval]; omega), hval]
    omega

theorem foldl_minVal (is : IoStat) (xs : List Nat) :
    (xs.foldl addStatSample is).minVal = xs.foldl runningMin is.minVal :=
  (List.foldl_hom IoStat.minVal fun _ _ => rfl).symm

theorem foldl_maxVal (is : IoStat) (xs : List Nat) :
    (xs.foldl addStatSample is).maxVal = xs.foldl runningMax is.maxVal :=
  (List.foldl_hom IoStat.maxVal fun _ _ => rfl).symm

/-! ## Mean and variance -/

/-- The mean of the samples. -/
def mean (xs : List Nat) : ℚ := (xs.map fun x : Nat => (x : ℚ)).sum / xs.length

/-- The variance of at least two samples. -/
def variance (xs : List Nat) : ℚ :=
  (xs.map fun x : Nat => ((x : ℚ) - mean xs) ^ 2).sum / (xs.length - 1)

theorem variance_eq (hne : xs ≠ []) :
    variance xs = ((xs.map fun x => x * x).sum - xs.length * mean xs ^ 2 : ℚ) / (xs.length - 1) := by
  have hlen : ((xs.map fun x : Nat => (x : ℚ)).length : ℚ) ≠ 0 := by
    rw [List.length_map]
    exact Nat.cast_ne_zero.mpr (List.length_pos_iff.mpr hne).ne'
  have hdev := sum_sq_sub_mean hlen
  rw [List.length_map, List.map_map, List.map_map] at hdev
  have hsq : (((xs.map fun x => x * x).sum : Nat) : ℚ) = (xs.map fun x : Nat => (x : ℚ) ^ 2).sum := by
    rw [Nat.cast_list_sum, List.map_map]
    exact congrArg List.sum (List.map_congr_left fun x _ => by simp [pow_two])
  rw [variance, hsq]
  exact congrArg (· / ((xs.length : ℚ) - 1)) hdev

theorem mean_eq_zero : mean xs = 0 ↔ ∀ x ∈ xs, x = 0 := by
  have hcast : (xs.map fun x : Nat => (x : ℚ)).sum = (xs.sum : ℚ) := (Nat.cast_list_sum xs).symm
  rw [mean, hcast, div_eq_zero_iff, Nat.cast_eq_zero, Nat.cast_eq_zero, List.length_eq_zero_iff,
    List.sum_eq_zero_iff]
  constructor
  · rintro (hall | rfl)
    · exact hall
    · exact fun x hx => nomatch hx
  · exact .inl

/-- With a factor on the wrong side, the two agree for a mean of zero only. -/
theorem devSq_eq_iff {n m s : ℚ} (hn : 2 ≤ n) :
    (s - m * m / n) / (n - 1) = (s - n * m ^ 2) / (n - 1) ↔ m = 0 := by
  have hpos : n - 1 ≠ 0 := by linarith
  have hzero : n ≠ 0 := by linarith
  rw [div_left_inj' hpos, sub_right_inj, div_eq_iff hzero]
  constructor
  · intro heq
    have hprod : m ^ 2 * ((n - 1) * (n + 1)) = 0 := by linear_combination -heq
    have hplus : n + 1 ≠ 0 := by linarith
    exact pow_eq_zero_iff two_ne_zero |>.mp
      ((mul_eq_zero.mp hprod).resolve_right (mul_ne_zero hpos hplus))
  · rintro rfl
    ring

/-! ## What is reported -/

theorem calcLat_eq (hne : xs ≠ []) (hfits : Fits xs) :
    calcLat (xs.foldl addStatSample IoStat.fresh) = some
      ⟨xs.foldl runningMin maxUlong, xs.foldl runningMax 0, mean xs,
        ((xs.map fun x => x * x).sum - mean xs * mean xs / xs.length) / (xs.length - 1)⟩ := by
  have hval : (xs.foldl addStatSample .fresh).val = xs.sum :=
    (foldl_val .fresh xs (by simpa [IoStat.fresh] using hfits.sum)).trans (Nat.zero_add _)
  have hvalSq : (xs.foldl addStatSample .fresh).valSq = (xs.map fun x => x * x).sum :=
    (foldl_valSq .fresh xs (by simpa [IoStat.fresh] using hfits.sumSq)).trans (Nat.zero_add _)
  have hsamples : (xs.foldl addStatSample .fresh).samples = xs.length :=
    (foldl_samples .fresh xs (by simpa [IoStat.fresh] using hfits.length)).trans (Nat.zero_add _)
  have hmean : ((xs.sum : Nat) : ℚ) / (xs.length : ℚ) = mean xs := by
    rw [mean, Nat.cast_list_sum]
  have hlen : xs.length ≠ 0 := (List.length_pos_iff.mpr hne).ne'
  unfold calcLat
  rw [hsamples, if_neg hlen]
  dsimp only
  rw [hval, hvalSq, hmean, foldl_minVal, foldl_maxVal]
  rfl

end Rtfsc.Fio.Latency
