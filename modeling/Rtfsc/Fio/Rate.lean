import Rtfsc.Fio.Types
import Rtfsc.Machine.Run
import Mathlib.Data.Nat.GCD.Basic
import Mathlib.Tactic.Ring

/-!
# fio: the rate of a job

`setup_rate` turns the rate into a time for each block, and `rate_throttle` saves up what a job is ahead
of it until the time is worth a sleep. No time is lost on the way to `usec_sleep`. What `usec_sleep` asks
of `nanosleep` is that time only below a second: its nanoseconds are short of the factor between a second
and a nanosecond.
-/

namespace Rtfsc.Fio

open Rtfsc.Machine

/-- The rate state of a job. -/
structure RateState where
  rate : UInt32
  ratemin : UInt32
  minBs : PerDdir UInt32
  rateUsecCycle : UInt64
  ratePendingUsleep : Int64
deriving DecidableEq, Repr

/-- Unsigned 32-bit division. -/
def udiv32 (a b : UInt32) : Outcome UInt32 :=
  if b = 0 then .error .divisionByZero else .ok (a / b)

/-- Division of two `int`. -/
def idiv (a b : Int32) : Outcome Int32 :=
  if b = 0 then .error .divisionByZero else .ok (a / b)

/-- `setup_rate`; nothing when it returns an error. -/
def RateState.setupRate (td : RateState) : Outcome (Option RateState) := do
  if td.rate = 0 then return some td
  else if td.rate < td.ratemin then return none
  else
    let nrReadsPerSec ← udiv32 (td.rate * 1024) td.minBs.read
    let cycle ← idiv 1000000 nrReadsPerSec.toInt32
    return some { td with rateUsecCycle := cycle.toInt64.toUInt64, ratePendingUsleep := 0 }

/-- `struct timespec`. -/
structure Timespec where
  tvSec : Int64
  tvNsec : Int64
deriving DecidableEq, Repr

/-- What `nanosleep` returns and leaves in `rem`, and `td->terminate` behind it. -/
structure SleepReply where
  failed : Bool
  rem : Timespec
  terminate : Bool
deriving DecidableEq, Repr

/-- The loop of `usec_sleep`: what it asks of `nanosleep`, each with the time it stands for. Behind the
last reply it is still asleep. -/
def usecSleepLoop (req : Timespec) (usec : UInt64) : List SleepReply → List (UInt64 × Timespec)
  | [] => if usec < 5000 then [] else [(usec, req)]
  | r :: replies =>
    if usec < 5000 then []
    else (usec, req) ::
      if r.failed then []
      else if r.rem.tvSec + r.rem.tvNsec = 0 then []
      else if r.terminate then []
      else usecSleepLoop r.rem (r.rem.tvSec * 1000000 + r.rem.tvNsec / 1000).toUInt64 replies

/-- `usec_sleep`. -/
def usecSleep (usec : UInt64) (replies : List SleepReply) : List (UInt64 × Timespec) :=
  let sec := (usec / 1000000).toInt64
  usecSleepLoop ⟨sec, (usec * 1000 - sec.toUInt64 * 1000000).toInt64⟩ usec replies

/-- `rate_throttle`, with the time that it asks of `usec_sleep`. -/
def rateThrottle (td : RateState) (timeSpent : UInt64) (bytes : UInt32) (ddir : DataDdir) :
    Outcome (RateState × Option UInt64) := do
  if td.rate = 0 then return (td, none)
  else
    let n ← udiv32 bytes (td.minBs.get ddir)
    let usecCycle := td.rateUsecCycle * n.toUInt64
    if timeSpent < usecCycle then
      let s := usecCycle - timeSpent
      let pending := td.ratePendingUsleep + s.toInt64
      if 100000 ≤ pending then
        return ({ td with ratePendingUsleep := 0 }, some pending.toUInt64)
      else return ({ td with ratePendingUsleep := pending }, none)
    else
      let overtime := (timeSpent - usecCycle).toInt64
      return ({ td with ratePendingUsleep := td.ratePendingUsleep - overtime }, none)

/-- What is known of some completed bytes. -/
structure CompletedBytes where
  timeSpent : UInt64
  bytes : UInt32
  ddir : DataDdir
deriving DecidableEq, Repr

/-- `do_io` throttles after a completion, and may sleep. -/
def Throttle (td : RateState) (e : CompletedBytes × Option UInt64) (td' : RateState) : Prop :=
  rateThrottle td e.1.timeSpent e.1.bytes e.1.ddir = .ok (td', e.2)

/-- The time the job is ahead by a completion. -/
def RateState.ahead (td : RateState) (c : CompletedBytes) : Int :=
  td.rateUsecCycle.toNat * (c.bytes / td.minBs.get c.ddir).toNat - c.timeSpent.toNat

/-- The time asked of `usec_sleep`. -/
def asked (r : Option UInt64) : Int := r.elim 0 fun usec => usec.toNat

/-- The pending time after a completion fits into its `long`. -/
def RateState.Fits (td : RateState) (c : CompletedBytes) : Prop :=
  -2 ^ 63 ≤ td.ratePendingUsleep.toInt + td.ahead c ∧
    td.ratePendingUsleep.toInt + td.ahead c < 2 ^ 63

/-- `nanosleep` as documented: a sleep that is not interrupted leaves `rem` alone. -/
def Documented (replies : List SleepReply) : Prop :=
  ∀ r ∈ replies, r.failed = false → r.rem = ⟨0, 0⟩

/-- The request is valid and is as long as the time. -/
def Timespec.Denotes (req : Timespec) (usec : UInt64) : Prop :=
  0 ≤ req.tvNsec.toInt ∧ req.tvNsec.toInt < 10 ^ 9 ∧
    req.tvSec.toInt * 10 ^ 9 + req.tvNsec.toInt = usec.toNat * 1000

/-! ## Machine words -/

variable {td td' : RateState} {c : CompletedBytes} {r : Option UInt64}

theorem toInt_emod (x : Int64) : x.toInt % 2 ^ 64 = x.toUInt64.toNat := by
  have hcond := BitVec.toInt_eq_toNat_cond x.toUInt64.toBitVec
  have hlt := x.toUInt64.toNat_lt
  have htoInt : x.toInt = x.toUInt64.toBitVec.toInt := rfl
  have htoNat : x.toUInt64.toNat = x.toUInt64.toBitVec.toNat := rfl
  rw [htoInt, hcond, ← htoNat]
  split <;> omega

/-- A `long` is any number of its range that it is congruent to. -/
theorem toInt_eq {x : Int64} {v : Int} (hlo : -2 ^ 63 ≤ v) (hhi : v < 2 ^ 63)
    (h : x.toInt % 2 ^ 64 = v % 2 ^ 64) : x.toInt = v := by
  have hxlo := x.le_toInt
  have hxhi := x.toInt_lt
  omega

theorem toInt_toInt64_emod (a : UInt64) : a.toInt64.toInt % 2 ^ 64 = a.toNat := toInt_emod a.toInt64

theorem bmod_emod (v : Int) : v.bmod (2 ^ 64) % 2 ^ 64 = v % 2 ^ 64 := by
  rw [Int.bmod_def]
  split <;> omega

theorem toNat_toUInt64 {x : Int64} (h : 0 ≤ x.toInt) : (x.toUInt64.toNat : Int) = x.toInt := by
  have hemod := toInt_emod x
  have hlt := x.toInt_lt
  omega

/-! ## One completion -/

/-- What a completion does: the time it is ahead is saved up, and asked for when there is enough of it. -/
theorem throttle_cases {e : CompletedBytes × Option UInt64} (hrate : td.rate ≠ 0)
    (h : Throttle td e td') :
    ∃ pending : Int64, (pending.toInt - td.ratePendingUsleep.toInt) % 2 ^ 64 = td.ahead e.1 % 2 ^ 64 ∧
      (100000 ≤ pending ∧ td' = { td with ratePendingUsleep := 0 } ∧ e.2 = some pending.toUInt64 ∨
        td' = { td with ratePendingUsleep := pending } ∧ e.2 = none) := by
  obtain ⟨⟨timeSpent, bytes, ddir⟩, r⟩ := e
  unfold Throttle rateThrottle at h
  rw [if_neg hrate] at h
  obtain ⟨n, hn, h⟩ := bind_eq_ok.mp h
  unfold udiv32 at hn
  split at hn
  · cases hn
  cases hn
  dsimp only at h
  have hcycle : (td.rateUsecCycle * (bytes / td.minBs.get ddir).toUInt64).toNat =
      td.rateUsecCycle.toNat * (bytes / td.minBs.get ddir).toNat % 2 ^ 64 := UInt64.toNat_mul _ _
  have hahead : td.ahead ⟨timeSpent, bytes, ddir⟩ =
      ((td.rateUsecCycle.toNat * (bytes / td.minBs.get ddir).toNat : Nat) : Int) -
        timeSpent.toNat := by
    unfold RateState.ahead
    push_cast
    rfl
  generalize td.rateUsecCycle * (bytes / td.minBs.get ddir).toUInt64 = usecCycle at h hcycle
  generalize td.rateUsecCycle.toNat * (bytes / td.minBs.get ddir).toNat = exact at hcycle hahead
  rw [hahead]
  split at h
  · next hahead =>
    have hlt := UInt64.lt_iff_toNat_lt.mp hahead
    have hs : (usecCycle - timeSpent).toNat = usecCycle.toNat - timeSpent.toNat :=
      UInt64.toNat_sub_of_le _ _ (UInt64.le_of_lt hahead)
    have hsum := bmod_emod (td.ratePendingUsleep.toInt + (usecCycle - timeSpent).toInt64.toInt)
    rw [← Int64.toInt_add] at hsum
    have hemod := toInt_toInt64_emod (usecCycle - timeSpent)
    refine ⟨td.ratePendingUsleep + (usecCycle - timeSpent).toInt64, by omega, ?_⟩
    split at h
    · next henough =>
      cases h
      exact .inl ⟨henough, rfl, rfl⟩
    · cases h
      exact .inr ⟨rfl, rfl⟩
  · next hbehind =>
    have hle := UInt64.not_lt.mp hbehind
    have hs : (timeSpent - usecCycle).toNat = timeSpent.toNat - usecCycle.toNat :=
      UInt64.toNat_sub_of_le _ _ hle
    have hle := UInt64.le_iff_toNat_le.mp hle
    have hdiff := bmod_emod (td.ratePendingUsleep.toInt - (timeSpent - usecCycle).toInt64.toInt)
    rw [← Int64.toInt_sub] at hdiff
    have hemod := toInt_toInt64_emod (timeSpent - usecCycle)
    cases h
    exact ⟨_, by omega, .inr ⟨rfl, rfl⟩⟩

/-- Nothing is lost or gained at a completion if and only if the pending time fits. -/
theorem throttle_conserves_iff {e : CompletedBytes × Option UInt64} (hrate : td.rate ≠ 0)
    (h : Throttle td e td') :
    asked e.2 + td'.ratePendingUsleep.toInt = td.ratePendingUsleep.toInt + td.ahead e.1 ↔
      td.Fits e.1 := by
  obtain ⟨pending, hemod, hcases⟩ := throttle_cases hrate h
  have hpending : asked e.2 + td'.ratePendingUsleep.toInt = pending.toInt := by
    rcases hcases with ⟨henough, rfl, hr⟩ | ⟨rfl, hr⟩
    · have hle : (100000 : Int64).toInt ≤ pending.toInt := Int64.le_iff_toInt_le.mp henough
      have hpos : 0 ≤ pending.toInt := Int.le_trans (by decide) hle
      rw [hr]
      show (pending.toUInt64.toNat : Int) + (0 : Int64).toInt = pending.toInt
      rw [toNat_toUInt64 hpos]
      exact Int.add_zero _
    · rw [hr]
      exact Int.zero_add _
  rw [hpending]
  constructor
  · intro heq
    exact ⟨heq ▸ pending.le_toInt, heq ▸ pending.toInt_lt⟩
  · intro hfits
    refine toInt_eq hfits.1 hfits.2 ?_
    omega

theorem throttle_settings {e : CompletedBytes × Option UInt64} (hrate : td.rate ≠ 0)
    (h : Throttle td e td') :
    td'.rate = td.rate ∧ ∀ c, td'.ahead c = td.ahead c := by
  obtain ⟨pending, -, ⟨-, rfl, -⟩ | ⟨rfl, -⟩⟩ := throttle_cases hrate h
  · exact ⟨rfl, fun c => rfl⟩
  · exact ⟨rfl, fun c => rfl⟩

/-! ## A run of completions -/

/-- Along a run whose completions fit, what was asked and what is pending is what the job is ahead. -/
theorem throttle_run {es : List (CompletedBytes × Option UInt64)} (hrate : td.rate ≠ 0)
    (hrun : Run (fun t e u => Throttle t e u ∧ t.Fits e.1) td es td') :
    (td'.rate = td.rate ∧ ∀ c, td'.ahead c = td.ahead c) ∧
      (es.map fun e => asked e.2).sum + td'.ratePendingUsleep.toInt =
        td.ratePendingUsleep.toInt + (es.map fun e => td.ahead e.1).sum := by
  induction hrun with
  | nil => exact ⟨⟨rfl, fun c => rfl⟩, by simp⟩
  | snoc _ hstep ih =>
    obtain ⟨⟨hsame, hahead⟩, hsum⟩ := ih
    obtain ⟨hthrottle, hfits⟩ := hstep
    rw [← hsame] at hrate
    have hkept := throttle_settings hrate hthrottle
    have hone := (throttle_conserves_iff hrate hthrottle).mpr hfits
    refine ⟨⟨hkept.1.trans hsame, fun c => (hkept.2 c).trans (hahead c)⟩, ?_⟩
    rw [hahead] at hone
    simp only [List.map_append, List.sum_append, List.map_cons, List.map_nil, List.sum_cons,
      List.sum_nil]
    omega

/-- `setup_rate` starts with nothing pending. -/
theorem setupRate_pending (hrate : td'.rate ≠ 0) (h : RateState.setupRate td = .ok (some td')) :
    td'.ratePendingUsleep = 0 := by
  unfold RateState.setupRate at h
  split at h
  · next hzero =>
    cases h
    exact absurd hzero hrate
  split at h
  · cases h
  obtain ⟨n, -, h⟩ := bind_eq_ok.mp h
  obtain ⟨cycle, -, h⟩ := bind_eq_ok.mp h
  cases h
  rfl

/-! ## Sleeping -/

/-- When `nanosleep` is as documented, it is asked once. -/
theorem usecSleep_documented {usec : UInt64} {replies : List SleepReply} (husec : 5000 ≤ usec)
    (h : Documented replies) :
    usecSleep usec replies = [(usec, ⟨(usec / 1000000).toInt64,
      (usec * 1000 - (usec / 1000000).toInt64.toUInt64 * 1000000).toInt64⟩)] := by
  have hlong : ¬usec < 5000 := UInt64.not_lt.mpr husec
  unfold usecSleep
  cases replies with
  | nil => exact if_neg hlong
  | cons r replies =>
    dsimp only
    rw [usecSleepLoop, if_neg hlong]
    by_cases hfailed : r.failed = true
    · rw [if_pos hfailed]
    · rw [if_neg hfailed, h r List.mem_cons_self (Bool.not_eq_true _ ▸ hfailed)]
      rfl

theorem toNat_sub_emod (a b : UInt64) :
    ((a - b).toNat : Int) = (a.toNat - b.toNat : Int) % 2 ^ 64 := by
  have hb := b.toNat_lt
  rw [UInt64.toNat_sub]
  omega

theorem sub_mod_word {a b x : Nat} (hle : b ≤ a)
    (h : (x : Int) = ((a % 2 ^ 64 : Nat) - (b % 2 ^ 64 : Nat) : Int) % 2 ^ 64) :
    x = (a - b) % 2 ^ 64 := by
  omega

theorem word_dvd {k m : Nat} (h : (m : Int) % 2 ^ 64 = ((k + m : Nat) : Int) % 2 ^ 64) :
    2 ^ 64 ∣ k := by
  omega

/-- What `usec_sleep` puts into `tv_nsec`: for each whole second most of it is still there. -/
theorem toNat_tvNsec (usec : UInt64) :
    (usec * 1000 - usec / 1000000 * 1000000).toNat =
      (usec.toNat / 1000000 * 999000000 + usec.toNat % 1000000 * 1000) % 2 ^ 64 := by
  have hsub := toNat_sub_emod (usec * 1000) (usec / 1000000 * 1000000)
  have hmul : (usec * 1000).toNat = usec.toNat * 1000 % 2 ^ 64 := UInt64.toNat_mul _ _
  have hquot : (usec / 1000000 * 1000000).toNat = usec.toNat / 1000000 * 1000000 % 2 ^ 64 :=
    UInt64.toNat_mul _ _
  rw [hmul, hquot] at hsub
  rw [sub_mod_word (by omega) hsub]
  congr 1
  omega

/-- No number of seconds that a time can have makes what is left of them up to a word. -/
theorem seconds_eq_zero {q : Nat} (hq : q < 2 ^ 58) (h : 2 ^ 64 ∣ q * 999000000) : q = 0 := by
  have hfactor : q * 999000000 = 2 ^ 6 * (q * 15609375) := by omega
  have hpow : (2 : Nat) ^ 64 = 2 ^ 6 * 2 ^ 58 := by decide
  rw [hfactor, hpow] at h
  have hdvd := Nat.dvd_of_mul_dvd_mul_left (by decide) h
  have hcoprime : Nat.Coprime (2 ^ 58) 15609375 := by decide
  exact Nat.eq_zero_of_dvd_of_lt (hcoprime.dvd_of_dvd_mul_right hdvd) hq

/-- A request for `q` seconds and `r` microseconds is as long as that only for no second. -/
theorem seconds_of_denotes {q r : Nat} {nsec : Int} (hq : q < 2 ^ 58)
    (h : nsec % 2 ^ 64 = ((q * 999000000 + r * 1000 : Nat) : Int) % 2 ^ 64)
    (heq : (q : Int) * 10 ^ 9 + nsec = ((q * 10 ^ 9 + r * 1000 : Nat) : Int)) : q = 0 := by
  have hnsec : nsec = (r * 1000 : Nat) := by
    push_cast at heq ⊢
    exact Int.add_left_cancel heq
  subst hnsec
  exact seconds_eq_zero hq (word_dvd h)

/-- The request for a time is that time if and only if the time is below a second. -/
theorem request_iff (usec : UInt64) :
    (Timespec.mk (usec / 1000000).toInt64
      (usec * 1000 - (usec / 1000000).toInt64.toUInt64 * 1000000).toInt64).Denotes usec ↔
      usec < 1000000 := by
  have hlt := usec.toNat_lt
  have hback : (usec / 1000000).toInt64.toUInt64 = usec / 1000000 := rfl
  have hquot : usec.toNat / 1000000 < 2 ^ 58 := by omega
  have hsec : (usec / 1000000).toInt64.toInt = (usec.toNat / 1000000 : Nat) := by
    have hemod := toInt_toInt64_emod (usec / 1000000)
    have hdiv : (usec / 1000000).toNat = usec.toNat / 1000000 := UInt64.toNat_div _ _
    rw [hdiv] at hemod
    refine toInt_eq (by omega) (by omega) ?_
    omega
  have hnsec := toInt_toInt64_emod (usec * 1000 - usec / 1000000 * 1000000)
  rw [toNat_tvNsec, Int.natCast_mod] at hnsec
  unfold Timespec.Denotes
  rw [hback, hsec, UInt64.lt_iff_toNat_lt, show (1000000 : UInt64).toNat = 1000000 from rfl]
  dsimp only
  generalize (usec * 1000 - usec / 1000000 * 1000000).toInt64 = nsec at hnsec ⊢
  have hsplit := Nat.div_add_mod usec.toNat 1000000
  have hr : usec.toNat % 1000000 < 1000000 := Nat.mod_lt _ (by decide)
  have hbound : usec.toNat < 1000000 ↔ usec.toNat / 1000000 = 0 := by omega
  rw [hbound]
  generalize usec.toNat / 1000000 = q at hquot hnsec hsplit ⊢
  generalize usec.toNat % 1000000 = r at hnsec hsplit hr
  rw [← hsplit]
  constructor
  · rintro ⟨-, -, heq⟩
    refine seconds_of_denotes hquot hnsec (heq.trans ?_)
    push_cast
    clear hnsec heq
    omega
  · rintro rfl
    rw [Nat.zero_mul, Nat.zero_add] at hnsec
    have hexact : nsec.toInt = (r * 1000 : Nat) := by
      refine toInt_eq (by omega) (by omega) ?_
      rw [hnsec]
      rfl
    rw [hexact]
    clear hnsec
    omega

/-! ## The main result -/

/-- A job that `setup_rate` has prepared. In every run whose pending time fits into its `long`, what is
asked of `usec_sleep` and what is pending is what the completions were ahead. A sleep asks `nanosleep`
for a valid time that is as long if and only if it is shorter than a second. -/
theorem rateThrottle_conserves (td₀ td : RateState) (hsetup : RateState.setupRate td₀ = .ok (some td))
    (hrate : td.rate ≠ 0) :
    (∀ es td', Run (fun t e u => Throttle t e u ∧ t.Fits e.1) td es td' →
      (es.map fun e => asked e.2).sum + td'.ratePendingUsleep.toInt =
        (es.map fun e => td.ahead e.1).sum) ∧
    ∀ usec replies, 5000 ≤ usec → Documented replies →
      ((∀ p ∈ usecSleep usec replies, p.2.Denotes p.1) ↔ usec < 1000000) := by
  constructor
  · intro es td' hrun
    rw [(throttle_run hrate hrun).2, setupRate_pending hrate hsetup]
    exact Int.zero_add _
  · intro usec replies husec hdoc
    rw [usecSleep_documented husec hdoc, List.forall_mem_singleton]
    exact request_iff usec

/-- A job at four blocks of 1k a second. -/
def fourBlocks : RateState where
  rate := 4
  ratemin := 0
  minBs := ⟨1024, 1024⟩
  rateUsecCycle := 0
  ratePendingUsleep := 0

theorem rateThrottle_conserves_fourBlocks :
    (asked (some 249000) + 0 = 250000 * 1 - 1000) ∧
      ∀ p ∈ usecSleep 249000 [], p.2.Denotes p.1 := by
  obtain ⟨hrun, hsleep⟩ := rateThrottle_conserves fourBlocks
    { fourBlocks with rateUsecCycle := 250000 } (by decide) (by decide)
  refine ⟨?_, (hsleep 249000 [] (by decide) (List.forall_mem_nil _)).mpr (by decide)⟩
  have hone := hrun [(⟨1000, 1024, .read⟩, some 249000)] { fourBlocks with rateUsecCycle := 250000 }
    (Run.nil.snoc ⟨rfl, by decide, by decide⟩)
  exact hone

/-- Twelve blocks at once: three seconds are pending. -/
theorem rateThrottle_longSleep :
    ¬∀ td₀ td, RateState.setupRate td₀ = .ok (some td) → td.rate ≠ 0 →
      (∀ es td', Run Throttle td es td' →
        (es.map fun e => asked e.2).sum + td'.ratePendingUsleep.toInt =
          (es.map fun e => td.ahead e.1).sum) ∧
      ∀ usec replies, 5000 ≤ usec → Documented replies →
        ∀ p ∈ usecSleep usec replies, p.2.Denotes p.1 := by
  intro hall
  obtain ⟨-, hsleep⟩ := hall fourBlocks { fourBlocks with rateUsecCycle := 250000 } (by decide)
    (by decide)
  have hshort := hsleep 3000000 [] (by decide) (List.forall_mem_nil _)
  rw [usecSleep_documented (by decide) (List.forall_mem_nil _), List.forall_mem_singleton,
    request_iff] at hshort
  exact absurd hshort (by decide)

end Rtfsc.Fio
