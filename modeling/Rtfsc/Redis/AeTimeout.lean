import Rtfsc.Redis.Ae

/-!
# redis: how long to poll

`aeProcessEvents` looks for the nearest time event and polls until it is due. Seconds and milliseconds
are subtracted with a borrow and then cut off at zero one by one: a timer that is overdue by less than a
second leaves its milliseconds.
-/

namespace Rtfsc.Redis.Ae

/-! ## The search and the timeout -/

/-- The comparison of `aeSearchNearestTimer`. -/
def TimeEvent.nearer (te nearest : TimeEvent) : Bool :=
  te.whenSec < nearest.whenSec || (te.whenSec == nearest.whenSec && te.whenMs < nearest.whenMs)

/-- The loop of `aeSearchNearestTimer`. -/
def searchNearestFrom (nearest : Option TimeEvent) : List TimeEvent → Option TimeEvent
  | [] => nearest
  | te :: rest =>
    match nearest with
    | none => searchNearestFrom (some te) rest
    | some n => searchNearestFrom (some (if te.nearer n then te else n)) rest

/-- `aeSearchNearestTimer` -/
def aeSearchNearestTimer (timers : List TimeEvent) : Option TimeEvent := searchNearestFrom none timers

/-- `struct timeval` -/
structure Timeval where
  sec : Int
  usec : Int

/-- The milliseconds that `aeApiPoll` waits for. -/
def Timeval.ms (tv : Timeval) : Int := tv.sec * 1000 + tv.usec.tdiv 1000

/-- The time that is missing for a timer to fire. -/
def timeMissing (now : Clock) (shortest : TimeEvent) : Timeval :=
  let tv : Timeval :=
    if shortest.whenMs < now.ms.val then
      ⟨shortest.whenSec - now.sec - 1, (shortest.whenMs + 1000 - now.ms.val) * 1000⟩
    else ⟨shortest.whenSec - now.sec, (shortest.whenMs - now.ms.val) * 1000⟩
  ⟨if tv.sec < 0 then 0 else tv.sec, if tv.usec < 0 then 0 else tv.usec⟩

/-- `AE_FILE_EVENTS` -/
def fileEvents : Nat := 1

/-- `AE_TIME_EVENTS` -/
def timeEvents : Nat := 2

/-- `AE_DONT_WAIT` -/
def dontWait : Nat := 4

/-- What `aeProcessEvents` hands to `aeApiPoll`, if it calls it: a timeout, or none to wait for ever. -/
def pollTimeout (maxfd : Int) (flags : Nat) (timers : List TimeEvent) (now : Clock) :
    Option (Option Timeval) :=
  if flags &&& timeEvents = 0 ∧ flags &&& fileEvents = 0 then none
  else if maxfd ≠ -1 ∨ (flags &&& timeEvents ≠ 0 ∧ flags &&& dontWait = 0) then
    let shortest :=
      if flags &&& timeEvents ≠ 0 ∧ flags &&& dontWait = 0 then aeSearchNearestTimer timers else none
    match shortest with
    | some te => some (some (timeMissing now te))
    | none => if flags &&& dontWait ≠ 0 then some (some ⟨0, 0⟩) else some none
  else none

/-! ## The nearest timer -/

variable {timers rest : List TimeEvent} {te te' n : TimeEvent} {now : Clock} {m : Int}

/-- Not later in seconds, nor in milliseconds where the seconds are the same. -/
def TimeEvent.Upto (te te' : TimeEvent) : Prop :=
  te.whenSec < te'.whenSec ∨ (te.whenSec = te'.whenSec ∧ te.whenMs ≤ te'.whenMs)

theorem TimeEvent.Upto.refl (te : TimeEvent) : te.Upto te := .inr ⟨rfl, Int.le_refl _⟩

theorem TimeEvent.Upto.trans {te'' : TimeEvent} (h : te.Upto te') (h' : te'.Upto te'') :
    te.Upto te'' := by
  unfold TimeEvent.Upto at *
  omega

theorem TimeEvent.upto_of_nearer (h : te.nearer n = true) : te.Upto n := by
  unfold TimeEvent.nearer at h
  unfold TimeEvent.Upto
  simp only [Bool.or_eq_true, Bool.and_eq_true, decide_eq_true_eq, beq_iff_eq] at h
  omega

theorem TimeEvent.upto_of_not_nearer (h : ¬te.nearer n = true) : n.Upto te := by
  unfold TimeEvent.nearer at h
  unfold TimeEvent.Upto
  simp only [Bool.or_eq_true, Bool.and_eq_true, decide_eq_true_eq, beq_iff_eq] at h
  omega

theorem searchNearestFrom_some (n : TimeEvent) (timers : List TimeEvent) :
    ∃ te ∈ n :: timers, searchNearestFrom (some n) timers = some te ∧
      ∀ te' ∈ n :: timers, te.Upto te' := by
  induction timers generalizing n with
  | nil => exact ⟨n, List.mem_cons_self, rfl, fun te' h => by simp_all [TimeEvent.Upto.refl]⟩
  | cons t timers ih =>
    by_cases hnear : t.nearer n = true
    · obtain ⟨te, hmem, hfound, hupto⟩ := ih t
      refine ⟨te, List.mem_cons_of_mem n hmem, by simp [searchNearestFrom, hnear, hfound], ?_⟩
      rintro te' (_ | ⟨_, hte'⟩)
      · exact (hupto t List.mem_cons_self).trans (TimeEvent.upto_of_nearer hnear)
      · exact hupto te' hte'
    · obtain ⟨te, hmem, hfound, hupto⟩ := ih n
      refine ⟨te, ?_, by simp [searchNearestFrom, hnear, hfound], ?_⟩
      · rcases List.mem_cons.mp hmem with rfl | hmem
        · exact List.mem_cons_self
        · exact .tail _ (.tail _ hmem)
      · rintro te' (_ | ⟨_, hte'⟩)
        · exact hupto n List.mem_cons_self
        · rcases List.mem_cons.mp hte' with rfl | hte'
          · exact (hupto n List.mem_cons_self).trans (TimeEvent.upto_of_not_nearer hnear)
          · exact hupto te' (.tail _ hte')

/-- The scan finds the first timer in the order of seconds and milliseconds. -/
theorem aeSearchNearestTimer_spec (hne : timers ≠ []) :
    ∃ te ∈ timers, aeSearchNearestTimer timers = some te ∧ ∀ te' ∈ timers, te.Upto te' := by
  cases timers with
  | nil => exact absurd rfl hne
  | cons t timers => exact searchNearestFrom_some t timers

/-! ## The milliseconds -/

/-- The two differences come out right although they are cut off one by one. -/
def Exact (now : Clock) (te : TimeEvent) : Prop :=
  if te.whenMs < now.ms.val then
    (now.sec < te.whenSec ∧ (now.ms.val ≤ te.whenMs + 1000 ∨ te.whenSec = now.sec + 1)) ∨
      (te.whenSec ≤ now.sec ∧ te.whenMs + 1000 ≤ now.ms.val)
  else now.sec ≤ te.whenSec ∨ te.whenMs = now.ms.val

theorem timeMissing_ms (now : Clock) (te : TimeEvent) :
    (timeMissing now te).ms =
      if te.whenMs < now.ms.val then
        max 0 (te.whenSec - now.sec - 1) * 1000 + max 0 (te.whenMs + 1000 - now.ms.val)
      else max 0 (te.whenSec - now.sec) * 1000 + max 0 (te.whenMs - now.ms.val) := by
  have hcut (k : Int) : (if k * 1000 < 0 then 0 else k * 1000).tdiv 1000 = max 0 k := by
    split
    · rw [Int.zero_tdiv]
      omega
    · rw [Int.mul_tdiv_cancel k (by decide)]
      omega
  have hclamp (k : Int) : (if k < 0 then 0 else k) = max 0 k := by
    split <;> omega
  unfold timeMissing Timeval.ms
  dsimp only
  split
  · rw [hcut, hclamp]
  · rw [hcut, hclamp]

/-- With a borrow. -/
theorem borrowed_exact (ds : Int) {dm : Int} (hless : dm < 0) :
    max 0 (ds - 1) * 1000 + max 0 (dm + 1000) = max 0 (ds * 1000 + dm) ↔
      (0 < ds ∧ (0 ≤ dm + 1000 ∨ ds = 1)) ∨ (ds ≤ 0 ∧ dm + 1000 ≤ 0) := by
  constructor
  · intro heq
    omega
  · rintro (⟨hpos, hms | hone⟩ | ⟨hsec, hms⟩)
    · omega
    · omega
    · omega

/-- For one timer the milliseconds are right under that condition, and never too few. -/
theorem timeMissing_exact (now : Clock) (te : TimeEvent) :
    ((timeMissing now te).ms = max 0 (te.total - now.total) ↔ Exact now te) ∧
      te.total - now.total ≤ (timeMissing now te).ms ∧ 0 ≤ (timeMissing now te).ms := by
  rw [timeMissing_ms]
  have htotal : te.total - now.total =
      (te.whenSec - now.sec) * 1000 + (te.whenMs - now.ms.val) := by
    unfold TimeEvent.total Clock.total
    omega
  rw [htotal]
  unfold Exact
  by_cases hless : te.whenMs < now.ms.val
  · have hexact := borrowed_exact (te.whenSec - now.sec) (Int.sub_neg_of_lt hless)
    have hshift : te.whenMs + 1000 - now.ms.val = te.whenMs - now.ms.val + 1000 := by omega
    rw [if_pos hless, if_pos hless, hshift, hexact]
    refine ⟨?_, ?_, ?_⟩
    · omega
    · omega
    · omega
  · rw [if_neg hless, if_neg hless]
    refine ⟨?_, ?_, ?_⟩
    · omega
    · omega
    · omega

/-- Within one second of milliseconds: not overdue, or overdue by whole seconds. -/
theorem exact_iff (hlow : 0 ≤ te.whenMs) (hhigh : te.whenMs < 1000) :
    Exact now te ↔ now.total ≤ te.total ∨ (1000 : Int) ∣ now.total - te.total := by
  have hms : (now.ms.val : Int) < 1000 := Int.ofNat_lt.mpr now.ms.isLt
  unfold Exact TimeEvent.total Clock.total
  split
  · omega
  · omega

/-! ## What the poll is given -/

variable {maxfd : Int} {flags : Nat}

/-- The timer that comes first gives the right timeout, or it is due like the nearest one. -/
def Decisive (timers : List TimeEvent) (now : Clock) (te : TimeEvent) : Prop :=
  (∀ te' ∈ timers, te.Upto te') ∧ ∀ te' ∈ timers, te.total ≤ te'.total ∨ te.total ≤ now.total

theorem pollTimeout_timer (maxfd : Int) (now : Clock) (hne : timers ≠ []) (htime : flags &&& timeEvents ≠ 0)
    (hblock : flags &&& dontWait = 0) : ∃ te ∈ timers,
      pollTimeout maxfd flags timers now = some (some (timeMissing now te)) ∧
        ∀ te' ∈ timers, te.Upto te' := by
  obtain ⟨te, hmem, hfound, hfirst⟩ := aeSearchNearestTimer_spec hne
  refine ⟨te, hmem, ?_, hfirst⟩
  unfold pollTimeout
  rw [if_neg (fun h => htime h.1), if_pos (.inr ⟨htime, hblock⟩), if_pos ⟨htime, hblock⟩, hfound]

theorem Exact.congr (hsec : te.whenSec = te'.whenSec) (hms : te.whenMs = te'.whenMs)
    (h : Exact now te) : Exact now te' := by
  unfold Exact at h ⊢
  rwa [hsec, hms] at h

/-- The timeout is never too short. It is the time to the nearest timer where the first timer in the
order of the scan decides it and its two differences come out right; with milliseconds that are below a
second, where the nearest timer is not overdue, or overdue by whole seconds. -/
theorem pollTimeout_exact (hnearest : (timers.map TimeEvent.total).min? = some m)
    (htime : flags &&& timeEvents ≠ 0) (hblock : flags &&& dontWait = 0) : ∃ tv,
      pollTimeout maxfd flags timers now = some (some tv) ∧
      max 0 (m - now.total) ≤ tv.ms ∧
      (tv.ms = max 0 (m - now.total) ↔ ∃ te ∈ timers, Decisive timers now te ∧ Exact now te) ∧
      ((∀ te ∈ timers, 0 ≤ te.whenMs ∧ te.whenMs < 1000) →
        (tv.ms = max 0 (m - now.total) ↔ now.total ≤ m ∨ (1000 : Int) ∣ now.total - m)) := by
  have hne : timers ≠ [] := by
    rintro rfl
    simp at hnearest
  obtain ⟨hm, hleast⟩ := List.min?_eq_some_iff.mp hnearest
  obtain ⟨near, hnear, rfl⟩ := List.mem_map.mp hm
  have hmin (te') (hte' : te' ∈ timers) : near.total ≤ te'.total :=
    hleast _ (List.mem_map_of_mem hte')
  obtain ⟨te, hmem, hpoll, hfirst⟩ := pollTimeout_timer maxfd now hne htime hblock
  obtain ⟨hexact, henough, hpos⟩ := timeMissing_exact now te
  have hte := hmin te hmem
  refine ⟨timeMissing now te, hpoll, by omega, ?_, ?_⟩
  · constructor
    · intro heq
      -- a first timer that is neither nearest nor due makes the poll too long
      have hdecides : te.total ≤ near.total ∨ te.total ≤ now.total := by omega
      refine ⟨te, hmem, ⟨hfirst, fun te' hte' => ?_⟩, hexact.mp (by omega)⟩
      exact hdecides.imp_left fun h => Int.le_trans h (hmin te' hte')
    · rintro ⟨te', hmem', ⟨hfirst', hdecides⟩, hright⟩
      have hsame : te'.whenSec = te.whenSec ∧ te'.whenMs = te.whenMs := by
        have h := hfirst te' hmem'
        have h' := hfirst' te hmem
        unfold TimeEvent.Upto at h h'
        omega
      have htotal : te'.total = te.total := by
        unfold TimeEvent.total
        rw [hsame.1, hsame.2]
      have hdue := hdecides near hnear
      have hms := hexact.mpr (hright.congr hsame.1 hsame.2)
      omega
  · intro hrange
    obtain ⟨hlow, hhigh⟩ := hrange te hmem
    have hsame : te.total = near.total := by
      obtain ⟨hlow', hhigh'⟩ := hrange near hnear
      have h := hfirst near hnear
      unfold TimeEvent.Upto at h
      unfold TimeEvent.total at hte ⊢
      omega
    rw [← hsame, ← exact_iff hlow hhigh, hexact]

/-- A timer that is half a second away. -/
theorem pollTimeout_exact_half :
    ∃ tv, pollTimeout 5 (fileEvents ||| timeEvents) [⟨0, 10, 900, false⟩] ⟨10, 400⟩ = some (some tv) ∧
      tv.ms = 500 := by
  obtain ⟨tv, hpoll, -, -, hiff⟩ :=
    @pollTimeout_exact [⟨0, 10, 900, false⟩] ⟨10, 400⟩ 10900 5 (fileEvents ||| timeEvents)
      (by decide) (by decide) (by decide)
  exact ⟨tv, hpoll, (hiff (by decide)).mpr (by decide)⟩

/-- A timer that is overdue by 900 milliseconds makes the loop sleep for 100. -/
theorem pollTimeout_overdue :
    ¬∀ (maxfd : Int) (flags : Nat) (timers : List TimeEvent) (now : Clock) (m : Int),
      (timers.map TimeEvent.total).min? = some m → flags &&& timeEvents ≠ 0 →
        flags &&& dontWait = 0 → ∃ tv, pollTimeout maxfd flags timers now = some (some tv) ∧
          tv.ms = max 0 (m - now.total) := by
  intro hall
  obtain ⟨tv, hpoll, hms⟩ := hall 5 (fileEvents ||| timeEvents) [⟨0, 9, 500, false⟩] ⟨10, 400⟩ 9500
    (by decide) (by decide) (by decide)
  have htv : tv = ⟨0, 100000⟩ := Option.some.inj (Option.some.inj hpoll) |>.symm
  subst htv
  exact absurd hms (by decide)

end Rtfsc.Redis.Ae
