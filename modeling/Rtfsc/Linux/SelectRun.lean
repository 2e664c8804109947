import Rtfsc.Linux.SelectScan

/-!
# do_select: what a call returns

A pass that finds nothing leaves the result maps empty, so that the next pass begins as the first one did.
The pass that finds something is the last one.
-/

namespace Rtfsc.Linux

open Rtfsc.Machine

/-- `FDS_LONGS` -/
def fdsLongs (n : Nat) : Nat := (n + 63) / 64

/-- What `core_sys_select` calls with: maps of so many words for `n` descriptors, the result maps cleared.
`max_select_fd` finds a bound above the requested descriptors that are open, and `table.error` is none
or negative. -/
structure SelectArgs (e : SelectEnv) (maxSelectFd : Int → FdSetBits → Int) (n : Nat) (fds : FdSetBits)
    (ps : List SelectPass) : Prop where
  requested : ∀ c, (fds.requested c).length = fdsLongs n
  res : ∀ c, fds.res c = List.replicate (fdsLongs n) 0
  le : maxSelectFd n fds ≤ n
  above : 0 ≤ maxSelectFd n fds → ∀ c fd, testBit (fds.requested c) fd = true → e.isOpen fd = true →
    (fd : Int) < maxSelectFd n fds
  error : ∀ p ∈ ps, p.tableError ≤ 0

/-- The value is the number of the bits that are set, and these are the requested descriptors below `n` that
were ready in the pass. -/
def Selected (e : SelectEnv) (p : SelectPass) (n : Int) (maps : SelectSet → List UInt64) (retval : Int)
    (fds : FdSetBits) : Prop :=
  retval = totalBits fds.res ∧ ∀ c fd,
    (testBit (fds.res c) fd = true → testBit (maps c) fd = true ∧ (fd : Int) < n ∧ e.isOpen fd = true ∧
      p.mask fd &&& e.events c ≠ 0) ∧
    (testBit (maps c) fd = true → e.isOpen fd = true → p.mask fd &&& e.events c ≠ 0 →
      testBit (fds.res c) fd = true)

/-- What is claimed of a call: it stays in the maps, and a value that is not negative is that of its last
pass. -/
def Selects (e : SelectEnv) (maxSelectFd : Int → FdSetBits → Int) (n : Nat) (fds : FdSetBits)
    (endTime : Option (Int × Int)) (ps : List SelectPass) : Prop :=
  doSelect e maxSelectFd n fds endTime ps ≠ .outside ∧ ∀ retval t,
    doSelect e maxSelectFd n fds endTime ps = .returned retval t → 0 ≤ retval →
    ∃ earlier p later, ps = earlier ++ p :: later ∧
      doSelect e maxSelectFd n fds endTime earlier = .waiting ∧
      Selected e p (maxSelectFd n fds) fds.requested retval t

/-! ## Passes -/

variable {e : SelectEnv} {p : SelectPass} {n longs : Nat} {maps : SelectSet → List UInt64}
  {s : SelectState}

theorem bitsSet_eq_zero {map : List UInt64} (h : bitsSet map = 0) (fd : Nat) : testBit map fd = false := by
  rcases Nat.lt_or_ge fd (64 * map.length) with hfd | hfd
  · exact Bool.eq_false_iff.2 (Nat.count_iff_forall_not.1 h fd hfd)
  · unfold testBit
    rw [List.getD_eq_default _ _ (by omega)]
    exact Nat.zero_testBit _

theorem bitsSet_le {map map' : List UInt64} (hlen : map.length = map'.length)
    (h : ∀ fd, testBit map fd = true → testBit map' fd = true) : bitsSet map ≤ bitsSet map' := by
  unfold bitsSet
  rw [hlen]
  exact Nat.count_mono_left fun fd _ => h fd

theorem totalBits_le {maps' : SelectSet → List UInt64} (h : ∀ c, bitsSet (maps c) ≤ bitsSet (maps' c)) :
    totalBits maps ≤ totalBits maps' := by
  have hin := h .inp
  have hout := h .outp
  have hex := h .exp
  simp only [totalBits, SelectSet.all, List.map_cons, List.map_nil, List.sum_cons, List.sum_nil]
  omega

theorem bitsSet_le_totalBits (c : SelectSet) : bitsSet (maps c) ≤ totalBits maps := by
  simp only [totalBits, SelectSet.all, List.map_cons, List.map_nil, List.sum_cons, List.sum_nil]
  cases c <;> omega

/-- A pass is about to begin, with nothing found yet. -/
structure NothingFound (maps : SelectSet → List UInt64) (longs : Nat) (s : SelectState) : Prop where
  requested : s.fds.requested = maps
  res : ∀ c, (s.fds.res c).length = longs
  clear : ∀ c fd, testBit (s.fds.res c) fd = false
  retval : s.retval = 0

/-- By induction on the passes. -/
theorem selectLoop_selected (hlen : ∀ c, (maps c).length = longs) (hn : n ≤ 64 * longs)
    (hlt : 64 * longs < 2 ^ 31) (hfew : totalBits maps < 2 ^ 31)
    (habove : ∀ c fd, testBit (maps c) fd = true → e.isOpen fd = true → fd < n)
    {ps : List SelectPass} (herror : ∀ p ∈ ps, p.tableError ≤ 0) (h : NothingFound maps longs s) :
    selectLoop e n ps s ≠ .outside ∧ ∀ retval t, selectLoop e n ps s = .returned retval t →
      0 ≤ retval → ∃ earlier p later, ps = earlier ++ p :: later ∧
        selectLoop e n earlier s = .waiting ∧ Selected e p n maps retval t := by
  induction ps generalizing s with
  | nil => exact ⟨nofun, nofun⟩
  | cons p ps ih =>
    obtain ⟨q, hscan, hrequested, hres, hhit, hretval⟩ := scanPass_hits e p
      (fun c => by rw [h.requested]; exact hlen c) h.res h.clear hn hlt
      (show s.retval = wrapInt 0 from h.retval)
    rw [h.requested] at hhit
    have hbits : totalBits q.fds.res ≤ totalBits maps := totalBits_le fun c =>
      bitsSet_le ((hres c).trans (hlen c).symm) fun fd hfd => by
        rw [hhit, hit, Bool.and_eq_true, Bool.and_eq_true, Bool.and_eq_true] at hfd
        exact hfd.1.1.1
    rw [Int.zero_add, wrapInt_of_lt (hbits.trans_lt hfew)] at hretval
    have hselected : Selected e p n maps q.retval q.fds := by
      refine ⟨hretval, fun c fd => ⟨fun hfd => ?_, fun hreq hopen hready => ?_⟩⟩
      · rw [hhit, hit, Bool.and_eq_true, Bool.and_eq_true, Bool.and_eq_true, decide_eq_true_eq,
          decide_eq_true_eq] at hfd
        exact ⟨hfd.1.1.1, Int.ofNat_lt.2 hfd.1.1.2, hfd.1.2, hfd.2⟩
      · rw [hhit, hit, hreq, hopen, decide_eq_true (habove c fd hreq hopen), decide_eq_true hready]
        rfl
    have hnext : ∀ u : SelectState, u.fds = q.fds → q.retval = 0 → u.retval = 0 → NothingFound maps longs u := by
      intro u hu hzero hr
      have hnone : totalBits q.fds.res = 0 := by omega
      refine ⟨?_, fun c => ?_, fun c => bitsSet_eq_zero ?_, hr⟩
      · rw [hu, hrequested, h.requested]
      · rw [hu, hres]
      · rw [hu]
        exact Nat.le_zero.1 (hnone ▸ bitsSet_le_totalBits c)
    have hagain : ∀ u : SelectState, NothingFound maps longs u →
        (∀ rest, selectLoop e n (p :: rest) s = selectLoop e n rest u) →
        selectLoop e n (p :: ps) s ≠ .outside ∧ ∀ retval t,
          selectLoop e n (p :: ps) s = .returned retval t → 0 ≤ retval →
          ∃ earlier p' later, p :: ps = earlier ++ p' :: later ∧
            selectLoop e n earlier s = .waiting ∧ Selected e p' n maps retval t := by
      intro u hu hstep
      obtain ⟨hinside, hreturned⟩ := ih (fun p' hp' => herror p' (List.mem_cons_of_mem p hp')) hu
      rw [hstep]
      refine ⟨hinside, fun retval t ht hpos => ?_⟩
      obtain ⟨earlier, p', later, hps, hwaiting, hlast⟩ := hreturned retval t ht hpos
      exact ⟨p :: earlier, p', later, by rw [hps]; rfl, (hstep earlier).trans hwaiting, hlast⟩
    have hround : ∀ rest, selectLoop e n (p :: rest) s =
        if q.retval ≠ 0 ∨ s.timedOut ∨ p.signalPending then .returned q.retval q.fds
        else if p.tableError ≠ 0 then .returned p.tableError q.fds
        else if q.canBusyLoop ∧ !p.needResched ∧ s.busyStart = 0 then
          selectLoop e n rest
            ⟨q.fds, q.retval, q.busyFlag, p.busyLoopCurrentTime, s.timedOut⟩
        else if q.canBusyLoop ∧ !p.needResched ∧ !p.busyLoopTimeout then
          selectLoop e n rest ⟨q.fds, q.retval, q.busyFlag, s.busyStart, s.timedOut⟩
        else
          selectLoop e n rest ⟨q.fds, q.retval, 0, s.busyStart, s.timedOut || !p.inTime⟩ := by
      intro rest
      rw [selectLoop, hscan]
    by_cases hdone : q.retval ≠ 0 ∨ s.timedOut ∨ p.signalPending
    · rw [hround, if_pos hdone]
      refine ⟨nofun, fun retval t ht _ => ⟨[], p, ps, rfl, rfl, ?_⟩⟩
      cases ht
      exact hselected
    · have hzero : q.retval = 0 := not_not.1 fun hne => hdone (.inl hne)
      by_cases hfailed : p.tableError ≠ 0
      · rw [hround, if_neg hdone, if_pos hfailed]
        refine ⟨nofun, fun retval t ht hpos => ?_⟩
        cases ht
        exact absurd (le_antisymm (herror p List.mem_cons_self) hpos) hfailed
      · have hrest := fun rest => ((hround rest).trans (if_neg hdone)).trans (if_neg hfailed)
        by_cases hstart : q.canBusyLoop ∧ !p.needResched ∧ s.busyStart = 0
        · exact hagain _ (hnext _ rfl hzero hzero) fun rest => (hrest rest).trans (if_pos hstart)
        have hrest' := fun rest => (hrest rest).trans (if_neg hstart)
        by_cases hbusy : q.canBusyLoop ∧ !p.needResched ∧ !p.busyLoopTimeout
        · exact hagain _ (hnext _ rfl hzero hzero) fun rest => (hrest' rest).trans (if_pos hbusy)
        · exact hagain _ (hnext _ rfl hzero hzero) fun rest => (hrest' rest).trans (if_neg hbusy)

/-! ## The call -/

variable {maxSelectFd : Int → FdSetBits → Int} {fds : FdSetBits} {ps : List SelectPass}

theorem fdsLongs_le (n : Nat) : n ≤ 64 * fdsLongs n := by
  unfold fdsLongs
  omega

theorem testBit_res (h : SelectArgs e maxSelectFd n fds ps) (c : SelectSet) (fd : Nat) :
    testBit (fds.res c) fd = false := by
  rw [h.res]
  exact testBit_replicate_zero _ fd

theorem doSelect_of_nonneg {k : Int} (h : 0 ≤ maxSelectFd k fds) (endTime : Option (Int × Int))
    (ps : List SelectPass) :
    doSelect e maxSelectFd k fds endTime ps =
      selectLoop e (maxSelectFd k fds) ps
        ⟨fds, 0, if e.netBusyLoopOn then e.pollBusyLoop else 0, 0, endTime = some (0, 0)⟩ :=
  if_neg (Int.not_lt.2 h)

/-- A call does what is claimed where the descriptors and the bits that are requested can be counted. -/
theorem doSelect_selects (h : SelectArgs e maxSelectFd n fds ps) (hn : n ≤ 2 ^ 31 - 64)
    (hfew : totalBits fds.requested < 2 ^ 31) (endTime : Option (Int × Int)) :
    Selects e maxSelectFd n fds endTime ps := by
  unfold Selects
  rcases Int.lt_or_le (maxSelectFd n fds) 0 with hneg | hpos
  · have hfailed : doSelect e maxSelectFd n fds endTime ps = .returned (maxSelectFd n fds) fds :=
      if_pos hneg
    rw [hfailed]
    refine ⟨nofun, fun retval t ht hr => ?_⟩
    cases ht
    exact absurd hr (Int.not_le.2 hneg)
  · simp only [doSelect_of_nonneg hpos]
    obtain ⟨m, hm⟩ := Int.eq_ofNat_of_zero_le hpos
    have hle := h.le
    have habove := h.above hpos
    have hlongs : 64 * fdsLongs n < 2 ^ 31 := by
      unfold fdsLongs
      omega
    rw [hm] at hle habove hpos ⊢
    refine selectLoop_selected h.requested ((Int.ofNat_le.1 hle).trans (fdsLongs_le n)) hlongs hfew
      (fun c fd hreq hopen => Int.ofNat_lt.1 (habove c fd hreq hopen)) h.error
      ⟨rfl, fun c => ?_, testBit_res h, rfl⟩
    dsimp only
    rw [h.res, List.length_replicate]

/-- The descriptors below 66 are open, and everything is an event. -/
def openBelow66 : SelectEnv := ⟨fun fd => decide (fd < 66), fun _ => 1, 0, false⟩

/-- A pass that finds this descriptor ready. -/
def readyPass (ready : Nat → Bool) : SelectPass :=
  ⟨fun fd => if ready fd then 1 else 0, false, 0, false, 0, false, true⟩

/-- Descriptors 0, 2 and 65 are to be read, of 70. -/
def threeRequests : FdSetBits :=
  ⟨fun | .inp => [5, 2] | .outp => [0, 0] | .exp => [0, 0], fun _ => [0, 0]⟩

theorem doSelect_selects_secondPass :
    Selects openBelow66 (fun _ _ => 66) 70 threeRequests none
      [readyPass fun _ => false, readyPass fun fd => fd == 65] :=
  doSelect_selects
    { requested := fun c => by cases c <;> rfl
      res := fun _ => rfl
      le := by decide
      above := fun _ _ _ _ hopen => Int.ofNat_lt.2 (of_decide_eq_true hopen)
      error := by decide }
    (by decide) (by decide +kernel) none

/-! ## Where an `int` cannot count -/

/-- Every descriptor is open. -/
def allOpen : SelectEnv := ⟨fun _ => true, fun _ => 1, 0, false⟩

/-- Maps of so many words, all bits of the input maps like the given word. -/
def uniformMaps (longs : Nat) (w : UInt64) : FdSetBits :=
  ⟨fun _ => List.replicate longs w, fun _ => List.replicate longs 0⟩

theorem uniformMaps_args {w : UInt64} (n : Nat) (ready : Nat → Bool)
    (habove : ∀ fd, testBit (List.replicate (fdsLongs n) w) fd = true → fd < n) :
    SelectArgs allOpen (fun n _ => n) n (uniformMaps (fdsLongs n) w) [readyPass ready] where
  requested _ := List.length_replicate ..
  res _ := rfl
  le := le_refl _
  above _ _ fd hfd _ := Int.ofNat_lt.2 (habove fd hfd)
  error p hp := by
    rw [List.mem_singleton.1 hp]
    exact le_refl _

/-- All bits of the result maps are set, and there are too many to be counted. -/
theorem doSelect_full {longs : Nat} (hlt : 64 * longs < 2 ^ 31) :
    ∃ t, doSelect allOpen (fun n _ => n) (64 * longs : Nat) (uniformMaps longs (-1)) (some (0, 0))
      [readyPass fun _ => true] = .returned (wrapInt (3 * (64 * longs) : Nat)) t ∧
      totalBits t.res = 3 * (64 * longs) := by
  have hfull : ∀ fd, fd < 64 * longs → testBit (List.replicate longs (-1 : UInt64)) fd = true := by
    intro fd hfd
    have hword : fd / 64 < longs := by omega
    have hall : (-1 : UInt64).toNat = 2 ^ 64 - 1 := rfl
    unfold testBit
    rw [List.getD_eq_getElem?_getD, List.getElem?_replicate, if_pos hword]
    dsimp only [Option.getD_some]
    rw [hall, Nat.testBit_two_pow_sub_one]
    exact decide_eq_true (Nat.mod_lt fd (by decide))
  have hlen : ∀ c, ((uniformMaps longs (-1)).requested c).length = longs := fun _ =>
    List.length_replicate ..
  have hempty : ∀ c, ((uniformMaps longs (-1)).res c).length = longs := fun _ =>
    List.length_replicate ..
  obtain ⟨q, hscan, -, hres, hhit, hretval⟩ := scanPass_hits (n := 64 * longs)
    (t := ⟨uniformMaps longs (-1), 0, 0, 0, true⟩) allOpen (readyPass fun _ => true) hlen hempty
    (fun _ fd => testBit_replicate_zero longs fd) (le_refl _) hlt (show (0 : Int) = wrapInt 0 from rfl)
  have hbits : ∀ c, bitsSet (q.fds.res c) = 64 * longs := by
    intro c
    unfold bitsSet
    rw [hres, Nat.count_iff_forall]
    intro fd hfd
    have hreq : testBit ((uniformMaps longs (-1)).requested c) fd = true := hfull fd hfd
    rw [hhit, hit, decide_eq_true hfd]
    dsimp only
    rw [hreq]
    exact (show (true && true && true && decide ((1 : UInt32) &&& 1 ≠ 0)) = true by decide)
  have htotal : totalBits q.fds.res = 3 * (64 * longs) := by
    simp only [totalBits, SelectSet.all, List.map_cons, List.map_nil, List.sum_cons, List.sum_nil, hbits]
    omega
  rw [htotal, Int.zero_add] at hretval
  refine ⟨q.fds, ?_, htotal⟩
  have hpos : (0 : Int) ≤ (64 * longs : Nat) := Int.natCast_nonneg _
  have hloop : selectLoop allOpen (64 * longs : Nat) [readyPass fun _ => true]
      ⟨uniformMaps longs (-1), 0, 0, 0, true⟩ = .returned q.retval q.fds := by
    rw [selectLoop, hscan]
    exact if_pos (.inr (.inl rfl))
  rw [hretval] at hloop
  rw [doSelect_of_nonneg hpos]
  exact hloop

/-- Where `i` stands on a word, it is no bound of `INT_MAX`. -/
theorem scanWords_past {q : PassScan} {rounds : Nat} (hi : (64 : Int) ∣ q.i) (hlt : q.i < 2 ^ 31)
    (hnone : ∀ c, ∀ w ∈ q.fds.requested c, w = 0) :
    scanWords allOpen (readyPass fun _ => false) (2 ^ 31 - 1 : Nat) rounds q = none := by
  induction rounds generalizing q with
  | zero => rfl
  | succ rounds ih =>
    have hmore : ¬((2 ^ 31 - 1 : Nat) : Int) ≤ q.i := by
      obtain ⟨d, hd⟩ := hi
      omega
    rw [scanWords, if_neg hmore]
    split
    · rfl
    · next words hread =>
      have hzero : words .inp ||| words .outp ||| words .exp = 0 := by
        unfold readWords at hread
        split at hread
        · next a b c ha hb hc =>
          cases hread
          rw [hnone .inp a (List.mem_of_getElem? ha), hnone .outp b (List.mem_of_getElem? hb),
            hnone .exp c (List.mem_of_getElem? hc)]
          rfl
        · cases hread
      dsimp only
      rw [if_pos hzero]
      have hwrap : ((2 ^ 32 : Nat) : Int) ∣ q.i + 64 - wrapInt (q.i + 64) := Int.dvd_self_sub_bmod
      refine ih ?_ (Int.bmod_lt (by decide)) hnone
      dsimp only
      omega

/-- A claim about every `n` and all maps fails twice. With more than 2^31 bits `retval` starts again from
below: it is 128 for three full maps of 1431655808 descriptors. And behind the last word of a map for
`INT_MAX` descriptors `i` is negative, and the next word is read. -/
theorem doSelect_not_selects :
    (∃ e maxSelectFd n fds endTime ps, SelectArgs e maxSelectFd n fds ps ∧ n ≤ 2 ^ 31 - 64 ∧
      ¬Selects e maxSelectFd n fds endTime ps) ∧
    (∃ e maxSelectFd n fds endTime ps, SelectArgs e maxSelectFd n fds ps ∧ n < 2 ^ 31 ∧
      totalBits fds.requested < 2 ^ 31 ∧ ¬Selects e maxSelectFd n fds endTime ps) := by
  constructor
  · have hlongs : fdsLongs (64 * 22369622) = 22369622 := by decide
    have hargs := uniformMaps_args (w := -1) (64 * 22369622) (fun _ => true) fun fd hfd => by
      rw [hlongs] at hfd
      unfold testBit at hfd
      rcases Nat.lt_or_ge (fd / 64) 22369622 with hin | hout
      · omega
      · rw [List.getD_eq_default _ _ (by rw [List.length_replicate]; exact hout)] at hfd
        exact absurd ((Nat.zero_testBit _).symm.trans hfd) Bool.false_ne_true
    rw [hlongs] at hargs
    refine ⟨allOpen, fun n _ => n, 64 * 22369622, uniformMaps 22369622 (-1), some (0, 0), _, hargs,
      by decide, fun hselects => ?_⟩
    obtain ⟨t, hreturned, htotal⟩ := doSelect_full (show 64 * 22369622 < 2 ^ 31 by decide)
    obtain ⟨-, -, -, -, -, hvalue, -⟩ := hselects.2 _ t hreturned (by decide)
    rw [htotal] at hvalue
    exact absurd hvalue (by decide)
  · have hargs := uniformMaps_args (w := 0) (2 ^ 31 - 1) (fun _ => false) fun fd hfd =>
      absurd ((testBit_replicate_zero _ fd).symm.trans hfd) Bool.false_ne_true
    have hnone : totalBits (uniformMaps (fdsLongs (2 ^ 31 - 1)) 0).requested = 0 := by
      have hzero : ∀ c, bitsSet ((uniformMaps (fdsLongs (2 ^ 31 - 1)) 0).requested c) = 0 := fun _ =>
        Nat.count_iff_forall_not.2 fun fd _ hfd =>
          absurd ((testBit_replicate_zero _ fd).symm.trans hfd) Bool.false_ne_true
      simp only [totalBits, SelectSet.all, List.map_cons, List.map_nil, List.sum_cons, List.sum_nil,
        hzero, Nat.add_zero]
    refine ⟨allOpen, fun n _ => n, 2 ^ 31 - 1, uniformMaps (fdsLongs (2 ^ 31 - 1)) 0, none, _, hargs,
      by decide, by rw [hnone]; decide, fun hselects => hselects.1 ?_⟩
    rw [doSelect_of_nonneg (Int.natCast_nonneg _), selectLoop, scanPass,
      scanWords_past (Int.dvd_zero 64) (by decide) fun c w hw => List.eq_of_mem_replicate hw]

end Rtfsc.Linux
