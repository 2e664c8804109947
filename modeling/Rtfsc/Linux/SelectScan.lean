import Rtfsc.Linux.Select
import Mathlib.Order.Nat
import Mathlib.Data.Nat.Count

/-!
# do_select: what a pass finds

Behind the descriptors below `i` the result maps hold the hits among them, and `retval` has counted these,
as far as an `int` can count. The lemmas go from a set to a bit, to a word and to a pass.
-/

namespace Rtfsc.Linux

open Rtfsc.Machine

/-! ## Integers -/

theorem wrapInt_add_wrapInt (x y : Int) : wrapInt (wrapInt x + y) = wrapInt (x + y) :=
  Int.bmod_add_bmod

theorem wrapInt_of_lt {m : Nat} (h : m < 2 ^ 31) : wrapInt m = m :=
  Int.bmod_eq_of_le (by omega) (by omega)

theorem fdOf_natCast {m : Nat} (h : m < 2 ^ 31) : fdOf m = m := by
  unfold fdOf
  rw [Int.emod_eq_of_lt (Int.natCast_nonneg m) (by omega), Int.toNat_natCast]

/-! ## A bit -/

variable {e : SelectEnv} {p : SelectPass} {mask : UInt32} {words : SelectSet → UInt64} {bit : UInt64}
  {s : WordScan} {r : Int}

theorem SelectSet.mem_all (c : SelectSet) : c ∈ SelectSet.all := by
  cases c <;> decide

/-- The set takes note of the file of a bit. -/
def Noted (e : SelectEnv) (mask : UInt32) (words : SelectSet → UInt64) (bit : UInt64)
    (c : SelectSet) : Bool :=
  decide (mask &&& e.events c ≠ 0 ∧ words c &&& bit ≠ 0)

/-- One set after the other takes note. -/
theorem foldl_noteEvents (e : SelectEnv) (mask : UInt32) (words : SelectSet → UInt64) (bit : UInt64)
    {l : List SelectSet} (hl : l.Nodup) (hr : s.retval = wrapInt r) :
    (l.foldl (noteEvents e mask words bit) s).i = s.i ∧
      (l.foldl (noteEvents e mask words bit) s).retval =
        wrapInt (r + l.countP (Noted e mask words bit)) ∧
      ∀ c, (l.foldl (noteEvents e mask words bit) s).res c =
        if c ∈ l ∧ Noted e mask words bit c then s.res c ||| bit else s.res c := by
  induction l generalizing s r with
  | nil =>
    refine ⟨rfl, ?_, fun c => (if_neg fun h => nomatch h.1).symm⟩
    rw [List.foldl_nil, hr, List.countP_nil, Int.natCast_zero, Int.add_zero]
  | cons a l ih =>
    rw [List.nodup_cons] at hl
    rw [List.foldl_cons, List.countP_cons]
    cases hnoted : Noted e mask words bit a with
    | false =>
      have hsame : noteEvents e mask words bit s a = s := if_neg (of_decide_eq_false hnoted)
      rw [hsame]
      obtain ⟨hi, hretval, hres⟩ := ih hl.2 hr
      refine ⟨hi, hretval, fun c => ?_⟩
      rw [hres]
      refine if_congr ⟨fun h => ⟨List.mem_cons_of_mem a h.1, h.2⟩, fun h => ⟨?_, h.2⟩⟩ rfl rfl
      rcases List.mem_cons.1 h.1 with rfl | hc
      · exact absurd (hnoted.symm.trans h.2) Bool.false_ne_true
      · exact hc
    | true =>
      have hset : noteEvents e mask words bit s a =
          { s with
            res := Function.update s.res a (s.res a ||| bit)
            retval := wrapInt (s.retval + 1) } := if_pos (of_decide_eq_true hnoted)
      have hone : wrapInt (s.retval + 1) = wrapInt (r + 1) := by rw [hr, wrapInt_add_wrapInt]
      rw [hset]
      obtain ⟨hi, hretval, hres⟩ := ih (s := { s with
        res := Function.update s.res a (s.res a ||| bit)
        retval := wrapInt (s.retval + 1) }) hl.2 hone
      refine ⟨hi, ?_, fun c => ?_⟩
      · rw [hretval, if_pos rfl, Int.natCast_add, Int.add_assoc, Int.add_comm 1]
        rfl
      · rw [hres]
        rcases eq_or_ne c a with rfl | hc
        · rw [if_neg fun h => hl.1 h.1, if_pos ⟨List.mem_cons_self, hnoted⟩]
          exact Function.update_self ..
        · dsimp only
          rw [Function.update_of_ne hc]
          refine if_congr ⟨fun h => ⟨List.mem_cons_of_mem a h.1, h.2⟩, fun h => ⟨?_, h.2⟩⟩ rfl rfl
          exact (List.mem_cons.1 h.1).resolve_left hc

/-- The file of a bit is polled, whatever that says about busy polling. -/
theorem pollFile_note (e : SelectEnv) (mask : UInt32) (words : SelectSet → UInt64) (bit : UInt64)
    (hr : s.retval = wrapInt r) :
    (pollFile e mask words bit s).i = s.i ∧
      (pollFile e mask words bit s).retval =
        wrapInt (r + SelectSet.all.countP (Noted e mask words bit)) ∧
      ∀ c, (pollFile e mask words bit s).res c =
        if Noted e mask words bit c then s.res c ||| bit else s.res c := by
  obtain ⟨hi, hretval, hres⟩ := foldl_noteEvents e mask words bit
    (show SelectSet.all.Nodup by decide) hr
  have hres' : ∀ c, (SelectSet.all.foldl (noteEvents e mask words bit) s).res c =
      if Noted e mask words bit c then s.res c ||| bit else s.res c := fun c => by
    rw [hres]
    exact if_congr (and_iff_right (SelectSet.mem_all c)) rfl rfl
  unfold pollFile
  dsimp only
  split
  · exact ⟨hi, hretval, hres'⟩
  split
  · exact ⟨hi, hretval, hres'⟩
  · exact ⟨hi, hretval, hres'⟩

/-- A descriptor below `n` is requested in the set, and its file is open and has what the set waits for. -/
def hit (e : SelectEnv) (p : SelectPass) (n : Nat) (maps : SelectSet → List UInt64) (c : SelectSet)
    (fd : Nat) : Bool :=
  testBit (maps c) fd && decide (fd < n) && e.isOpen fd && decide (p.mask fd &&& e.events c ≠ 0)

/-- The hits among the first descriptors. -/
def hits (e : SelectEnv) (p : SelectPass) (n : Nat) (maps : SelectSet → List UInt64) (i : Nat) : Nat :=
  (SelectSet.all.map fun c => Nat.count (fun fd => hit e p n maps c fd = true) i).sum

variable {n k j i : Nat} {maps : SelectSet → List UInt64} {allBits : UInt64}

theorem hits_succ (i : Nat) :
    hits e p n maps (i + 1) = hits e p n maps i + SelectSet.all.countP fun c => hit e p n maps c i := by
  simp only [hits, SelectSet.all, List.map_cons, List.map_nil, List.sum_cons, List.sum_nil,
    List.countP_cons, List.countP_nil, Nat.count_succ]
  omega

theorem hits_add_of_none {a : Nat} (b : Nat) (h : ∀ fd, a ≤ fd → fd < a + b → ∀ c, hit e p n maps c fd = false) :
    hits e p n maps (a + b) = hits e p n maps a := by
  induction b with
  | zero => rfl
  | succ b ih =>
    have hnone : SelectSet.all.countP (fun c => hit e p n maps c (a + b)) = 0 :=
      List.countP_eq_zero.2 fun c _ => by
        rw [h (a + b) (Nat.le_add_right a b) (Nat.lt_succ_self _) c]
        exact Bool.false_ne_true
    rw [← Nat.add_assoc, hits_succ, hnone, Nat.add_zero]
    exact ih fun fd ha hb => h fd ha (hb.trans (Nat.lt_succ_self _))

theorem hit_of_le {fd : Nat} (h : n ≤ fd) (c : SelectSet) : hit e p n maps c fd = false := by
  unfold hit
  rw [decide_eq_false (Nat.not_lt.2 h), Bool.and_false, Bool.false_and, Bool.false_and]

/-- Behind `n` there are no hits. -/
theorem hits_of_le {a b : Nat} (ha : n ≤ a) (hab : a ≤ b) :
    hits e p n maps b = hits e p n maps a := by
  obtain ⟨d, rfl⟩ := Nat.exists_eq_add_of_le hab
  exact hits_add_of_none d fun fd hfd _ c => hit_of_le (ha.trans hfd) c

/-- The words that a round works on are word `k` of the maps. -/
def IsWord (maps : SelectSet → List UInt64) (k : Nat) (words : SelectSet → UInt64) : Prop :=
  ∀ c j, j < 64 → testBit (maps c) (64 * k + j) = (words c).toNat.testBit j

/-- The bit of the mask, as it is tested. -/
theorem and_bit_ne_zero {w : UInt64} (hj : j < 64) :
    w &&& bitMask (UInt64.ofNat j) ≠ 0 ↔ w.toNat.testBit j = true := by
  have hto : (UInt64.ofNat j).toNat = j := by
    rw [UInt64.toNat_ofNat']
    exact Nat.mod_eq_of_lt (by omega)
  rw [ne_eq, and_bitMask_eq_zero (by rw [hto]; exact hj), hto, Bool.not_eq_false]

/-- What a round of the loop over the bits does. -/
theorem scanBit_hit (hwords : IsWord maps k words) (hall : allBits = words .inp ||| words .outp ||| words .exp)
    (hj : j < 64) (hbit : bit = bitMask (UInt64.ofNat j)) (hi : s.i = (64 * k + j : Nat))
    (hn : 64 * k + j < n) (hlt : n < 2 ^ 31) (hr : s.retval = wrapInt r) :
    (scanBit e p words allBits bit s).i = s.i ∧
      (scanBit e p words allBits bit s).retval =
        wrapInt (r + SelectSet.all.countP fun c => hit e p n maps c (64 * k + j)) ∧
      ∀ c, (scanBit e p words allBits bit s).res c =
        if hit e p n maps c (64 * k + j) then s.res c ||| bit else s.res c := by
  have hfd : fdOf s.i = 64 * k + j := by
    rw [hi]
    exact fdOf_natCast (hn.trans hlt)
  have hhit : ∀ c, hit e p n maps c (64 * k + j) =
      ((words c).toNat.testBit j && e.isOpen (64 * k + j) &&
        decide (p.mask (64 * k + j) &&& e.events c ≠ 0)) := fun c => by
    unfold hit
    rw [hwords c j hj, decide_eq_true hn, Bool.and_true]
  have hidle : (∀ c, hit e p n maps c (64 * k + j) = false) →
      s.i = s.i ∧ s.retval = wrapInt (r + SelectSet.all.countP fun c => hit e p n maps c (64 * k + j)) ∧
        ∀ c, s.res c = if hit e p n maps c (64 * k + j) then s.res c ||| bit else s.res c := by
    intro hnone
    refine ⟨rfl, ?_, fun c => ?_⟩
    · rw [List.countP_eq_zero.2 fun c _ => by rw [hnone c]; exact Bool.false_ne_true, hr,
        Int.natCast_zero, Int.add_zero]
    · rw [hnone c, if_neg Bool.false_ne_true]
  unfold scanBit
  rw [hfd]
  split
  · next hzero =>
    refine hidle fun c => ?_
    have hclear : ¬allBits &&& bitMask (UInt64.ofNat j) ≠ 0 := by
      rw [not_not, UInt64.and_comm, ← hbit]
      exact hzero
    rw [and_bit_ne_zero hj, hall, UInt64.toNat_or, UInt64.toNat_or, Nat.testBit_or, Nat.testBit_or,
      Bool.not_eq_true, Bool.or_eq_false_iff, Bool.or_eq_false_iff] at hclear
    have hword : (words c).toNat.testBit j = false := by
      cases c
      · exact hclear.1.1
      · exact hclear.1.2
      · exact hclear.2
    rw [hhit, hword, Bool.false_and, Bool.false_and]
  split
  · next hopen =>
    obtain ⟨hi', hretval, hres⟩ := pollFile_note e (p.mask (64 * k + j)) words bit hr
    have hnoted : Noted e (p.mask (64 * k + j)) words bit = fun c => hit e p n maps c (64 * k + j) := by
      funext c
      unfold Noted
      rw [hhit, hopen, hbit, Bool.and_true, Bool.and_comm, ← Bool.decide_coe ((words c).toNat.testBit j),
        ← Bool.decide_and]
      exact decide_eq_decide.2 (and_congr_right fun _ => and_bit_ne_zero hj)
    rw [hnoted] at hretval hres
    exact ⟨hi', hretval, hres⟩
  · next hclosed =>
    refine hidle fun c => ?_
    rw [hhit, Bool.eq_false_iff.2 hclosed, Bool.and_false, Bool.false_and]

/-! ## A word -/

theorem toNat_bitMask (hj : j < 64) : (bitMask (UInt64.ofNat j)).toNat = 2 ^ j := by
  have hto : (UInt64.ofNat j).toNat = j := by
    rw [UInt64.toNat_ofNat']
    exact Nat.mod_eq_of_lt (by omega)
  have hpow : 2 ^ j < 2 ^ 64 := Nat.pow_lt_pow_right (by decide) hj
  rw [bitMask, UInt64.toNat_shiftLeft, hto, Nat.mod_eq_of_lt hj, UInt64.toNat_one, Nat.shiftLeft_eq,
    Nat.one_mul, Nat.mod_eq_of_lt hpow]

/-- `bit <<= 1` -/
theorem bitMask_shiftLeft (hj : j + 1 < 64) :
    bitMask (UInt64.ofNat j) <<< 1 = bitMask (UInt64.ofNat (j + 1)) := by
  have hpow : 2 ^ j * 2 < 2 ^ 64 := by
    rw [← Nat.pow_succ]
    exact Nat.pow_lt_pow_right (by decide) hj
  rw [← UInt64.toNat_inj, UInt64.toNat_shiftLeft, toNat_bitMask ((Nat.lt_succ_self j).trans hj),
    toNat_bitMask hj, UInt64.toNat_one, Nat.shiftLeft_eq, Nat.pow_succ]
  exact Nat.mod_eq_of_lt hpow

/-- The first `j` bits of word `k` are done, in a pass that has counted from `r` on. -/
structure BitsDone (e : SelectEnv) (p : SelectPass) (n : Nat) (maps : SelectSet → List UInt64)
    (r : Int) (k j : Nat) (s : WordScan) : Prop where
  i : s.i = (64 * k + j : Nat)
  retval : s.retval = wrapInt (r + hits e p n maps (64 * k + j))
  res : ∀ c m, m < 64 → (s.res c).toNat.testBit m = (decide (m < j) && hit e p n maps c (64 * k + m))

theorem BitsDone.step (h : BitsDone e p n maps r k j s) (hwords : IsWord maps k words)
    (hall : allBits = words .inp ||| words .outp ||| words .exp) (hj : j < 64)
    (hbit : bit = bitMask (UInt64.ofNat j)) (hn : 64 * k + j < n) (hlt : n < 2 ^ 31) :
    BitsDone e p n maps r k (j + 1)
      { scanBit e p words allBits bit s with
        i := wrapInt ((scanBit e p words allBits bit s).i + 1) } := by
  obtain ⟨hi, hretval, hres⟩ := scanBit_hit (e := e) (p := p) hwords hall hj hbit h.i hn hlt h.retval
  refine ⟨?_, ?_, fun c m hm => ?_⟩
  · dsimp only
    rw [hi, h.i]
    exact wrapInt_of_lt (m := 64 * k + j + 1) (by omega)
  · dsimp only
    rw [hretval, ← Nat.add_assoc, hits_succ, Int.natCast_add, Int.add_assoc]
  · have hto : (UInt64.ofNat j).toNat = j := by
      rw [UInt64.toNat_ofNat']
      exact Nat.mod_eq_of_lt (by omega)
    have hmask : bit.toNat.testBit m = decide (j = m) := by
      rw [hbit, testBit_bitMask (by rw [hto]; exact hj), hto]
    dsimp only
    rw [hres]
    rcases eq_or_ne m j with rfl | hne
    · have hold : (s.res c).toNat.testBit m = false := by
        rw [h.res c m hm, decide_eq_false (Nat.lt_irrefl m), Bool.false_and]
      rw [decide_eq_true (Nat.lt_succ_self m), Bool.true_and]
      split
      · next hhit => rw [UInt64.toNat_or, Nat.testBit_or, hmask, decide_eq_true rfl, Bool.or_true, hhit]
      · next hhit => rw [hold, Bool.eq_false_iff.2 hhit]
    · have hsame : (if hit e p n maps c (64 * k + j) then s.res c ||| bit else s.res c).toNat.testBit m =
          (s.res c).toNat.testBit m := by
        split
        · rw [UInt64.toNat_or, Nat.testBit_or, hmask, decide_eq_false hne.symm, Bool.or_false]
        · rfl
      have hlt' : m < j + 1 ↔ m < j := by omega
      rw [hsame, h.res c m hm, decide_eq_decide.2 hlt']

/-- By induction on the bits that are left. -/
theorem BitsDone.scanBits (hwords : IsWord maps k words)
    (hall : allBits = words .inp ||| words .outp ||| words .exp) (hlt : n < 2 ^ 31) {left : Nat}
    (h : BitsDone e p n maps r k j s) (hleft : left + j = 64)
    (hbit : 0 < left → bit = bitMask (UInt64.ofNat j)) :
    ∃ m, m ≤ 64 ∧ (m = 64 ∨ n ≤ 64 * k + m) ∧
      BitsDone e p n maps r k m (scanBits e p n words allBits left bit s) := by
  induction left generalizing j bit s with
  | zero =>
    have hj : j = 64 := by omega
    exact ⟨j, hj.le, .inl hj, h⟩
  | succ left ih =>
    unfold Linux.scanBits
    split
    · next hend =>
      rw [h.i] at hend
      exact ⟨j, by omega, .inr (by omega), h⟩
    · next hmore =>
      rw [h.i] at hmore
      have hj : j < 64 := by omega
      have hstep := h.step hwords hall hj (hbit (Nat.succ_pos left)) (by omega) hlt
      refine ih hstep (by omega) fun hpos => ?_
      rw [hbit (Nat.succ_pos left)]
      exact bitMask_shiftLeft (by omega)

/-! ## A pass -/

/-- The first `k` words are done: `i` stands in front of the next one, or there are no more descriptors. -/
structure WordsDone (e : SelectEnv) (p : SelectPass) (n : Nat) (maps : SelectSet → List UInt64)
    (r : Int) (longs k : Nat) (s : PassScan) : Prop where
  inp : s.inp = k
  rinp : s.rinp = k
  i : s.i = (64 * k : Nat) ∨ n ≤ 64 * k ∧ (n : Int) ≤ s.i
  requested : s.fds.requested = maps
  length : ∀ c, (s.fds.res c).length = longs
  retval : s.retval = wrapInt (r + hits e p n maps (64 * k))
  res : ∀ c fd, testBit (s.fds.res c) fd = (decide (fd < 64 * k) && hit e p n maps c fd)

/-- What stands in the map when a word is stored. -/
theorem testBit_set {ws : List UInt64} (hk : k < ws.length) (w : UInt64) (fd : Nat) :
    testBit (ws.set k w) fd = if fd / 64 = k then w.toNat.testBit (fd % 64) else testBit ws fd := by
  unfold testBit
  rw [List.getD_eq_getElem?_getD, List.getD_eq_getElem?_getD, List.getElem?_set]
  rcases eq_or_ne k (fd / 64) with rfl | hne
  · rw [if_pos rfl, if_pos hk, if_pos rfl]
    rfl
  · rw [if_neg hne, if_neg hne.symm]

theorem readWords_isWord {longs : Nat} (hlen : ∀ c, (maps c).length = longs) (hk : k < longs) :
    ∃ words, readWords maps k = some words ∧ IsWord maps k words := by
  have hget : ∀ c, (maps c)[k]? = some ((maps c).getD k 0) := fun c => by
    rw [List.getD_eq_getElem?_getD, List.getElem?_eq_getElem (by rw [hlen]; exact hk)]
    rfl
  refine ⟨fun c => (maps c).getD k 0, ?_, fun c j hj => ?_⟩
  · unfold readWords
    rw [hget, hget, hget]
    refine congrArg some (funext fun c => ?_)
    cases c <;> rfl
  · have hdiv : (64 * k + j) / 64 = k := by omega
    have hmod : (64 * k + j) % 64 = j := by omega
    unfold testBit
    rw [hdiv, hmod]

/-- The words that are not zero are stored, and the others are zero already. -/
theorem testBit_stored {longs : Nat} {old : List UInt64} {w : UInt64} {c : SelectSet} {fd : Nat}
    (hlen : old.length = longs) (hk : k < longs)
    (hold : ∀ fd, testBit old fd = (decide (fd < 64 * k) && hit e p n maps c fd))
    (hw : ∀ j, j < 64 → w.toNat.testBit j = hit e p n maps c (64 * k + j)) :
    testBit (if w ≠ 0 then old.set k w else old) fd =
      (decide (fd < 64 * (k + 1)) && hit e p n maps c fd) := by
  have hsplit : 64 * (fd / 64) + fd % 64 = fd := Nat.div_add_mod fd 64
  have hmod : fd % 64 < 64 := Nat.mod_lt fd (by decide)
  rcases eq_or_ne (fd / 64) k with hfd | hfd
  · have hin : fd < 64 * (k + 1) := by omega
    have hword := hw (fd % 64) hmod
    rw [← hfd, hsplit] at hword
    rw [decide_eq_true hin, Bool.true_and, ← hword]
    split
    · rw [testBit_set (by rw [hlen]; exact hk), if_pos hfd]
    · next hzero =>
      have hout : ¬fd < 64 * k := by omega
      rw [hold, decide_eq_false hout, Bool.false_and, not_not.1 hzero]
      exact (Nat.zero_testBit _).symm
  · have hsame : testBit (if w ≠ 0 then old.set k w else old) fd = testBit old fd := by
      split
      · rw [testBit_set (by rw [hlen]; exact hk), if_neg hfd]
      · rfl
    have hlt : fd < 64 * k ↔ fd < 64 * (k + 1) := by omega
    rw [hsame, hold, decide_eq_decide.2 hlt]

variable {longs : Nat} {q : PassScan}

/-- A round of the loop over the words. -/
theorem WordsDone.step (h : WordsDone e p n maps r longs k q) (hlen : ∀ c, (maps c).length = longs)
    (hn : n ≤ 64 * longs) (hlt : 64 * longs < 2 ^ 31) (hmore : ¬(n : Int) ≤ q.i) :
    ∃ q', (∀ rounds, scanWords e p n (rounds + 1) q = scanWords e p n rounds q') ∧
      WordsDone e p n maps r longs (k + 1) q' := by
  have hi : q.i = (64 * k : Nat) := h.i.resolve_right fun hend => hmore hend.2
  rw [hi] at hmore
  have hk : k < longs := by omega
  obtain ⟨words, hread, hwords⟩ := readWords_isWord hlen hk
  have hround : ∀ rounds, scanWords e p n (rounds + 1) q =
      if words .inp ||| words .outp ||| words .exp = 0 then
        scanWords e p n rounds
          { q with i := wrapInt (q.i + 64), inp := q.inp + 1, rinp := q.rinp + 1 }
      else
        let t := Linux.scanBits e p n words (words .inp ||| words .outp ||| words .exp) 64 1
          ⟨q.i, fun _ => 0, q.retval, q.busyFlag, q.canBusyLoop⟩
        (storeWords q.fds.res q.rinp t.res).bind fun res =>
          scanWords e p n rounds
            ⟨t.i, q.inp + 1, q.rinp + 1, { q.fds with res := res }, t.retval, t.busyFlag, t.canBusyLoop⟩ := by
    intro rounds
    have hgoes : ¬(n : Int) ≤ q.i := by
      rw [hi]
      exact hmore
    have hfetch : readWords q.fds.requested q.inp = some words := by
      rw [h.requested, h.inp]
      exact hread
    simp only [scanWords, if_neg hgoes, hfetch]
    congr 1
    generalize storeWords q.fds.res q.rinp _ = stored
    cases stored <;> rfl
  rcases eq_or_ne (words .inp ||| words .outp ||| words .exp) 0 with hzero | hsome
  · -- nothing is requested in the word, and it is skipped
    have hclear : ∀ c j, (words c).toNat.testBit j = false := fun c j => by
      have hall := congrArg (fun w : UInt64 => w.toNat.testBit j) hzero
      rw [UInt64.toNat_or, UInt64.toNat_or, Nat.testBit_or, Nat.testBit_or, UInt64.toNat_zero,
        Nat.zero_testBit, Bool.or_eq_false_iff, Bool.or_eq_false_iff] at hall
      cases c
      · exact hall.1.1
      · exact hall.1.2
      · exact hall.2
    have hnone : ∀ fd, 64 * k ≤ fd → fd < 64 * k + 64 → ∀ c, hit e p n maps c fd = false := by
      intro fd hle hfd c
      obtain ⟨j, rfl⟩ := Nat.exists_eq_add_of_le hle
      unfold hit
      rw [hwords c j (by omega), hclear, Bool.false_and, Bool.false_and, Bool.false_and]
    refine ⟨_, fun rounds => (hround rounds).trans (if_pos hzero), ?_⟩
    refine ⟨congrArg (· + 1) h.inp, congrArg (· + 1) h.rinp, .inl ?_, h.requested, h.length, ?_,
      fun c fd => ?_⟩
    · dsimp only
      rw [hi]
      exact wrapInt_of_lt (m := 64 * k + 64) (by omega)
    · exact h.retval.trans (by rw [Nat.mul_succ, hits_add_of_none 64 hnone])
    · refine (h.res c fd).trans ?_
      rcases Nat.lt_or_ge fd (64 * k) with hlow | hhigh
      · have hin : fd < 64 * (k + 1) := by omega
        rw [decide_eq_true hlow, decide_eq_true hin]
      · rw [decide_eq_false (Nat.not_lt.2 hhigh), Bool.false_and]
        rcases Nat.lt_or_ge fd (64 * (k + 1)) with hin | hout
        · rw [hnone fd hhigh hin, Bool.and_false]
        · rw [decide_eq_false (Nat.not_lt.2 hout), Bool.false_and]
  · have hstart : BitsDone e p n maps r k 0 ⟨q.i, fun _ => 0, q.retval, q.busyFlag, q.canBusyLoop⟩ :=
      ⟨hi, h.retval, fun _ m _ => Nat.zero_testBit m⟩
    obtain ⟨m, hm, hend, hdone⟩ := hstart.scanBits hwords rfl (by omega) rfl
      (fun _ => (rfl : (1 : UInt64) = bitMask (UInt64.ofNat 0)))
    generalize Linux.scanBits e p n words (words .inp ||| words .outp ||| words .exp) 64 1
      ⟨q.i, fun _ => 0, q.retval, q.busyFlag, q.canBusyLoop⟩ = t at hround hdone
    have hword : ∀ c j, j < 64 → (t.res c).toNat.testBit j = hit e p n maps c (64 * k + j) := by
      intro c j hj
      rw [hdone.res c j hj]
      rcases Nat.lt_or_ge j m with hjm | hjm
      · rw [decide_eq_true hjm, Bool.true_and]
      · rw [hit_of_le (by omega), Bool.and_false]
    have hcount : hits e p n maps (64 * (k + 1)) = hits e p n maps (64 * k + m) := by
      rcases hend with rfl | hend
      · rfl
      · exact hits_of_le hend (by omega)
    obtain ⟨res, hstore, hstored⟩ : ∃ res, storeWords q.fds.res q.rinp t.res = some res ∧
        ∀ c, res c = if t.res c ≠ 0 then (q.fds.res c).set k (t.res c) else q.fds.res c := by
      rw [storeWords, h.rinp]
      exact ⟨_, if_pos fun c _ _ => by rw [h.length]; exact hk, fun _ => rfl⟩
    refine ⟨⟨t.i, q.inp + 1, q.rinp + 1, { q.fds with res := res }, t.retval, t.busyFlag,
      t.canBusyLoop⟩, fun rounds => ?_, ?_⟩
    · rw [hround, if_neg hsome]
      dsimp only
      rw [hstore, Option.bind_some]
    · refine ⟨congrArg (· + 1) h.inp, congrArg (· + 1) h.rinp, ?_, h.requested, fun c => ?_, ?_,
        fun c fd => by
          dsimp only
          rw [hstored]
          exact testBit_stored (h.length c) hk (h.res c) (hword c)⟩
      · dsimp only
        rw [hdone.i]
        rcases hend with rfl | hend
        · exact .inl rfl
        · exact .inr ⟨by omega, by omega⟩
      · dsimp only
        rw [hstored]
        split
        · rw [List.length_set, h.length]
        · exact h.length c
      · rw [hcount]
        exact hdone.retval

/-- By induction on the words that are left. -/
theorem WordsDone.scanWords (hlen : ∀ c, (maps c).length = longs) (hn : n ≤ 64 * longs)
    (hlt : 64 * longs < 2 ^ 31) {rounds : Nat} (h : WordsDone e p n maps r longs k q)
    (hrounds : rounds + k = longs + 1) (hk : k ≤ longs) :
    ∃ m q', scanWords e p n rounds q = some q' ∧ n ≤ 64 * m ∧ m ≤ longs ∧
      WordsDone e p n maps r longs m q' := by
  induction rounds generalizing k q with
  | zero => omega
  | succ rounds ih =>
    by_cases hend : (n : Int) ≤ q.i
    · refine ⟨k, q, ?_, ?_, hk, h⟩
      · rw [Linux.scanWords, if_pos hend]
      · rcases h.i with hi | hi
        · rw [hi] at hend
          omega
        · exact hi.1
    · obtain ⟨q', hround, hstep⟩ := h.step hlen hn hlt hend
      rw [hround]
      refine ih hstep (by omega) ?_
      rcases h.i with hi | hi
      · rw [hi] at hend
        omega
      · exact absurd hi.2 hend

/-- The bits that are set in a map. -/
def bitsSet (map : List UInt64) : Nat := Nat.count (fun fd => testBit map fd = true) (64 * map.length)

/-- The bits that are set in the maps of the three sets. -/
def totalBits (maps : SelectSet → List UInt64) : Nat := (SelectSet.all.map fun c => bitsSet (maps c)).sum

/-- A pass over result maps that are empty fills them with the hits. -/
theorem scanPass_hits {t : SelectState} (e : SelectEnv) (p : SelectPass)
    (hlen : ∀ c, (t.fds.requested c).length = longs) (hres : ∀ c, (t.fds.res c).length = longs)
    (hclear : ∀ c fd, testBit (t.fds.res c) fd = false) (hn : n ≤ 64 * longs)
    (hlt : 64 * longs < 2 ^ 31) (hr : t.retval = wrapInt r) :
    ∃ q, scanPass e p n t = some q ∧ q.fds.requested = t.fds.requested ∧
      (∀ c, (q.fds.res c).length = longs) ∧
      (∀ c fd, testBit (q.fds.res c) fd = hit e p n t.fds.requested c fd) ∧
      q.retval = wrapInt (r + totalBits q.fds.res) := by
  have hstart : WordsDone e p n t.fds.requested r longs 0
      ⟨0, 0, 0, t.fds, t.retval, t.busyFlag, false⟩ := by
    refine ⟨rfl, rfl, .inl rfl, rfl, hres, ?_, fun c fd => hclear c fd⟩
    exact hr.trans (by rw [show hits e p n t.fds.requested (64 * 0) = 0 from rfl, Int.natCast_zero, Int.add_zero])
  obtain ⟨m, q, hscan, hm, hle, hdone⟩ := hstart.scanWords hlen hn hlt
    (show longs + 1 + 0 = longs + 1 from rfl) (Nat.zero_le longs)
  have hfound : ∀ c fd, testBit (q.fds.res c) fd = hit e p n t.fds.requested c fd := fun c fd => by
    rw [hdone.res]
    rcases Nat.lt_or_ge fd (64 * m) with hfd | hfd
    · rw [decide_eq_true hfd, Bool.true_and]
    · rw [hit_of_le (hm.trans hfd), Bool.and_false]
  have htotal : totalBits q.fds.res = hits e p n t.fds.requested (64 * m) := by
    rw [← hits_of_le hm (Nat.mul_le_mul_left 64 hle)]
    unfold totalBits hits bitsSet
    simp only [hdone.length, hfound]
  refine ⟨q, ?_, hdone.requested, hdone.length, hfound, ?_⟩
  · rw [scanPass, hlen]
    exact hscan
  · rw [htotal]
    exact hdone.retval

end Rtfsc.Linux
