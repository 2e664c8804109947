import Rtfsc.Fio.Generator
import Rtfsc.Fio.Log
import Rtfsc.Machine.Cells

/-!
# fio: the buffers of the io units

`init_io_u` allocates one piece of memory for all units before the iolog is read. The layout is
right exactly when its size fits in 32 bits. The lengths stored in the units afterwards come from
the generator, from the iolog and from the list of writes to verify.
-/

namespace Rtfsc.Fio

open Rtfsc.Machine

/-! ## Layout -/

/-- `max_bs` of `init_io_u`. -/
def initMaxBs (o : Options) : UInt32 := max o.maxBs.read o.maxBs.write

/-- Whether the buffers are huge pages. -/
def hugeMem (o : Options) : Bool := o.memType == .shmhuge || o.memType == .mmaphuge

/-- The rounding of `init_io_u` to huge pages. The mask has the 32 bits of `hugepage_size`. -/
def hugeRound (size : UInt64) (hugepageSize : UInt32) : UInt64 :=
  (size + hugepageSize.toUInt64 - 1) &&& (~~~(hugepageSize - 1)).toUInt64

/-- `td->orig_buffer_size`. -/
def origBufferSize (o : Options) : UInt64 :=
  let size := (initMaxBs o * (maxUnits o).toUInt32).toUInt64
  if hugeMem o then hugeRound size o.hugepageSize else size + 4095

/-- `ALIGN(buf)`. -/
def alignBuf (buf : UInt64) : UInt64 := (buf + 4095) &&& ~~~(4096 - 1)

/-- `io_u->buf` of unit `i`. -/
def ioUBuf (o : Options) (origBuffer : UInt64) (i : Nat) : UInt64 :=
  alignBuf origBuffer + (initMaxBs o * UInt32.ofNat i).toUInt64

/-- The buffer of unit `i`. -/
def unitBytes (o : Options) (origBuffer : UInt64) (i : Nat) : Set Nat :=
  Set.Ico (ioUBuf o origBuffer i).toNat ((ioUBuf o origBuffer i).toNat + (initMaxBs o).toNat)

/-- Where an allocation of `orig_buffer_size` bytes may lie: in the address space, and on a page
boundary when it is made of huge pages. -/
def Placed (o : Options) (origBuffer : UInt64) : Prop :=
  origBuffer.toNat + (origBufferSize o).toNat < 2 ^ 64 ∧
    (hugeMem o = true → origBuffer.toNat % 4096 = 0)

/-- The buffers of the units are disjoint and inside the allocation. -/
def LayoutOk (o : Options) (origBuffer : UInt64) : Prop :=
  (∀ i < numUnits o, ∀ j < numUnits o, i ≠ j →
    Disjoint (unitBytes o origBuffer i) (unitBytes o origBuffer j)) ∧
  ∀ i < numUnits o, unitBytes o origBuffer i ⊆
    Set.Ico origBuffer.toNat (origBuffer.toNat + (origBufferSize o).toNat)

/-- The size of all buffers fits in 32 bits, and rounding it to huge pages does not lose any of
it. -/
def LayoutFits (o : Options) : Prop :=
  numUnits o * (initMaxBs o).toNat < 2 ^ 32 ∧
    (hugeMem o = true → numUnits o * (initMaxBs o).toNat ≤
      (hugeRound (UInt64.ofNat (numUnits o * (initMaxBs o).toNat)) o.hugepageSize).toNat)

/-- `max_units` as the unsigned factor of the size, when there are units. -/
theorem toNat_maxUnits {o : Options} (h : numUnits o ≠ 0) :
    (maxUnits o).toUInt32.toNat = numUnits o := by
  unfold numUnits at h ⊢
  split at h
  · exact absurd rfl h
  · next hcpu =>
    rw [if_neg hcpu]
    have hcond := BitVec.toInt_eq_toNat_cond (maxUnits o).toUInt32.toBitVec
    have hint : (maxUnits o).toUInt32.toBitVec.toInt = (maxUnits o).toInt := rfl
    have hnat : (maxUnits o).toUInt32.toBitVec.toNat = (maxUnits o).toUInt32.toNat := rfl
    have hclamp : (maxUnits o).toNatClampNeg = (maxUnits o).toInt.toNat := rfl
    rw [hint, hnat] at hcond
    rw [hclamp] at h ⊢
    have hlt := UInt32.toNat_lt (maxUnits o).toUInt32
    split at hcond <;> omega

theorem toNat_alignBuf {a : UInt64} (h : a.toNat + 4095 < 2 ^ 64) :
    (alignBuf a).toNat = (a.toNat + 4095) / 4096 * 4096 := by
  have hm : (4096 : UInt64).toNat = 2 ^ 12 := rfl
  have h4095 : (4095 : UInt64).toNat = 4095 := rfl
  rw [alignBuf, toNat_and_not64 hm, UInt64.toNat_add, h4095, Nat.mod_eq_of_lt h]
  rfl

theorem hugeRound_lt (size : UInt64) (hp : UInt32) : (hugeRound size hp).toNat < 2 ^ 32 := by
  have hmask := UInt32.toNat_lt (~~~(hp - 1))
  rw [hugeRound, UInt64.toNat_and, UInt32.toNat_toUInt64]
  exact lt_of_le_of_lt Nat.and_le_right hmask

/-- The size computed in 32 bits, when there are units. -/
theorem toNat_bufferProduct {o : Options} (h : numUnits o ≠ 0) :
    (initMaxBs o * (maxUnits o).toUInt32).toUInt64.toNat =
      numUnits o * (initMaxBs o).toNat % 2 ^ 32 := by
  rw [UInt32.toNat_toUInt64, UInt32.toNat_mul, toNat_maxUnits h, Nat.mul_comm]

/-- A layout without overlap leaves room for every buffer. -/
theorem LayoutOk.size_le {o : Options} {a : UInt64} (h : LayoutOk o a) :
    numUnits o * (initMaxBs o).toNat ≤ (origBufferSize o).toNat :=
  mul_le_of_disjoint h.1 h.2

theorem origBufferSize_lt (o : Options) : (origBufferSize o).toNat < 2 ^ 32 + 4096 := by
  unfold origBufferSize
  dsimp only
  split
  · have hlt := hugeRound_lt (initMaxBs o * (maxUnits o).toUInt32).toUInt64 o.hugepageSize
    omega
  · have hlt := UInt32.toNat_lt (initMaxBs o * (maxUnits o).toUInt32)
    have h4095 : (4095 : UInt64).toNat = 4095 := rfl
    rw [UInt64.toNat_add, UInt32.toNat_toUInt64, h4095]
    omega

/-- Page 1 is a place for every allocation. -/
theorem placed_page (o : Options) : Placed o 4096 := by
  have hlt := origBufferSize_lt o
  have h4096 : (4096 : UInt64).toNat = 4096 := rfl
  exact ⟨by omega, fun _ => rfl⟩

/-- When the buffers do not overlap and lie in the allocation, the size did not wrap. -/
theorem LayoutOk.fits {o : Options} {a : UInt64} (h : LayoutOk o a) : LayoutFits o := by
  rcases Nat.eq_zero_or_pos (numUnits o) with h0 | hpos
  · rw [LayoutFits, h0, Nat.zero_mul]
    exact ⟨by decide, fun _ => Nat.zero_le _⟩
  · have hprod := toNat_bufferProduct (o := o) (by omega)
    have hsize := h.size_le
    unfold origBufferSize at hsize
    dsimp only at hsize
    split at hsize
    · have hlt := hugeRound_lt (initMaxBs o * (maxUnits o).toUInt32).toUInt64 o.hugepageSize
      have hwhole : numUnits o * (initMaxBs o).toNat < 2 ^ 32 := by omega
      have heq : (initMaxBs o * (maxUnits o).toUInt32).toUInt64 =
          UInt64.ofNat (numUnits o * (initMaxBs o).toNat) := by
        rw [← UInt64.toNat_inj, hprod, UInt64.toNat_ofNat']
        omega
      rw [heq] at hsize
      exact ⟨hwhole, fun _ => hsize⟩
    · next hmem =>
      have h4095 : (4095 : UInt64).toNat = 4095 := rfl
      rw [UInt64.toNat_add, hprod, h4095] at hsize
      exact ⟨by omega, fun hhuge => absurd hhuge hmem⟩

/-- When the size does not wrap, the buffers are disjoint and lie in the allocation. -/
theorem LayoutFits.layoutOk {o : Options} {a : UInt64} (h : LayoutFits o) (ha : Placed o a) :
    LayoutOk o a := by
  obtain ⟨hwhole, hround⟩ := h
  obtain ⟨hspace, hpage⟩ := ha
  -- where the first buffer starts, and how much room is left behind it
  have hfirst : numUnits o ≠ 0 → (initMaxBs o).toNat ≠ 0 → a.toNat ≤ (alignBuf a).toNat ∧
      (alignBuf a).toNat + numUnits o * (initMaxBs o).toNat ≤
        a.toNat + (origBufferSize o).toNat := by
    intro hn hm
    have hpos : 0 < numUnits o * (initMaxBs o).toNat :=
      Nat.mul_pos (Nat.pos_of_ne_zero hn) (Nat.pos_of_ne_zero hm)
    have hprod := toNat_bufferProduct hn
    rw [Nat.mod_eq_of_lt hwhole] at hprod
    unfold origBufferSize at hspace ⊢
    dsimp only at hspace ⊢
    split at hspace
    · next hhuge =>
      have heq : (initMaxBs o * (maxUnits o).toUInt32).toUInt64 =
          UInt64.ofNat (numUnits o * (initMaxBs o).toNat) := by
        rw [← UInt64.toNat_inj, hprod, UInt64.toNat_ofNat']
        omega
      have hle := hround hhuge
      have haligned := hpage hhuge
      have halt := UInt64.toNat_lt a
      rw [if_pos hhuge, heq, toNat_alignBuf (by omega)]
      omega
    · next hhuge =>
      have h4095 : (4095 : UInt64).toNat = 4095 := rfl
      rw [UInt64.toNat_add, hprod, h4095] at hspace
      rw [if_neg hhuge, UInt64.toNat_add, hprod, h4095, toNat_alignBuf (by omega)]
      omega
  have hbuf : ∀ i < numUnits o, (initMaxBs o).toNat ≠ 0 →
      (ioUBuf o a i).toNat = i * (initMaxBs o).toNat + (alignBuf a).toNat ∧
      (i + 1) * (initMaxBs o).toNat ≤ numUnits o * (initMaxBs o).toNat := by
    intro i hi hm
    have hle : (i + 1) * (initMaxBs o).toNat ≤ numUnits o * (initMaxBs o).toNat :=
      Nat.mul_le_mul_right _ hi
    have hmul : i * (initMaxBs o).toNat ≤ numUnits o * (initMaxBs o).toNat :=
      Nat.mul_le_mul_right _ (le_of_lt hi)
    have hn32 : i < 2 ^ 32 :=
      lt_of_le_of_lt (Nat.le_mul_of_pos_right i (Nat.pos_of_ne_zero hm)) (by omega)
    obtain ⟨hlo, hhi⟩ := hfirst (by omega) hm
    refine ⟨?_, hle⟩
    rw [ioUBuf, UInt64.toNat_add, UInt32.toNat_toUInt64, UInt32.toNat_mul, UInt32.toNat_ofNat',
      Nat.mod_eq_of_lt hn32, Nat.mul_comm (initMaxBs o).toNat i, Nat.mod_eq_of_lt (b := 2 ^ 32)
      (by omega), Nat.add_comm]
    omega
  rcases Nat.eq_zero_or_pos (initMaxBs o).toNat with hm | hm
  · have hempty : ∀ i, unitBytes o a i = ∅ := by
      intro i
      rw [unitBytes, hm]
      exact Set.Ico_self _
    refine ⟨fun i _ j _ _ => ?_, fun i _ => ?_⟩
    · rw [hempty i]
      exact Set.empty_disjoint _
    · rw [hempty i]
      exact Set.empty_subset _
  · refine ⟨fun i hi j hj hij => ?_, fun i hi x hx => ?_⟩
    · have hcells := disjoint_cells (m := (initMaxBs o).toNat) (p := (alignBuf a).toNat)
        (a := i) (b := j) (k := 1) (l := 1) (by omega)
      rw [Nat.one_mul] at hcells
      rw [unitBytes, unitBytes, (hbuf i hi (by omega)).1, (hbuf j hj (by omega)).1]
      exact hcells
    · obtain ⟨hstart, hle⟩ := hbuf i hi (by omega)
      obtain ⟨hlo, hhi⟩ := hfirst (by omega) (by omega)
      rw [unitBytes, hstart] at hx
      rw [Nat.add_mul] at hle
      obtain ⟨hxlo, hxhi⟩ := hx
      exact ⟨by omega, by omega⟩

/-- The layout is right, wherever the allocation lies, exactly when the size does not wrap. -/
theorem layoutOk_iff (o : Options) : (∀ a, Placed o a → LayoutOk o a) ↔ LayoutFits o :=
  ⟨fun h => (h 4096 (placed_page o)).fits, fun h _ ha => h.layoutOk ha⟩

/-! ## Lengths -/

/-- What changes the length in a unit, or a length that goes into one later. -/
inductive LenOp
  | initIolog (lines : List IologLine)
  | nextBuflen (i : Nat) (d : DataDdir) (r : RandLong)
  | clip (i : Nat) (f : FioFile)
  | mark (i : Nat) (f : FioFile) (d : DataDdir)
  | readIolog (i : Nat)
  | logPiece (i : Nat)
  | prune
  | nextVerify (i : Nat)

/-- One operation, and the length it stored when it was one of the three that store one. -/
def lenStep (td : ThreadData) : LenOp → ThreadData × Option UInt32
  | .initIolog lines => ((initIologRead td lines).2, none)
  | .nextBuflen i d r =>
    (setUnit td i { td.ioU i with buflen := getNextBuflen td r d }, some (getNextBuflen td r d))
  | .clip i f => (setUnit td i (clipToFile td.opts f (td.ioU i)).2, none)
  | .mark i f d =>
    match markRandomMap td.opts f (td.ioU i) d with
    | .ok (_, u) => (setUnit td i u, none)
    | .error _ => (td, none)
  | .readIolog i =>
    match readIologGet td (td.ioU i) with
    | (true, u, td) => (setUnit td i u, some u.buflen)
    | (false, _, td) => (td, none)
  | .logPiece i => (logIoPiece td (td.ioU i), none)
  | .prune => (pruneIoPieceLog td, none)
  | .nextVerify i =>
    match getNextVerify td (td.ioU i) with
    | (true, u, td) => (setUnit td i u, some u.buflen)
    | (false, _, td) => (td, none)

/-- The lengths a draw can give lie in a buffer of `B` bytes. -/
def DrawOk (o : Options) (B : UInt32) (d : DataDdir) : Prop :=
  if o.minBs.get d = o.maxBs.get d then o.maxBs.get d ≤ B
  else o.maxBs.get d ≠ 0 ∧ ∀ x : UInt32, 1 ≤ x.toNat → x.toNat ≤ max 1 ((o.maxBs.get d).toNat - 1) →
    (if o.bsUnaligned then x else roundBuflen (o.minBs.get d) x) ≤ B

/-- The operations keep to buffers of `B` bytes: records of an iolog fit, draws fit, and a transfer
that is cut at the end of the file starts in the file. -/
def LenOk (B : UInt32) (td : ThreadData) : LenOp → Prop
  | .initIolog lines => ∀ p ∈ iologPieces lines, p.len ≤ B
  | .nextBuflen _ d _ => DrawOk td.opts B d
  | .clip i f => (td.ioU i).offset ≤ f.realFileSize ∧ (clipToFile td.opts f (td.ioU i)).1 = true
  | _ => True

/-- Operations that meet `P`, with the lengths they store. -/
def LenStep (P : ThreadData → LenOp → Prop) (td : ThreadData) (e : Option UInt32)
    (td' : ThreadData) : Prop :=
  ∃ op, P td op ∧ lenStep td op = (td', e)

theorem randBuflen_range {maxBs : UInt32} (h : maxBs ≠ 0) (r : RandLong) :
    1 ≤ (randBuflen maxBs r).toNat ∧
      (randBuflen maxBs r).toNat ≤ max 1 (maxBs.toNat - 1) := by
  have hr := r.isLt
  have hpos : maxBs.toNat ≠ 0 := fun h0 => h (UInt32.toNat_inj.mp h0)
  have hM := UInt32.toNat_lt maxBs
  have h1 : (1 : UInt32).toNat = 1 := rfl
  have hsub : (maxBs - 1).toNat = maxBs.toNat - 1 := by
    rw [UInt32.toNat_sub, h1]
    omega
  have hprod : (maxBs.toNat - 1) * (r : Nat) ≤ (maxBs.toNat - 1) * (2 ^ 31 - 1) :=
    Nat.mul_le_mul_left _ (by omega)
  have hN := roundDouble_le ((maxBs.toNat - 1) * (r : Nat))
  have hA := roundDouble_le (2 ^ 31 + roundDouble ((maxBs.toNat - 1) * (r : Nat)))
  have hA' := le_roundDouble (2 ^ 31 + roundDouble ((maxBs.toNat - 1) * (r : Nat)))
  have hlow : 2 ^ 31 ≤ roundDouble (2 ^ 31 + roundDouble ((maxBs.toNat - 1) * (r : Nat))) := by
    omega
  have hhigh : roundDouble (2 ^ 31 + roundDouble ((maxBs.toNat - 1) * (r : Nat))) <
      2 ^ 31 * max 2 maxBs.toNat := by
    rcases Nat.lt_or_ge maxBs.toNat 8192 with hsmall | hlarge
    · -- small enough for the products to be exact
      have hexact : (maxBs.toNat - 1) * (r : Nat) ≤ 8191 * (2 ^ 31 - 1) :=
        Nat.mul_le_mul (by omega) (by omega)
      omega
    · omega
  rw [randBuflen, hsub, UInt32.toNat_ofNat']
  have hdiv1 : 1 ≤ roundDouble (2 ^ 31 + roundDouble ((maxBs.toNat - 1) * (r : Nat))) / 2 ^ 31 :=
    (Nat.le_div_iff_mul_le (by decide)).mpr (by omega)
  have hdiv2 : roundDouble (2 ^ 31 + roundDouble ((maxBs.toNat - 1) * (r : Nat))) / 2 ^ 31 <
      max 2 maxBs.toNat := (Nat.div_lt_iff_lt_mul (by decide)).mpr (by omega)
  rw [Nat.mod_eq_of_lt (by omega)]
  omega

theorem DrawOk.drawBuflen_le {o : Options} {B : UInt32} {d : DataDdir} (h : DrawOk o B d)
    (r : RandLong) : drawBuflen o r d ≤ B := by
  unfold DrawOk at h
  unfold drawBuflen
  split at h
  · next heq =>
    rw [if_pos heq, heq]
    exact h
  · next hne =>
    obtain ⟨hpos, hall⟩ := h
    obtain ⟨hlo, hhi⟩ := randBuflen_range hpos r
    have hx := hall _ hlo hhi
    rw [if_neg hne]
    exact hx

/-- Every length a job holds fits in a buffer of `B` bytes. -/
structure LenInv (B : UInt32) (td : ThreadData) : Prop where
  units : ∀ i, (td.ioU i).buflen ≤ B
  hist : ∀ p ∈ td.ioHistList, p.len ≤ B
  log : ∀ p ∈ td.ioLogList, p.len ≤ B

theorem LenInv.setUnit {B : UInt32} {td : ThreadData} (h : LenInv B td) (i : Nat) {u : IoU}
    (hu : u.buflen ≤ B) : LenInv B (setUnit td i u) := by
  refine ⟨fun j => ?_, h.hist, h.log⟩
  show (Function.update td.ioU i u j).buflen ≤ B
  rcases eq_or_ne j i with rfl | hne
  · rw [Function.update_self]
    exact hu
  · rw [Function.update_of_ne hne]
    exact h.units j

theorem LenInv.initIologPieces {B : UInt32} {pieces : List IoPiece} {td : ThreadData}
    (h : LenInv B td) (hp : ∀ p ∈ pieces, p.len ≤ B) :
    LenInv B (pieces.foldl initIologPiece td) := by
  induction pieces generalizing td with
  | nil => exact h
  | cons p rest ih =>
    refine ih ⟨h.units, h.hist, fun q hq => ?_⟩ fun q hq => hp q (List.mem_cons_of_mem _ hq)
    rcases List.mem_append.mp hq with hq | hq
    · exact h.log q hq
    · rw [List.mem_singleton.mp hq]
      exact hp p List.mem_cons_self

/-- One operation keeps the lengths in their buffers, and stores one that fits. -/
theorem LenInv.step {B : UInt32} {td td' : ThreadData} {e : Option UInt32} (h : LenInv B td)
    (hstep : LenStep (LenOk B) td e td') : LenInv B td' ∧ ∀ len ∈ e, len ≤ B := by
  obtain ⟨op, hok, hop⟩ := hstep
  cases op with
  | initIolog lines =>
    cases hop
    refine ⟨?_, nofun⟩
    have hpieces := h.initIologPieces hok
    unfold initIologRead
    dsimp only
    split
    · exact hpieces
    · split
      · exact ⟨hpieces.units, hpieces.hist, hpieces.log⟩
      · exact ⟨hpieces.units, hpieces.hist, hpieces.log⟩
  | nextBuflen i d r =>
    cases hop
    have hlen : getNextBuflen td r d ≤ B :=
      UInt32.le_trans (getNextBuflen_le_draw td r d) (DrawOk.drawBuflen_le hok r)
    exact ⟨h.setUnit i hlen, fun len hmem => by cases hmem; exact hlen⟩
  | clip i f =>
    cases hop
    refine ⟨h.setUnit i ?_, nofun⟩
    have hle := clipToFile_le hok.1 hok.2
    exact UInt32.le_trans (UInt32.le_iff_toNat_le.mpr hle) (h.units i)
  | mark i f d =>
    simp only [lenStep] at hop
    split at hop
    · next u hmark =>
      cases hop
      obtain ⟨-, k, hk, -, hlen, -⟩ := markRandomMap_ok hmark
      refine ⟨h.setUnit i (UInt32.le_trans (UInt32.le_iff_toNat_le.mpr ?_) (h.units i)), nofun⟩
      rw [hlen]
      exact le_trans (Nat.mul_le_mul_right _ hk) (Nat.div_mul_le_self _ _)
    · cases hop
      exact ⟨h, nofun⟩
  | readIolog i =>
    simp only [lenStep, readIologGet] at hop
    cases hlist : td.ioLogList with
    | nil =>
      rw [hlist] at hop
      cases hop
      exact ⟨h, nofun⟩
    | cons p rest =>
      rw [hlist] at hop
      cases hop
      have hp : p.len ≤ B := h.log p (by rw [hlist]; exact List.mem_cons_self)
      have hrest : LenInv B { td with ioLogList := rest } :=
        ⟨h.units, h.hist, fun q hq => h.log q (by rw [hlist]; exact List.mem_cons_of_mem _ hq)⟩
      exact ⟨hrest.setUnit i hp, fun len hmem => by cases hmem; exact hp⟩
  | logPiece i =>
    cases hop
    refine ⟨⟨h.units, fun q hq => ?_, h.log⟩, nofun⟩
    have hq : q = ⟨(td.ioU i).file, (td.ioU i).offset, (td.ioU i).buflen, .write⟩ ∨
        q ∈ td.ioHistList := by
      simp only [logIoPiece] at hq
      split at hq
      · rcases List.mem_append.mp hq with hq | hq
        · exact .inr hq
        · exact .inl (List.mem_singleton.mp hq)
      · exact mem_insertPiece hq
    rcases hq with rfl | hq
    · exact h.units i
    · exact h.hist q hq
  | prune =>
    cases hop
    exact ⟨⟨h.units, nofun, h.log⟩, nofun⟩
  | nextVerify i =>
    simp only [lenStep, getNextVerify] at hop
    cases hlist : td.ioHistList with
    | nil =>
      rw [hlist] at hop
      cases hop
      exact ⟨h, nofun⟩
    | cons p rest =>
      rw [hlist] at hop
      cases hop
      have hp : p.len ≤ B := h.hist p (by rw [hlist]; exact List.mem_cons_self)
      have hrest : LenInv B { td with ioHistList := rest } :=
        ⟨h.units, fun q hq => h.hist q (by rw [hlist]; exact List.mem_cons_of_mem _ hq), h.log⟩
      exact ⟨hrest.setUnit i hp, fun len hmem => by cases hmem; exact hp⟩

theorem lenInv_startJob (B : UInt32) (o : Options) (ioSize : UInt64) : LenInv B (startJob o ioSize) :=
  ⟨fun _ => UInt32.le_iff_toNat_le.mpr (Nat.zero_le _), nofun, nofun⟩

/-- The buffers laid out by `init_io_u` are right exactly when their size fits, and no length that
is stored later is larger than a buffer as long as the operations that store it keep to it. -/
theorem bufferSizing (o : Options) :
    ((∀ a, Placed o a → LayoutOk o a) ↔ LayoutFits o) ∧
      ∀ (ioSize : UInt64) (es : List (Option UInt32)) (td : ThreadData),
        Run (LenStep (LenOk (initMaxBs o))) (startJob o ioSize) es td →
          ∀ e ∈ es, ∀ len ∈ e, len ≤ initMaxBs o := by
  refine ⟨layoutOk_iff o, fun ioSize es td h => ?_⟩
  have hinv : LenInv (initMaxBs o) td ∧ ∀ e ∈ es, ∀ len ∈ e, len ≤ initMaxBs o := by
    refine h.invariant (I := fun es td => LenInv (initMaxBs o) td ∧
      ∀ e ∈ es, ∀ len ∈ e, len ≤ initMaxBs o) ⟨lenInv_startJob _ o ioSize, nofun⟩ ?_
    rintro es td e td' ⟨hinv, hlens⟩ hstep
    obtain ⟨hinv', hlen⟩ := hinv.step hstep
    refine ⟨hinv', fun e' he' => ?_⟩
    rcases List.mem_append.mp he' with he' | he'
    · exact hlens e' he'
    · rw [List.mem_singleton.mp he']
      exact hlen
  exact hinv.2

/-- A job four units deep with blocks of `bs` bytes. -/
def deepJob (bs : UInt32) : Options :=
  { fillDefThread ⟨false, false, false, false⟩ with iodepth := 4, bs := ⟨bs, bs⟩ }

theorem bufferSizing_deepJob : LayoutOk (fixupOptions (deepJob 65536)) 4096 ∧
    getNextBuflen (startJob (fixupOptions (deepJob 65536)) 1048576) 0 .read ≤
      initMaxBs (fixupOptions (deepJob 65536)) := by
  obtain ⟨hlayout, hlens⟩ := bufferSizing (fixupOptions (deepJob 65536))
  refine ⟨hlayout.mpr ⟨by decide +kernel, by decide +kernel⟩ 4096 (placed_page _), ?_⟩
  have hdraw : DrawOk (fixupOptions (deepJob 65536)) (initMaxBs (fixupOptions (deepJob 65536)))
      .read := by
    unfold DrawOk
    rw [if_pos (by decide +kernel)]
    decide +kernel
  exact hlens 1048576 [some _] _ (.snoc .nil ⟨.nextBuflen 0 .read 0, hdraw, rfl⟩) _
    List.mem_cons_self _ rfl

/-- A job with random block sizes from 4096 to 6144. -/
def bsrangeJob : Options :=
  { fillDefThread ⟨false, false, false, false⟩ with
    minBs := ⟨4096, 4096⟩, maxBs := ⟨6144, 6144⟩ }

/-- Four buffers of 1 GiB are 0 bytes in 32 bits. A random size of 6143, rounded up to blocks of
4096, is 8192, and the buffers have 6144. -/
theorem bufferSizing_wrap :
    (¬ ∀ o a, Placed (fixupOptions o) a → LayoutOk (fixupOptions o) a) ∧
      ¬ ∀ (o : Options) (ioSize : UInt64) (es : List (Option UInt32)) (td : ThreadData),
        Run (LenStep fun _ _ => True) (startJob (fixupOptions o) ioSize) es td →
          ∀ e ∈ es, ∀ len ∈ e, len ≤ initMaxBs (fixupOptions o) := by
  constructor
  · intro h
    have hfits := (h (deepJob (2 ^ 30)) 4096 (placed_page _)).fits
    exact absurd hfits.1 (by decide +kernel)
  · intro h
    have hlen := h bsrangeJob 1048576 [some _] _
      (.snoc .nil ⟨.nextBuflen 0 .read (2 ^ 31 - 1), trivial, rfl⟩) _ List.mem_cons_self _ rfl
    exact absurd hlen (by decide +kernel)

end Rtfsc.Fio
