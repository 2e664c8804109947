import Rtfsc.Machine.Bytes
import Rtfsc.Fio.Verify

/-!
# fio: verification inside the buffer

The same two functions as in the module on verification, over the bytes of `io_u->buf`. Both take the
size of the header off a length: `populate_verify_io_u` off the block size, which may be smaller than
the header, and `verify_io_u` off the length that the header itself gives.
-/

namespace Rtfsc.Fio

open Rtfsc.Machine

/-- Word `i` of a buffer. -/
def loadWord (buf : List UInt8) (i : Nat) : Outcome UInt32 := do
  let bytes ← loadBytes buf (4 * i) 4
  return blockWord bytes 0

/-- The bytes of a word. -/
def wordBytes (w : UInt32) : List UInt8 :=
  [w.toUInt8, (w >>> 8).toUInt8, (w >>> 16).toUInt8, (w >>> 24).toUInt8]

/-- The bytes of a header; what is between its third word and the union is `pad`. -/
def VerifyHeader.toBytes (hdr : VerifyHeader) (pad : UInt32) : List UInt8 :=
  wordBytes hdr.fioMagic ++ wordBytes hdr.len ++ wordBytes hdr.verifyType ++ wordBytes pad ++
    (wordBytes hdr.md5Digest.a ++ wordBytes hdr.md5Digest.b ++ wordBytes hdr.md5Digest.c ++
      wordBytes hdr.md5Digest.d)

/-- The loop of `fill_random_bytes` from byte `k` on, eight bytes of a double at a time. -/
def fillRandomLoop (random : Nat → UInt8) (buf : List UInt8) (p k : Nat) (len : UInt32) :
    Outcome (List UInt8) :=
  if len = 0 then .ok buf
  else
    let todo : UInt32 := if 8 > len then len else 8
    match storeBytes buf p ((List.range todo.toNat).map fun j => random (k + j)) with
    | .error e => .error e
    | .ok buf => fillRandomLoop random buf (p + todo.toNat) (k + todo.toNat) (len - todo)
termination_by len.toNat
decreasing_by
  have hpos : 0 < len.toNat := by
    refine Nat.pos_of_ne_zero fun hzero => ?_
    exact absurd (UInt32.toNat_inj.mp hzero) (by assumption)
  split
  · next hshort =>
    rw [UInt32.sub_self]
    exact hpos
  · next hlong =>
    have hle : (8 : UInt32) ≤ len := UInt32.not_lt.mp hlong
    rw [UInt32.toNat_sub_of_le _ _ hle]
    exact Nat.sub_lt hpos (by decide)

/-- `populate_verify_io_u` on the bytes of `io_u->buf`. -/
def populateVerifyBytes (verify : Verify) (hdr : VerifyHeader) (pad : UInt32)
    (random : Nat → UInt8) (u : IoU) (buf : List UInt8) : Outcome (List UInt8) := do
  let hdr := { hdr with fioMagic := fioHdrMagic, len := u.buflen }
  let len := (u.buflen.toUInt64 - verifyHeaderSize).toUInt32
  let buf ← fillRandomLoop random buf verifyHeaderSize.toNat 0 len
  let p ← loadBytes buf verifyHeaderSize.toNat len.toNat
  let hdr :=
    if verify = .md5 then
      { hdr with md5Digest := md5Hash p, verifyType := Verify.md5.number }
    else
      { hdr.setCrc32 (Fio.crc32 p) with verifyType := Verify.crc32.number }
  storeBytes buf 0 (hdr.toBytes pad)

/-- `verify_io_u_crc32` on the bytes. -/
def verifyCrc32Bytes (buf : List UInt8) : Outcome Nat := do
  let len ← loadWord buf 1
  let p ← loadBytes buf verifyHeaderSize.toNat (len.toUInt64 - verifyHeaderSize).toNat
  let low ← loadWord buf 4
  let high ← loadWord buf 5
  return if Fio.crc32 p ≠ low.toUInt64 ||| high.toUInt64 <<< 32 then 1 else 0

/-- `verify_io_u_md5` on the bytes. -/
def verifyMd5Bytes (buf : List UInt8) : Outcome Nat := do
  let len ← loadWord buf 1
  let p ← loadBytes buf verifyHeaderSize.toNat (len.toUInt64 - verifyHeaderSize).toUInt32.toNat
  let a ← loadWord buf 4
  let b ← loadWord buf 5
  let c ← loadWord buf 6
  let d ← loadWord buf 7
  return if (⟨a, b, c, d⟩ : Md5Hash) ≠ md5Hash p then 1 else 0

/-- `verify_io_u` on the bytes of `io_u->buf`. -/
def verifyBytes (buf : List UInt8) : Outcome Nat := do
  let magic ← loadWord buf 0
  if magic ≠ fioHdrMagic then return 1
  else
    let type ← loadWord buf 2
    if type = Verify.md5.number then verifyMd5Bytes buf
    else if type = Verify.crc32.number then verifyCrc32Bytes buf
    else return 1

/-- The header that the bytes are read as. -/
def headerOf (buf : List UInt8) : VerifyHeader where
  fioMagic := blockWord buf 0
  len := blockWord buf 1
  verifyType := blockWord buf 2
  md5Digest := ⟨blockWord buf 4, blockWord buf 5, blockWord buf 6, blockWord buf 7⟩

/-- The bytes that are read back are checked inside the buffer: the header asks for no check, or for one
of a payload that the buffer has. -/
def LengthFits (buf : List UInt8) : Prop :=
  (headerOf buf).fioMagic = fioHdrMagic →
    (headerOf buf).verifyType = Verify.md5.number ∨ (headerOf buf).verifyType = Verify.crc32.number →
    verifyHeaderSize.toNat ≤ (headerOf buf).len.toNat ∧ (headerOf buf).len.toNat ≤ buf.length

/-- The unit is populated and what is read back is checked without a byte outside the buffer, and the
random bytes are the payload. -/
def StaysInBuffer (verify : Verify) (hdr : VerifyHeader) (pad : UInt32) (random : Nat → UInt8)
    (u : IoU) (buf back : List UInt8) : Prop :=
  (∃ buf', populateVerifyBytes verify hdr pad random u buf = .ok buf') ∧
    fillRandomLoop random buf verifyHeaderSize.toNat 0
      (u.buflen.toUInt64 - verifyHeaderSize).toUInt32 =
        .ok (buf.take verifyHeaderSize.toNat ++
          (List.range (u.buflen.toNat - verifyHeaderSize.toNat)).map random) ∧
    ∃ ret, verifyBytes back = .ok ret

variable {verify : Verify} {hdr : VerifyHeader} {pad : UInt32} {random : Nat → UInt8} {u : IoU}
variable {buf : List UInt8} {i k p : Nat} {len : UInt32}

/-! ## Populating -/

theorem toBytes_length (hdr : VerifyHeader) (pad : UInt32) :
    (hdr.toBytes pad).length = verifyHeaderSize.toNat := rfl

/-- How much the loop takes at a time. -/
theorem todo_spec (h : ¬len = 0) :
    0 < (if 8 > len then len else 8).toNat ∧ (if 8 > len then len else 8) ≤ len ∧
      (if 8 > len then len else 8).toNat ≤ 8 := by
  have hpos : 0 < len.toNat := Nat.pos_of_ne_zero fun hzero => h (UInt32.toNat_inj.mp hzero)
  split
  · next hshort => exact ⟨hpos, UInt32.le_refl _, Nat.le_of_lt (UInt32.lt_iff_toNat_lt.mp hshort)⟩
  · next hlong => exact ⟨by decide, UInt32.not_lt.mp hlong, by decide⟩

/-- Two stores, the second right behind the first, are one. -/
theorem store_behind (front bytes more back : List UInt8) (n : Nat) :
    (front ++ bytes ++ back).take (front.length + bytes.length) ++ more ++
      (front ++ bytes ++ back).drop (front.length + bytes.length + n) =
        front ++ (bytes ++ more) ++ back.drop n := by
  rw [← List.length_append, List.take_left, List.drop_append]
  have hnone : (front ++ bytes).drop ((front ++ bytes).length + n) = [] :=
    List.drop_of_length_le (Nat.le_add_right ..)
  rw [hnone, List.nil_append, Nat.add_sub_cancel_left, List.append_assoc front]

/-- The loop fills exactly the bytes that it is asked for. -/
theorem fillRandomLoop_of_le (h : p + len.toNat ≤ buf.length) :
    fillRandomLoop random buf p k len = .ok (buf.take p ++
      (List.range len.toNat).map (fun j => random (k + j)) ++ buf.drop (p + len.toNat)) := by
  induction hn : len.toNat using Nat.strong_induction_on generalizing buf p k len with
  | _ n ih =>
    subst hn
    rw [fillRandomLoop]
    by_cases hzero : len = 0
    · subst hzero
      rw [if_pos rfl]
      simp
    · rw [if_neg hzero]
      obtain ⟨hpos, hle, -⟩ := todo_spec hzero
      generalize (if 8 > len then len else 8) = todo at hpos hle
      have hsub : (len - todo).toNat = len.toNat - todo.toNat := UInt32.toNat_sub_of_le _ _ hle
      have hle := UInt32.le_iff_toNat_le.mp hle
      have hbytes : ((List.range todo.toNat).map fun j => random (k + j)).length = todo.toNat := by
        rw [List.length_map, List.length_range]
      have hfront : (buf.take p).length = p := List.length_take_of_le (by omega)
      have hin : p + ((List.range todo.toNat).map fun j => random (k + j)).length ≤ buf.length := by
        rw [hbytes]
        omega
      have hstore := storeBytes_of_le hin
      dsimp only
      rw [hstore]
      dsimp only
      rw [ih (len - todo).toNat (by omega) _ rfl, hbytes]
      · have hbehind := store_behind (buf.take p)
          ((List.range todo.toNat).map fun j => random (k + j))
          ((List.range (len - todo).toNat).map fun j => random (k + todo.toNat + j))
          (buf.drop (p + todo.toNat)) (len - todo).toNat
        rw [hfront, hbytes] at hbehind
        rw [hbehind, List.drop_drop]
        have hwhole : todo.toNat + (len - todo).toNat = len.toNat := by omega
        have hmore : p + todo.toNat + (len - todo).toNat = p + len.toNat := by omega
        rw [hmore, ← hwhole, List.range_add, List.map_append, List.map_map]
        simp only [Function.comp_def, Nat.add_assoc]
      · rw [storeBytes_length hstore]
        omega

/-- The first store of the loop has to fit. -/
theorem fillRandomLoop_ok_le {buf' : List UInt8} (h : fillRandomLoop random buf p k len = .ok buf') :
    len = 0 ∨ p < buf.length := by
  rw [fillRandomLoop] at h
  by_cases hzero : len = 0
  · exact .inl hzero
  · rw [if_neg hzero] at h
    obtain ⟨hpos, -, -⟩ := todo_spec hzero
    generalize (if 8 > len then len else 8) = todo at hpos h
    dsimp only at h
    split at h
    · cases h
    · next hstore =>
      have hle := storeBytes_ok_le hstore
      rw [List.length_map, List.length_range, List.map_eq_nil_iff, List.range_eq_nil] at hle
      omega

/-- The fill of a unit that has room for the header. -/
theorem fillRandomLoop_unit (hbuf : buf.length = u.buflen.toNat)
    (h : verifyHeaderSize.toUInt32 ≤ u.buflen) :
    fillRandomLoop random buf verifyHeaderSize.toNat 0
      (u.buflen.toUInt64 - verifyHeaderSize).toUInt32 =
        .ok (buf.take verifyHeaderSize.toNat ++
          (List.range (u.buflen.toNat - verifyHeaderSize.toNat)).map random) := by
  have hle : verifyHeaderSize.toNat ≤ u.buflen.toNat := UInt32.le_iff_toNat_le.mp h
  have hlen := (toNat_payloadLen h).1
  have hsum : verifyHeaderSize.toNat + (u.buflen.toUInt64 - verifyHeaderSize).toUInt32.toNat =
      u.buflen.toNat := by
    rw [hlen]
    exact Nat.add_sub_of_le hle
  rw [fillRandomLoop_of_le (by rw [hsum, hbuf]), hsum, ← hbuf, List.drop_length, List.append_nil,
    hbuf, hlen]
  simp only [Nat.zero_add]
  rfl

/-- Populating the bytes leaves the populated buffer. -/
theorem populateVerifyBytes_eq (hbuf : buf.length = u.buflen.toNat)
    (h : verifyHeaderSize.toUInt32 ≤ u.buflen) :
    populateVerifyBytes verify hdr pad random u buf =
      .ok ((populateVerifyIoU verify hdr random u).hdr.toBytes pad ++
        (populateVerifyIoU verify hdr random u).payload) := by
  have hle : verifyHeaderSize.toNat ≤ u.buflen.toNat := UInt32.le_iff_toNat_le.mp h
  have hfront : (buf.take verifyHeaderSize.toNat).length = verifyHeaderSize.toNat :=
    List.length_take_of_le (by rw [hbuf]; exact hle)
  have hpayload : (List.range (u.buflen.toNat - verifyHeaderSize.toNat)).map random =
      fillRandomBytes random (u.buflen.toUInt64 - verifyHeaderSize).toUInt32 := by
    rw [fillRandomBytes, (toNat_payloadLen h).1]
    rfl
  have hlen : (fillRandomBytes random (u.buflen.toUInt64 - verifyHeaderSize).toUInt32).length =
      (u.buflen.toUInt64 - verifyHeaderSize).toUInt32.toNat := by
    rw [fillRandomBytes, List.length_map, List.length_range]
  have hstore (hdr : VerifyHeader) (front p : List UInt8)
      (hfront : front.length = verifyHeaderSize.toNat) :
      storeBytes (front ++ p) 0 (hdr.toBytes pad) = .ok (hdr.toBytes pad ++ p) := by
    rw [storeBytes_of_le (by rw [List.length_append, toBytes_length, hfront]; omega), toBytes_length,
      Nat.zero_add, List.drop_left' hfront]
    rfl
  unfold populateVerifyBytes
  dsimp only
  rw [fillRandomLoop_unit hbuf h, ok_bind, hpayload,
    loadBytes_of_le (by rw [List.length_append, hfront, hlen]), ok_bind, List.drop_left' hfront,
    List.take_of_length_le (Nat.le_of_eq hlen), hstore _ _ _ hfront]
  rfl

/-- A unit can be populated if and only if it has room for the header. -/
theorem populateVerifyBytes_ok_iff (hbuf : buf.length = u.buflen.toNat) :
    (∃ buf', populateVerifyBytes verify hdr pad random u buf = .ok buf') ↔
      verifyHeaderSize.toUInt32 ≤ u.buflen := by
  constructor
  · rintro ⟨buf', h⟩
    by_contra hsmall
    have hlt := u.buflen.toNat_lt
    have hshort : u.buflen.toNat < 32 := UInt32.lt_iff_toNat_lt.mp (UInt32.not_le.mp hsmall)
    obtain ⟨filled, hfill, -⟩ := bind_eq_ok.mp h
    -- taking the header off the length goes around
    rcases fillRandomLoop_ok_le hfill with hzero | hroom
    · have hnat := congrArg UInt32.toNat hzero
      rw [UInt64.toNat_toUInt32, UInt64.toNat_sub, UInt32.toNat_toUInt64,
        show verifyHeaderSize.toNat = 32 from rfl, show (0 : UInt32).toNat = 0 from rfl] at hnat
      omega
    · rw [hbuf] at hroom
      exact absurd hroom (Nat.not_lt.mpr (Nat.le_of_lt hshort))
  · intro h
    exact ⟨_, populateVerifyBytes_eq hbuf h⟩

/-! ## Reading back -/

theorem loadWord_of_le (h : 4 * i + 4 ≤ buf.length) : loadWord buf i = .ok (blockWord buf i) := by
  unfold loadWord
  rw [loadBytes_of_le h, ok_bind]
  have hbyte (j : Nat) (hj : j < 4) :
      ((buf.drop (4 * i)).take 4).getD (4 * 0 + j) 0 = buf.getD (4 * i + j) 0 := by
    rw [Nat.mul_zero, Nat.zero_add, List.getD_eq_getElem?_getD, List.getD_eq_getElem?_getD,
      List.getElem?_take_of_lt hj, List.getElem?_drop]
  unfold blockWord
  simp only [hbyte 0 (by decide), hbyte 1 (by decide), hbyte 2 (by decide), hbyte 3 (by decide)]
  rfl

/-- A checksum stays in the buffer if and only if the length in the header does. -/
theorem loadBytes_payload_iff {n : Nat} (hlen : buf.length < 2 ^ 32)
    (hroom : verifyHeaderSize.toNat ≤ buf.length)
    (hn : n = len.toNat - 32 ∧ 32 ≤ len.toNat ∨ 2 ^ 32 - 32 ≤ n ∧ len.toNat < 32) :
    (∃ p, loadBytes buf verifyHeaderSize.toNat n = .ok p) ↔
      verifyHeaderSize.toNat ≤ len.toNat ∧ len.toNat ≤ buf.length := by
  have hsize : verifyHeaderSize.toNat = 32 := rfl
  rw [hsize] at hroom ⊢
  constructor
  · rintro ⟨p, hp⟩
    have hle := loadBytes_ok_le hp
    omega
  · rintro ⟨hlo, hhi⟩
    refine ⟨_, loadBytes_of_le ?_⟩
    omega

/-- The length of the payload, for the crc32 in 64 bits and for the md5 in 32 bits. -/
theorem payload_cases (len : UInt32) :
    ((len.toUInt64 - verifyHeaderSize).toNat = len.toNat - 32 ∧ 32 ≤ len.toNat ∨
      2 ^ 32 - 32 ≤ (len.toUInt64 - verifyHeaderSize).toNat ∧ len.toNat < 32) ∧
    ((len.toUInt64 - verifyHeaderSize).toUInt32.toNat = len.toNat - 32 ∧ 32 ≤ len.toNat ∨
      2 ^ 32 - 32 ≤ (len.toUInt64 - verifyHeaderSize).toUInt32.toNat ∧ len.toNat < 32) := by
  have hlt := len.toNat_lt
  rw [UInt64.toNat_toUInt32, UInt64.toNat_sub, UInt32.toNat_toUInt64,
    show verifyHeaderSize.toNat = 32 from rfl]
  omega

/-- A computation goes on when its first step has a value and every rest has one. -/
theorem exists_bind_ok_iff {α β : Type} {x : Outcome α} {g : α → Outcome β}
    (hg : ∀ a, ∃ b, g a = .ok b) : (∃ b, (x >>= g) = .ok b) ↔ ∃ a, x = .ok a := by
  constructor
  · rintro ⟨b, h⟩
    obtain ⟨a, ha, -⟩ := bind_eq_ok.mp h
    exact ⟨a, ha⟩
  · rintro ⟨a, rfl⟩
    exact hg a

/-- What `verify_io_u` reads is in the buffer if and only if the length in the header is. -/
theorem verifyBytes_ok_iff (hlen : buf.length < 2 ^ 32) (hroom : verifyHeaderSize.toNat ≤ buf.length) :
    (∃ ret, verifyBytes buf = .ok ret) ↔ LengthFits buf := by
  have hword (i : Nat) (hi : i < 8) : loadWord buf i = .ok (blockWord buf i) :=
    loadWord_of_le (Nat.le_trans (by rw [show verifyHeaderSize.toNat = 32 from rfl]; omega) hroom)
  have hmd5 : (∃ ret, verifyMd5Bytes buf = .ok ret) ↔
      verifyHeaderSize.toNat ≤ (headerOf buf).len.toNat ∧
        (headerOf buf).len.toNat ≤ buf.length := by
    unfold verifyMd5Bytes
    rw [hword 1 (by decide), ok_bind, hword 4 (by decide), hword 5 (by decide), hword 6 (by decide),
      hword 7 (by decide)]
    refine (exists_bind_ok_iff fun p => ⟨_, rfl⟩).trans ?_
    exact loadBytes_payload_iff hlen hroom (payload_cases _).2
  have hcrc32 : (∃ ret, verifyCrc32Bytes buf = .ok ret) ↔
      verifyHeaderSize.toNat ≤ (headerOf buf).len.toNat ∧
        (headerOf buf).len.toNat ≤ buf.length := by
    unfold verifyCrc32Bytes
    rw [hword 1 (by decide), ok_bind, hword 4 (by decide), hword 5 (by decide)]
    refine (exists_bind_ok_iff fun p => ⟨_, rfl⟩).trans ?_
    exact loadBytes_payload_iff hlen hroom (payload_cases _).1
  unfold verifyBytes LengthFits
  rw [hword 0 (by decide), ok_bind, hword 2 (by decide)]
  by_cases hmagic : blockWord buf 0 = fioHdrMagic
  · rw [if_neg (not_not.mpr hmagic), ok_bind]
    by_cases htype : blockWord buf 2 = Verify.md5.number
    · rw [if_pos htype, hmd5]
      exact ⟨fun h _ _ => h, fun h => h hmagic (.inl htype)⟩
    · rw [if_neg htype]
      by_cases htype' : blockWord buf 2 = Verify.crc32.number
      · rw [if_pos htype', hcrc32]
        exact ⟨fun h _ _ => h, fun h => h hmagic (.inr htype')⟩
      · rw [if_neg htype']
        exact iff_of_true ⟨1, rfl⟩ fun _ hor => absurd hor (not_or.mpr ⟨htype, htype'⟩)
  · rw [if_pos hmagic]
    exact iff_of_true ⟨1, rfl⟩ fun h => absurd h hmagic

/-! ## The main result -/

/-- A unit is populated and checked inside its buffer if and only if it has room for the header, and
the header that is read back asks for no check or gives a length between its own size and the size of
the buffer. -/
theorem staysInBuffer_iff (verify : Verify) (hdr : VerifyHeader) (pad : UInt32)
    (random : Nat → UInt8) (u : IoU) (buf back : List UInt8) (hbuf : buf.length = u.buflen.toNat)
    (hback : back.length = u.buflen.toNat) :
    StaysInBuffer verify hdr pad random u buf back ↔
      verifyHeaderSize.toUInt32 ≤ u.buflen ∧ LengthFits back := by
  unfold StaysInBuffer
  rw [populateVerifyBytes_ok_iff hbuf]
  refine and_congr_right fun hsize => ?_
  have hle : verifyHeaderSize.toNat ≤ u.buflen.toNat := UInt32.le_iff_toNat_le.mp hsize
  rw [and_iff_right (fillRandomLoop_unit hbuf hsize)]
  exact verifyBytes_ok_iff (by rw [hback]; exact u.buflen.toNat_lt) (by rw [hback]; exact hle)

/-- What is read back is a header that gives this length, and zeros. -/
def blockReadBack (len : UInt32) : List UInt8 :=
  { zeroHeader with fioMagic := fioHdrMagic, len := len, verifyType := Verify.crc32.number }.toBytes 0
    ++ List.replicate 32 0

theorem staysInBuffer_iff_wholeBlock :
    StaysInBuffer .crc32 zeroHeader 0 (fun _ => 7) (writeUnit 64) (List.replicate 64 0)
      (blockReadBack 64) := by
  refine (staysInBuffer_iff .crc32 zeroHeader 0 (fun _ => 7) (writeUnit 64) (List.replicate 64 0)
    (blockReadBack 64) (by decide) (by decide)).mpr ⟨by decide, fun _ _ => by decide⟩

/-- A header with a length that is not that of the block: the check goes on behind the buffer. -/
theorem staysInBuffer_corruptedLength :
    ¬∀ (verify : Verify) (hdr : VerifyHeader) (pad : UInt32) (random : Nat → UInt8) (u : IoU)
      (buf back : List UInt8), buf.length = u.buflen.toNat → back.length = u.buflen.toNat →
      StaysInBuffer verify hdr pad random u buf back := by
  intro hall
  obtain ⟨-, -, hread⟩ := hall .crc32 zeroHeader 0 (fun _ => 7) (writeUnit 64)
    (List.replicate 64 0) (blockReadBack 128) (by decide) (by decide)
  have hlen : (blockReadBack 128).length < 2 ^ 32 := by decide
  have hfits := (verifyBytes_ok_iff hlen (by decide)).mp hread
  exact absurd (hfits (by decide) (.inr (by decide))).2 (by decide)

end Rtfsc.Fio
