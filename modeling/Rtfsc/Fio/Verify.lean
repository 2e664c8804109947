import Rtfsc.Fio.Types
import Rtfsc.Fio.Crc32
import Rtfsc.Fio.Md5

/-!
# fio: what verification finds in a buffer

`populate_verify_io_u` puts a header with the crc32 or the md5 of the payload in front of it, and
`verify_io_u` computes it again. A burst in the payload always changes the crc32. The md5 is read
without a final step, so that the bytes behind the last whole block of 64 are in no hash: a change
there is never found.
-/

namespace Rtfsc.Fio

open Rtfsc.Machine

/-- `FIO_HDR_MAGIC`. -/
def fioHdrMagic : UInt32 := 0xf00baaef

/-- The number of a verify type in `hdr->verify_type`. -/
def Verify.number : Verify → UInt32
  | .none => 0
  | .md5 => 1
  | .crc32 => 2

/-- `struct verify_header`, with the union as its 16 bytes: four words. -/
structure VerifyHeader where
  fioMagic : UInt32
  len : UInt32
  verifyType : UInt32
  md5Digest : Md5Hash
deriving DecidableEq, Repr

/-- `sizeof(struct verify_header)`: the union starts at a multiple of eight. -/
def verifyHeaderSize : UInt64 := 32

/-- `hdr->crc32`: the first eight bytes of the union. -/
def VerifyHeader.crc32 (hdr : VerifyHeader) : UInt64 :=
  hdr.md5Digest.a.toUInt64 ||| hdr.md5Digest.b.toUInt64 <<< 32

/-- `hdr->crc32 = c`. -/
def VerifyHeader.setCrc32 (hdr : VerifyHeader) (c : UInt64) : VerifyHeader :=
  { hdr with
    md5Digest := { hdr.md5Digest with a := c.toUInt32, b := (c >>> 32).toUInt32 } }

/-- `io_u->buf`: the header and what follows it. -/
structure VerifyBuf where
  hdr : VerifyHeader
  payload : List UInt8

/-- The bytes of the payload that a checksum reads; `none` when it reads past the buffer. -/
def VerifyBuf.bytes (buf : VerifyBuf) (len : Nat) : Option (List UInt8) :=
  if len ≤ buf.payload.length then some (buf.payload.take len) else none

/-- `verify_io_u_crc32`. -/
def verifyIoUCrc32 (buf : VerifyBuf) : Option Nat := do
  let p ← buf.bytes (buf.hdr.len.toUInt64 - verifyHeaderSize).toNat
  return if Fio.crc32 p ≠ buf.hdr.crc32 then 1 else 0

/-- `verify_io_u_md5`; `md5_update` takes an `unsigned int`. -/
def verifyIoUMd5 (buf : VerifyBuf) : Option Nat := do
  let p ← buf.bytes (buf.hdr.len.toUInt64 - verifyHeaderSize).toUInt32.toNat
  return if buf.hdr.md5Digest ≠ md5Hash p then 1 else 0

/-- `verify_io_u`: what it returns, or `none` when it reads past the buffer. -/
def verifyIoU (buf : VerifyBuf) : Option Nat :=
  if buf.hdr.fioMagic ≠ fioHdrMagic then some 1
  else if buf.hdr.verifyType = Verify.md5.number then verifyIoUMd5 buf
  else if buf.hdr.verifyType = Verify.crc32.number then verifyIoUCrc32 buf
  else some 1

/-- `fill_random_bytes`, with the bytes of the doubles that the generator returns. -/
def fillRandomBytes (random : Nat → UInt8) (len : UInt32) : List UInt8 :=
  (List.range len.toNat).map random

/-- `populate_verify_io_u`, with what is on the stack where it has its header. -/
def populateVerifyIoU (verify : Verify) (hdr : VerifyHeader) (random : Nat → UInt8) (u : IoU) :
    VerifyBuf :=
  let hdr := { hdr with fioMagic := fioHdrMagic, len := u.buflen }
  let p := fillRandomBytes random (u.buflen.toUInt64 - verifyHeaderSize).toUInt32
  let hdr :=
    if verify = .md5 then
      { hdr with md5Digest := md5Hash p, verifyType := Verify.md5.number }
    else
      { hdr.setCrc32 (Fio.crc32 p) with verifyType := Verify.crc32.number }
  { hdr := hdr, payload := p }

/-- The buffer is refused. -/
def Rejects (buf : VerifyBuf) : Prop := ∃ ret, verifyIoU buf = some ret ∧ ret ≠ 0

/-! ## What verification computes again -/

theorem toBitVec_crc32_setCrc32 (hdr : VerifyHeader) (c : UInt64) :
    (hdr.setCrc32 c).crc32.toBitVec =
      (c.toBitVec.setWidth 32).setWidth 64 |||
        ((c.toBitVec >>> 32).setWidth 32).setWidth 64 <<< 32 := rfl

/-- The union keeps a crc32 in its first eight bytes. -/
theorem crc32_setCrc32 (hdr : VerifyHeader) (c : UInt64) : (hdr.setCrc32 c).crc32 = c := by
  apply UInt64.eq_of_toBitVec_eq
  rw [toBitVec_crc32_setCrc32]
  apply BitVec.eq_of_getLsbD_eq
  intro i hi
  simp only [BitVec.getLsbD_or, BitVec.getLsbD_setWidth, BitVec.getLsbD_shiftLeft,
    BitVec.getLsbD_ushiftRight]
  by_cases hlow : i < 32
  · simp [hi, hlow]
  · have hback : 32 + (i - 32) = i := by omega
    simp [hi, hlow, hback, show i - 32 < 32 by omega, show i - 32 < 64 by omega]

variable {verify : Verify} {hdr : VerifyHeader} {random : Nat → UInt8} {u : IoU}

theorem toNat_payloadLen (h : verifyHeaderSize.toUInt32 ≤ u.buflen) :
    (u.buflen.toUInt64 - verifyHeaderSize).toUInt32.toNat = u.buflen.toNat - 32 ∧
      (u.buflen.toUInt64 - verifyHeaderSize).toNat = u.buflen.toNat - 32 := by
  have hle : 32 ≤ u.buflen.toNat := UInt32.le_iff_toNat_le.mp h
  have hlt := u.buflen.toNat_lt
  have hsize : verifyHeaderSize ≤ u.buflen.toUInt64 := UInt64.le_iff_toNat_le.mpr hle
  have hsub : (u.buflen.toUInt64 - verifyHeaderSize).toNat = u.buflen.toNat - 32 :=
    UInt64.toNat_sub_of_le _ _ hsize
  refine ⟨?_, hsub⟩
  rw [UInt64.toNat_toUInt32, hsub]
  omega

theorem populateVerifyIoU_length (h : verifyHeaderSize.toUInt32 ≤ u.buflen) :
    (populateVerifyIoU verify hdr random u).payload.length = u.buflen.toNat - 32 := by
  rw [populateVerifyIoU, fillRandomBytes, List.length_map, List.length_range,
    (toNat_payloadLen h).1]

theorem populateVerifyIoU_payload {k : Nat}
    (hk : k < (populateVerifyIoU verify hdr random u).payload.length) :
    (populateVerifyIoU verify hdr random u).payload[k]? = some (random k) := by
  unfold populateVerifyIoU fillRandomBytes at hk ⊢
  rw [List.length_map, List.length_range] at hk
  rw [List.getElem?_map, List.getElem?_range hk]
  rfl

/-- All of the payload is read. -/
theorem bytes_of_length {buf : VerifyBuf} {n : Nat} (h : buf.payload.length = n) :
    buf.bytes n = some buf.payload := by
  rw [VerifyBuf.bytes, if_pos (Nat.le_of_eq h.symm), List.take_of_length_le (Nat.le_of_eq h)]

/-- The md5 of another payload of the same length is compared with that of the payload. -/
theorem verifyIoU_md5 (h : verifyHeaderSize.toUInt32 ≤ u.buflen) {changed : List UInt8}
    (hlen : changed.length = (populateVerifyIoU .md5 hdr random u).payload.length) :
    verifyIoU { populateVerifyIoU .md5 hdr random u with payload := changed } =
      some (if md5Hash (populateVerifyIoU .md5 hdr random u).payload ≠ md5Hash changed
        then 1 else 0) := by
  rw [populateVerifyIoU_length h, ← (toNat_payloadLen h).1] at hlen
  show verifyIoUMd5 _ = _
  unfold verifyIoUMd5
  rw [show (populateVerifyIoU .md5 hdr random u).hdr.len = u.buflen from rfl, bytes_of_length hlen]
  rfl

/-- The same for the crc32. -/
theorem verifyIoU_crc32 (h : verifyHeaderSize.toUInt32 ≤ u.buflen) {changed : List UInt8}
    (hlen : changed.length = (populateVerifyIoU .crc32 hdr random u).payload.length) :
    verifyIoU { populateVerifyIoU .crc32 hdr random u with payload := changed } =
      some (if Fio.crc32 changed ≠ Fio.crc32 (populateVerifyIoU .crc32 hdr random u).payload
        then 1 else 0) := by
  rw [populateVerifyIoU_length h, ← (toNat_payloadLen h).2] at hlen
  show verifyIoUCrc32 _ = _
  unfold verifyIoUCrc32
  rw [show (populateVerifyIoU .crc32 hdr random u).hdr.len = u.buflen from rfl,
    bytes_of_length hlen]
  have hkept : (populateVerifyIoU .crc32 hdr random u).hdr.crc32 =
      Fio.crc32 (populateVerifyIoU .crc32 hdr random u).payload := crc32_setCrc32 _ _
  rw [hkept]
  rfl

/-- A populated buffer is accepted. -/
theorem verifyIoU_populate (htype : verify ≠ .none) (hlen : verifyHeaderSize.toUInt32 ≤ u.buflen) :
    verifyIoU (populateVerifyIoU verify hdr random u) = some 0 := by
  cases verify with
  | none => exact absurd rfl htype
  | md5 => exact (verifyIoU_md5 hlen rfl).trans (by rw [if_neg (fun h => h rfl)])
  | crc32 => exact (verifyIoU_crc32 hlen rfl).trans (by rw [if_neg (fun h => h rfl)])

/-- A buffer is refused when its verification returns something else than zero. -/
theorem rejects_of_eq {buf : VerifyBuf} {P : Prop} [Decidable P]
    (h : verifyIoU buf = some (if P then 1 else 0)) : Rejects buf ↔ P := by
  unfold Rejects
  rw [h]
  by_cases hP : P <;> simp [hP]

/-! ## Bytes and bits -/

theorem bufferBits_append (front back : List UInt8) :
    bufferBits (front ++ back) = bufferBits front ++ bufferBits back := List.flatMap_append

theorem bufferBits_length (buffer : List UInt8) :
    (bufferBits buffer).length = 8 * buffer.length := by
  induction buffer with
  | nil => rfl
  | cons b buffer ih =>
    show (byteBits b ++ bufferBits buffer).length = _
    rw [List.length_append, byteBits_length, ih, List.length_cons]
    omega

theorem byteBits_inj {b c : UInt8} (h : byteBits b = byteBits c) : b = c := by
  apply UInt8.eq_of_toBitVec_eq
  apply BitVec.eq_of_getMsbD_eq
  intro i hi
  exact List.map_inj_left.mp h i (List.mem_range.mpr hi)

theorem bufferBits_split {k : Nat} {c : UInt8} {buffer : List UInt8} (hk : buffer[k]? = some c) :
    bufferBits buffer =
      bufferBits (buffer.take k) ++ (byteBits c ++ bufferBits (buffer.drop (k + 1))) := by
  obtain ⟨hlt, rfl⟩ := List.getElem?_eq_some_iff.mp hk
  have hrest : byteBits buffer[k] ++ bufferBits (buffer.drop (k + 1)) =
      bufferBits (buffer.drop k) := by
    rw [List.drop_eq_getElem_cons hlt]
    rfl
  rw [hrest, ← bufferBits_append, List.take_append_drop]

/-- Another byte at a place is a burst. -/
theorem burst_set {k : Nat} {b c : UInt8} {buffer : List UInt8} (hk : buffer[k]? = some c)
    (hne : c ≠ b) :
    Burst 32 (8 * k) (bufferBits buffer) (bufferBits (buffer.set k b)) := by
  have hlt := (List.getElem?_eq_some_iff.mp hk).1
  have hset : (buffer.set k b)[k]? = some b := List.getElem?_set_self hlt
  have hfront : (bufferBits (buffer.take k)).length = 8 * k := by
    rw [bufferBits_length, List.length_take_of_le (Nat.le_of_lt hlt)]
  have hback (x : UInt8) (rest : List Bool) :
      (bufferBits (buffer.take k) ++ (byteBits x ++ rest)).drop (8 * k + 32) = rest.drop 24 := by
    rw [← List.append_assoc, List.drop_append, List.drop_of_length_le, List.length_append, hfront,
      byteBits_length, List.nil_append]
    · congr 1
      omega
    · rw [List.length_append, hfront, byteBits_length]
      omega
  rw [bufferBits_split hk, bufferBits_split hset, List.take_set_of_le (Nat.le_refl k),
    List.drop_set_of_lt (Nat.lt_succ_self k)]
  constructor
  case length_eq => simp only [List.length_append, byteBits_length]
  case ne =>
    intro heq
    exact hne (byteBits_inj (List.append_cancel_right (List.append_cancel_left heq)))
  case before => rw [List.take_left' hfront, List.take_left' hfront]
  case after => rw [hback, hback]

/-! ## The main result -/

/-- Verification accepts what `populate_verify_io_u` made. It refuses a payload in which one byte is
another one if and only if the crc32 is verified, or the byte is in a whole block of 64 and the md5
of the whole blocks does not collide. With the crc32 it refuses every payload that differs in 32
consecutive bits. -/
theorem verifyIoU_iff (verify : Verify) (hdr : VerifyHeader) (random : Nat → UInt8) (u : IoU)
    (htype : verify ≠ .none) (hlen : verifyHeaderSize.toUInt32 ≤ u.buflen) :
    let buf := populateVerifyIoU verify hdr random u
    verifyIoU buf = some 0 ∧
    (∀ k b c, buf.payload[k]? = some c → c ≠ b →
      (Rejects { buf with payload := buf.payload.set k b } ↔
        verify = .crc32 ∨ k < wholeBlocks buf.payload.length ∧
          ¬Md5Collision buf.payload (buf.payload.set k b))) ∧
    (verify = .crc32 → ∀ i changed, Burst 32 i (bufferBits buf.payload) (bufferBits changed) →
      Rejects { buf with payload := changed }) := by
  cases verify with
  | none => exact absurd rfl htype
  | md5 =>
    intro buf
    refine ⟨verifyIoU_populate htype hlen, ?_, nofun⟩
    intro k b c hk hne
    have hsame : (buf.payload.set k b).length = buf.payload.length := List.length_set
    rw [rejects_of_eq (verifyIoU_md5 hlen hsame), md5Hash_eq, md5Hash_eq]
    constructor
    · intro hdiff
      refine Or.inr ⟨?_, fun hcoll => hdiff hcoll.chain_eq⟩
      by_contra hge
      exact hdiff (md5Chain_set b _ _ (Nat.not_lt.mp hge)).symm
    · rintro (hcrc | ⟨hwhole, hcoll⟩) heq
      · cases hcrc
      · apply hcoll
        refine ⟨fun htake => hne ?_, heq⟩
        have hlt := (List.getElem?_eq_some_iff.mp hk).1
        have hget := congrArg (fun l => l[k]?) htake
        simp only [List.getElem?_take_of_lt hwhole, List.getElem?_set_self hlt, hk] at hget
        exact Option.some.inj hget
  | crc32 =>
    intro buf
    have hburst (i changed) (burst : Burst 32 i (bufferBits buf.payload) (bufferBits changed)) :
        Rejects { buf with payload := changed } := by
      have hsame : changed.length = buf.payload.length := by
        have hbits := burst.length_eq
        rw [bufferBits_length, bufferBits_length] at hbits
        omega
      exact (rejects_of_eq (verifyIoU_crc32 hlen hsame)).mpr (crc32_ne burst).symm
    refine ⟨verifyIoU_populate htype hlen, ?_, fun _ => hburst⟩
    intro k b c hk hne
    exact ⟨fun _ => Or.inl rfl, fun _ => hburst _ _ (burst_set hk hne)⟩

/-- A write of some length, and a header of zeros. -/
def writeUnit (buflen : UInt32) : IoU where
  buflen := buflen
  offset := 0
  resid := 0
  error := 0
  ddir := .data .write
  file := some 0

def zeroHeader : VerifyHeader where
  fioMagic := 0
  len := 0
  verifyType := 0
  md5Digest := Md5Ctx.zero.hash

theorem verifyIoU_smallBuffer :
    verifyIoU (populateVerifyIoU .crc32 zeroHeader (fun _ => 7) (writeUnit 64)) = some 0 ∧
      Rejects { populateVerifyIoU .crc32 zeroHeader (fun _ => 7) (writeUnit 64) with
        payload :=
          (populateVerifyIoU .crc32 zeroHeader (fun _ => 7) (writeUnit 64)).payload.set 5 1 } := by
  obtain ⟨haccepts, hbyte, _⟩ :=
    verifyIoU_iff .crc32 zeroHeader (fun _ => 7) (writeUnit 64) (nofun) (by decide)
  exact ⟨haccepts, (hbyte 5 1 7 (by decide) (by decide)).mpr (Or.inl rfl)⟩

/-- The last byte of a block of 4k with `verify=md5`: the payload has 4064 bytes, of which the whole
blocks are 4032. -/
theorem verifyIoU_lastByte :
    ¬∀ (verify : Verify) (hdr : VerifyHeader) (random : Nat → UInt8) (u : IoU),
      verify ≠ .none → verifyHeaderSize.toUInt32 ≤ u.buflen →
      let buf := populateVerifyIoU verify hdr random u
      verifyIoU buf = some 0 ∧
      (∀ k b c, buf.payload[k]? = some c → c ≠ b →
        Rejects { buf with payload := buf.payload.set k b }) ∧
      (verify = .crc32 → ∀ i changed, Burst 32 i (bufferBits buf.payload) (bufferBits changed) →
        Rejects { buf with payload := changed }) := by
  intro hall
  have hlen : verifyHeaderSize.toUInt32 ≤ (writeUnit 4096).buflen := by decide
  have hpayload : (populateVerifyIoU .md5 zeroHeader (fun _ => 0) (writeUnit 4096)).payload.length =
      4064 := populateVerifyIoU_length hlen
  obtain ⟨_, hbyte, _⟩ := hall .md5 zeroHeader (fun _ => 0) (writeUnit 4096) (nofun) hlen
  have hlast : (populateVerifyIoU .md5 zeroHeader (fun _ => 0) (writeUnit 4096)).payload[4063]? =
      some 0 := populateVerifyIoU_payload (by rw [hpayload]; decide)
  have hrejects := hbyte 4063 1 0 hlast (by decide)
  rw [rejects_of_eq (verifyIoU_md5 hlen List.length_set), md5Hash_eq, md5Hash_eq] at hrejects
  exact hrejects (md5Chain_set 1 _ _ (by rw [hpayload]; decide)).symm

end Rtfsc.Fio
