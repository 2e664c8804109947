import Rtfsc.Machine.Crc

/-!
# fio: the crc32 of a buffer

`crc32` goes through a buffer a byte at a time with a table of 256 values, in an `unsigned long` of
which only the low half is the remainder. That half is the remainder bit by bit, so that a burst of
32 bits changes it.
-/

namespace Rtfsc.Fio

open Rtfsc.Machine

/-- `crctab`. -/
def crctab : List UInt64 := [
  0x0, 0x04C11DB7, 0x09823B6E, 0x0D4326D9, 0x130476DC, 0x17C56B6B, 0x1A864DB2,
  0x1E475005, 0x2608EDB8, 0x22C9F00F, 0x2F8AD6D6, 0x2B4BCB61, 0x350C9B64, 0x31CD86D3,
  0x3C8EA00A, 0x384FBDBD, 0x4C11DB70, 0x48D0C6C7, 0x4593E01E, 0x4152FDA9, 0x5F15ADAC,
  0x5BD4B01B, 0x569796C2, 0x52568B75, 0x6A1936C8, 0x6ED82B7F, 0x639B0DA6, 0x675A1011,
  0x791D4014, 0x7DDC5DA3, 0x709F7B7A, 0x745E66CD, 0x9823B6E0, 0x9CE2AB57, 0x91A18D8E,
  0x95609039, 0x8B27C03C, 0x8FE6DD8B, 0x82A5FB52, 0x8664E6E5, 0xBE2B5B58, 0xBAEA46EF,
  0xB7A96036, 0xB3687D81, 0xAD2F2D84, 0xA9EE3033, 0xA4AD16EA, 0xA06C0B5D, 0xD4326D90,
  0xD0F37027, 0xDDB056FE, 0xD9714B49, 0xC7361B4C, 0xC3F706FB, 0xCEB42022, 0xCA753D95,
  0xF23A8028, 0xF6FB9D9F, 0xFBB8BB46, 0xFF79A6F1, 0xE13EF6F4, 0xE5FFEB43, 0xE8BCCD9A,
  0xEC7DD02D, 0x34867077, 0x30476DC0, 0x3D044B19, 0x39C556AE, 0x278206AB, 0x23431B1C,
  0x2E003DC5, 0x2AC12072, 0x128E9DCF, 0x164F8078, 0x1B0CA6A1, 0x1FCDBB16, 0x018AEB13,
  0x054BF6A4, 0x0808D07D, 0x0CC9CDCA, 0x7897AB07, 0x7C56B6B0, 0x71159069, 0x75D48DDE,
  0x6B93DDDB, 0x6F52C06C, 0x6211E6B5, 0x66D0FB02, 0x5E9F46BF, 0x5A5E5B08, 0x571D7DD1,
  0x53DC6066, 0x4D9B3063, 0x495A2DD4, 0x44190B0D, 0x40D816BA, 0xACA5C697, 0xA864DB20,
  0xA527FDF9, 0xA1E6E04E, 0xBFA1B04B, 0xBB60ADFC, 0xB6238B25, 0xB2E29692, 0x8AAD2B2F,
  0x8E6C3698, 0x832F1041, 0x87EE0DF6, 0x99A95DF3, 0x9D684044, 0x902B669D, 0x94EA7B2A,
  0xE0B41DE7, 0xE4750050, 0xE9362689, 0xEDF73B3E, 0xF3B06B3B, 0xF771768C, 0xFA325055,
  0xFEF34DE2, 0xC6BCF05F, 0xC27DEDE8, 0xCF3ECB31, 0xCBFFD686, 0xD5B88683, 0xD1799B34,
  0xDC3ABDED, 0xD8FBA05A, 0x690CE0EE, 0x6DCDFD59, 0x608EDB80, 0x644FC637, 0x7A089632,
  0x7EC98B85, 0x738AAD5C, 0x774BB0EB, 0x4F040D56, 0x4BC510E1, 0x46863638, 0x42472B8F,
  0x5C007B8A, 0x58C1663D, 0x558240E4, 0x51435D53, 0x251D3B9E, 0x21DC2629, 0x2C9F00F0,
  0x285E1D47, 0x36194D42, 0x32D850F5, 0x3F9B762C, 0x3B5A6B9B, 0x0315D626, 0x07D4CB91,
  0x0A97ED48, 0x0E56F0FF, 0x1011A0FA, 0x14D0BD4D, 0x19939B94, 0x1D528623, 0xF12F560E,
  0xF5EE4BB9, 0xF8AD6D60, 0xFC6C70D7, 0xE22B20D2, 0xE6EA3D65, 0xEBA91BBC, 0xEF68060B,
  0xD727BBB6, 0xD3E6A601, 0xDEA580D8, 0xDA649D6F, 0xC423CD6A, 0xC0E2D0DD, 0xCDA1F604,
  0xC960EBB3, 0xBD3E8D7E, 0xB9FF90C9, 0xB4BCB610, 0xB07DABA7, 0xAE3AFBA2, 0xAAFBE615,
  0xA7B8C0CC, 0xA379DD7B, 0x9B3660C6, 0x9FF77D71, 0x92B45BA8, 0x9675461F, 0x8832161A,
  0x8CF30BAD, 0x81B02D74, 0x857130C3, 0x5D8A9099, 0x594B8D2E, 0x5408ABF7, 0x50C9B640,
  0x4E8EE645, 0x4A4FFBF2, 0x470CDD2B, 0x43CDC09C, 0x7B827D21, 0x7F436096, 0x7200464F,
  0x76C15BF8, 0x68860BFD, 0x6C47164A, 0x61043093, 0x65C52D24, 0x119B4BE9, 0x155A565E,
  0x18197087, 0x1CD86D30, 0x029F3D35, 0x065E2082, 0x0B1D065B, 0x0FDC1BEC, 0x3793A651,
  0x3352BBE6, 0x3E119D3F, 0x3AD08088, 0x2497D08D, 0x2056CD3A, 0x2D15EBE3, 0x29D4F654,
  0xC5A92679, 0xC1683BCE, 0xCC2B1D17, 0xC8EA00A0, 0xD6AD50A5, 0xD26C4D12, 0xDF2F6BCB,
  0xDBEE767C, 0xE3A1CBC1, 0xE760D676, 0xEA23F0AF, 0xEEE2ED18, 0xF0A5BD1D, 0xF464A0AA,
  0xF9278673, 0xFDE69BC4, 0x89B8FD09, 0x8D79E0BE, 0x803AC667, 0x84FBDBD0, 0x9ABC8BD5,
  0x9E7D9662, 0x933EB0BB, 0x97FFAD0C, 0xAFB010B1, 0xAB710D06, 0xA6322BDF, 0xA2F33668,
  0xBCB4666D, 0xB8757BDA, 0xB5365D03, 0xB1F740B4]

/-- One byte of the loop of `crc32`. -/
def crc32Byte (crc : UInt64) (b : UInt8) : UInt64 :=
  (crc <<< 8) ^^^ crctab.getD (((crc >>> 24) ^^^ b.toUInt64) &&& 0xFF).toNat 0

/-- `crc32`. -/
def crc32 (buffer : List UInt8) : UInt64 := buffer.foldl crc32Byte 0

/-- The polynomial of the table. -/
def crc32Poly : BitVec 32 := 0x04C11DB7#32

/-- The bits of a byte, the most significant one first. -/
def byteBits (b : UInt8) : List Bool := (List.range 8).map b.toBitVec.getMsbD

/-- The bits of a buffer in the order in which `crc32` takes them. -/
def bufferBits (buffer : List UInt8) : List Bool := buffer.flatMap byteBits

/-- The half of the `unsigned long` that is the remainder. -/
def lowHalf (crc : UInt64) : BitVec 32 := crc.toBitVec.setWidth 32

/-! ## A byte is eight bits -/

/-- A byte at the top of the remainder. -/
def topByte (x : Nat) : BitVec 32 := BitVec.ofNat 32 x <<< 24

/-- Every entry of the table is what eight shifts make of its index. -/
theorem crctab_getD {x : Nat} (h : x < 256) :
    (crctab.getD x 0).toBitVec.setWidth 32 = crcShifts crc32Poly 8 (topByte x) := by
  have hall : ∀ y : Fin 256,
      (crctab.getD y 0).toBitVec.setWidth 32 = crcShifts crc32Poly 8 (topByte y) := by
    decide +kernel
  exact hall ⟨x, h⟩

theorem packTop_byteBits (b : UInt8) : (packTop (byteBits b) : BitVec 32) = topByte b.toNat := by
  have hall : ∀ y : Fin 256,
      (packTop ((List.range 8).map (BitVec.ofFin (w := 8) y).getMsbD) : BitVec 32) = topByte y := by
    decide +kernel
  exact hall b.toFin

theorem byteBits_length (b : UInt8) : (byteBits b).length = 8 := by simp [byteBits]

/-- The place of the table at which `crc32` looks for a byte. -/
def crctabIndex (crc : UInt64) (b : UInt8) : UInt64 := ((crc >>> 24) ^^^ b.toUInt64) &&& 0xFF

theorem crctabIndex_lt (crc : UInt64) (b : UInt8) : (crctabIndex crc b).toNat < 256 := by
  rw [crctabIndex, UInt64.toNat_and]
  exact Nat.lt_succ_of_le Nat.and_le_right

theorem topByte_toNat {n : Nat} (x : BitVec n) : topByte x.toNat = x.setWidth 32 <<< 24 := by
  rw [topByte, BitVec.ofNat_toNat]

theorem crctabIndex_toBitVec (crc : UInt64) (b : UInt8) :
    (crctabIndex crc b).toBitVec =
      ((crc.toBitVec >>> 24) ^^^ b.toBitVec.setWidth 64) &&& 0xFF#64 := by
  rw [crctabIndex, UInt64.toBitVec_and, UInt64.toBitVec_xor, UInt64.toBitVec_shiftRight]
  rfl

theorem lowByte_getLsbD (i : Nat) : (0xFF#64).getLsbD i = decide (i < 8) := by
  rw [BitVec.getLsbD_ofNat, show 0xFF = 2 ^ 8 - 1 from rfl, Nat.testBit_two_pow_sub_one]
  rw [← Bool.decide_and, decide_eq_decide]
  omega

theorem rest_getLsbD (i : Nat) : (0xFFFFFF#32).getLsbD i = decide (i < 24) := by
  rw [BitVec.getLsbD_ofNat, show 0xFFFFFF = 2 ^ 24 - 1 from rfl, Nat.testBit_two_pow_sub_one]
  rw [← Bool.decide_and, decide_eq_decide]
  omega

/-- The remainder with a byte put into it is the place of the table over three more bytes. -/
theorem lowHalf_xor_topByte (crc : UInt64) (b : UInt8) :
    lowHalf crc ^^^ topByte b.toNat =
      topByte (crctabIndex crc b).toNat ^^^ (lowHalf crc &&& 0xFFFFFF#32) := by
  rw [← UInt64.toNat_toBitVec, ← UInt8.toNat_toBitVec, topByte_toNat, topByte_toNat,
    crctabIndex_toBitVec, lowHalf]
  apply BitVec.eq_of_getLsbD_eq
  intro i hi
  simp only [BitVec.getLsbD_xor, BitVec.getLsbD_and, BitVec.getLsbD_setWidth,
    BitVec.getLsbD_shiftLeft, BitVec.getLsbD_ushiftRight, lowByte_getLsbD, rest_getLsbD]
  by_cases htop : i < 24
  · simp [hi, htop]
  · have hlow : i - 24 < 8 := by omega
    have hback : 24 + (i - 24) = i := by omega
    simp [hi, htop, hlow, hback, show i - 24 < 32 by omega, show i - 24 < 64 by omega]

/-- Shifting a byte out leaves what the three others were. -/
theorem lowHalf_shift (crc : UInt64) :
    (crc <<< 8).toBitVec.setWidth 32 = (lowHalf crc &&& 0xFFFFFF#32) <<< 8 := by
  apply BitVec.eq_of_getLsbD_eq
  intro i hi
  have hshift : (crc <<< 8).toBitVec = crc.toBitVec <<< 8 := UInt64.toBitVec_shiftLeft ..
  rw [hshift, lowHalf]
  simp only [BitVec.getLsbD_and, BitVec.getLsbD_setWidth, BitVec.getLsbD_shiftLeft, rest_getLsbD]
  by_cases hlow : i < 8
  · simp [hlow]
  · simp [hi, hlow, show i < 64 by omega, show i - 8 < 32 by omega, show i - 8 < 24 by omega]

/-- The table loop takes a byte as the eight bits of it. -/
theorem lowHalf_crc32Byte (crc : UInt64) (b : UInt8) :
    lowHalf (crc32Byte crc b) = crcBits crc32Poly (lowHalf crc) (byteBits b) := by
  have hclear : ∀ i < 8, (lowHalf crc &&& 0xFFFFFF#32).getMsbD i = false := by
    intro i hi
    rw [BitVec.getMsbD_eq_getLsbD, BitVec.getLsbD_and, rest_getLsbD,
      decide_eq_false (show ¬32 - 1 - i < 24 by omega)]
    simp
  have htable : lowHalf (crc32Byte crc b) =
      (crc <<< 8).toBitVec.setWidth 32 ^^^
        (crctab.getD (crctabIndex crc b).toNat 0).toBitVec.setWidth 32 := by
    rw [lowHalf, crc32Byte, UInt64.toBitVec_xor, BitVec.setWidth_xor]
    rfl
  rw [crcBits_eq_crcShifts (by rw [byteBits_length]; omega), byteBits_length, packTop_byteBits,
    lowHalf_xor_topByte, crcShifts_xor, crcShifts_of_clear hclear,
    ← crctab_getD (crctabIndex_lt crc b), ← lowHalf_shift, htable, BitVec.xor_comm]

theorem lowHalf_foldl (crc : UInt64) (buffer : List UInt8) :
    lowHalf (buffer.foldl crc32Byte crc) =
      crcBits crc32Poly (lowHalf crc) (bufferBits buffer) := by
  induction buffer generalizing crc with
  | nil => rfl
  | cons b buffer ih =>
    rw [List.foldl_cons, ih, lowHalf_crc32Byte, ← crcBits_append]
    rfl

/-- `crc32` ends with the remainder of the buffer in its low half. -/
theorem lowHalf_crc32 (buffer : List UInt8) :
    lowHalf (crc32 buffer) = crcBits crc32Poly 0 (bufferBits buffer) := lowHalf_foldl 0 buffer

/-- A burst of at most 32 bits changes what `crc32` returns. -/
theorem crc32_ne {i : Nat} {buffer changed : List UInt8}
    (burst : Burst 32 i (bufferBits buffer) (bufferBits changed)) :
    crc32 buffer ≠ crc32 changed := by
  intro h
  have hlow := congrArg lowHalf h
  rw [lowHalf_crc32, lowHalf_crc32] at hlow
  exact burst.crcBits_ne (by decide) hlow

end Rtfsc.Fio
