import Rtfsc.Fio.Generator
import Rtfsc.Machine.Bytes

/-!
# fio: the commands of the sg engine

`fio_sgio_prep` builds a READ(10) or WRITE(10) from the offset and the length of an io unit. The command
has 32 bits for the block address and 16 for the number of blocks.
-/

namespace Rtfsc.Fio

open Rtfsc.Machine

/-- `hdr->dxfer_direction` -/
inductive SgDirection
  | none
  | toDev
  | fromDev
deriving DecidableEq

/-- `struct sg_io_hdr` as `fio_sgio_prep` leaves it, with the command that `cmdp` points to; `dxferp` and
`usr_ptr` are the number of an io unit. -/
structure SgIoHdr where
  interfaceId : Char
  cmdp : List (BitVec 8)
  packId : Nat
  usrPtr : Nat
  dxferDirection : SgDirection
  dxferp : Option Nat
  dxferLen : UInt32
deriving DecidableEq

/-- `EINVAL` -/
def einval : UInt32 := 22

/-- `sgio_hdr_init` -/
def sgioHdrInit (index : Nat) (u : IoU) (fs : Bool) : SgIoHdr where
  interfaceId := 'S'
  cmdp := .replicate 10 0
  packId := index
  usrPtr := index
  dxferDirection := .none
  dxferp := if fs then some index else none
  dxferLen := if fs then u.buflen else 0

/-- `fio_sgio_prep` on a device with blocks of `bs` bytes, for the io unit with the given index. -/
def fioSgioPrep (bs : UInt32) (index : Nat) (u : IoU) : Except UInt32 SgIoHdr :=
  if u.buflen &&& (bs - 1) ≠ 0 then .error einval
  else
    let hdr : SgIoHdr :=
      match u.ddir with
      | .data .read =>
        let hdr := sgioHdrInit index u true
        { hdr with dxferDirection := .fromDev, cmdp := hdr.cmdp.set 0 0x28 }
      | .data .write =>
        let hdr := sgioHdrInit index u true
        { hdr with dxferDirection := .toDev, cmdp := hdr.cmdp.set 0 0x2a }
      | .sync =>
        let hdr := sgioHdrInit index u false
        { hdr with dxferDirection := .none, cmdp := hdr.cmdp.set 0 0x35 }
    if hdr.dxferDirection ≠ .none then
      let nrBlocks : BitVec 32 := (u.buflen / bs).toBitVec
      let lba : BitVec 32 := (u.offset / bs.toUInt64).toUInt32.toBitVec
      let cmdp := hdr.cmdp.set 2 (byteOf lba 3)
      let cmdp := cmdp.set 3 (byteOf lba 2)
      let cmdp := cmdp.set 4 (byteOf lba 1)
      let cmdp := cmdp.set 5 (byteOf lba 0)
      let cmdp := cmdp.set 7 (byteOf nrBlocks 1)
      let cmdp := cmdp.set 8 (byteOf nrBlocks 0)
      .ok { hdr with cmdp := cmdp }
    else .ok hdr

namespace SgIoHdr

/-- The block address of a READ(10) or WRITE(10). -/
def blockAddress (hdr : SgIoHdr) : Nat :=
  fromBytes [hdr.cmdp.getD 2 0, hdr.cmdp.getD 3 0, hdr.cmdp.getD 4 0, hdr.cmdp.getD 5 0]

/-- Its number of blocks. -/
def blocks (hdr : SgIoHdr) : Nat :=
  fromBytes [hdr.cmdp.getD 7 0, hdr.cmdp.getD 8 0]

end SgIoHdr

/-- A READ(10) or WRITE(10) can address the range of an io unit. -/
def Expressible (bs : UInt32) (u : IoU) : Prop :=
  ∃ address < 2 ^ 32, ∃ blocks < 2 ^ 16,
    address * bs.toNat = u.offset.toNat ∧ blocks * bs.toNat = u.buflen.toNat

/-- A command that is built names the range of the io unit, and a range that no command can address is
refused. -/
def SgEncodes (bs : UInt32) (index : Nat) (u : IoU) : Prop :=
  (∀ hdr, fioSgioPrep bs index u = .ok hdr →
    hdr.blockAddress * bs.toNat = u.offset.toNat ∧
      (hdr.blockAddress + hdr.blocks) * bs.toNat = u.offset.toNat + u.buflen.toNat ∧
      hdr.dxferLen = u.buflen) ∧
    (¬Expressible bs u → ∃ error, fioSgioPrep bs index u = .error error ∧ error ≠ 0)

/-- The range begins on a block, its first block has an address of 32 bits, and its blocks are counted
in 16 bits. -/
def InReach (bs : UInt32) (u : IoU) : Prop :=
  bs.toNat ∣ u.offset.toNat ∧ u.offset.toNat / bs.toNat < 2 ^ 32 ∧ u.buflen.toNat / bs.toNat < 2 ^ 16

variable {bs : UInt32} {k : Nat} {u : IoU} {d : DataDdir}

/-- The mask is the remainder, the block size being a power of two. -/
theorem buflen_and_ne_zero (hbs : bs.toNat = 2 ^ k) :
    u.buflen &&& (bs - 1) ≠ 0 ↔ ¬bs.toNat ∣ u.buflen.toNat := by
  have hpos : 0 < bs.toNat := hbs ▸ Nat.two_pow_pos k
  have hsub : (bs - 1).toNat = 2 ^ k - 1 := by
    have hle : (1 : UInt32) ≤ bs := UInt32.le_iff_toNat_le.2 hpos
    rw [UInt32.toNat_sub_of_le _ _ hle, hbs]
    rfl
  rw [Nat.dvd_iff_mod_eq_zero, ne_eq, ← UInt32.toNat_inj, UInt32.toNat_and, hsub,
    Nat.and_two_pow_sub_one_eq_mod, hbs]
  rfl

/-- The block address is the quotient in 32 bits, and the number of blocks is cut to 16. -/
theorem fioSgioPrep_data (hbs : bs.toNat = 2 ^ k) (hd : u.ddir = .data d) (index : Nat)
    (hdvd : bs.toNat ∣ u.buflen.toNat) :
    ∃ hdr, fioSgioPrep bs index u = .ok hdr ∧
      hdr.blockAddress = u.offset.toNat / bs.toNat % 2 ^ 32 ∧
      hdr.blocks = u.buflen.toNat / bs.toNat % 2 ^ 16 ∧ hdr.dxferLen = u.buflen := by
  have hmask : ¬u.buflen &&& (bs - 1) ≠ 0 := fun h => (buflen_and_ne_zero hbs).1 h hdvd
  have hlba := fromBytes_byteOf (u.offset / bs.toUInt64).toUInt32.toBitVec (show 8 * 4 ≤ 32 by decide)
  have hblocks := fromBytes_byteOf (u.buflen / bs).toBitVec (show 8 * 2 ≤ 32 by decide)
  have hquot : (u.offset / bs.toUInt64).toUInt32.toBitVec.toNat % 256 ^ 4 =
      u.offset.toNat / bs.toNat % 2 ^ 32 := by
    rw [UInt32.toNat_toBitVec, UInt64.toNat_toUInt32, UInt64.toNat_div, UInt32.toNat_toUInt64]
    exact Nat.mod_mod _ _
  rw [hquot] at hlba
  rw [UInt32.toNat_toBitVec, UInt32.toNat_div] at hblocks
  unfold fioSgioPrep
  rw [if_neg hmask, hd]
  cases d
  · exact ⟨_, if_pos (show SgDirection.fromDev ≠ .none by decide), hlba, hblocks, rfl⟩
  · exact ⟨_, if_pos (show SgDirection.toDev ≠ .none by decide), hlba, hblocks, rfl⟩

theorem InReach.expressible (h : InReach bs u) (hdvd : bs.toNat ∣ u.buflen.toNat) :
    Expressible bs u :=
  ⟨_, h.2.1, _, h.2.2, Nat.div_mul_cancel h.1, Nat.div_mul_cancel hdvd⟩

theorem Expressible.inReach (h : Expressible bs u) (hpos : 0 < bs.toNat) : InReach bs u := by
  obtain ⟨address, haddress, blocks, hblocks, hoffset, hbuflen⟩ := h
  rw [InReach, ← hoffset, ← hbuflen, Nat.mul_div_cancel _ hpos, Nat.mul_div_cancel _ hpos]
  exact ⟨Nat.dvd_mul_left _ _, haddress, hblocks⟩

/-- Only the length is tested: a range of whole blocks must begin on a block and be in reach of the
command. -/
theorem sgEncodes_iff (hbs : bs.toNat = 2 ^ k) (hd : u.ddir = .data d) (index : Nat) :
    SgEncodes bs index u ↔ ¬bs.toNat ∣ u.buflen.toNat ∨ InReach bs u := by
  have hpos : 0 < bs.toNat := hbs ▸ Nat.two_pow_pos k
  by_cases hdvd : bs.toNat ∣ u.buflen.toNat
  · obtain ⟨hdr, hprep, haddress, hblocks, hlen⟩ := fioSgioPrep_data hbs hd index hdvd
    rw [or_iff_right (not_not_intro hdvd)]
    constructor
    · rintro ⟨-, hrefused⟩
      refine Expressible.inReach (Classical.byContradiction fun hnot => ?_) hpos
      obtain ⟨error, herror, -⟩ := hrefused hnot
      exact nomatch hprep.symm.trans herror
    · intro hreach
      refine ⟨fun hdr' hprep' => ?_, fun hnot => absurd (hreach.expressible hdvd) hnot⟩
      cases Except.ok.inj (hprep.symm.trans hprep')
      have hoffset := Nat.div_mul_cancel hreach.1
      have hbuflen := Nat.div_mul_cancel hdvd
      rw [haddress, hblocks, Nat.mod_eq_of_lt hreach.2.1, Nat.mod_eq_of_lt hreach.2.2, Nat.add_mul]
      exact ⟨hoffset, by rw [hoffset, hbuflen], hlen⟩
  · have hrefused : fioSgioPrep bs index u = .error einval := if_pos ((buflen_and_ne_zero hbs).2 hdvd)
    refine iff_of_true ⟨fun hdr hprep => ?_, fun _ => ⟨einval, hrefused, by decide⟩⟩ (.inl hdvd)
    exact nomatch hrefused.symm.trans hprep

/-- 64k at 1m, in blocks of 512 bytes. -/
theorem sgEncodes_iff_secondMegabyte :
    SgEncodes 512 0 ⟨65536, 1048576, 0, 0, .data .read, some 0⟩ :=
  (sgEncodes_iff (show (512 : UInt32).toNat = 2 ^ 9 by decide) rfl 0).2
    (.inr ⟨by decide, by decide, by decide⟩)

/-- A job of the sg engine that reads a block device. -/
def sgReader : Options :=
  { fillDefThread ⟨true, false, false, true⟩ with filetype := .bd }

/-- A device of 8192 bytes that the job uses from byte 100 on. -/
def offsetDevice : FioFile :=
  ⟨true, 8092, 8192, 100, 0, FileMap.empty⟩

/-- The offset of the job is no multiple of the block size: the first command reads from byte 0. -/
theorem sgEncodes_offset_unaligned :
    ¬∀ (o : Options) (f f' : FioFile) (es : List (Option IoU)) (index : Nat),
      Run (GetCall (fixupOptions o) anyCall) f es f' →
      ∀ u ∈ transfers es, SgEncodes 512 index u := by
  intro h
  obtain ⟨f', hrun⟩ := replay_run (show replay (fixupOptions sgReader) anyCall [zeroEnv]
      (startJob (fixupOptions sgReader) 8092) offsetDevice =
        some [some ⟨4096, 100, 0, 0, .data .read, some 0⟩]
      by decide +kernel)
  have hencodes := h sgReader offsetDevice f' _ 0 hrun ⟨4096, 100, 0, 0, .data .read, some 0⟩ (by decide)
  obtain ⟨hdr, hprep, haddress, -⟩ := fioSgioPrep_data (d := .read)
    (u := ⟨4096, 100, 0, 0, .data .read, some 0⟩) (show (512 : UInt32).toNat = 2 ^ 9 by decide) rfl 0
    (by decide)
  have hfirst := (hencodes.1 hdr hprep).1
  rw [haddress] at hfirst
  exact absurd hfirst (by decide)

end Rtfsc.Fio
