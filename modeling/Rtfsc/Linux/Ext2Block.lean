import Rtfsc.Linux.MinixBlock

/-!
# ext2_get_blocks

`ext2_get_blocks` with `create`. What a call meets is in an `Ext2Env`: the pointers, as each look without
`truncate_mutex` sees them and as they are under it, and what may fail, which are the reads of indirect
blocks, `ext2_new_blocks`, `sb_getblk` and the zeroing of a DAX inode's new blocks.

Of `verify_chain` and `ext2_splice_branch` there is no source: the first is part of the environment, the
second is taken to store the first new block and, where no indirect block is new, the numbers behind it.
Goals of the allocation and the state of buffers are left out.
-/

namespace Rtfsc.Linux

open Rtfsc.Machine

/-- `EXT2_ADDR_PER_BLOCK_BITS`. A block has 1024 bytes at least. -/
structure Ext2Sb where
  ptrsBits : Nat
  eight_le : 8 ≤ ptrsBits

/-- `EXT2_ADDR_PER_BLOCK` -/
def Ext2Sb.ptrs (sb : Ext2Sb) : Nat := 1 <<< sb.ptrsBits

/-- `EXT2_NDIR_BLOCKS` -/
def ext2NdirBlocks : Nat := 12

/-- `ext2_block_to_path`: the offsets, none for a depth of 0, and how many blocks there are behind this one
in the last of the blocks on the way. -/
def ext2BlockToPath (sb : Ext2Sb) (iBlock : Int) : List Nat × Nat :=
  let ptrs := sb.ptrs
  if iBlock < 0 then ([], 0)
  else
    let block := iBlock.toNat
    if block < ext2NdirBlocks then ([block], ext2NdirBlocks - 1 - (block &&& (ptrs - 1)))
    else
      let block := block - ext2NdirBlocks
      if block < ptrs then ([ext2NdirBlocks, block], ptrs - 1 - (block &&& (ptrs - 1)))
      else
        let block := block - ptrs
        if block < 1 <<< (sb.ptrsBits * 2) then
          ([ext2NdirBlocks + 1, block >>> sb.ptrsBits, block &&& (ptrs - 1)],
            ptrs - 1 - (block &&& (ptrs - 1)))
        else
          let block := block - 1 <<< (sb.ptrsBits * 2)
          if block >>> (sb.ptrsBits * 2) < ptrs then
            ([ext2NdirBlocks + 2, block >>> (sb.ptrsBits * 2), (block >>> sb.ptrsBits) &&& (ptrs - 1),
              block &&& (ptrs - 1)], ptrs - 1 - (block &&& (ptrs - 1)))
          else ([], 0)

/-- How many levels there are below an entry of the inode. -/
def ext2Levels (zone : Nat) : Nat :=
  if zone < ext2NdirBlocks then 1
  else if zone < ext2NdirBlocks + 3 then zone - ext2NdirBlocks + 2 else 0

/-- The cell so many places behind a cell. -/
def cellPlus : TreeCell Nat → Nat → TreeCell Nat
  | .root zone, n => .root (zone + n)
  | .entry b i, n => .entry b (i + n)

/-- The errors: those of the reads and of memory are fixed, the others come from what was called. -/
inductive Ext2Err
  | eio
  | eagain
  | enomem
  | newBlocks (err : Nat)
  | zeroout (err : Nat)
deriving DecidableEq

/-- What a call returns: how many blocks are mapped, the first one, `boundary` and `new`; or an error. -/
inductive Ext2Ret
  | mapped (count bno : Nat) (boundary isNew : Bool)
  | error (err : Ext2Err)
deriving DecidableEq

/-- What a call meets. A look that does not have `truncate_mutex` sees the state of its moment, and a
read of an indirect block succeeds or not, each time. A call of `ext2_new_blocks`, with the blocks that are
in use and the number that is wanted, fails or has the first block and the number of blocks. -/
structure Ext2Env where
  seen : Nat → TreeCell Nat → Nat
  cells : TreeCell Nat → Nat
  bread : Nat → Bool
  breadAgain : Nat → Bool
  verifyChain : (TreeCell Nat → Nat) → List Indirect → Bool
  newBlocks : Nat → (Nat → Bool) → Nat → Except Ext2Err (Nat × Nat)
  getblk : Nat → Bool
  isDax : Bool
  zeroout : Nat → Nat → Option Ext2Err

/-! ## Looking up -/

/-- What `ext2_get_branch` returns: the whole chain, or where it has stopped, with the offsets that are
left, and why, if not for a missing block. -/
inductive Ext2Branch
  | whole (p : Indirect) (above : List Indirect)
  | stopped (p : Indirect) (above : List Indirect) (offsets : List Nat) (err : Option Ext2Err)

/-- The loop of `ext2_get_branch`, behind the `add_chain` for `p`. -/
def ext2GetBranchLoop (read : Nat → TreeCell Nat → Nat) (bread : Nat → Bool)
    (verifyChain : (TreeCell Nat → Nat) → List Indirect → Bool) (k : Nat) (p : Indirect)
    (above : List Indirect) : List Nat → Ext2Branch
  | [] => if p.key = 0 then .stopped p above [] none else .whole p above
  | offset :: offsets =>
    if p.key = 0 then .stopped p above (offset :: offsets) none
    else if bread k = false then .stopped p above (offset :: offsets) (some .eio)
    else if verifyChain (read (k + 1)) (p :: above) = false then
      .stopped p above (offset :: offsets) (some .eagain)
    else
      ext2GetBranchLoop read bread verifyChain (k + 1) (addChain (read (k + 1)) (.entry p.key offset))
        (p :: above) offsets

/-- `ext2_get_branch` -/
def ext2GetBranch (read : Nat → TreeCell Nat → Nat) (bread : Nat → Bool)
    (verifyChain : (TreeCell Nat → Nat) → List Indirect → Bool) (zone : Nat) (offsets : List Nat) :
    Ext2Branch :=
  ext2GetBranchLoop read bread verifyChain 0 (addChain (read 0) (.root zone)) [] offsets

/-- The loop that maps more blocks behind the first one, `left` times at most; none when the chain has
changed. One round sees one state. -/
def ext2MapMore (read : Nat → TreeCell Nat → Nat)
    (verifyChain : (TreeCell Nat → Nat) → List Indirect → Bool) (p : Indirect) (above : List Indirect) :
    Nat → Nat → Option Nat
  | 0, count => some count
  | left + 1, count =>
    if verifyChain (read count) (p :: above) = false then none
    else if read count (cellPlus p.p count) = p.key + count then
      ext2MapMore read verifyChain p above left (count + 1)
    else some count

/-- What a call does after it has looked: it comes back, or it allocates what is missing behind `p`. -/
inductive Ext2Plan
  | done (ret : Ext2Ret)
  | allocate (p : Indirect) (offsets : List Nat)

namespace Ext2Env

variable (env : Ext2Env)

/-- The second `ext2_get_branch`, under `truncate_mutex`. Its error is not looked at. -/
def lookAgain (zone : Nat) (offsets : List Nat) (boundary : Nat) : Ext2Plan :=
  match ext2GetBranch (fun _ => env.cells) env.breadAgain env.verifyChain zone offsets with
  | .whole p _ => .done (.mapped 1 p.key (decide (boundary < 1)) false)
  | .stopped p _ rest _ => .allocate p rest

/-- `ext2_get_blocks` up to the allocation. -/
def lookUp (zone : Nat) (offsets : List Nat) (boundary maxblocks : Nat) : Ext2Plan :=
  match ext2GetBranch env.seen env.bread env.verifyChain zone offsets with
  | .whole p above =>
    match ext2MapMore (fun i => env.seen (offsets.length + i)) env.verifyChain p above
        (min maxblocks (boundary + 1) - 1) 1 with
    | some count => .done (.mapped count p.key (decide (boundary < count)) false)
    | none => env.lookAgain zone offsets boundary
  | .stopped p above rest err =>
    if err = some .eio then .done (.error .eio)
    else if err = some .eagain ∨ env.verifyChain env.cells (p :: above) = false then
      env.lookAgain zone offsets boundary
    else .allocate p rest

end Ext2Env

/-! ## Allocating -/

/-- The pointers, which blocks are in use, and how many calls of `ext2_new_blocks` there have been. For the
record, the blocks that were taken and given back. -/
structure Ext2Disk where
  cells : TreeCell Nat → Nat
  inUse : Nat → Bool
  calls : Nat
  taken : List Nat
  given : List Nat

namespace Ext2Disk

def setCells (s : Ext2Disk) (cells : TreeCell Nat → Nat) : Ext2Disk := { s with cells := cells }

/-- `ext2_new_blocks` has succeeded. -/
def take (s : Ext2Disk) (first count : Nat) : Ext2Disk :=
  { s with
    inUse := fun b => decide (b ∈ List.range' first count) || s.inUse b
    calls := s.calls + 1
    taken := s.taken ++ List.range' first count }

/-- `ext2_free_blocks` -/
def freeBlocks (s : Ext2Disk) (first count : Nat) : Ext2Disk :=
  { s with
    inUse := fun b => !decide (b ∈ List.range' first count) && s.inUse b
    given := s.given ++ List.range' first count }

/-- Blocks are given back one by one. -/
def freeEach (s : Ext2Disk) (blocks : List Nat) : Ext2Disk :=
  blocks.foldl (fun s b => s.freeBlocks b 1) s

end Ext2Disk

/-- `ext2_blks_to_allocate` for the last level: the free cells behind `p`. -/
def ext2CountFree (cells : TreeCell Nat → Nat) (p : TreeCell Nat) : Nat → Nat → Nat
  | 0, count => count
  | left + 1, count => if cells (cellPlus p count) = 0 then ext2CountFree cells p left (count + 1) else count

/-- `ext2_blks_to_allocate` -/
def ext2BlksToAllocate (cells : TreeCell Nat → Nat) (p : TreeCell Nat) (k blks boundary : Nat) : Nat :=
  if 0 < k then if blks < boundary + 1 then blks else boundary + 1
  else ext2CountFree cells p (min blks (boundary + 1) - 1) 1

/-- A block is cleared, and a run of entries gets the numbers of blocks one behind the other. -/
def fillRun (cells : TreeCell Nat → Nat) (block index first count : Nat) : TreeCell Nat → Nat
  | .root zone => cells (.root zone)
  | .entry b i =>
    if b = block then if index ≤ i ∧ i < index + count then first + (i - index) else 0
    else cells (.entry b i)

/-- `ext2_splice_branch`, as it is taken to be. -/
def ext2SpliceBranch (cells : TreeCell Nat → Nat) (p : TreeCell Nat) (num first count : Nat) :
    TreeCell Nat → Nat :=
  if num = 0 then
    (List.range count).foldl (fun cells i => Function.update cells (cellPlus p i) (first + i)) cells
  else Function.update cells p first

namespace Ext2Env

variable (env : Ext2Env)

/-- The loop of `ext2_alloc_blocks`: `left` indirect blocks are still missing behind those in `ind`. When
it succeeds there are all of them, the first data block and the number of data blocks. -/
def allocBlocks (blks : Nat) : Nat → Ext2Disk → Nat → List Nat →
    Option (Ext2Disk × Except Ext2Err (List Nat × Nat × Nat))
  | 0, _, _, _ => none
  | fuel + 1, s, left, ind =>
    match env.newBlocks s.calls s.inUse (blks + left) with
    | .error err => some (s.freeEach ind, .error err)
    | .ok (current, count) =>
      if left < count then
        some (s.take current count,
          .ok (ind ++ List.range' current left, current + left, count - left))
      else allocBlocks blks fuel (s.take current count) (left - count) (ind ++ List.range' current count)

/-- The loop of `ext2_alloc_branch`: each indirect block is cleared and gets the next one, and the last one
the data blocks. -/
def linkBlocks (first num : Nat) : Nat → (TreeCell Nat → Nat) → List Nat → List Nat →
    Except (TreeCell Nat → Nat) (TreeCell Nat → Nat)
  | _, cells, [], _ => .ok cells
  | _, cells, _ :: _, [] => .ok cells
  | n, cells, [parent], offset :: _ =>
    if env.getblk n = false then .error cells else .ok (fillRun cells parent offset first num)
  | n, cells, parent :: b :: ind, offset :: offsets =>
    if env.getblk n = false then .error cells
    else linkBlocks first num (n + 1) (fillBlock cells parent offset b) (b :: ind) offsets

/-- `ext2_alloc_branch` -/
def allocBranch (s : Ext2Disk) (blks : Nat) (offsets : List Nat) :
    Option (Ext2Disk × Except Ext2Err (List Nat × Nat × Nat)) :=
  match env.allocBlocks blks (offsets.length + 1) s offsets.length [] with
  | none => none
  | some (s, .error err) => some (s, .error err)
  | some (s, .ok (ind, first, num)) =>
    match env.linkBlocks first num 1 s.cells ind offsets with
    | .ok cells => some (s.setCells cells, .ok (ind, first, num))
    | .error cells =>
      some (((s.setCells cells).freeEach ind).freeBlocks first num, .error .enomem)

/-- The state in which a call allocates. -/
def start (inUse : Nat → Bool) : Ext2Disk := ⟨env.cells, inUse, 0, [], []⟩

/-- How many data blocks `ext2_get_blocks` asks for. -/
def wanted (p : Indirect) (offsets : List Nat) (boundary maxblocks : Nat) : Nat :=
  ext2BlksToAllocate env.cells p.p offsets.length maxblocks boundary

/-- `ext2_get_blocks` from the allocation on. -/
def allocate (s : Ext2Disk) (p : Indirect) (offsets : List Nat) (boundary maxblocks : Nat) :
    Option (Ext2Disk × Ext2Ret) :=
  match env.allocBranch s (env.wanted p offsets boundary maxblocks) offsets with
  | none => none
  | some (s, .error err) => some (s, .error err)
  | some (s, .ok (ind, first, num)) =>
    match if env.isDax then env.zeroout first num else none with
    | some err => some (s, .error err)
    | none =>
      let spliced := ext2SpliceBranch s.cells p.p offsets.length (ind.headD first) num
      some (s.setCells spliced, .mapped num first (decide (boundary < num)) true)

/-- `ext2_get_blocks`. Of the blocks only the record is looked at where the call does not allocate. -/
def getBlocks (sb : Ext2Sb) (inUse : Nat → Bool) (iblock : Int) (maxblocks : Nat) :
    Option (Ext2Disk × Ext2Ret) :=
  match ext2BlockToPath sb iblock with
  | ([], _) => some (env.start inUse, .error .eio)
  | (zone :: offsets, boundary) =>
    match env.lookUp zone offsets boundary maxblocks with
    | .done ret => some (env.start inUse, ret)
    | .allocate p rest => env.allocate (env.start inUse) p rest boundary maxblocks

end Ext2Env

end Rtfsc.Linux
