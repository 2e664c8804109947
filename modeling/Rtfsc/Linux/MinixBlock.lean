import Rtfsc.Machine.BlockTree
import Rtfsc.Machine.Run

/-!
# minix get_block

`get_block` with `create`, on one inode, in any number of calls at once. A step is a read of the inode, a
read of an indirect block, an allocation or a release of a block, or a critical section of
`pointers_lock`, each with what the call does by itself behind it: a new indirect block is filled before
anybody else can know of it.

`verify_chain` and the bitmap of `minix_new_block` are elsewhere. Whatever `verify_chain` answers is
allowed here; a new block is any block that is not in use.
-/

namespace Rtfsc.Linux

open Rtfsc.Machine

/-- What `block_to_path` looks at in the super block: `s_blocksize_bits` and `s_max_size`. -/
structure MinixSb where
  blocksizeBits : Nat
  maxSize : Nat

namespace MinixSb

/-- `s_blocksize` -/
def blocksize (sb : MinixSb) : Nat := 1 <<< sb.blocksizeBits

/-- `INDIRCOUNT` -/
def indircount (sb : MinixSb) : Nat := 1 <<< (sb.blocksizeBits - 2)

end MinixSb

/-- `DIRCOUNT` -/
def dircount : Nat := 7

/-- `block_to_path`: the offsets, none for a depth of 0. Blocks come from file offsets, so that no product
here is too long for its type. -/
def minixBlockToPath (sb : MinixSb) (block : Int) : List Nat :=
  if block < 0 then []
  else if block.toNat * sb.blocksize ≥ sb.maxSize then []
  else if block.toNat < dircount then [block.toNat]
  else
    let block := block.toNat - dircount
    if block < sb.indircount then [dircount, block]
    else
      let block := block - sb.indircount
      if block < sb.indircount * sb.indircount then
        [dircount + 1, block / sb.indircount, block % sb.indircount]
      else
        let block := block - sb.indircount * sb.indircount
        [dircount + 2, block / sb.indircount / sb.indircount, block / sb.indircount % sb.indircount,
          block % sb.indircount]

/-- How many levels there are below an entry of the inode: the direct blocks, then the three indirect
ones. -/
def minixLevels (zone : Nat) : Nat :=
  if zone < dircount then 1 else if zone < dircount + 3 then zone - dircount + 2 else 0

/-- `Indirect`, where `bh` is the buffer that the cell `p` is in. -/
structure Indirect where
  p : TreeCell Nat
  key : Nat
deriving DecidableEq

/-- `add_chain` -/
def addChain (cells : TreeCell Nat → Nat) (v : TreeCell Nat) : Indirect := ⟨v, cells v⟩

/-- What a call comes back with: the block that `map_bh` has put into the buffer head, and whether it is
`set_buffer_new`; or an error. -/
inductive MinixRet
  | mapped (blocknr : Nat) (isNew : Bool)
  | eio
  | enospc
deriving DecidableEq

/-- Where a call is. The chain is `p`, the last entry, and the ones `above` it, the nearest first; `offsets`
are those that come after the one for `p`. A branch has its blocks, the last one first. -/
inductive MinixPc
  /-- not called yet -/
  | called
  /-- at the label `reread` -/
  | reread
  /-- in `get_branch`, in front of `sb_bread` -/
  | bread (p : Indirect) (above : List Indirect) (offsets : List Nat)
  /-- in `get_branch`, in front of `read_lock` -/
  | readLock (p : Indirect) (above : List Indirect) (offsets : List Nat)
  /-- in `alloc_branch`, in front of `minix_new_block` -/
  | newBlock (p : Indirect) (above : List Indirect) (offsets : List Nat) (branch : List Nat)
  /-- in `splice_branch`, in front of `write_lock` -/
  | writeLock (p : Indirect) (above : List Indirect) (branch : List Nat)
  /-- in front of `minix_free_block`, at the end of `alloc_branch`, or of `splice_branch`, from where the
  call goes back to `reread` -/
  | freeBlock (blocks : List Nat) (again : Bool)
  | returned (ret : MinixRet)
deriving DecidableEq

namespace MinixPc

/-- The blocks that the call has allocated and not linked or given back. -/
def held : MinixPc → List Nat
  | .newBlock _ _ _ branch => branch
  | .writeLock _ _ branch => branch
  | .freeBlock blocks _ => blocks
  | _ => []

/-- The call is over, or has not begun. -/
def outside : MinixPc → Bool
  | .called => true
  | .returned _ => true
  | _ => false

/-- `get_branch` behind `add_chain`: a block is missing, or the chain is whole, or one more indirect block
has to be read. -/
def chained (p : Indirect) (above : List Indirect) (offsets : List Nat) : MinixPc :=
  if p.key = 0 then .newBlock p above offsets []
  else if offsets = [] then .returned (.mapped p.key false)
  else .bread p above offsets

/-- `alloc_branch` with one block more. -/
def allocated (p : Indirect) (above : List Indirect) (offsets : List Nat) (branch : List Nat) : MinixPc :=
  if offsets = [] then .writeLock p above branch else .newBlock p above offsets branch

/-- Some blocks of the branch have still to be given back. -/
def freed (blocks : List Nat) (again : Bool) : MinixPc :=
  if blocks = [] then if again then .reread else .returned .enospc else .freeBlock blocks again

end MinixPc

variable {ι : Type}

/-- The pointers, in the inode and in the indirect blocks; which blocks are in use; and the calls. -/
structure MinixInode (ι : Type) where
  cells : TreeCell Nat → Nat
  inUse : Nat → Bool
  pc : ι → MinixPc

/-- The steps of a call. `sb_bread` succeeds or not, and `minix_new_block` returns a block or 0. -/
inductive MinixEvent (ι : Type)
  | enter (c : ι)
  | readZone (c : ι)
  | bread (c : ι) (ok : Bool)
  | readLocked (c : ι)
  | newBlock (c : ι) (nr : Nat)
  | writeLocked (c : ι)
  | freeBlock (c : ι) (nr : Nat)
deriving DecidableEq

namespace MinixEvent

/-- Whose step it is. -/
def call : MinixEvent ι → ι
  | .enter c | .readZone c | .bread c _ | .readLocked c | .newBlock c _ | .writeLocked c
  | .freeBlock c _ => c

/-- The block is allocated. -/
def takes (b : Nat) : MinixEvent ι → Bool
  | .newBlock _ nr => nr == b
  | _ => false

/-- The block is given back. -/
def gives (b : Nat) : MinixEvent ι → Bool
  | .freeBlock _ nr => nr == b
  | _ => false

end MinixEvent

namespace MinixInode

variable [DecidableEq ι]

def setPc (s : MinixInode ι) (c : ι) (pc : MinixPc) : MinixInode ι :=
  { s with pc := Function.update s.pc c pc }

def setCells (s : MinixInode ι) (cells : TreeCell Nat → Nat) : MinixInode ι := { s with cells := cells }

def setInUse (s : MinixInode ι) (b : Nat) (inUse : Bool) : MinixInode ι :=
  { s with inUse := Function.update s.inUse b inUse }

variable (sb : MinixSb) (block : ι → Int) (verifyChain : (TreeCell Nat → Nat) → List Indirect → Bool)

/-- `minix_new_block` in `alloc_branch`. Every block but the first is entered into the block before it. -/
def newBlock (s : MinixInode ι) (c : ι) (nr : Nat) : Option (MinixInode ι) :=
  match s.pc c with
  | .newBlock p above offsets [] =>
    if nr = 0 then some (s.setPc c (.returned .enospc))
    else if s.inUse nr then none
    else some ((s.setInUse nr true).setPc c (.allocated p above offsets [nr]))
  | .newBlock p above (offset :: offsets) (parent :: branch) =>
    if nr = 0 then some (s.setPc c (.freed (parent :: branch).reverse false))
    else if s.inUse nr then none
    else
      some <| s.setInUse nr true
        |>.setCells (fillBlock s.cells parent offset nr)
        |>.setPc c (.allocated p above offsets (nr :: parent :: branch))
  | _ => none

/-- The critical section of `splice_branch`. -/
def writeLocked (s : MinixInode ι) (c : ι) : Option (MinixInode ι) :=
  match s.pc c with
  | .writeLock p above branch =>
    if verifyChain s.cells above = false ∨ s.cells p.p ≠ 0 then
      some (s.setPc c (.freed branch.reverse true))
    else
      some <| s.setCells (Function.update s.cells p.p (branch.getLastD 0))
        |>.setPc c (.returned (.mapped (branch.headD 0) true))
  | _ => none

/-- A step, where it is possible. -/
def step (s : MinixInode ι) : MinixEvent ι → Option (MinixInode ι)
  | .enter c =>
    match s.pc c with
    | .called =>
      some (s.setPc c (if minixBlockToPath sb (block c) = [] then .returned .eio else .reread))
    | _ => none
  | .readZone c =>
    match s.pc c, minixBlockToPath sb (block c) with
    | .reread, zone :: offsets => some (s.setPc c (.chained (addChain s.cells (.root zone)) [] offsets))
    | _, _ => none
  | .bread c ok =>
    match s.pc c with
    | .bread p above offsets =>
      some (s.setPc c (if ok then .readLock p above offsets else .returned .eio))
    | _ => none
  | .readLocked c =>
    match s.pc c with
    | .readLock p above (offset :: offsets) =>
      some (s.setPc c (if verifyChain s.cells (p :: above) then
        .chained (addChain s.cells (.entry p.key offset)) (p :: above) offsets else .reread))
    | _ => none
  | .newBlock c nr => s.newBlock c nr
  | .writeLocked c => s.writeLocked verifyChain c
  | .freeBlock c nr =>
    match s.pc c with
    | .freeBlock (b :: blocks) again =>
      if nr = b then some ((s.setInUse b false).setPc c (.freed blocks again)) else none
    | _ => none

/-- A step of a run. -/
def Step (s : MinixInode ι) (e : MinixEvent ι) (t : MinixInode ι) : Prop :=
  s.step sb block verifyChain e = some t

/-- Before the calls: the blocks of the inode are a tree, and are in use. -/
structure WellFormed (s : MinixInode ι) : Prop where
  tree : IsTree minixLevels s.cells
  used : ∀ b, InBlocks minixLevels s.cells b → s.inUse b = true
  called : ∀ c, s.pc c = .called

end MinixInode

end Rtfsc.Linux
