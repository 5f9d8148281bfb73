import Onlyio.Model.Fault

/-!
# Buffers (`buf_pool.rs`) and the provided-buffer ring

One allocation of `read_count + write_count` slots of `N` pages. The first `read_count` slots are
lent to the kernel through the `buf_ring`; the others are handed out by `alloc_write` and counted
per slot in `write_rc`. A slot's absolute index is its position in the table registered with
`register_buffers`.

Addresses are natural numbers, `base` is where the allocation starts. The `buf_ring` is memory: a
function from byte offsets to bytes, with the kernel's 16-byte entries and the 16-bit tail at
offset 14, inside the padding of entry 0.
-/

namespace Onlyio

/-- `PAGE_SIZE`. -/
def pageSize : Nat := 4096

/-- `BufPool`. -/
structure BufPool (N : Nat) where
  base : Nat
  readCount : UInt32
  /-- `VecDeque<u32>`, front first. -/
  writeFree : List UInt32
  /-- Indexed by `abs_idx - read_count`. -/
  writeRc : List UInt32
  deriving Repr, DecidableEq

/-- `RwBuffer`. -/
structure RwBuffer where
  ptr : Nat
  bufIdx : UInt32
  fdIdx : UInt32
  bytes : UInt32
  committed : Bool
  deriving Repr, DecidableEq

/-- `WBuffer`; its `pool` pointer always names the one pool of the runtime. -/
structure WBuffer where
  ptr : Nat
  absIdx : UInt32
  deriving Repr, DecidableEq

/-- `libc::iovec`. -/
structure Iovec where
  iovBase : Nat
  iovLen : Nat
  deriving Repr, DecidableEq

namespace BufPool

variable {N : Nat}

/-- `BufPool::BUF_SIZE`. -/
def bufSize (N : Nat) : Nat := N * pageSize

/-- `BufPool::new`, on an allocation that starts at `base`. -/
def new (base : Nat) (readCount writeCount : UInt32) : Except Fault (BufPool N) :=
  if readCount > 0 ∧ writeCount > 0 then
    if readCount.toNat + writeCount.toNat < 2 ^ 32 then
      .ok {
        base
        readCount
        writeFree := (List.range' readCount.toNat writeCount.toNat).map UInt32.ofNat
        writeRc := List.replicate writeCount.toNat 0 }
    else .error (.panic .poolSize)
  else .error (.panic .poolEmpty)

/-- `BufPool::write_buf_ptr`: `buf_id` counts from the first write slot. -/
def writeBufPtr (p : BufPool N) (bufId : UInt16) : Nat :=
  p.base + (p.readCount.toNat + bufId.toNat) * bufSize N

/-- `BufPool::read_buf_addr`. -/
def readBufAddr (p : BufPool N) (bufIdx : UInt32) : Except Fault Nat :=
  if bufIdx < p.readCount then .ok (p.base + bufIdx.toNat * bufSize N)
  else .error (.panic .readIndex)

/-- `BufPool::build_iovecs`: every slot, read and write. -/
def buildIovecs (p : BufPool N) : List Iovec :=
  let total := p.readCount.toNat + p.writeRc.length
  (List.range total).map fun i => { iovBase := p.base + i * bufSize N, iovLen := bufSize N }

/-- `BufPool::checkout_read`. -/
def checkoutRead (p : BufPool N) (bufIdx fdIdx bytes : UInt32) : Except Fault RwBuffer :=
  if bufIdx < p.readCount then
    .ok { ptr := p.base + bufIdx.toNat * bufSize N, bufIdx, fdIdx, bytes, committed := false }
  else .error (.panic .readIndex)

/-- `(abs_idx - read_count) as usize`, and the counter there. -/
def rcAt (p : BufPool N) (absIdx : UInt32) : Except Fault (Nat × UInt32) :=
  if absIdx < p.readCount then .error (.panic .poolIndex)
  else
    let rel := absIdx.toNat - p.readCount.toNat
    match p.writeRc[rel]? with
    | some rc => .ok (rel, rc)
    | none => .error (.panic .poolIndex)

/-- `BufPool::alloc_write`. -/
def allocWrite (p : BufPool N) : Except Fault (WBuffer × BufPool N) :=
  match p.writeFree with
  | [] => .error (.panic .poolExhausted)
  | absIdx :: writeFree => do
    let (rel, rc) ← p.rcAt absIdx
    if rc = 0 then
      .ok ({ ptr := p.base + absIdx.toNat * bufSize N, absIdx },
        { p with writeFree, writeRc := p.writeRc.set rel 1 })
    else .error (.panic .allocNotFree)

/-- `write_rc[rel] -= 1`, and the slot back to `write_free` at zero: the body of
`BufPool::on_write_cqe` and of `Drop for WBuffer`, which differ in their assertion's text. -/
def decRc (p : BufPool N) (absIdx : UInt32) (libre : Panic) : Except Fault (BufPool N) := do
  let (rel, rc) ← p.rcAt absIdx
  if rc > 0 then
    .ok { p with
      writeRc := p.writeRc.set rel (rc - 1)
      writeFree := if rc - 1 = 0 then p.writeFree ++ [absIdx] else p.writeFree }
  else .error (.panic libre)

/-- `BufPool::on_write_cqe`. -/
def onWriteCqe (p : BufPool N) (absIdx : UInt32) : Except Fault (BufPool N) :=
  p.decRc absIdx .writeCqeLibre

end BufPool

namespace WBuffer

variable {N : Nat}

/-- `Clone for WBuffer`: the handle is copied, the slot's counter goes up. -/
def clone (b : WBuffer) (p : BufPool N) : Except Fault (WBuffer × BufPool N) := do
  let (rel, rc) ← p.rcAt b.absIdx
  if rc > 0 then
    if rc.toNat + 1 < 2 ^ 32 then .ok (b, { p with writeRc := p.writeRc.set rel (rc + 1) })
    else .error (.panic .writeRcOverflow)
  else .error (.panic .cloneLibre)

/-- `Drop for WBuffer`. -/
def drop (b : WBuffer) (p : BufPool N) : Except Fault (BufPool N) :=
  p.decRc b.absIdx .dropLibre

/-- `WBuffer::index`: the `buf_index` of the SQE. -/
def index (b : WBuffer) : UInt16 := b.absIdx.toUInt16

end WBuffer

/-- The entry `WBuffer::write` builds. -/
structure WriteFixed where
  fd : UInt32
  ptr : Nat
  len : UInt32
  bufIndex : UInt16
  userData : UInt64
  deriving Repr, DecidableEq

/-- `WBuffer::write`: the entry is built, then `self` goes out of scope. -/
def WBuffer.write {N : Nat} (b : WBuffer) (fdIdx len : UInt32) (userData : UInt64)
    (p : BufPool N) : Except Fault (WriteFixed × BufPool N) := do
  let p ← b.drop p
  return ({ fd := fdIdx, ptr := b.ptr, len, bufIndex := b.index, userData }, p)

/-! ## The internal `user_data` -/

/-- `INTERNAL_FLAG`. -/
def internalFlag : UInt64 := (1 : UInt64) <<< (63 : UInt64)

/-- `wbuf_write_udata`. -/
def wbufWriteUdata (absIdx : UInt32) : UInt64 := internalFlag ||| absIdx.toUInt64

/-- `decode_wbuf_udata`. -/
def decodeWbufUdata (udata : UInt64) : Except Fault UInt32 :=
  if udata &&& internalFlag ≠ 0 ∧ udata >>> 32 = 1 then .ok (udata &&& 0xFFFFFFFF).toUInt32
  else .error (.panic .notWbufUdata)

/-- `is_internal_cqe`. -/
def isInternalCqe (udata : UInt64) : Bool := udata &&& internalFlag != 0

/-- `WBuffer::submit`: the entry is queued with `sqe_queue_push`, then `self` goes out of scope.
There is no `mem::forget`, so `Drop for WBuffer` runs as it does at the end of `write`. -/
def WBuffer.submit {N : Nat} (b : WBuffer) (fdIdx len : UInt32) (p : BufPool N) :
    Except Fault (WriteFixed × BufPool N) :=
  b.write fdIdx len (wbufWriteUdata b.absIdx) p

/-! ## Slices -/

/-- A `&[u8]` or `&mut [u8]`: where it starts, and how many bytes it has. -/
structure Slice where
  ptr : Nat
  len : Nat
  deriving Repr, DecidableEq

/-- `RwBuffer::read_slice`. -/
def RwBuffer.readSlice (b : RwBuffer) : Slice := ⟨b.ptr, b.bytes.toNat⟩

/-- `RwBuffer::write_slice`. -/
def RwBuffer.writeSlice (N : Nat) (b : RwBuffer) : Slice := ⟨b.ptr, BufPool.bufSize N⟩

/-- `WBuffer::write_slice`. -/
def WBuffer.writeSlice (N : Nat) (b : WBuffer) : Slice := ⟨b.ptr, BufPool.bufSize N⟩

/-- `Deref` and `DerefMut` for `WBuffer`. -/
def WBuffer.derefSlice (N : Nat) (b : WBuffer) : Slice := ⟨b.ptr, N * pageSize⟩

/-! ## The `buf_ring` -/

/-- The bytes of the `buf_ring`, by offset. -/
abbrev BufRing := Nat → UInt8

namespace BufRing

/-- Store the `n` low bytes of `v` at `off`, little-endian. -/
def write (mem : BufRing) (off n v : Nat) : BufRing := fun i =>
  if off ≤ i ∧ i < off + n then UInt8.ofNat (v / 256 ^ (i - off)) else mem i

/-- Load the 16-bit word at `off`. -/
def readU16 (mem : BufRing) (off : Nat) : Nat := (mem off).toNat + 256 * (mem (off + 1)).toNat

/-- One entry: address, length and buffer id. Bytes 14 and 15 of the entry are not written. -/
def writeEntry (mem : BufRing) (slot addr len bid : Nat) : BufRing :=
  ((mem.write slot 8 addr).write (slot + 8) 4 len).write (slot + 12) 2 bid

/-- `Runtime::new`, the ring set-up: every read slot is available, `tail = read_count`. -/
def new (base : Nat) (readCount : UInt32) : BufRing :=
  let zeroed : BufRing := fun _ => 0
  let filled : BufRing := (List.range readCount.toNat).foldl
    (fun (mem : BufRing) i =>
      mem.writeEntry (i * 16) (base + i * BufPool.bufSize 1) (BufPool.bufSize 1) i) zeroed
  filled.write 14 2 readCount.toNat

/-- `Runtime::release_buf_to_ring`. -/
def release (mem : BufRing) (p : BufPool 1) (bufIdx : UInt32) : Except Fault BufRing := do
  let mask := p.readCount.toNat - 1
  let tail := mem.readU16 14
  let slot := (tail &&& mask) * 16
  let addr ← p.readBufAddr bufIdx
  return (mem.writeEntry slot addr (BufPool.bufSize 1) bufIdx.toNat).write 14 2 (tail + 1)

end BufRing

end Onlyio
