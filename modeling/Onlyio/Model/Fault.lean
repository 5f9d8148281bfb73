import Onlyio.Model.Number

/-!
# How a run can stop

Every panic site of the source is one constructor of `Panic`. The model runs with
overflow checks and debug assertions on, as `cargo test` builds the crate, so an arithmetic
overflow and a failed `debug_assert!` are panics too. The other faults are not panics: memory the
code must not touch, a program that `rustc` would refuse, and the two limits of the model itself.
-/

namespace Onlyio

/-- The panic sites of the source. -/
inductive Panic where
  /-- `handle_cqe_entry`, on `SyscallNbCompResult::Error`. -/
  | newerSqe
  /-- `handle_cqe_entry`: `task_info.tag.syscall_nb += 1`. -/
  | tagOverflow
  | incRcOverflow
  | incRcMask
  | addRcOverflow
  | addRcMask
  /-- `Task::release`: `*counter - 1`. -/
  | releaseUnderflow
  /-- Polling an `async` block that has returned. -/
  | resumed
  | indexOutOfBounds
  | slotLibre (i : SlabIdx)
  | removeOutOfBounds (i : SlabIdx) (len : UInt32)
  | removeLibre (i : SlabIdx)
  | slabFull
  | capacity
  /-- `SlabSlot::next_free`: `debug_assert!(self.is_free())`. -/
  | nextFree
  /-- `submit_and_wait`: `push_multiple` refuses the batch. -/
  | sqFull
  | entriesEmpty
  | readNoBufId
  | recvNoBufId
  /-- `checkout_read` and `read_buf_addr`: `debug_assert!(buf_idx < self.read_count)`. -/
  | readIndex
  /-- `BufPool::new`: `assert!(read_count > 0 && write_count > 0)`. -/
  | poolEmpty
  /-- `BufPool::new`: `read_count + write_count`. -/
  | poolSize
  | poolExhausted
  /-- The checked arithmetic and indexing on `write_rc`. -/
  | poolIndex
  | allocNotFree
  | cloneLibre
  | dropLibre
  | writeCqeLibre
  | writeRcOverflow
  /-- `decode_wbuf_udata`: its `debug_assert!`. -/
  | notWbufUdata
  /-- `WriteMultipleFuture::poll`: `*in_fligth_count - 1`. -/
  | inFlightUnderflow
  /-- `WriteMultipleFuture::poll`: `fds[gen_result as usize]`. -/
  | fdsIndex
  | duplicateGen
  /-- `SocketFuture::poll`: `unreachable!()`. -/
  | unreachable
  /-- `release_read_buf` inside `GLOBAL_RUNTIME.with_borrow_mut`. -/
  | borrowed
  deriving Repr, DecidableEq

/-- Why a run stops. -/
inductive Fault where
  | panic (p : Panic)
  /-- A `Task` handle is followed after its allocation was freed. -/
  | dangling
  /-- A slab slot outside the slab's allocation is read. -/
  | outOfSlab
  /-- `unreachable_unchecked` is reached. -/
  | unreachableUnchecked
  /-- The program uses a local it does not own, or at another type: not Rust. -/
  | illTyped
  /-- The kernel does something io_uring does not do: not a run. -/
  | notKernel
  /-- The poll has not ended within the model's fuel. -/
  | fuel
  deriving Repr, DecidableEq

end Onlyio
