import Onlyio.Model.Fault

/-!
# The slab (`task_slab.rs`)

A slot is one machine word: a task handle, whose bit 0 is `0` because `RawTask` is 32-aligned, or a
free link `(next << 1) | 1`. The free list runs through the links from `head`; `head == len` is
both "full" and the end of the list. All index arithmetic is on `u32`.

The handle type is a parameter: nothing here looks inside a task.
-/

namespace Onlyio

/-- `SlabSlot`: the union of a task handle and `idx: [u32; 2]`, of which `idx[1]` is always `0`. -/
inductive SlabSlot (α : Type) where
  | task (t : α)
  | idx (word : UInt32)
  deriving Repr, DecidableEq

/-- `Slab`: `slots` is the allocation behind `ptr`. -/
structure Slab (α : Type) where
  slots : List (SlabSlot α)
  head : UInt32
  len : UInt32
  taskCount : UInt32
  deriving Repr, DecidableEq

variable {α : Type}

/-- `SlabSlot::is_free`: bit 0 of `idx[0]`, which is `0` for a task. -/
def SlabSlot.isFree : SlabSlot α → Bool
  | .task _ => false
  | .idx word => word &&& 1 == 1

/-- `SlabSlot::is_task`. -/
def SlabSlot.isTask : SlabSlot α → Bool
  | .task _ => true
  | .idx word => word &&& 1 == 0

/-- `SlabSlot::next_free`, with its `debug_assert!(self.is_free())`. -/
def SlabSlot.nextFree : SlabSlot α → Except Fault UInt32
  | .task _ => .error (.panic .nextFree)
  | .idx word => if (SlabSlot.idx (α := α) word).isFree then .ok (word >>> 1)
    else .error (.panic .nextFree)

/-- The task in the slot, if there is one. -/
def SlabSlot.task? : SlabSlot α → Option α
  | .task t => some t
  | .idx _ => none

/-- `free_slot`. -/
def freeSlot (next : UInt32) : SlabSlot α := .idx (next <<< 1 ||| 1)

namespace Slab

/-- The chained slots `lo .. hi`: slot `i` links to `i + 1`, the last one to `hi`. Written by
`with_capacity` (from `0`) and by `growth` (from the old length). -/
def chained (lo hi : Nat) : List (SlabSlot α) :=
  (List.range' lo (hi - 1 - lo)).map (fun i => freeSlot (UInt32.ofNat (i + 1))) ++
    [freeSlot (UInt32.ofNat hi)]

/-- `Slab::with_capacity`, of a `NonZeroU32`. -/
def withCapacity (capacity : { c : UInt32 // c ≠ 0 }) : Except Fault (Slab α) :=
  let cap := capacity.val
  if cap ≤ 0xFFFFFFFF / 2 then
    .ok { slots := chained 0 cap.toNat, head := 0, len := cap, taskCount := 0 }
  else .error (.panic .capacity)

/-- `Slab::growth`: `realloc` keeps the old slots, the new ones are chained. `head` stays. -/
def growth (s : Slab α) : Except Fault (Slab α) :=
  let oldLen := s.len
  if oldLen = 0xFFFFFFFF then .error (.panic .slabFull)
  else
    let newLen := if oldLen.toNat * 2 < 2 ^ 32 then oldLen * 2 else 0xFFFFFFFF
    .ok { s with slots := s.slots ++ chained oldLen.toNat newLen.toNat, len := newLen }

/-- The rest of `Slab::insert`, once there is a free slot: advance `head` past the slot, then
overwrite it. -/
def fill (s : Slab α) (task : α) : Except Fault (SlabIdx × Slab α) :=
  match s.slots[s.head.toNat]? with
  | none => .error .outOfSlab
  | some slot =>
    match slot.nextFree with
    | .error e => .error e
    | .ok next =>
      .ok (s.head, { s with
        slots := s.slots.set s.head.toNat (.task task)
        head := next
        taskCount := s.taskCount + 1 })

/-- `Slab::insert`. Writing the index into the task (`set_task_idx`) is the caller's part. -/
def insert (s : Slab α) (task : α) : Except Fault (SlabIdx × Slab α) :=
  if s.head = s.len then
    match s.growth with
    | .error e => .error e
    | .ok s' => s'.fill task
  else s.fill task

/-- The part `Slab::remove` and `Slab::remove_dropped_task` share: the two assertions, then the
slot becomes the head of the free list. -/
def take (s : Slab α) (i : SlabIdx) : Except Fault (SlabSlot α × Slab α) :=
  if s.len ≤ i then .error (.panic (.removeOutOfBounds i s.len))
  else
    match s.slots[i.toNat]? with
    | none => .error .outOfSlab
    | some slot =>
      if slot.isTask then
        .ok (slot, { s with
          slots := s.slots.set i.toNat (freeSlot s.head)
          head := i
          taskCount := s.taskCount - 1 })
      else .error (.panic (.removeLibre i))

/-- `Slab::remove`: the task that was in the slot. A link word whose bit 0 is `0` is never
written, so the last case is unreachable. -/
def remove (s : Slab α) (i : SlabIdx) : Except Fault (α × Slab α) :=
  match s.take i with
  | .error e => .error e
  | .ok (.task t, s') => .ok (t, s')
  | .ok (.idx _, _) => .error .dangling

/-- `Slab::remove_dropped_task`. -/
def removeDroppedTask (s : Slab α) (i : SlabIdx) : Except Fault (Slab α) :=
  match s.take i with
  | .error e => .error e
  | .ok (_, s') => .ok s'

/-- `Index::index`, and `IndexMut::index_mut`: the handle in slot `i`. -/
def index (s : Slab α) (i : SlabIdx) : Except Fault α :=
  if s.len ≤ i then .error (.panic .indexOutOfBounds)
  else
    match s.slots[i.toNat]? with
    | none => .error .outOfSlab
    | some (.task t) => .ok t
    | some (.idx word) =>
      if (SlabSlot.idx (α := α) word).isTask then .error .dangling
      else .error (.panic (.slotLibre i))

/-- `Slab::count`. -/
def count (s : Slab α) : UInt32 := s.taskCount

/-- What slot `i` holds: the map the slab stands for. -/
def get? (s : Slab α) (i : SlabIdx) : Option α := (s.slots[i.toNat]?).bind SlabSlot.task?

end Slab

end Onlyio
