import FreeAsd.Lib.Bytes
import Mathlib.Data.List.Basic

/-!
# The ring buffer

`kernel/ipc/ringbuf.h`. A `Spsc` is the ring with its producer and consumer in the middle of their calls. A
side takes one step at a time: a load of an index with its tests, the copy of one byte, or a store. The ghost
lists `pushed` and `popped` grow at the stores. `ringbufPush` and `ringbufPop` are whole calls.
-/

namespace FreeAsd.Ipc

/-- `is_pow2`. -/
def isPow2 (n : ℕ) : Bool := n ≠ 0 ∧ n &&& (n - 1) = 0

/-- `ringbuf_t`, with the data that follows it. -/
structure Ringbuf where
  slot_size : ℕ
  slot_count : ℕ
  write_idx : ℕ
  read_idx : ℕ
  data : Mem

/-- `ringbuf_init`. -/
def ringbufInit (slot_size slot_count : UInt32) : Option Ringbuf :=
  if !isPow2 slot_size.toNat ∨ slot_size < 8 then none
  else if !isPow2 slot_count.toNat ∨ slot_count < 2 then none
  else some ⟨slot_size.toNat, slot_count.toNat, 0, 0, fun _ => 0⟩

/-- Subtraction of 64-bit indices. -/
def sub64 (a b : ℕ) : ℕ := (a + 2^64 - b) % 2^64

/-- The offset of the slot of an index in the data. -/
def Ringbuf.slotAt (rb : Ringbuf) (idx : ℕ) : ℕ :=
  (idx % 2^64 &&& (rb.slot_count - 1)) * rb.slot_size

/-- A call for one item (`ringbuf_push`, `ringbuf_pop`) or for up to `n` items (`ringbuf_push_batch`,
`ringbuf_pop_batch`). -/
inductive CallKind
  | single
  | batch (n : ℕ)
deriving DecidableEq

/-- The number of items that a push copies, after both loads; `none` if it returns at once. -/
def Ringbuf.pushCount (rb : Ringbuf) (size widx ridx : ℕ) : CallKind → Option ℕ
  | .single =>
    if sub64 widx ridx = rb.slot_count then none
    else if size > rb.slot_size then none
    else some 1
  | .batch n =>
    let avail := (rb.slot_count + 2^32 - sub64 widx ridx % 2^32) % 2^32
    let n := if avail < n then avail else n
    if size > rb.slot_size then none else some n

/-- The number of items that a pop copies, after both loads; `none` if it returns at once. -/
def Ringbuf.popCount (rb : Ringbuf) (size ridx widx : ℕ) : CallKind → Option ℕ
  | .single =>
    if ridx = widx then none
    else if size > rb.slot_size then none
    else some 1
  | .batch n =>
    let avail := sub64 widx ridx % 2^32
    let n := if avail < n then avail else n
    if size > rb.slot_size then none else some n

/-! ## The two sides -/

/-- A call of the producer: items of `size` bytes, one after the other in `src`. -/
structure PushCall where
  kind : CallKind
  size : ℕ
  src : Mem

/-- A call of the consumer, for items of `size` bytes. -/
structure PopCall where
  kind : CallKind
  size : ℕ

/-- Where the producer is: between calls, after the load of `write_idx`, or with `done` of the bytes
of `n` items copied. -/
inductive Producer
  | idle
  | loaded (c : PushCall) (widx : ℕ)
  | copying (c : PushCall) (widx n done : ℕ)

/-- Where the consumer is. `got` is what it has copied to its buffer. -/
inductive Consumer
  | idle
  | loaded (c : PopCall) (ridx : ℕ)
  | copying (c : PopCall) (ridx n : ℕ) (got : List UInt8)

/-- The ring, the two sides, and the items published by each. -/
structure Spsc where
  ring : Ringbuf
  producer : Producer
  consumer : Consumer
  pushed : List (List UInt8)
  popped : List (List UInt8)

/-- The beginning. -/
def Spsc.start (rb : Ringbuf) : Spsc := ⟨rb, .idle, .idle, [], []⟩

/-- Item number `i` of a call of the producer. -/
def PushCall.item (c : PushCall) (i : ℕ) : List UInt8 :=
  (List.range c.size).map fun j => c.src (i * c.size + j)

/-- Item number `i` of what the consumer has copied. -/
def PopCall.item (c : PopCall) (got : List UInt8) (i : ℕ) : List UInt8 :=
  (got.drop (i * c.size)).take c.size

/-- One step of the producer, which begins the call `c` if it is between calls. -/
def Spsc.produce (c : PushCall) (s : Spsc) : Spsc :=
  match s.producer with
  | .idle => { s with producer := .loaded c s.ring.write_idx }
  | .loaded c widx =>
    match s.ring.pushCount c.size widx s.ring.read_idx c.kind with
    | none => { s with producer := .idle }
    | some n => { s with producer := .copying c widx n 0 }
  | .copying c widx n done =>
    if done < n * c.size then
      let off := s.ring.slotAt (widx + done / c.size) + done % c.size
      { s with
        ring := { s.ring with data := Function.update s.ring.data off (c.src done) }
        producer := .copying c widx n (done + 1) }
    else
      { s with
        ring := { s.ring with write_idx := (widx + n) % 2^64 }
        producer := .idle
        pushed := s.pushed ++ (List.range n).map c.item }

/-- One step of the consumer, which begins the call `c` if it is between calls. -/
def Spsc.consume (c : PopCall) (s : Spsc) : Spsc :=
  match s.consumer with
  | .idle => { s with consumer := .loaded c s.ring.read_idx }
  | .loaded c ridx =>
    match s.ring.popCount c.size ridx s.ring.write_idx c.kind with
    | none => { s with consumer := .idle }
    | some n => { s with consumer := .copying c ridx n [] }
  | .copying c ridx n got =>
    if got.length < n * c.size then
      let off := s.ring.slotAt (ridx + got.length / c.size) + got.length % c.size
      { s with consumer := .copying c ridx n (got ++ [s.ring.data off]) }
    else
      { s with
        ring := { s.ring with read_idx := (ridx + n) % 2^64 }
        consumer := .idle
        popped := s.popped ++ (List.range n).map (c.item got) }

/-- Either side takes a step. -/
inductive SpscStep : Spsc → Spsc → Prop
  | produce (s : Spsc) (c : PushCall) : SpscStep s (s.produce c)
  | consume (s : Spsc) (c : PopCall) : SpscStep s (s.consume c)

/-! ## Calls without interference -/

/-- `ringbuf_push`, with nothing in between. -/
def ringbufPush (rb : Ringbuf) (src : Mem) (size : ℕ) : Bool × Ringbuf :=
  if sub64 rb.write_idx rb.read_idx = rb.slot_count then (false, rb)
  else if size > rb.slot_size then (false, rb)
  else (true, { rb with
    data := rb.data.copy (rb.slotAt rb.write_idx) src 0 size
    write_idx := (rb.write_idx + 1) % 2^64 })

/-- `ringbuf_pop`, with nothing in between: the buffer is the one given, with the item copied to
it. -/
def ringbufPop (rb : Ringbuf) (buf : Mem) (size : ℕ) : Bool × Mem × Ringbuf :=
  if rb.read_idx = rb.write_idx then (false, buf, rb)
  else if size > rb.slot_size then (false, buf, rb)
  else (true, buf.copy 0 rb.data (rb.slotAt rb.read_idx) size,
    { rb with read_idx := (rb.read_idx + 1) % 2^64 })

end FreeAsd.Ipc
