import FreeAsd.Ipc.Ringbuf

/-!
# Batches on the ring buffer

`ringbuf_push_batch` and `ringbuf_pop_batch` of `kernel/ipc/ringbuf.h` against the calls for one item, both
described by the ring after `k` items (`Ringbuf.pushed`, `Ringbuf.popped`).
-/

namespace FreeAsd.Ipc

open Ringbuf

/-- The fields have the widths of their types. -/
structure Ringbuf.Wide (rb : Ringbuf) : Prop where
  slot_count : rb.slot_count < 2^32
  write_idx : rb.write_idx < 2^64
  read_idx : rb.read_idx < 2^64

/-- The data after the loop of `ringbuf_push_batch` has copied a number of items. -/
def Ringbuf.pushSlots (rb : Ringbuf) (items : Mem) (item_size : ℕ) : ℕ → Mem
  | 0 => rb.data
  | i + 1 =>
    (rb.pushSlots items item_size i).copy (rb.slotAt (rb.write_idx + i)) items (i * item_size) item_size

/-- The buffer after the loop of `ringbuf_pop_batch` has copied a number of items. -/
def Ringbuf.popSlots (rb : Ringbuf) (buf : Mem) (item_size : ℕ) : ℕ → Mem
  | 0 => buf
  | i + 1 =>
    (rb.popSlots buf item_size i).copy (i * item_size) rb.data (rb.slotAt (rb.read_idx + i)) item_size

/-- The ring after `k` items have been pushed. -/
def Ringbuf.pushed (rb : Ringbuf) (items : Mem) (item_size k : ℕ) : Ringbuf :=
  { rb with data := rb.pushSlots items item_size k, write_idx := (rb.write_idx + k) % 2^64 }

/-- The ring after `k` items have been popped. -/
def Ringbuf.popped (rb : Ringbuf) (k : ℕ) : Ringbuf :=
  { rb with read_idx := (rb.read_idx + k) % 2^64 }

/-- `ringbuf_push_batch`: the number of items that it has pushed. -/
def ringbufPushBatch (rb : Ringbuf) (items : Mem) (item_size n : ℕ) : ℕ × Ringbuf :=
  match rb.pushCount item_size rb.write_idx rb.read_idx (.batch n) with
  | none => (0, rb)
  | some n => (n, rb.pushed items item_size n)

/-- `ringbuf_pop_batch`: the number of items that it has popped, and the buffer. -/
def ringbufPopBatch (rb : Ringbuf) (buf : Mem) (item_size n : ℕ) : ℕ × Mem × Ringbuf :=
  match rb.popCount item_size rb.read_idx rb.write_idx (.batch n) with
  | none => (0, buf, rb)
  | some n => (n, rb.popSlots buf item_size n, rb.popped n)

/-- `ringbuf_push` for item number `i` and the `n - 1` items after it, until it fails. -/
def pushEach (items : Mem) (item_size : ℕ) : ℕ → ℕ → Ringbuf → ℕ × Ringbuf
  | _, 0, rb => (0, rb)
  | i, n + 1, rb =>
    let pushed := ringbufPush rb (fun j => items (i * item_size + j)) item_size
    if pushed.1 then
      let rest := pushEach items item_size (i + 1) n pushed.2
      (rest.1 + 1, rest.2)
    else (0, pushed.2)

/-- Memory with other bytes from an address on. -/
def place (buf : Mem) (a : ℕ) (bytes : Mem) : Mem := fun x => if x < a then buf x else bytes (x - a)

/-- `ringbuf_pop` to the place of item number `i` and to the `n - 1` places after it, until it fails. -/
def popEach (item_size : ℕ) : ℕ → ℕ → Mem → Ringbuf → ℕ × Mem × Ringbuf
  | _, 0, buf, rb => (0, buf, rb)
  | i, n + 1, buf, rb =>
    let popped := ringbufPop rb (fun j => buf (i * item_size + j)) item_size
    let buf := place buf (i * item_size) popped.2.1
    if popped.1 then
      let rest := popEach item_size (i + 1) n buf popped.2.2
      (rest.1 + 1, rest.2)
    else (0, buf, popped.2.2)

/-- A copy to the start of the rest of a buffer is a copy into the buffer. -/
theorem place_copy (buf src : Mem) (a b n : ℕ) :
    place buf a (Mem.copy (fun j => buf (a + j)) 0 src b n) = buf.copy a src b n := by
  funext x
  unfold place Mem.copy
  by_cases hx : x < a
  · rw [if_pos hx, if_neg (by omega)]
  · rw [if_neg hx, Nat.sub_zero]
    refine if_congr (by omega) rfl ?_
    exact congrArg buf (Nat.add_sub_cancel' (Nat.le_of_not_lt hx))

theorem place_self (buf : Mem) (a : ℕ) : place buf a (fun j => buf (a + j)) = buf := by
  funext x
  unfold place
  split_ifs with hx
  · rfl
  · exact congrArg buf (Nat.add_sub_cancel' (Nat.le_of_not_lt hx))

section

variable {rb : Ringbuf} {items buf : Mem} {item_size used k n : ℕ}

/-! ## One item -/

theorem pushed_zero (hwide : rb.Wide) : rb.pushed items item_size 0 = rb := by
  rw [pushed, pushSlots, add_zero, Nat.mod_eq_of_lt hwide.write_idx]

theorem popped_zero (hwide : rb.Wide) : rb.popped 0 = rb := by
  rw [popped, add_zero, Nat.mod_eq_of_lt hwide.read_idx]

variable (hwide : rb.Wide) (hused : sub64 rb.write_idx rb.read_idx = used)

include hwide hused

/-- The difference of the indices counts the items pushed, as long as they fit. -/
theorem sub64_pushed (items : Mem) (item_size : ℕ) (hfits : used + k ≤ rb.slot_count) :
    sub64 (rb.pushed items item_size k).write_idx rb.read_idx = used + k := by
  have hcount := hwide.slot_count
  have hread := hwide.read_idx
  simp only [sub64, pushed] at hused ⊢
  omega

/-- With a free slot, a push goes from `k` items to `k + 1`. -/
theorem ringbufPush_pushed (hsize : item_size ≤ rb.slot_size) (hfree : used + k < rb.slot_count) :
    ringbufPush (rb.pushed items item_size k) (fun j => items (k * item_size + j)) item_size =
      (true, rb.pushed items item_size (k + 1)) := by
  have hdiff := sub64_pushed hwide hused items item_size hfree.le
  have hroom : ¬ sub64 (rb.pushed items item_size k).write_idx (rb.pushed items item_size k).read_idx =
      (rb.pushed items item_size k).slot_count := fun h =>
    hfree.ne (hdiff.symm.trans h)
  have hslotSize : ¬ item_size > (rb.pushed items item_size k).slot_size := not_lt.mpr hsize
  have hslot : (rb.pushed items item_size k).slotAt (rb.pushed items item_size k).write_idx =
      rb.slotAt (rb.write_idx + k) := by
    simp only [slotAt, pushed, Nat.mod_mod]
  have hnext : ((rb.pushed items item_size k).write_idx + 1) % 2^64 = (rb.write_idx + (k + 1)) % 2^64 := by
    simp only [pushed]
    omega
  have hdata : (rb.pushed items item_size k).data.copy (rb.slotAt (rb.write_idx + k))
      (fun j => items (k * item_size + j)) 0 item_size = rb.pushSlots items item_size (k + 1) := by
    funext x
    simp only [Mem.copy, pushSlots, pushed, Nat.zero_add]
  unfold ringbufPush
  rw [if_neg hroom, if_neg hslotSize, hslot, hnext, hdata]
  rfl

/-- Without one, it fails and changes nothing. -/
theorem ringbufPush_full (hfull : used + k = rb.slot_count) (src : Mem) :
    ringbufPush (rb.pushed items item_size k) src item_size =
      (false, rb.pushed items item_size k) := by
  have hdiff : sub64 (rb.pushed items item_size k).write_idx (rb.pushed items item_size k).read_idx =
      (rb.pushed items item_size k).slot_count :=
    (sub64_pushed hwide hused items item_size hfull.le).trans hfull
  unfold ringbufPush
  rw [if_pos hdiff]

/-- The indices meet exactly when all used slots have been popped. -/
theorem popped_empty_iff (hk : k ≤ used) : (rb.popped k).read_idx = (rb.popped k).write_idx ↔ k = used := by
  have hwrite := hwide.write_idx
  have hread := hwide.read_idx
  simp only [sub64, popped] at hused ⊢
  omega

/-- With a used slot, a pop goes from `k` items to `k + 1` and delivers the item. -/
theorem ringbufPop_popped (hsize : item_size ≤ rb.slot_size) (hk : k < used) (bytes : Mem) :
    ringbufPop (rb.popped k) bytes item_size =
      (true, bytes.copy 0 rb.data (rb.slotAt (rb.read_idx + k)) item_size, rb.popped (k + 1)) := by
  have hne : ¬ (rb.popped k).read_idx = (rb.popped k).write_idx := fun h =>
    hk.ne ((popped_empty_iff hwide hused hk.le).mp h)
  have hslotSize : ¬ item_size > (rb.popped k).slot_size := not_lt.mpr hsize
  have hslot : (rb.popped k).slotAt (rb.popped k).read_idx = rb.slotAt (rb.read_idx + k) := by
    simp only [slotAt, popped, Nat.mod_mod]
  have hnext : ((rb.popped k).read_idx + 1) % 2^64 = (rb.read_idx + (k + 1)) % 2^64 := by
    simp only [popped]
    omega
  unfold ringbufPop
  rw [if_neg hne, if_neg hslotSize, hslot, hnext]
  rfl

/-- Without one, it fails and changes nothing. -/
theorem ringbufPop_empty (hk : k = used) (bytes : Mem) :
    ringbufPop (rb.popped k) bytes item_size = (false, bytes, rb.popped k) := by
  have hempty := (popped_empty_iff hwide hused hk.le).mpr hk
  unfold ringbufPop
  rw [if_pos hempty]

/-! ## Many items -/

variable (hsize : item_size ≤ rb.slot_size)

include hsize

/-- Pushes of one item at a time stop at the last free slot. -/
theorem pushEach_eq (items : Mem) (n k : ℕ) (hfits : used + k ≤ rb.slot_count) :
    pushEach items item_size k n (rb.pushed items item_size k) =
      (min n (rb.slot_count - (used + k)),
        rb.pushed items item_size (k + min n (rb.slot_count - (used + k)))) := by
  induction n generalizing k with
  | zero => rw [pushEach, zero_min, add_zero]
  | succ n ih =>
    rcases hfits.lt_or_eq with hfree | hfull
    · -- The rest is pushed from a ring with one item more, and with one slot less.
      have hmin : min n (rb.slot_count - (used + (k + 1))) + 1 =
          min (n + 1) (rb.slot_count - (used + k)) := by omega
      have hsum : k + 1 + min n (rb.slot_count - (used + (k + 1))) =
          k + min (n + 1) (rb.slot_count - (used + k)) := by omega
      rw [pushEach, ringbufPush_pushed hwide hused hsize hfree]
      dsimp only
      rw [if_pos rfl, ih (k + 1) (by omega), hmin, hsum]
    · have hnone : min (n + 1) (rb.slot_count - (used + k)) = 0 := by omega
      rw [pushEach, ringbufPush_full hwide hused hfull, hnone, add_zero]
      rfl

/-- Pops of one item at a time stop at the last used slot. -/
theorem popEach_eq (buf : Mem) (n k : ℕ) (hk : k ≤ used) :
    popEach item_size k n (rb.popSlots buf item_size k) (rb.popped k) =
      (min n (used - k), rb.popSlots buf item_size (k + min n (used - k)),
        rb.popped (k + min n (used - k))) := by
  induction n generalizing k with
  | zero => rw [popEach, zero_min, add_zero]
  | succ n ih =>
    rcases hk.lt_or_eq with hlt | hall
    · have hmin : min n (used - (k + 1)) + 1 = min (n + 1) (used - k) := by omega
      have hsum : k + 1 + min n (used - (k + 1)) = k + min (n + 1) (used - k) := by omega
      rw [popEach, ringbufPop_popped hwide hused hsize hlt]
      dsimp only
      rw [if_pos rfl, place_copy, ← popSlots, ih (k + 1) (by omega), hmin, hsum]
    · have hnone : min (n + 1) (used - k) = 0 := by omega
      rw [popEach, ringbufPop_empty hwide hused hall, hnone]
      rw [if_neg Bool.false_ne_true, place_self, add_zero]

/-- The number of items of a batch: the cut to 32 bits loses nothing of the difference. -/
theorem pushCount_batch (hfits : used ≤ rb.slot_count) :
    rb.pushCount item_size rb.write_idx rb.read_idx (.batch n) =
      some (min n (rb.slot_count - used)) := by
  have hcount := hwide.slot_count
  have havail : (rb.slot_count + 2^32 - used % 2^32) % 2^32 = rb.slot_count - used := by omega
  have hmin : (if rb.slot_count - used < n then rb.slot_count - used else n) =
      min n (rb.slot_count - used) := by
    split_ifs <;> omega
  unfold pushCount
  dsimp only
  rw [hused, havail, if_neg (not_lt.mpr hsize), hmin]

theorem popCount_batch (hfits : used ≤ rb.slot_count) :
    rb.popCount item_size rb.read_idx rb.write_idx (.batch n) = some (min n used) := by
  have hcount := hwide.slot_count
  have havail : used % 2^32 = used := Nat.mod_eq_of_lt (by omega)
  have hmin : (if used < n then used else n) = min n used := by
    split_ifs <;> omega
  unfold popCount
  dsimp only
  rw [hused, havail, if_neg (not_lt.mpr hsize), hmin]

end

/-- A batch is the calls for its items one after the other until one fails: the same number of items,
the same ring, and for pops the same bytes. -/
theorem batch_eq_each (rb : Ringbuf) (hwide : rb.Wide)
    (hfits : sub64 rb.write_idx rb.read_idx ≤ rb.slot_count) (item_size : ℕ)
    (hsize : item_size ≤ rb.slot_size) (n : ℕ) :
    (∀ items, ringbufPushBatch rb items item_size n = pushEach items item_size 0 n rb) ∧
      ∀ buf, ringbufPopBatch rb buf item_size n = popEach item_size 0 n buf rb := by
  obtain ⟨used, hused⟩ : ∃ used, sub64 rb.write_idx rb.read_idx = used := ⟨_, rfl⟩
  rw [hused] at hfits
  constructor
  · intro items
    have heach := pushEach_eq hwide hused hsize items n 0 hfits
    rw [pushed_zero hwide, Nat.zero_add, add_zero] at heach
    rw [heach, ringbufPushBatch, pushCount_batch hwide hused hsize hfits]
  · intro buf
    have heach := popEach_eq hwide hused hsize buf n 0 (Nat.zero_le used)
    rw [popped_zero hwide, Nat.zero_add, Nat.sub_zero] at heach
    rw [ringbufPopBatch, popCount_batch hwide hused hsize hfits]
    exact heach.symm

/-- A ring of two slots with one item in it, whose write index is about to wrap. -/
def wrapping : Ringbuf := ⟨8, 2, 2^64 - 1, 2^64 - 2, fun _ => 7⟩

/-- At the wrap, a batch of three items has room for one. -/
theorem batch_eq_each_wrapping :
    (ringbufPushBatch wrapping (fun _ => 1) 8 3).1 = 1 ∧
      (∀ items, ringbufPushBatch wrapping items 8 3 = pushEach items 8 0 3 wrapping) ∧
      ∀ buf, ringbufPopBatch wrapping buf 8 3 = popEach 8 0 3 buf wrapping :=
  ⟨by decide, batch_eq_each wrapping ⟨by decide, by decide, by decide⟩ (by decide) 8 (by decide) 3⟩

end FreeAsd.Ipc
