import FreeAsd.Ipc.Ringbuf
import FreeAsd.Lib.Lists
import FreeAsd.Lib.Runs
import Mathlib.Data.Nat.ModEq

/-!
# Interleavings on the ring buffer

`Spsc.Inv` is what every interleaving of the two sides keeps: item number `k` is in slot `k % slot_count`
while it is in flight (`spsc_run`). Calls without interference are runs of one side alone, so that the ring
is a queue for callers that take turns (`Ringbuf.Holds`).
-/

namespace FreeAsd.Ipc

open Nat Function List Relation

/-! ## Indices and slots -/

/-- The offset of the slot of item number `k`. -/
def Ringbuf.slotOf (rb : Ringbuf) (k : ℕ) : ℕ := k % rb.slot_count * rb.slot_size

/-- What `ringbuf_init` makes sure of. -/
structure Ringbuf.Ok (rb : Ringbuf) : Prop where
  pow : ∃ k < 32, rb.slot_count = 2^k
  size : 0 < rb.slot_size

theorem ok_of_ringbufInit {slot_size slot_count : UInt32} {rb : Ringbuf}
    (h : ringbufInit slot_size slot_count = some rb) :
    rb.Ok ∧ rb.write_idx = 0 ∧ rb.read_idx = 0 ∧ rb.slot_size = slot_size.toNat ∧
      rb.slot_count = slot_count.toNat := by
  unfold ringbufInit at h
  split_ifs at h with hsize hcount
  cases h
  simp only [isPow2, not_or, Bool.not_eq_true', decide_eq_false_iff_not, not_not] at hsize hcount
  obtain ⟨⟨hne, hand⟩, -⟩ := hcount
  obtain ⟨k, hk⟩ := (and_sub_one_eq_zero_iff_isPowerOfTwo hne).mp hand
  refine ⟨⟨⟨k, ?_, hk⟩, pos_of_ne_zero hsize.1.1⟩, rfl, rfl, rfl, rfl⟩
  have hlt : 2^k < 2^32 := hk ▸ slot_count.toNat_lt
  exact (Nat.pow_lt_pow_iff_right (by decide)).mp hlt

namespace Ringbuf.Ok

variable {rb : Ringbuf} {i j k w r : ℕ}

theorem lt (h : rb.Ok) : rb.slot_count < 2^32 := by
  obtain ⟨k, hlt, hk⟩ := h.pow
  rw [hk]
  exact Nat.pow_lt_pow_right (by decide) hlt

/-- The mask finds the slot of an item from its index, although the index has wrapped. -/
theorem slotAt_eq (h : rb.Ok) (i : ℕ) : rb.slotAt (k % 2^64 + i) = rb.slotOf (k + i) := by
  obtain ⟨e, he, hcount⟩ := h.pow
  have hdvd : 2^e ∣ 2^64 := pow_dvd_pow 2 (by omega)
  unfold Ringbuf.slotAt Ringbuf.slotOf
  rw [hcount, and_two_pow_sub_one_eq_mod, mod_mod_of_dvd _ hdvd, add_mod, mod_mod_of_dvd _ hdvd, ← add_mod]

/-- The bytes of different slots are different. -/
theorem slotOf_ne (h : rb.Ok) {a b : ℕ} (hlt : k < w) (hw : w < k + rb.slot_count)
    (ha : a < rb.slot_size) (hb : b < rb.slot_size) : rb.slotOf k + a ≠ rb.slotOf w + b := by
  intro e
  unfold Ringbuf.slotOf at e
  have hdiv := congrArg (· / rb.slot_size) e
  simp only [add_comm _ a, add_comm _ b, add_mul_div_right _ _ h.size,
    div_eq_of_lt ha, div_eq_of_lt hb, zero_add] at hdiv
  -- Numbers with the same remainder differ by a multiple of `slot_count`.
  obtain ⟨d, hd⟩ := (modEq_iff_dvd' hlt.le).mp hdiv
  rcases d with _ | d
  · omega
  · rw [mul_succ] at hd
    have := le_add_left rb.slot_count (rb.slot_count * d)
    omega

end Ringbuf.Ok

variable {s : Spsc} {rb : Ringbuf} {size : ℕ}

/-! ## The invariant -/

/-- Two items agree on the bytes that both have. -/
def Agree (a b : List UInt8) : Prop := ∀ (j : ℕ) (x y : UInt8), a[j]? = some x → b[j]? = some y → x = y

/-- What holds of a producer: its index is the published one, and what it copies fits into the free
slots, and what it has copied is there. -/
def Spsc.ProducerOk (s : Spsc) : Prop :=
  match s.producer with
  | .idle => True
  | .loaded _ widx => widx = s.ring.write_idx
  | .copying c widx n done =>
    widx = s.ring.write_idx ∧ c.size ≤ s.ring.slot_size ∧
      s.pushed.length + n ≤ s.popped.length + s.ring.slot_count ∧ done ≤ n * c.size ∧
      ∀ d < done, s.ring.data (s.ring.slotOf (s.pushed.length + d / c.size) + d % c.size) = c.src d

/-- What holds of a consumer: its index is the published one, and what it copies are items in flight,
and what it has copied agrees with them. -/
def Spsc.ConsumerOk (s : Spsc) : Prop :=
  match s.consumer with
  | .idle => True
  | .loaded _ ridx => ridx = s.ring.read_idx
  | .copying c ridx n got =>
    ridx = s.ring.read_idx ∧ c.size ≤ s.ring.slot_size ∧ s.popped.length + n ≤ s.pushed.length ∧
      got.length ≤ n * c.size ∧
      ∀ (d : ℕ) (item : List UInt8) (x y : UInt8), got[d]? = some x →
        s.pushed[s.popped.length + d / c.size]? = some item → item[d % c.size]? = some y → x = y

/-- What every interleaving keeps. -/
structure Spsc.Inv (s : Spsc) : Prop where
  ok : s.ring.Ok
  le : s.popped.length ≤ s.pushed.length
  fits : s.pushed.length ≤ s.popped.length + s.ring.slot_count
  write : s.ring.write_idx = s.pushed.length % 2^64
  read : s.ring.read_idx = s.popped.length % 2^64
  sizes : ∀ item ∈ s.pushed, item.length ≤ s.ring.slot_size
  data : ∀ (k : ℕ) (item : List UInt8), s.popped.length ≤ k → s.pushed[k]? = some item →
    ∀ (j : ℕ) (x : UInt8), item[j]? = some x → s.ring.data (s.ring.slotOf k + j) = x
  agree : ∀ (k : ℕ) (a b : List UInt8), s.popped[k]? = some a → s.pushed[k]? = some b → Agree a b
  producer : s.ProducerOk
  consumer : s.ConsumerOk

theorem PushCall.length_item (c : PushCall) (i : ℕ) : (c.item i).length = c.size := by
  simp [PushCall.item]

theorem PushCall.getElem?_item {c : PushCall} {i j : ℕ} {x : UInt8} (h : (c.item i)[j]? = some x) :
    j < c.size ∧ x = c.src (i * c.size + j) := by
  have hj : j < c.size := c.length_item i ▸ (List.getElem?_eq_some_iff.mp h).1
  simp [PushCall.item, hj] at h
  exact ⟨hj, h.symm⟩

theorem PopCall.getElem?_item {c : PopCall} {got : List UInt8} {i j : ℕ} {x : UInt8}
    (h : (c.item got i)[j]? = some x) : j < c.size ∧ got[i * c.size + j]? = some x := by
  unfold PopCall.item at h
  rw [getElem?_take] at h
  split_ifs at h with hj
  rw [getElem?_drop] at h
  exact ⟨hj, h⟩

/-- The difference of the wrapped indices is the number of items in flight. -/
theorem Spsc.Inv.sub64_idx (h : s.Inv) :
    sub64 s.ring.write_idx s.ring.read_idx = s.pushed.length - s.popped.length := by
  have hlt := h.ok.lt
  have hle := h.le
  have hfits := h.fits
  rw [h.write, h.read, sub64]
  omega

/-- A push that is not refused copies items that fit into the free slots. A single push is refused as
full, and a batch is cut short, only if this leaves no free slot. -/
theorem Spsc.Inv.pushCount (h : s.Inv) (size : ℕ) (kind : CallKind) :
    (∀ n, s.ring.pushCount size s.ring.write_idx s.ring.read_idx kind = some n →
      size ≤ s.ring.slot_size ∧ s.pushed.length + n ≤ s.popped.length + s.ring.slot_count ∧
        ∀ m, kind = .batch m → n < m →
          s.pushed.length + n = s.popped.length + s.ring.slot_count) ∧
    (s.ring.pushCount size s.ring.write_idx s.ring.read_idx kind = none →
      size ≤ s.ring.slot_size → s.pushed.length = s.popped.length + s.ring.slot_count) := by
  have hsub := h.sub64_idx
  have hlt := h.ok.lt
  have hle := h.le
  have hfits := h.fits
  cases kind with
  | single =>
    simp only [Ringbuf.pushCount, hsub]
    split_ifs with hfull hsize
    · exact ⟨by simp, fun _ _ => by omega⟩
    · exact ⟨by simp, fun _ hs => by omega⟩
    · refine ⟨fun n hn => ?_, by simp⟩
      cases hn
      exact ⟨Nat.le_of_not_lt hsize, by omega, by simp⟩
  | batch m =>
    -- The difference fits 32 bits, so `avail` is the number of free slots.
    have havail : (s.ring.slot_count + 2^32 - (s.pushed.length - s.popped.length) % 2^32) % 2^32 =
        s.popped.length + s.ring.slot_count - s.pushed.length := by omega
    simp only [Ringbuf.pushCount, hsub, havail]
    split_ifs with hsize hcut
    · exact ⟨by simp, fun _ hs => by omega⟩
    · refine ⟨fun n hn => ?_, by simp⟩
      cases hn
      exact ⟨Nat.le_of_not_lt hsize, by omega, fun _ _ _ => by omega⟩
    · refine ⟨fun n hn => ?_, by simp⟩
      cases hn
      refine ⟨Nat.le_of_not_lt hsize, by omega, fun m' hm hlt => ?_⟩
      obtain rfl := CallKind.batch.inj hm
      exact absurd hlt (lt_irrefl _)

theorem Spsc.Inv.popCount (h : s.Inv) {n : ℕ} {kind : CallKind}
    (hn : s.ring.popCount size s.ring.read_idx s.ring.write_idx kind = some n) :
    size ≤ s.ring.slot_size ∧ s.popped.length + n ≤ s.pushed.length := by
  have hsub := h.sub64_idx
  have hle := h.le
  cases kind with
  | single =>
    simp only [Ringbuf.popCount] at hn
    split_ifs at hn with hempty hsize
    cases hn
    refine ⟨Nat.le_of_not_lt hsize, ?_⟩
    rw [h.read, h.write] at hempty
    rcases lt_or_ge s.popped.length s.pushed.length with hlt | hge
    · omega
    · exact absurd (by rw [le_antisymm hle hge]) hempty
  | batch m =>
    simp only [Ringbuf.popCount, hsub] at hn
    split_ifs at hn with hsize <;>
      exact ⟨by omega, by have := Option.some.inj hn; omega⟩

/-! ## The steps -/

/-- Byte `j` of item `i`, from its place among the bytes of all items. -/
theorem item_div_mod {i j : ℕ} (hj : j < size) : (i * size + j) / size = i ∧ (i * size + j) % size = j := by
  constructor
  · rw [add_comm, add_mul_div_right _ _ (by omega), div_eq_of_lt hj, zero_add]
  · rw [add_comm, add_mul_mod_self_right, mod_eq_of_lt hj]

theorem getElem?_append_map_range {α : Type*} {l : List α} {f : ℕ → α} {n k : ℕ} {x : α}
    (h : (l ++ (List.range n).map f)[k]? = some x) :
    l[k]? = some x ∨ ∃ i < n, k = l.length + i ∧ f i = x := by
  rcases lt_or_ge k l.length with hlt | hge
  · rw [getElem?_append_left hlt] at h
    exact .inl h
  · rw [getElem?_append_right hge] at h
    obtain ⟨hlt, hget⟩ := List.getElem?_eq_some_iff.mp h
    rw [length_map, length_range] at hlt
    exact .inr ⟨k - l.length, hlt, by omega, by simpa using hget⟩

/-- A byte written to a free slot: the items in flight are where they were. -/
theorem Spsc.Inv.write_free (h : s.Inv) {n i j : ℕ} {x : UInt8} (hi : i < n)
    (hj : j < s.ring.slot_size) (hn : s.pushed.length + n ≤ s.popped.length + s.ring.slot_count)
    {k : ℕ} {item : List UInt8} (hk : s.popped.length ≤ k) (hitem : s.pushed[k]? = some item)
    {b : ℕ} {y : UInt8} (hy : item[b]? = some y) :
    update s.ring.data (s.ring.slotOf (s.pushed.length + i) + j) x (s.ring.slotOf k + b) =
      y := by
  obtain ⟨hlt, hget⟩ := List.getElem?_eq_some_iff.mp hitem
  have hb : b < s.ring.slot_size := by
    have hsize := h.sizes item (hget ▸ getElem_mem hlt)
    have hlen := (List.getElem?_eq_some_iff.mp hy).1
    omega
  rw [update_of_ne (h.ok.slotOf_ne (by omega) (by omega) hb hj)]
  exact h.data k item hk hitem b y hy

theorem Spsc.Inv.produce (h : s.Inv) (c : PushCall) : (s.produce c).Inv := by
  have hp := h.producer
  unfold Spsc.ProducerOk at hp
  unfold Spsc.produce
  cases hprod : s.producer with
  | idle => exact { h with producer := rfl }
  | loaded c widx =>
    rw [hprod] at hp
    obtain rfl : widx = s.ring.write_idx := hp
    have hcount := (h.pushCount c.size c.kind).1
    dsimp only
    cases hn : s.ring.pushCount c.size s.ring.write_idx s.ring.read_idx c.kind with
    | none => exact { h with producer := trivial }
    | some n =>
      obtain ⟨hsize, hroom, -⟩ := hcount n hn
      exact { h with
        producer := ⟨rfl, hsize, hroom, zero_le _, fun d hd => absurd hd (not_lt_zero d)⟩ }
  | copying c widx n done =>
    rw [hprod] at hp
    obtain ⟨rfl, hsize, hroom, hdone, hcopied⟩ := hp
    dsimp only
    by_cases hmore : done < n * c.size
    · -- The next byte goes to a free slot.
      rw [if_pos hmore]
      have hpos : 0 < c.size := pos_of_ne_zero fun e => by simp [e] at hmore
      have hi : done / c.size < n := Nat.div_lt_of_lt_mul (by rwa [mul_comm])
      have hj : done % c.size < c.size := mod_lt _ hpos
      have hslot : s.ring.slotAt (s.ring.write_idx + done / c.size) =
          s.ring.slotOf (s.pushed.length + done / c.size) := by
        rw [h.write]
        exact h.ok.slotAt_eq _
      rw [hslot]
      refine { h with
        ok := ⟨h.ok.pow, h.ok.size⟩
        data := fun k item hk hitem b y hy => h.write_free hi (by omega) hroom hk hitem hy
        producer := ⟨rfl, hsize, hroom, hmore, fun d hd => ?_⟩ }
      show update s.ring.data _ _ (s.ring.slotOf (s.pushed.length + d / c.size) + d % c.size) = _
      rcases Nat.lt_succ_iff_lt_or_eq.mp hd with hlt | rfl
      · -- Bytes copied before are elsewhere, in the same slot or an earlier one.
        rw [update_of_ne, hcopied d hlt]
        rcases lt_or_ge (d / c.size) (done / c.size) with hq | hq
        · have hle := h.le
          have hb := mod_lt d hpos
          generalize d / c.size = q at hq ⊢
          exact h.ok.slotOf_ne (by omega) (by omega) (by omega) (by omega)
        · have hsame : d / c.size = done / c.size :=
            le_antisymm (Nat.div_le_div_right hlt.le) hq
          have hd1 := div_add_mod d c.size
          have hd2 := div_add_mod done c.size
          rw [hsame] at hd1 ⊢
          omega
      · rw [update_self]
    · -- The items are published.
      rw [if_neg hmore]
      have hall : done = n * c.size := by omega
      subst hall
      have hlen : (s.pushed ++ (List.range n).map c.item).length = s.pushed.length + n := by simp
      refine ⟨⟨h.ok.pow, h.ok.size⟩, ?_, ?_, ?_, h.read, ?_, ?_, ?_, trivial, ?_⟩
      · rw [hlen]
        exact h.le.trans (le_add_right _ _)
      · rw [hlen]
        exact hroom
      · rw [hlen]
        show (s.ring.write_idx + n) % 2^64 = _
        rw [h.write, mod_add_mod]
      · intro item hitem
        rcases mem_append.mp hitem with hold | hnew
        · exact h.sizes item hold
        · obtain ⟨i, -, rfl⟩ := mem_map.mp hnew
          rw [c.length_item i]
          exact hsize
      · intro k item hk hitem j x hx
        rcases getElem?_append_map_range hitem with hold | ⟨i, hin, rfl, rfl⟩
        · exact h.data k item hk hold j x hx
        obtain ⟨hj, rfl⟩ := PushCall.getElem?_item hx
        have hlt : i * c.size + j < n * c.size :=
          calc i * c.size + j < i * c.size + c.size := Nat.add_lt_add_left hj _
            _ = (i + 1) * c.size := (succ_mul i c.size).symm
            _ ≤ n * c.size := mul_le_mul_right _ hin
        have hbyte := hcopied _ hlt
        rwa [(item_div_mod hj).1, (item_div_mod hj).2] at hbyte
      · intro k a b ha hb
        have hlt : k < s.pushed.length := (List.getElem?_eq_some_iff.mp ha).1.trans_le h.le
        rw [getElem?_append_left hlt] at hb
        exact h.agree k a b ha hb
      · have hc := h.consumer
        unfold Spsc.ConsumerOk at hc ⊢
        dsimp only
        cases hcons : s.consumer with
        | idle => trivial
        | loaded c' ridx =>
          rw [hcons] at hc
          exact hc
        | copying c' ridx n' got =>
          rw [hcons] at hc
          obtain ⟨hidx, hsize', hin, hgot, hbytes⟩ := hc
          refine ⟨hidx, hsize', by rw [hlen]; omega, hgot, fun d item x y hx hitem hy => ?_⟩
          -- The items being read were published before.
          have hd : d / c'.size < n' := by
            have hdlt := (List.getElem?_eq_some_iff.mp hx).1
            exact Nat.div_lt_of_lt_mul (by rw [mul_comm]; omega)
          rw [getElem?_append_left (by omega)] at hitem
          exact hbytes d item x y hx hitem hy

theorem Spsc.Inv.consume (h : s.Inv) (c : PopCall) : (s.consume c).Inv := by
  have hc := h.consumer
  unfold Spsc.ConsumerOk at hc
  unfold Spsc.consume
  cases hcons : s.consumer with
  | idle => exact { h with consumer := rfl }
  | loaded c ridx =>
    rw [hcons] at hc
    obtain rfl : ridx = s.ring.read_idx := hc
    dsimp only
    cases hn : s.ring.popCount c.size s.ring.read_idx s.ring.write_idx c.kind with
    | none => exact { h with consumer := trivial }
    | some n =>
      obtain ⟨hsize, hin⟩ := h.popCount hn
      exact { h with consumer := ⟨rfl, hsize, hin, zero_le _, fun d item x y hx => by simp at hx⟩ }
  | copying c ridx n got =>
    rw [hcons] at hc
    obtain ⟨rfl, hsize, hin, hgot, hbytes⟩ := hc
    dsimp only
    by_cases hmore : got.length < n * c.size
    · have hslot : s.ring.slotAt (s.ring.read_idx + got.length / c.size) =
          s.ring.slotOf (s.popped.length + got.length / c.size) := by
        rw [h.read]
        exact h.ok.slotAt_eq _
      rw [if_pos hmore, hslot]
      refine { h with consumer := ⟨rfl, hsize, hin, ?_, fun d item x y hx hitem hy => ?_⟩ }
      · rw [length_append, length_singleton]
        exact hmore
      rcases getElem?_concat_eq_some.mp hx with hx | ⟨rfl, rfl⟩
      · exact hbytes d item x y hx hitem hy
      · -- The byte just read is that of an item in flight.
        exact h.data _ item (le_add_right _ _) hitem _ y hy
    · rw [if_neg hmore]
      have hlen : (s.popped ++ (List.range n).map (c.item got)).length = s.popped.length + n := by simp
      refine ⟨⟨h.ok.pow, h.ok.size⟩, ?_, ?_, h.write, ?_, h.sizes, ?_, ?_, ?_, trivial⟩
      · rw [hlen]
        exact hin
      · rw [hlen]
        exact h.fits.trans (by dsimp only; omega)
      · rw [hlen]
        show (s.ring.read_idx + n) % 2^64 = _
        rw [h.read, mod_add_mod]
      · intro k item hk
        rw [hlen] at hk
        exact h.data k item (by omega)
      · intro k a b ha hb
        rcases getElem?_append_map_range ha with hold | ⟨i, -, rfl, rfl⟩
        · exact h.agree k a b hold hb
        intro j x y hx hy
        obtain ⟨hj, hx⟩ := PopCall.getElem?_item hx
        exact hbytes _ b x y hx (by rw [(item_div_mod hj).1]; exact hb) (by rw [(item_div_mod hj).2]; exact hy)
      · have hp := h.producer
        unfold Spsc.ProducerOk at hp ⊢
        dsimp only
        cases hprod : s.producer with
        | idle => trivial
        | loaded c' widx =>
          rw [hprod] at hp
          exact hp
        | copying c' widx n' done =>
          rw [hprod] at hp
          obtain ⟨hidx, hsize', hroom, hdone, hcopied⟩ := hp
          exact ⟨hidx, hsize', by rw [hlen]; omega, hdone, hcopied⟩

/-! ## Runs -/

/-- The producer keeps the shape of the ring. -/
theorem shape_produce (s : Spsc) (c : PushCall) :
    (s.produce c).ring.slot_size = s.ring.slot_size ∧
      (s.produce c).ring.slot_count = s.ring.slot_count := by
  unfold Spsc.produce
  split
  · exact ⟨rfl, rfl⟩
  · split <;> exact ⟨rfl, rfl⟩
  · split_ifs <;> exact ⟨rfl, rfl⟩

/-- The consumer keeps the shape of the ring. -/
theorem shape_consume (s : Spsc) (c : PopCall) :
    (s.consume c).ring.slot_size = s.ring.slot_size ∧
      (s.consume c).ring.slot_count = s.ring.slot_count := by
  unfold Spsc.consume
  split
  · exact ⟨rfl, rfl⟩
  · split <;> exact ⟨rfl, rfl⟩
  · split_ifs <;> exact ⟨rfl, rfl⟩

/-- Every state that the two sides reach from a fresh ring. -/
theorem Spsc.Inv.of_run {slot_size slot_count : UInt32} (hinit : ringbufInit slot_size slot_count = some rb)
    (hrun : ReflTransGen SpscStep (.start rb) s) :
    s.Inv ∧ s.ring.slot_size = slot_size.toNat ∧ s.ring.slot_count = slot_count.toNat := by
  obtain ⟨hok, hw, hr, hshape⟩ := ok_of_ringbufInit hinit
  refine Runs.invariant (P := fun s => s.Inv ∧ s.ring.slot_size = slot_size.toNat ∧
    s.ring.slot_count = slot_count.toNat) hrun
    ⟨⟨hok, le_rfl, zero_le _, hw, hr, by simp [Spsc.start],
    fun k item _ hitem => by simp [Spsc.start] at hitem,
    fun k a b ha => by simp [Spsc.start] at ha, trivial, trivial⟩, hshape⟩ ?_
  rintro a b ⟨ha, hsize, hcount⟩ hs
  cases hs with
  | produce c =>
    obtain ⟨hs, hc⟩ := shape_produce a c
    exact ⟨ha.produce c, hs.trans hsize, hc.trans hcount⟩
  | consume c =>
    obtain ⟨hs, hc⟩ := shape_consume a c
    exact ⟨ha.consume c, hs.trans hsize, hc.trans hcount⟩

/-- Items that agree byte for byte and have the same size are the same. -/
theorem prefix_of_agree {popped pushed : List (List UInt8)} (hle : popped.length ≤ pushed.length)
    (hagree : ∀ (k : ℕ) (a b : List UInt8), popped[k]? = some a → pushed[k]? = some b → Agree a b)
    (hpushed : ∀ item ∈ pushed, item.length = size) (hpopped : ∀ item ∈ popped, item.length = size) :
    popped <+: pushed := by
  refine prefix_iff_eq_take.mpr (ext_getElem (by simpa using hle) fun k hk hk' => ?_)
  rw [getElem_take]
  have hkp : k < pushed.length := hk.trans_le hle
  have ha := hpopped _ (getElem_mem hk)
  have hb := hpushed _ (getElem_mem hkp)
  refine ext_getElem (ha.trans hb.symm) fun j hj hj' => ?_
  exact hagree k _ _ (getElem?_eq_getElem hk) (getElem?_eq_getElem hkp) j _ _
    (getElem?_eq_getElem hj) (getElem?_eq_getElem hj')

/-- In every interleaving of one producer and one consumer on a ring that `ringbuf_init` accepts, with
indices that wrap: each item popped agrees with the item pushed at the same place, so that items of one
size come out as a prefix of those pushed; no more than `slot_count` items are in flight; the producer
copies into the slot of none of them; a push of an item that fits is refused only if the published indices
leave no free slot, and a batch is cut short only by what is free. -/
theorem spsc_run {slot_size slot_count : UInt32} {rb : Ringbuf} {s : Spsc}
    (hinit : ringbufInit slot_size slot_count = some rb)
    (hrun : ReflTransGen SpscStep (.start rb) s) :
    s.ring.write_idx = s.pushed.length % 2^64 ∧ s.ring.read_idx = s.popped.length % 2^64 ∧
    s.popped.length ≤ s.pushed.length ∧
    (∀ (k : ℕ) (a b : List UInt8), s.popped[k]? = some a → s.pushed[k]? = some b → Agree a b) ∧
    (∀ size, (∀ item ∈ s.pushed, item.length = size) → (∀ item ∈ s.popped, item.length = size) →
      s.popped <+: s.pushed) ∧
    s.pushed.length ≤ s.popped.length + slot_count.toNat ∧
    (∀ c widx n done, s.producer = .copying c widx n done → done < n * c.size →
      ∀ k, s.popped.length ≤ k → k < s.pushed.length → ∀ a < s.ring.slot_size,
        s.ring.slotAt (widx + done / c.size) + done % c.size ≠ s.ring.slotOf k + a) ∧
    (∀ c widx, s.producer = .loaded c widx →
      s.ring.pushCount c.size widx s.ring.read_idx c.kind = none → c.size ≤ slot_size.toNat →
      s.pushed.length = s.popped.length + slot_count.toNat) ∧
    ∀ c widx m n, s.producer = .loaded c widx → c.kind = .batch m →
      s.ring.pushCount c.size widx s.ring.read_idx c.kind = some n → n < m →
      s.pushed.length + n = s.popped.length + slot_count.toNat := by
  obtain ⟨h, hslot, hcount⟩ := Spsc.Inv.of_run hinit hrun
  have hp := h.producer
  unfold Spsc.ProducerOk at hp
  refine ⟨h.write, h.read, h.le, h.agree, fun size => prefix_of_agree h.le h.agree, hcount ▸ h.fits, ?_, ?_, ?_⟩
  · intro c widx n done hprod hmore k hk hlt a ha
    rw [hprod] at hp
    obtain ⟨rfl, hsize, hroom, -⟩ := hp
    have hpos : 0 < c.size := pos_of_ne_zero fun e => by simp [e] at hmore
    have hi : done / c.size < n := Nat.div_lt_of_lt_mul (by rwa [mul_comm])
    have hj : done % c.size < c.size := mod_lt _ hpos
    rw [h.write, h.ok.slotAt_eq]
    generalize done / c.size = i at hi ⊢
    exact (h.ok.slotOf_ne (by omega) (by omega) ha (by omega)).symm
  · intro c widx hprod hrefused hsize
    rw [hprod] at hp
    obtain rfl : widx = s.ring.write_idx := hp
    rw [← hcount]
    exact (h.pushCount c.size c.kind).2 hrefused (hslot ▸ hsize)
  · intro c widx m n hprod hkind hn hlt
    rw [hprod] at hp
    obtain rfl : widx = s.ring.write_idx := hp
    rw [← hcount]
    exact ((h.pushCount c.size c.kind).1 n hn).2.2 m hkind hlt

/-- Pushes of 7 and 8, a pop, a push of 9 and one more that is refused, on two slots. -/
theorem spsc_run_refused : ∃ s : Spsc, s.popped = [[7]] ∧ s.pushed = [[7], [8], [9]] ∧
    s.popped <+: s.pushed ∧ ∃ c widx, s.producer = .loaded c widx ∧
      s.ring.pushCount c.size widx s.ring.read_idx c.kind = none ∧ c.size ≤ 8 ∧
      s.pushed.length = s.popped.length + 2 := by
  have hinit : ringbufInit 8 2 = some ⟨8, 2, 0, 0, fun _ => 0⟩ := rfl
  have hpush : ∀ s c, ReflTransGen SpscStep s ((Spsc.produce c)^[4] s) := fun s c =>
    (((ReflTransGen.single (.produce s c)).tail (.produce _ c)).tail (.produce _ c)).tail
      (.produce _ c)
  have hpop : ∀ s c, ReflTransGen SpscStep s ((Spsc.consume c)^[4] s) := fun s c =>
    (((ReflTransGen.single (.consume s c)).tail (.consume _ c)).tail (.consume _ c)).tail
      (.consume _ c)
  have hrun := ((((hpush (.start ⟨8, 2, 0, 0, fun _ => 0⟩) ⟨.single, 1, fun _ => 7⟩).trans
    (hpush _ ⟨.single, 1, fun _ => 8⟩)).trans (hpop _ ⟨.single, 1⟩)).trans
    (hpush _ ⟨.single, 1, fun _ => 9⟩)).tail (.produce _ ⟨.single, 1, fun _ => 10⟩)
  obtain ⟨-, -, -, -, hprefix, -, -, hrefused, -⟩ := spsc_run hinit hrun
  have hnone := hrefused ⟨.single, 1, fun _ => 10⟩ 3 rfl (by decide +kernel) (by decide)
  exact ⟨_, rfl, rfl, hprefix 1 (by decide) (by decide), _, _, rfl, by decide +kernel, by decide,
    hnone⟩

/-! ## Calls without interference -/

/-- Copying the bytes of one item, one step each. -/
theorem iterate_produce_copy (s : Spsc) (c' c : PushCall) (widx k : ℕ) (hk : k ≤ c.size) :
    (Spsc.produce c')^[k] { s with producer := .copying c widx 1 0 } =
      { s with
        ring := { s.ring with data := s.ring.data.copy (s.ring.slotAt widx) c.src 0 k }
        producer := .copying c widx 1 k } := by
  induction k with
  | zero =>
    have hcopy : s.ring.data.copy (s.ring.slotAt widx) c.src 0 0 = s.ring.data :=
      funext fun x => Mem.copy_of_notMem (by omega)
    rw [hcopy]
    rfl
  | succ k ih =>
    have hlt : k < 1 * c.size := by omega
    have hdiv : k / c.size = 0 := div_eq_of_lt (by omega)
    have hmod : k % c.size = k := mod_eq_of_lt (by omega)
    have hbyte : update (s.ring.data.copy (s.ring.slotAt widx) c.src 0 k)
        (s.ring.slotAt widx + k) (c.src (0 + k)) =
          s.ring.data.copy (s.ring.slotAt widx) c.src 0 (k + 1) := Mem.copy_succ
    rw [zero_add] at hbyte
    rw [iterate_succ_apply', ih (by omega), Spsc.produce]
    dsimp only
    rw [if_pos hlt, hdiv, hmod, add_zero]
    simp only [Spsc.mk.injEq, Ringbuf.mk.injEq, and_true, true_and]
    exact hbyte

/-- `ringbuf_push` is the producer running alone. -/
theorem ringbufPush_run {src : Mem} (hidle : s.producer = .idle)
    (h : ringbufPush s.ring src size = (true, rb)) :
    (Spsc.produce ⟨.single, size, src⟩)^[size + 3] s =
      { s with ring := rb, pushed := s.pushed ++ [(List.range size).map src] } := by
  obtain ⟨c, hc⟩ : ∃ c : PushCall, c = ⟨.single, size, src⟩ := ⟨_, rfl⟩
  have hsize : c.size = size := by rw [hc]
  have hitem : (List.range 1).map c.item = [(List.range size).map src] := by
    simp [range_succ, PushCall.item, hc]
  unfold ringbufPush at h
  split_ifs at h with hfull hbig
  · cases h
  · cases h
  obtain rfl := (Prod.mk.inj h).2
  have hcount : s.ring.pushCount c.size s.ring.write_idx s.ring.read_idx c.kind = some 1 := by
    rw [hc]
    simp only [Ringbuf.pushCount, if_neg hfull, if_neg hbig]
  have h1 : s.produce c = { s with producer := .loaded c s.ring.write_idx } := by
    unfold Spsc.produce
    rw [hidle]
  have h2 : (s.produce c).produce c = { s with producer := .copying c s.ring.write_idx 1 0 } := by
    rw [h1, Spsc.produce]
    dsimp only
    rw [hcount]
  rw [← hc, iterate_succ_apply, iterate_succ_apply, h2, ← hsize,
    iterate_succ_apply', iterate_produce_copy s c c _ _ le_rfl, Spsc.produce]
  dsimp only
  rw [if_neg (by omega), hitem, hidle, hc]

/-- Reading the bytes of one item, one step each. -/
theorem iterate_consume_copy (s : Spsc) (c' c : PopCall) (ridx k : ℕ) (hk : k ≤ c.size) :
    (Spsc.consume c')^[k] { s with consumer := .copying c ridx 1 [] } =
      { s with
        consumer := .copying c ridx 1
          ((List.range k).map fun j => s.ring.data (s.ring.slotAt ridx + j)) } := by
  induction k with
  | zero => rfl
  | succ k ih =>
    have hlen : ((List.range k).map fun j => s.ring.data (s.ring.slotAt ridx + j)).length = k := by
      simp
    have hlt : k < 1 * c.size := by omega
    have hdiv : k / c.size = 0 := div_eq_of_lt (by omega)
    have hmod : k % c.size = k := mod_eq_of_lt (by omega)
    rw [iterate_succ_apply', ih (by omega), Spsc.consume]
    dsimp only
    rw [hlen, if_pos hlt, hdiv, hmod, add_zero, range_succ, map_append]
    rfl

/-- `ringbuf_pop` is the consumer running alone. -/
theorem ringbufPop_run {buf buf' : Mem} (hidle : s.consumer = .idle)
    (h : ringbufPop s.ring buf size = (true, buf', rb)) :
    (Spsc.consume ⟨.single, size⟩)^[size + 3] s =
      { s with ring := rb, popped := s.popped ++ [(List.range size).map buf'] } := by
  generalize hc : (⟨.single, size⟩ : PopCall) = c
  have hsize : c.size = size := by rw [← hc]
  unfold ringbufPop at h
  split_ifs at h with hempty hbig
  · cases h
  · cases h
  obtain ⟨rfl, rfl⟩ := Prod.mk.inj (Prod.mk.inj h).2
  have hbuf : (List.range size).map (buf.copy 0 s.ring.data (s.ring.slotAt s.ring.read_idx) size) =
      (List.range size).map fun j => s.ring.data (s.ring.slotAt s.ring.read_idx + j) := by
    refine map_congr_left fun j hj => ?_
    have hcopy : buf.copy 0 s.ring.data (s.ring.slotAt s.ring.read_idx) size (0 + j) =
        s.ring.data (s.ring.slotAt s.ring.read_idx + j) := Mem.copy_of_mem (mem_range.mp hj)
    rwa [zero_add] at hcopy
  have hitem : ∀ got : List UInt8, got.length = size → (List.range 1).map (c.item got) = [got] := by
    intro got hgot
    simp [range_succ, PopCall.item, ← hc, ← hgot]
  have hcount : s.ring.popCount c.size s.ring.read_idx s.ring.write_idx c.kind = some 1 := by
    rw [← hc]
    simp only [Ringbuf.popCount, if_neg hempty, if_neg hbig]
  have h1 : s.consume c = { s with consumer := .loaded c s.ring.read_idx } := by
    unfold Spsc.consume
    rw [hidle]
  have h2 : (s.consume c).consume c = { s with consumer := .copying c s.ring.read_idx 1 [] } := by
    rw [h1, Spsc.consume]
    dsimp only
    rw [hcount]
  rw [iterate_succ_apply, iterate_succ_apply, h2, hbuf, ← hsize,
    iterate_succ_apply', iterate_consume_copy s c c _ _ le_rfl, Spsc.consume]
  dsimp only
  rw [if_neg (by simp), hitem _ (by simp [hsize]), hidle]

/-- The ring holds a queue of items, its callers being between calls. -/
def Ringbuf.Holds (rb : Ringbuf) (queue : List (List UInt8)) : Prop :=
  ∃ pushed popped, (Spsc.mk rb .idle .idle pushed popped).Inv ∧ queue = pushed.drop popped.length

theorem Spsc.Inv.iterate_produce (h : s.Inv) (c : PushCall) (n : ℕ) : ((Spsc.produce c)^[n] s).Inv :=
  Function.Iterate.rec (fun s : Spsc => s.Inv) h (fun _ hs => hs.produce c) n

theorem Spsc.Inv.iterate_consume (h : s.Inv) (c : PopCall) (n : ℕ) : ((Spsc.consume c)^[n] s).Inv :=
  Function.Iterate.rec (fun s : Spsc => s.Inv) h (fun _ hs => hs.consume c) n

/-- `ringbuf_init` makes an empty queue. -/
theorem holds_ringbufInit {slot_size slot_count : UInt32}
    (h : ringbufInit slot_size slot_count = some rb) : rb.Holds [] :=
  ⟨[], [], (Spsc.Inv.of_run h .refl).1, rfl⟩

/-- `ringbuf_push` appends to the queue, unless it is full. -/
theorem Ringbuf.Holds.push {queue : List (List UInt8)} (h : rb.Holds queue) (src : Mem)
    (hsize : size ≤ rb.slot_size) :
    ringbufPush rb src size = (false, rb) ∧ queue.length = rb.slot_count ∨
    ∃ rb', ringbufPush rb src size = (true, rb') ∧ rb'.Holds (queue ++ [(List.range size).map src]) ∧
      rb'.slot_size = rb.slot_size ∧ rb'.slot_count = rb.slot_count := by
  obtain ⟨pushed, popped, hinv, rfl⟩ := h
  by_cases hfull : sub64 rb.write_idx rb.read_idx = rb.slot_count
  · refine .inl ⟨if_pos hfull, ?_⟩
    have hsub : sub64 rb.write_idx rb.read_idx = pushed.length - popped.length := hinv.sub64_idx
    rw [length_drop, ← hsub, hfull]
  have hpush : ringbufPush rb src size = (true, { rb with
      data := rb.data.copy (rb.slotAt rb.write_idx) src 0 size
      write_idx := (rb.write_idx + 1) % 2^64 }) := by
    unfold ringbufPush
    rw [if_neg hfull, if_neg (by omega)]
  have hrun := ringbufPush_run (s := ⟨rb, .idle, .idle, pushed, popped⟩) rfl hpush
  refine .inr ⟨_, hpush, ⟨_, popped, hrun ▸ hinv.iterate_produce _ _, ?_⟩, rfl, rfl⟩
  exact (drop_append_of_le_length hinv.le).symm

/-- `ringbuf_pop` takes the first item of the queue, if there is one. -/
theorem Ringbuf.Holds.pop {queue : List (List UInt8)} (h : rb.Holds queue) (buf : Mem)
    (hsize : size ≤ rb.slot_size) :
    ringbufPop rb buf size = (false, buf, rb) ∧ queue = [] ∨
    ∃ item rest buf' rb', queue = item :: rest ∧ ringbufPop rb buf size = (true, buf', rb') ∧
      rb'.Holds rest ∧ (∀ (j : ℕ) (x : UInt8), j < size → item[j]? = some x → buf' j = x) ∧
      (∀ j, size ≤ j → buf' j = buf j) ∧
      rb'.slot_size = rb.slot_size ∧ rb'.slot_count = rb.slot_count := by
  obtain ⟨pushed, popped, hinv, rfl⟩ := h
  by_cases hempty : rb.read_idx = rb.write_idx
  · refine .inl ⟨if_pos hempty, ?_⟩
    have hsub : sub64 rb.write_idx rb.read_idx = pushed.length - popped.length := hinv.sub64_idx
    have hlt : rb.write_idx < 2^64 := by
      rw [show rb.write_idx = pushed.length % 2^64 from hinv.write]
      exact mod_lt _ (by decide)
    rw [hempty, sub64] at hsub
    exact drop_eq_nil_of_le (by omega)
  · generalize hbuf' : buf.copy 0 rb.data (rb.slotAt rb.read_idx) size = buf'
    have hpop : ringbufPop rb buf size = (true, buf', { rb with read_idx := (rb.read_idx + 1) % 2^64 }) := by
      unfold ringbufPop
      rw [if_neg hempty, if_neg (by omega), ← hbuf']
    have hrun := ringbufPop_run (s := ⟨rb, .idle, .idle, pushed, popped⟩) rfl hpop
    have hinv' := hrun ▸ hinv.iterate_consume ⟨.single, size⟩ (size + 3)
    have hlt : popped.length < pushed.length := by
      have hle := hinv'.le
      rw [length_append, length_singleton] at hle
      exact hle
    refine .inr ⟨pushed[popped.length], pushed.drop (popped.length + 1), buf', _,
      drop_eq_getElem_cons hlt, hpop, ⟨pushed, _, hinv', by simp⟩, fun j x hj hx => ?_,
      fun j hj => ?_, rfl, rfl⟩
    · refine hinv'.agree popped.length _ _ (getElem?_concat_length ..)
        (getElem?_eq_getElem hlt) j _ x ?_ hx
      simp [hj]
    · rw [← hbuf', Mem.copy_of_notMem (by omega)]

end FreeAsd.Ipc
