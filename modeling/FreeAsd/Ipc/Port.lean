import FreeAsd.Ipc.RingbufRuns

/-!
# Message ports

`port_send` and `port_recv` of `kernel/ipc/port.c`. `live` has the buffers that `kmalloc` has given to ports.
In a run (`PortStep`) `kmalloc` returns blocks that overlap no live buffer, and the rest of the kernel writes
whatever is in none. Only long messages arrive as sent (`port_recv_intact_iff`).
-/

namespace FreeAsd.Ipc

open Function List Mem Relation

variable {s : Ports} {queue : List (List UInt8)} {msg : Mem} {len : ℕ}

/-- `MAX_PORTS`. -/
def maxPorts : ℕ := 1024

/-- `PORT_MSG_MAX`. -/
def portMsgMax : ℕ := 4096

/-- `PORT_INLINE_MAX`. -/
def portInlineMax : ℕ := 56

/-- `sizeof(port_slot_t)`: the type and the length in four bytes each, and the payload. -/
def portSlotSize : ℕ := 64

/-- `port_obj_t`, as far as messages go. `waiter` is the process blocked in `port_recv`. -/
structure PortObj where
  id : ℕ
  ring : Ringbuf
  waiter : Option ℕ

/-- `g_port_table` and the kernel's memory, with the length of the live buffer at each address. -/
structure Ports where
  table : ℕ → PortObj
  mem : Mem
  live : ℕ → Option ℕ

/-- `port_find_by_id`. -/
def Ports.find (s : Ports) (id : ℕ) : Option PortObj :=
  if id = 0 ∨ id > maxPorts then none
  else if (s.table (id - 1)).id = id then some (s.table (id - 1)) else none

/-- Write back a port. -/
def Ports.set (s : Ports) (id : ℕ) (p : PortObj) : Ports :=
  { s with table := Function.update s.table (id - 1) p }

/-- The slot of a short message. A length below that of the header wraps. -/
def inlineSlot (msg : Mem) (len : ℕ) : Mem :=
  let rest := (len + 2^64 - 8) % 2^64
  let slot := Mem.wr (fun _ => 0) 4 4 len
  let slot := slot.copy 8 msg 8 (if rest < portInlineMax then rest else portInlineMax)
  slot.wr 0 4 (msg.rd 0 4)

/-- The slot of a longer message, which has been copied to `ptr`. -/
def outOfLineSlot (msg : Mem) (len ptr : ℕ) : Mem :=
  let slot := Mem.wr (fun _ => 0) 4 4 len
  let slot := slot.wr 8 8 ptr
  slot.wr 0 4 (msg.rd 0 4)

/-- The loop of `port_send`: try to push while the queue is full. -/
def pushRetry (slot : Mem) : ℕ → Ringbuf → Bool × Ringbuf
  | 0, rb => (false, rb)
  | tries + 1, rb =>
    let r := ringbufPush rb slot portSlotSize
    if r.1 then r else pushRetry slot tries r.2

/-- The number of tries. -/
def sendTries : ℕ := 1000

/-- The end of `port_send`: push the slot, and wake the receiver. Returns the process woken. -/
def Ports.pushSlot (s : Ports) (id : ℕ) (p : PortObj) (slot : Mem) : Bool × Option ℕ × Ports :=
  let r := pushRetry slot sendTries p.ring
  if r.1 then (true, p.waiter, s.set id { p with ring := r.2, waiter := none })
  else (false, none, s.set id { p with ring := r.2 })

/-- `port_send`, where `kmalloc` returns `buf` if it is called. -/
def portSend (s : Ports) (id : ℕ) (msg : Mem) (len : ℕ) (buf : Option ℕ) :
    Bool × Option ℕ × Ports :=
  if len = 0 ∨ len > portMsgMax then (false, none, s)
  else
    match s.find id with
    | none => (false, none, s)
    | some p =>
      if len ≤ portInlineMax then s.pushSlot id p (inlineSlot msg len)
      else
        match buf with
        | none => (false, none, s)
        | some ptr =>
          let s := { s with
            mem := s.mem.copy ptr msg 0 len
            live := Function.update s.live ptr (some len) }
          s.pushSlot id p (outOfLineSlot msg len ptr)

/-- What comes of a call of `port_recv`: an error, a sleep until the next message, or `*len_out` and
the buffer. -/
inductive RecvResult
  | error
  | blocked (s : Ports)
  | done (len_out : ℕ) (buf : Mem) (s : Ports)

/-- The loop of `port_recv` up to its next sleep, on the port `p` with the id `id`. -/
def recvLoop (s : Ports) (id : ℕ) (p : PortObj) (buf : Mem) (cap cur : ℕ) : RecvResult :=
  match ringbufPop p.ring (fun _ => 0) portSlotSize with
  | (false, _, _) => .blocked (s.set id { p with waiter := some cur })
  | (true, slot, ring) =>
    let s := s.set id { p with ring }
    let payload_len := slot.rd 4 4
    if payload_len ≤ portInlineMax then
      let buf := (buf.wr 0 4 (slot.rd 0 4)).wr 4 4 payload_len
      let copy := if payload_len < cap - 8 then payload_len else cap - 8
      .done (8 + copy) (buf.copy 8 slot 8 copy) s
    else
      let ptr := slot.rd 8 8
      let copy := if payload_len < cap then payload_len else cap
      .done copy (buf.copy 0 s.mem ptr copy) { s with live := Function.update s.live ptr none }

/-- `port_recv` by process `cur`, with a buffer of `cap` bytes, up to its first sleep. -/
def portRecv (s : Ports) (id : ℕ) (buf : Mem) (cap cur : ℕ) : RecvResult :=
  if cap < portSlotSize then .error
  else
    match s.find id with
    | none => .error
    | some p => recvLoop s id p buf cap cur

/-! ## Runs -/

/-- The ports, with the messages accepted by each port and the number of those delivered. -/
structure PortRun where
  ports : Ports
  sent : ℕ → List (Mem × ℕ)
  received : ℕ → ℕ

/-- A block that `kmalloc` may return: it ends in the address space and overlaps no live buffer. -/
def Ports.Unused (s : Ports) (ptr len : ℕ) : Prop :=
  ptr + len ≤ 2^64 ∧ ∀ a l, s.live a = some l → ptr + len ≤ a ∨ a + l ≤ ptr

/-- A call on some port, or a change of memory outside the live buffers. -/
inductive PortStep : PortRun → PortRun → Prop
  | send (r : PortRun) {id len : ℕ} {msg : Mem} {buf woken : Option ℕ} {s : Ports}
      (hbuf : ∀ ptr, buf = some ptr → r.ports.Unused ptr len)
      (h : portSend r.ports id msg len buf = (true, woken, s)) :
      PortStep r ⟨s, Function.update r.sent id (r.sent id ++ [(msg, len)]), r.received⟩
  | sendFails (r : PortRun) {id len : ℕ} {msg : Mem} {buf woken : Option ℕ} {s : Ports}
      (hbuf : ∀ ptr, buf = some ptr → r.ports.Unused ptr len)
      (h : portSend r.ports id msg len buf = (false, woken, s)) : PortStep r ⟨s, r.sent, r.received⟩
  | recv (r : PortRun) {id cap cur len_out : ℕ} {buf buf' : Mem} {s : Ports}
      (h : portRecv r.ports id buf cap cur = .done len_out buf' s) :
      PortStep r ⟨s, r.sent, Function.update r.received id (r.received id + 1)⟩
  | recvBlocks (r : PortRun) {id cap cur : ℕ} {buf : Mem} {s : Ports}
      (h : portRecv r.ports id buf cap cur = .blocked s) : PortStep r ⟨s, r.sent, r.received⟩
  | other (r : PortRun) (mem : Mem)
      (h : ∀ a l, r.ports.live a = some l → ∀ x, a ≤ x → x < a + l → mem x = r.ports.mem x) :
      PortStep r ⟨{ r.ports with mem }, r.sent, r.received⟩

/-- Open ports whose rings `ringbuf_init` has just set up, and nothing sent. -/
def Ports.Fresh (s : Ports) : Prop :=
  ∀ id p, s.find id = some p → ringbufInit 64 64 = some p.ring

/-! ## Ports and slots -/

theorem Ports.find_eq_some {id : ℕ} {p : PortObj} (h : s.find id = some p) :
    id ≠ 0 ∧ id ≤ maxPorts ∧ p.id = id ∧ s.table (id - 1) = p := by
  unfold Ports.find at h
  split_ifs at h with hid hfound
  cases h
  exact ⟨fun e => hid (.inl e), by omega, hfound, rfl⟩

/-- A port written back is found, and no other is changed. -/
theorem Ports.find_set {id id' : ℕ} {p p' q : PortObj} (h : s.find id = some p)
    (hq : (s.set id p').find id' = some q) :
    id' = id ∧ q = p' ∨ id' ≠ id ∧ s.find id' = some q := by
  obtain ⟨h0, hmax, hid, -⟩ := Ports.find_eq_some h
  obtain ⟨h0', hmax', hid', htable⟩ := Ports.find_eq_some hq
  by_cases e : id' = id
  · subst e
    exact .inl ⟨rfl, htable.symm.trans (update_self ..)⟩
  · have hne : id' - 1 ≠ id - 1 := by omega
    refine .inr ⟨e, ?_⟩
    have hsame : s.table (id' - 1) = q := (update_of_ne hne _ _).symm.trans htable
    rw [Ports.find, if_neg (by omega), hsame, if_pos hid']

theorem Ports.find_set_self {p p' : PortObj} {id : ℕ} (h : s.find id = some p) (hid : p'.id = p.id) :
    (s.set id p').find id = some p' := by
  obtain ⟨h0, hmax, hp, -⟩ := Ports.find_eq_some h
  have hself : (s.set id p').table (id - 1) = p' := update_self ..
  rw [Ports.find, if_neg (by omega), hself, if_pos (hid.trans hp)]

/-- What a slot of a message says, as `port_recv` reads it. -/
theorem rd_inlineSlot (hlen : len ≤ portMsgMax) :
    (inlineSlot msg len).rd 4 4 = len ∧ (inlineSlot msg len).rd 0 4 = msg.rd 0 4 := by
  have hlt : len < 256^4 := hlen.trans_lt (by decide)
  unfold inlineSlot
  constructor
  · rw [rd_wr_of_disjoint (by omega), rd_copy_of_disjoint (by omega), rd_wr_self, Nat.mod_eq_of_lt hlt]
  · rw [rd_wr_self, Nat.mod_eq_of_lt rd_lt]

theorem inlineSlot_apply {j : ℕ} (hlen : len ≤ portInlineMax) (hj : 8 ≤ j) (hlt : j < len) :
    inlineSlot msg len j = msg j := by
  have hrest : (len + 2^64 - 8) % 2^64 = len - 8 := by
    unfold portInlineMax at hlen
    omega
  obtain ⟨i, rfl⟩ : ∃ i, j = 8 + i := ⟨j - 8, by omega⟩
  unfold inlineSlot
  rw [wr_of_notMem (by omega), hrest, if_pos (by omega), copy_of_mem (by omega)]

theorem rd_outOfLineSlot {ptr : ℕ} (hlen : len ≤ portMsgMax) (hptr : ptr < 2^64) :
    (outOfLineSlot msg len ptr).rd 4 4 = len ∧ (outOfLineSlot msg len ptr).rd 8 8 = ptr := by
  have hlt : len < 256^4 := hlen.trans_lt (by decide)
  unfold outOfLineSlot
  constructor
  · rw [rd_wr_of_disjoint (by omega), rd_wr_of_disjoint (by omega), rd_wr_self, Nat.mod_eq_of_lt hlt]
  · rw [rd_wr_of_disjoint (by omega), rd_wr_self]
    exact Nat.mod_eq_of_lt hptr

/-- The slot of a message, which is at `ptr` if it is long. -/
def slotFor (m : Mem × ℕ) (ptr : ℕ) : Mem :=
  if m.2 ≤ portInlineMax then inlineSlot m.1 m.2 else outOfLineSlot m.1 m.2 ptr

/-- The bytes of a slot. -/
def slotBytes (slot : Mem) : List UInt8 := (List.range portSlotSize).map slot

/-- The retries of `port_send` append the slot to the queue, or find it full each time. -/
theorem pushRetry_spec {rb : Ringbuf} (h : rb.Holds queue) (hsize : rb.slot_size = portSlotSize)
    (slot : Mem) (tries : ℕ) :
    pushRetry slot tries rb = (false, rb) ∧ (tries = 0 ∨ queue.length = rb.slot_count) ∨
    ∃ rb', pushRetry slot tries rb = (true, rb') ∧ rb'.Holds (queue ++ [slotBytes slot]) ∧
      rb'.slot_size = portSlotSize := by
  induction tries with
  | zero => exact .inl ⟨rfl, .inl rfl⟩
  | succ tries ih =>
    have hstep : pushRetry slot (tries + 1) rb = if (ringbufPush rb slot portSlotSize).1 then
        ringbufPush rb slot portSlotSize
      else pushRetry slot tries (ringbufPush rb slot portSlotSize).2 := rfl
    rw [hstep]
    rcases h.push slot hsize.ge with ⟨e, hfull⟩ | ⟨rb', e, hrb', hs, -⟩
    · rw [e]
      exact ih.imp_left fun hfails => ⟨hfails.1, .inr hfull⟩
    · rw [e]
      exact .inr ⟨rb', rfl, hrb', hs.trans hsize⟩

/-! ## The invariant -/

/-- What a run keeps, with the addresses of the long messages: each ring holds the slots of the messages
that its port has still to deliver, and the long ones among them are in live buffers of their own. -/
structure PortInv (r : PortRun) (ptrs : ℕ → ℕ → ℕ) : Prop where
  rings : ∀ id p, r.ports.find id = some p → p.ring.slot_size = portSlotSize ∧
    ∃ queue, p.ring.Holds queue ∧ queue.length + r.received id = (r.sent id).length ∧
      ∀ i m, (r.sent id)[r.received id + i]? = some m →
        queue[i]? = some (slotBytes (slotFor m (ptrs id (r.received id + i))))
  lens : ∀ id, ∀ m ∈ r.sent id, 0 < m.2 ∧ m.2 ≤ portMsgMax
  bufs : ∀ id k m, r.received id ≤ k → (r.sent id)[k]? = some m → portInlineMax < m.2 →
    r.ports.live (ptrs id k) = some m.2 ∧ ptrs id k + m.2 ≤ 2^64 ∧
      ∀ j < m.2, r.ports.mem (ptrs id k + j) = m.1 j
  apart : ∀ id k m id' k' m', r.received id ≤ k → (r.sent id)[k]? = some m → portInlineMax < m.2 →
    r.received id' ≤ k' → (r.sent id')[k']? = some m' → portInlineMax < m'.2 →
    ptrs id k = ptrs id' k' → id = id' ∧ k = k'

variable {r : PortRun} {ptrs : ℕ → ℕ → ℕ} {id : ℕ} {p : PortObj}

section

variable (h : PortInv r ptrs)

include h

/-- A new buffer, filled by its owner. -/
theorem PortInv.withBuffer {ptr : ℕ} (hlen : 0 < len) (hptr : r.ports.Unused ptr len) (msg : Mem) :
    PortInv { r with ports := { r.ports with
      mem := r.ports.mem.copy ptr msg 0 len
      live := update r.ports.live ptr (some len) } } ptrs := by
  refine ⟨h.rings, h.lens, fun id k m hk hm hlong => ?_, h.apart⟩
  obtain ⟨hlive, hfits, hbytes⟩ := h.bufs id k m hk hm hlong
  have hdisj := hptr.2 _ _ hlive
  have hne : ptrs id k ≠ ptr := by omega
  exact ⟨(update_of_ne hne _ _).trans hlive, hfits, fun j hj => (copy_of_notMem (by omega)).trans (hbytes j hj)⟩

/-- The waiter does not matter. -/
theorem PortInv.setWaiter (hp : r.ports.find id = some p) (waiter : Option ℕ) :
    PortInv { r with ports := r.ports.set id { p with waiter } } ptrs := by
  refine ⟨fun id' p' hp' => ?_, h.lens, h.bufs, h.apart⟩
  rcases Ports.find_set hp hp' with ⟨rfl, rfl⟩ | ⟨-, hp'⟩
  · exact h.rings id' p hp
  · exact h.rings id' p' hp'

/-- A slot leaves the queue of its port: it is that of the next message to deliver. -/
theorem PortInv.pop (hp : r.ports.find id = some p) (buf : Mem) :
    (ringbufPop p.ring buf portSlotSize = (false, buf, p.ring) ∧
      (r.sent id).length = r.received id) ∨
    ∃ m slot ring, (r.sent id)[r.received id]? = some m ∧
      ringbufPop p.ring buf portSlotSize = (true, slot, ring) ∧
      (∀ j < portSlotSize, slot j = slotFor m (ptrs id (r.received id)) j) ∧
      PortInv ⟨r.ports.set id { p with ring }, r.sent,
        update r.received id (r.received id + 1)⟩ ptrs := by
  obtain ⟨hsize, queue, hq, hlen, hslots⟩ := h.rings id p hp
  rcases hq.pop buf hsize.ge with ⟨e, rfl⟩ | ⟨item, rest, slot, ring, rfl, e, hrest, hbytes, -, hsz, -⟩
  · exact .inl ⟨e, by simpa using hlen.symm⟩
  have hlt : r.received id < (r.sent id).length := by
    rw [length_cons] at hlen
    omega
  obtain ⟨m, hm⟩ : ∃ m, (r.sent id)[r.received id]? = some m := ⟨_, getElem?_eq_getElem hlt⟩
  have hitem : item = slotBytes (slotFor m (ptrs id (r.received id))) := by
    have := hslots 0 m hm
    exact Option.some.inj this
  refine .inr ⟨m, slot, ring, hm, e, fun j hj => hbytes j _ hj ?_, ?_⟩
  · rw [hitem]
    simp [slotBytes, hj]
  -- What is still to be delivered has become less.
  have hle : ∀ id', r.received id' ≤ update r.received id (r.received id + 1) id' := by
    intro id'
    by_cases e : id' = id
    · subst e
      rw [update_self]
      exact Nat.le_succ _
    · rw [update_of_ne e]
  refine ⟨fun id' p' hp' => ?_, h.lens, fun id' k' m' hk' => h.bufs id' k' m' ((hle id').trans hk'),
    fun id₁ k₁ m₁ id₂ k₂ m₂ hk₁ hm₁ hl₁ hk₂ =>
      h.apart id₁ k₁ m₁ id₂ k₂ m₂ ((hle id₁).trans hk₁) hm₁ hl₁ ((hle id₂).trans hk₂)⟩
  rcases Ports.find_set hp hp' with ⟨rfl, rfl⟩ | ⟨e, hp'⟩
  · dsimp only
    rw [update_self]
    refine ⟨hsz.trans hsize, rest, hrest, by rw [length_cons] at hlen; omega, fun i m' hm' => ?_⟩
    rw [show r.received id' + 1 + i = r.received id' + (i + 1) by omega] at hm' ⊢
    have := hslots (i + 1) m' hm'
    rwa [getElem?_cons_succ] at this
  · dsimp only
    rw [update_of_ne e]
    exact h.rings id' p' hp'

/-- The buffer of a message that has been delivered is released. -/
theorem PortInv.release {ptr : ℕ}
    (hne : ∀ id k m, r.received id ≤ k → (r.sent id)[k]? = some m → portInlineMax < m.2 →
      ptrs id k ≠ ptr) :
    PortInv { r with ports := { r.ports with live := update r.ports.live ptr none } } ptrs := by
  refine ⟨h.rings, h.lens, fun id k m hk hm hlong => ?_, h.apart⟩
  obtain ⟨hlive, hfits, hbytes⟩ := h.bufs id k m hk hm hlong
  exact ⟨(update_of_ne (hne id k m hk hm hlong) _ _).trans hlive, hfits, hbytes⟩

/-! ## The calls -/

section

variable {m : Mem × ℕ} {ptr : ℕ} (hp : r.ports.find id = some p)
  (hlen : 0 < m.2 ∧ m.2 ≤ portMsgMax)
  (hnew : portInlineMax < m.2 → r.ports.live ptr = some m.2 ∧ ptr + m.2 ≤ 2^64 ∧
    (∀ j < m.2, r.ports.mem (ptr + j) = m.1 j) ∧
    ∀ id' k' m', r.received id' ≤ k' → (r.sent id')[k']? = some m' → portInlineMax < m'.2 →
      ptrs id' k' ≠ ptr)

include hp hlen hnew

/-- A message joins the queue of its port. -/
theorem PortInv.push (hq : queue.length + r.received id = (r.sent id).length)
    (hslots : ∀ i m, (r.sent id)[r.received id + i]? = some m →
      queue[i]? = some (slotBytes (slotFor m (ptrs id (r.received id + i)))))
    {ring : Ringbuf} (hring : ring.Holds (queue ++ [slotBytes (slotFor m ptr)]))
    (hsize : ring.slot_size = portSlotSize) (waiter : Option ℕ) :
    ∃ ptrs', PortInv ⟨r.ports.set id { p with ring, waiter },
      update r.sent id (r.sent id ++ [m]), r.received⟩ ptrs' := by
  generalize hn : (r.sent id).length = n
  -- The new message has number `n` on its port.
  generalize hptrs' : update ptrs id (update (ptrs id) n ptr) = ptrs'
  have hptr_new : ptrs' id n = ptr := by rw [← hptrs', update_self, update_self]
  have hptr_old : ∀ id' k', ¬(id' = id ∧ k' = n) → ptrs' id' k' = ptrs id' k' := fun id' k' hne => by
    rw [← hptrs']
    by_cases hid : id' = id
    · subst hid
      rw [update_self, update_of_ne (fun e => hne ⟨rfl, e⟩)]
    · rw [update_of_ne hid]
  have hsent : ∀ id' k' m', (update r.sent id (r.sent id ++ [m]) id')[k']? = some m' →
      (id' = id ∧ k' = n) ∧ m' = m ∨ ¬(id' = id ∧ k' = n) ∧ (r.sent id')[k']? = some m' := by
    intro id' k' m' hm'
    by_cases hid : id' = id
    · subst hid
      rw [update_self, getElem?_concat_eq_some, hn] at hm'
      rcases hm' with hm' | ⟨hk, hm'⟩
      · have hlt := (List.getElem?_eq_some_iff.mp hm').1
        exact .inr ⟨by omega, hm'⟩
      · exact .inl ⟨⟨rfl, hk⟩, hm'⟩
    · rw [update_of_ne hid] at hm'
      exact .inr ⟨fun e => hid e.1, hm'⟩
  refine ⟨ptrs', fun id' p' hp' => ?_, fun id' m' hm' => ?_, fun id' k' m' hk' hm' hlong => ?_, ?_⟩
  · rcases Ports.find_set hp hp' with ⟨rfl, rfl⟩ | ⟨e, hp'⟩
    · refine ⟨hsize, _, hring, by simp; omega, fun i m' hm' => ?_⟩
      dsimp only at hm' ⊢
      rw [getElem?_concat_eq_some]
      rcases hsent _ _ _ hm' with ⟨⟨-, hk⟩, rfl⟩ | ⟨hne, hm'⟩
      · rw [hk, hptr_new]
        exact .inr ⟨by omega, rfl⟩
      · rw [hptr_old _ _ hne]
        exact .inl (hslots i m' hm')
    · obtain ⟨hsz, q, hq', hlen', hall⟩ := h.rings id' p' hp'
      dsimp only
      rw [update_of_ne e]
      refine ⟨hsz, q, hq', hlen', fun i m' hm' => ?_⟩
      rw [hptr_old _ _ (fun hc => e hc.1)]
      exact hall i m' hm'
  · dsimp only at hm'
    by_cases e : id' = id
    · subst e
      rw [update_self] at hm'
      rcases mem_append.mp hm' with hm' | hm'
      · exact h.lens id' m' hm'
      · rw [mem_singleton.mp hm']
        exact hlen
    · rw [update_of_ne e] at hm'
      exact h.lens id' m' hm'
  · rcases hsent _ _ _ hm' with ⟨⟨rfl, rfl⟩, rfl⟩ | ⟨hne, hm'⟩
    · rw [hptr_new]
      obtain ⟨hlive, hfits, hbytes, -⟩ := hnew hlong
      exact ⟨hlive, hfits, hbytes⟩
    · rw [hptr_old _ _ hne]
      exact h.bufs id' k' m' hk' hm' hlong
  · intro id₁ k₁ m₁ id₂ k₂ m₂ hk₁ hm₁ hl₁ hk₂ hm₂ hl₂ e
    rcases hsent _ _ _ hm₁ with ⟨⟨rfl, rfl⟩, rfl⟩ | ⟨hne₁, hold₁⟩ <;>
      rcases hsent _ _ _ hm₂ with ⟨⟨rfl, rfl⟩, rfl⟩ | ⟨hne₂, hold₂⟩
    · exact ⟨rfl, rfl⟩
    · rw [hptr_new, hptr_old _ _ hne₂] at e
      exact absurd e.symm ((hnew hl₁).2.2.2 _ _ _ hk₂ hold₂ hl₂)
    · rw [hptr_new, hptr_old _ _ hne₁] at e
      exact absurd e ((hnew hl₂).2.2.2 _ _ _ hk₁ hold₁ hl₁)
    · rw [hptr_old _ _ hne₁, hptr_old _ _ hne₂] at e
      exact h.apart _ _ _ _ _ _ hk₁ hold₁ hl₁ hk₂ hold₂ hl₂ e

/-- The end of `port_send`. -/
theorem PortInv.pushSlot {ok : Bool} {woken : Option ℕ}
    (hs : r.ports.pushSlot id p (slotFor m ptr) = (ok, woken, s)) :
    ∃ ptrs', PortInv ⟨s, if ok then update r.sent id (r.sent id ++ [m]) else r.sent,
      r.received⟩ ptrs' := by
  obtain ⟨hsize, queue, hq, hcount, hslots⟩ := h.rings id p hp
  have hretry := pushRetry_spec hq hsize (slotFor m ptr) sendTries
  unfold Ports.pushSlot at hs
  generalize pushRetry (slotFor m ptr) sendTries p.ring = result at hs hretry
  rcases hretry with ⟨rfl, -⟩ | ⟨ring, rfl, hring, hsz⟩
  · rw [if_neg Bool.false_ne_true] at hs
    obtain ⟨rfl, -, rfl⟩ := hs
    exact ⟨ptrs, h.setWaiter hp p.waiter⟩
  · rw [if_pos rfl] at hs
    obtain ⟨rfl, -, rfl⟩ := hs
    exact h.push hp hlen hnew hcount hslots hring hsz none

end

/-- `port_send` keeps the invariant, and the message joins those sent if it is accepted. -/
theorem PortInv.portSend {buf woken : Option ℕ} {ok : Bool}
    (hbuf : ∀ ptr, buf = some ptr → r.ports.Unused ptr len)
    (hs : portSend r.ports id msg len buf = (ok, woken, s)) :
    ∃ ptrs', PortInv ⟨s, if ok then update r.sent id (r.sent id ++ [(msg, len)]) else r.sent,
      r.received⟩ ptrs' := by
  have hrefused : ∀ {w : Option ℕ}, (false, w, r.ports) = (ok, woken, s) → ∃ ptrs', PortInv
      ⟨s, if ok then update r.sent id (r.sent id ++ [(msg, len)]) else r.sent, r.received⟩
      ptrs' := by
    rintro w e
    obtain ⟨rfl, -, rfl⟩ := e
    exact ⟨ptrs, h⟩
  unfold Ipc.portSend at hs
  by_cases hlen : len = 0 ∨ len > portMsgMax
  · rw [if_pos hlen] at hs
    exact hrefused hs
  rw [if_neg hlen] at hs
  have hlen' : 0 < len ∧ len ≤ portMsgMax := by omega
  cases hp : r.ports.find id with
  | none =>
    rw [hp] at hs
    exact hrefused hs
  | some p =>
    rw [hp] at hs
    dsimp only at hs
    by_cases hshort : len ≤ portInlineMax
    · rw [if_pos hshort] at hs
      have hslot : slotFor (msg, len) 0 = inlineSlot msg len := if_pos hshort
      rw [← hslot] at hs
      exact h.pushSlot hp hlen' (fun hlong => absurd hshort (Nat.not_le_of_lt hlong)) hs
    · rw [if_neg hshort] at hs
      cases buf with
      | none => exact hrefused hs
      | some ptr =>
        have hunused := hbuf ptr rfl
        dsimp only at hs
        have hslot : slotFor (msg, len) ptr = outOfLineSlot msg len ptr := if_neg hshort
        rw [← hslot] at hs
        refine (h.withBuffer hlen'.1 hunused msg).pushSlot (p := p) hp hlen' (fun _ => ?_) hs
        refine ⟨update_self .., hunused.1, fun j hj => ?_, fun id' k' m' hk' hm' hlong => ?_⟩
        · have hcopy : r.ports.mem.copy ptr msg 0 len (ptr + j) = msg (0 + j) := copy_of_mem hj
          rwa [zero_add] at hcopy
        · have hdisj := hunused.2 _ _ (h.bufs id' k' m' hk' hm' hlong).1
          omega

/-- The result of `port_recv` for a message of `len` bytes at `msg`. -/
def Delivers (msg : Mem) (len cap len_out : ℕ) (buf : Mem) : Prop :=
  if len ≤ portInlineMax then
    8 ≤ len → len + 8 ≤ cap → len_out = len + 8 ∧ buf.rd 0 4 = msg.rd 0 4 ∧
      ∀ j, 8 ≤ j → j < len → buf j = msg j
  else len ≤ cap → len_out = len ∧ ∀ j < len, buf j = msg j

/-- `port_recv` delivers the next message, or blocks if there is none. -/
theorem PortInv.portRecv {buf : Mem} {cap cur : ℕ} :
    (∃ s, portRecv r.ports id buf cap cur = .blocked s ∧ (r.sent id).length = r.received id ∧
      PortInv ⟨s, r.sent, r.received⟩ ptrs) ∨
    portRecv r.ports id buf cap cur = .error ∨
    ∃ m len_out buf' s, portRecv r.ports id buf cap cur = .done len_out buf' s ∧
      (r.sent id)[r.received id]? = some m ∧ Delivers m.1 m.2 cap len_out buf' ∧
      PortInv ⟨s, r.sent, update r.received id (r.received id + 1)⟩ ptrs := by
  unfold Ipc.portRecv
  split_ifs with hcap
  · exact .inr (.inl rfl)
  cases hp : r.ports.find id with
  | none => exact .inr (.inl rfl)
  | some p =>
    dsimp only
    unfold recvLoop
    rcases h.pop hp (fun _ => 0) with ⟨e, hlen⟩ | ⟨m, slot, ring, hm, e, hslot, hinv⟩
    · rw [e]
      exact .inl ⟨_, rfl, hlen, h.setWaiter hp (some cur)⟩
    have hmem : m ∈ r.sent id := mem_of_getElem? hm
    have hmax := (h.lens id m hmem).2
    have hrd : ∀ a k, a + k ≤ portSlotSize →
        slot.rd a k = (slotFor m (ptrs id (r.received id))).rd a k := fun a k hk =>
      rd_congr fun x _ hx => hslot x (hx.trans_le hk)
    rw [e]
    dsimp only
    refine .inr (.inr ?_)
    by_cases hshort : m.2 ≤ portInlineMax
    · -- A short message is in the slot.
      have hs : slotFor m (ptrs id (r.received id)) = inlineSlot m.1 m.2 := if_pos hshort
      obtain ⟨hl, ht⟩ := @rd_inlineSlot m.1 _ hmax
      rw [hs] at hslot hrd
      rw [hrd 4 4 (by decide), hl, if_pos hshort, hrd 0 4 (by decide), ht]
      refine ⟨m, _, _, _, rfl, hm, ?_, hinv⟩
      rw [Delivers, if_pos hshort]
      intro h8 hcap'
      unfold portSlotSize portInlineMax at *
      have hcopy : (if m.2 < cap - 8 then m.2 else cap - 8) = m.2 := by split_ifs <;> omega
      rw [hcopy]
      refine ⟨add_comm _ _, ?_, fun j hj hlt => ?_⟩
      · rw [rd_copy_of_disjoint (by omega), rd_wr_of_disjoint (by omega), rd_wr_self, Nat.mod_eq_of_lt rd_lt]
      · obtain ⟨i, rfl⟩ : ∃ i, j = 8 + i := ⟨j - 8, by omega⟩
        rw [copy_of_mem (by omega), hslot _ (by omega), inlineSlot_apply hshort hj hlt]
    · -- A long message is in its buffer, which is then released.
      have hlong := Nat.lt_of_not_le hshort
      obtain ⟨hlive, hfits, hbytes⟩ := h.bufs id _ m le_rfl hm hlong
      have hs : slotFor m (ptrs id (r.received id)) =
          outOfLineSlot m.1 m.2 (ptrs id (r.received id)) := if_neg hshort
      have hptr : ptrs id (r.received id) < 2^64 := by omega
      obtain ⟨hl, ht⟩ := @rd_outOfLineSlot m.1 _ _ hmax hptr
      rw [hs] at hrd
      rw [hrd 4 4 (by decide), hl, if_neg hshort, hrd 8 8 (by decide), ht]
      refine ⟨m, _, _, _, rfl, hm, ?_, hinv.release fun id' k' m' hk' hm' hlong' hptrs => ?_⟩
      · rw [Delivers, if_neg hshort]
        intro hcap'
        have hcopy : (if m.2 < cap then m.2 else cap) = m.2 := by split_ifs <;> omega
        rw [hcopy]
        refine ⟨rfl, fun j hj => ?_⟩
        have hbyte : buf.copy 0 r.ports.mem (ptrs id (r.received id)) m.2 (0 + j) =
            r.ports.mem (ptrs id (r.received id) + j) := copy_of_mem hj
        rw [zero_add] at hbyte
        exact hbyte.trans (hbytes j hj)
      · -- The messages still to be delivered have other buffers.
        dsimp only at hk'
        by_cases e : id' = id
        · subst e
          rw [update_self] at hk'
          have := (h.apart _ _ _ _ _ _ (by omega) hm' hlong' le_rfl hm hlong hptrs).2
          omega
        · rw [update_of_ne e] at hk'
          exact e (h.apart _ _ _ _ _ _ hk' hm' hlong' le_rfl hm hlong hptrs).1

end

/-! ## Delivery -/

theorem PortInv.step {r r' : PortRun} (h : ∃ ptrs, PortInv r ptrs) (hs : PortStep r r') :
    ∃ ptrs, PortInv r' ptrs := by
  obtain ⟨ptrs, h⟩ := h
  cases hs with
  | send hbuf hs | sendFails hbuf hs => exact h.portSend hbuf hs
  | recv hs =>
    rcases h.portRecv with ⟨s, e, -⟩ | e | ⟨m, len_out, buf', s, e, -, -, hinv⟩
    · cases hs.symm.trans e
    · cases hs.symm.trans e
    · obtain ⟨-, -, rfl⟩ := RecvResult.done.inj (hs.symm.trans e)
      exact ⟨ptrs, hinv⟩
  | recvBlocks hs =>
    rcases h.portRecv with ⟨s, e, -, hinv⟩ | e | ⟨m, len_out, buf', s, e, -⟩
    · obtain rfl := RecvResult.blocked.inj (hs.symm.trans e)
      exact ⟨ptrs, hinv⟩
    · cases hs.symm.trans e
    · cases hs.symm.trans e
  | other mem hmem =>
    refine ⟨ptrs, h.rings, h.lens, fun id k m hk hm hlong => ?_, h.apart⟩
    obtain ⟨hlive, hfits, hbytes⟩ := h.bufs id k m hk hm hlong
    exact ⟨hlive, hfits, fun j hj => (hmem _ _ hlive _ (by omega) (by omega)).trans (hbytes j hj)⟩

/-- The invariant holds of fresh ports. -/
theorem Ports.Fresh.portInv (hs : s.Fresh) : PortInv ⟨s, fun _ => [], fun _ => 0⟩ (fun _ _ => 0) := by
  refine ⟨fun id p hp => ⟨?_, [], holds_ringbufInit (hs id p hp), rfl, by simp⟩, by simp, by simp,
    by simp⟩
  exact (congrArg Ringbuf.slot_size (Option.some.inj (hs id p hp))).symm

/-- Every state of a run from fresh ports. -/
theorem PortInv.of_run {r : PortRun} (hs : s.Fresh)
    (hrun : ReflTransGen PortStep ⟨s, fun _ => [], fun _ => 0⟩ r) :
    ∃ ptrs, PortInv r ptrs :=
  Runs.invariant (P := fun r => ∃ ptrs, PortInv r ptrs) hrun ⟨_, hs.portInv⟩ fun _ _ => PortInv.step

/-- `port_recv` on an open port, with room for a slot, reports no error. -/
theorem portRecv_ne_error (hp : s.find id = some p) {cap : ℕ} (hcap : portSlotSize ≤ cap)
    (buf : Mem) (cur : ℕ) : portRecv s id buf cap cur ≠ .error := by
  unfold portRecv
  rw [if_neg (Nat.not_lt_of_le hcap), hp]
  dsimp only
  unfold recvLoop
  rcases ringbufPop p.ring (fun _ => 0) portSlotSize with ⟨_ | _, slot, ring⟩
  · exact nofun
  · dsimp only
    split_ifs <;> exact nofun

/-- In every run on fresh ports, `port_recv` returns the first accepted message that is not yet delivered,
and sleeps if there is none. For a message with a header and a buffer with room for it, the length and the
bytes are those sent if and only if it is longer than `PORT_INLINE_MAX`; a shorter one arrives with its
type and bytes, but `*len_out` is eight more than its length. -/
theorem port_recv_intact_iff {s : Ports} {r : PortRun} (hs : s.Fresh)
    (hrun : ReflTransGen PortStep ⟨s, fun _ => [], fun _ => 0⟩ r)
    (hp : r.ports.find id = some p) (buf : Mem) {cap : ℕ} (hcap : portSlotSize ≤ cap) (cur : ℕ) :
    ((r.sent id).length = r.received id ∧ ∃ s', portRecv r.ports id buf cap cur = .blocked s') ∨
    ∃ msg len len_out buf' s', (r.sent id)[r.received id]? = some (msg, len) ∧
      portRecv r.ports id buf cap cur = .done len_out buf' s' ∧
      (8 ≤ len → len ≤ cap →
        ((len_out = len ∧ ∀ j < len, buf' j = msg j) ↔ portInlineMax < len)) ∧
      (8 ≤ len → len ≤ portInlineMax → len_out = len + 8 ∧ buf'.rd 0 4 = msg.rd 0 4 ∧
        ∀ j, 8 ≤ j → j < len → buf' j = msg j) := by
  obtain ⟨ptrs, h⟩ := PortInv.of_run hs hrun
  rcases h.portRecv with ⟨s', e, hlen, -⟩ | e | ⟨⟨msg, len⟩, len_out, buf', s', e, hm, hdel, -⟩
  · exact .inl ⟨hlen, s', e⟩
  · exact absurd e (portRecv_ne_error hp hcap buf cur)
  refine .inr ⟨msg, len, len_out, buf', s', hm, e, fun h8 hroom => ⟨fun hintact => ?_, fun hlong => ?_⟩,
    fun h8 hshort => ?_⟩
  · -- A short message would have the wrong length.
    by_contra hshort
    rw [Delivers, if_pos (Nat.le_of_not_lt hshort)] at hdel
    unfold portInlineMax portSlotSize at *
    have hlen := (hdel h8 (by dsimp only; omega)).1
    exact absurd hintact.1 (by dsimp only at hlen; omega)
  · rw [Delivers, if_neg (Nat.not_le_of_lt hlong)] at hdel
    exact hdel hroom
  · rw [Delivers, if_pos hshort] at hdel
    unfold portInlineMax portSlotSize at *
    exact hdel h8 (by dsimp only; omega)

/-- A port whose queue is not full accepts a slot, and stays open. -/
theorem Ports.exists_pushSlot (hp : s.find id = some p) (hq : p.ring.Holds queue)
    (hsize : p.ring.slot_size = portSlotSize) (hroom : queue.length < p.ring.slot_count)
    (slot : Mem) : ∃ s' p', s.pushSlot id p slot = (true, p.waiter, s') ∧ s'.find id = some p' := by
  have hretry := pushRetry_spec hq hsize slot sendTries
  unfold Ports.pushSlot
  generalize pushRetry slot sendTries p.ring = result at hretry
  rcases hretry with ⟨-, h0 | hfull⟩ | ⟨ring, rfl, -, -⟩
  · cases h0
  · omega
  · rw [if_pos rfl]
    exact ⟨_, _, rfl, Ports.find_set_self hp rfl⟩

/-- Port 1 is open, and no other. -/
def onePort : Ports where
  table i := ⟨if i = 0 then 1 else 0, ⟨64, 64, 0, 0, fun _ => 0⟩, none⟩
  mem _ := 0
  live _ := none

theorem onePort_fresh : onePort.Fresh := by
  intro id p hp
  obtain ⟨-, -, -, rfl⟩ := Ports.find_eq_some hp
  rfl

/-- The first message to the port is accepted, if it has a valid length. -/
theorem exists_send_onePort (msg : Mem) (len : ℕ) (hlen : 0 < len ∧ len ≤ portMsgMax) :
    ∃ r p, ReflTransGen PortStep ⟨onePort, fun _ => [], fun _ => 0⟩ r ∧
      r.ports.find 1 = some p ∧ r.sent 1 = [(msg, len)] ∧ r.received 1 = 0 := by
  have hport : onePort.find 1 = some (onePort.table 0) := rfl
  have hunused : onePort.Unused 0 len := ⟨by unfold portMsgMax at hlen; omega, nofun⟩
  have hq : (onePort.table 0).ring.Holds [] := holds_ringbufInit (onePort_fresh 1 _ hport)
  obtain ⟨s', p', hsend, hp'⟩ : ∃ s' p', portSend onePort 1 msg len (some 0) = (true, none, s') ∧
      s'.find 1 = some p' := by
    unfold portSend
    rw [if_neg (by omega), hport]
    split_ifs with hshort
    · exact Ports.exists_pushSlot hport hq rfl (by decide) _
    have hport' : ({ onePort with
        mem := onePort.mem.copy 0 msg 0 len
        live := update onePort.live 0 (some len) } : Ports).find 1 =
      some (onePort.table 0) := hport
    exact Ports.exists_pushSlot hport' hq rfl (by decide) _
  refine ⟨_, p', .single (.send _ (fun ptr e => ?_) hsend), hp', rfl, rfl⟩
  cases e
  exact hunused

/-- A message of 64 bytes arrives as it was sent. -/
theorem port_recv_intact_long : ∃ r p buf' s', ReflTransGen PortStep
      ⟨onePort, fun _ => [], fun _ => 0⟩ r ∧ r.ports.find 1 = some p ∧
    portRecv r.ports 1 (fun _ => 0) 64 7 = .done 64 buf' s' ∧ ∀ j < 64, buf' j = UInt8.ofNat j := by
  obtain ⟨r, p, hrun, hp, hsent, hreceived⟩ := exists_send_onePort UInt8.ofNat 64 (by decide)
  have hcap : portSlotSize ≤ 64 := le_rfl
  rcases port_recv_intact_iff onePort_fresh hrun hp (fun _ => 0) hcap 7 with
    ⟨h0, -⟩ | ⟨msg, len, len_out, buf', s', hm, hrecv, hiff, -⟩
  · rw [hsent, hreceived] at h0
    cases h0
  rw [hsent, hreceived] at hm
  cases hm
  obtain ⟨rfl, hbytes⟩ := (hiff (by decide) le_rfl).mpr (by decide)
  exact ⟨r, p, buf', s', hrun, hp, hrecv, hbytes⟩

/-- A message of eight bytes, a header alone, arrives with a length of sixteen. -/
theorem port_recv_header_only : ∃ r p buf' s', ReflTransGen PortStep
      ⟨onePort, fun _ => [], fun _ => 0⟩ r ∧ r.ports.find 1 = some p ∧
    r.sent 1 = [(UInt8.ofNat, 8)] ∧ r.received 1 = 0 ∧
    portRecv r.ports 1 (fun _ => 0) 64 7 = .done 16 buf' s' := by
  obtain ⟨r, p, hrun, hp, hsent, hreceived⟩ := exists_send_onePort UInt8.ofNat 8 (by decide)
  obtain ⟨ptrs, h⟩ := PortInv.of_run onePort_fresh hrun
  rcases @PortInv.portRecv r ptrs 1 h (fun _ => 0) 64 7 with
    ⟨s', e, h0, -⟩ | e | ⟨m, len_out, buf', s', e, hm, hdel, -⟩
  · rw [hsent, hreceived] at h0
    cases h0
  · exact absurd e (portRecv_ne_error hp le_rfl _ _)
  rw [hsent, hreceived] at hm
  cases hm
  obtain ⟨rfl, -⟩ := hdel le_rfl (by decide)
  exact ⟨r, p, buf', s', hrun, hp, hsent, hreceived, e⟩

end FreeAsd.Ipc
