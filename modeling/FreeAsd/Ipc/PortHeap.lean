import FreeAsd.Ipc.Port
import FreeAsd.Lib.Custody

/-!
# The heap buffers of ports

`port_open` and `port_close` of `kernel/ipc/port.c` beside `port_send` and `port_recv`. A sleeping receiver
goes on with the same place of the table, whatever port is there. As long as no call is `Leaky`, the live
buffers are those of the long messages in the queues (`PortTable.held`).
-/

namespace FreeAsd.Ipc

open Function List Relation Option

variable {rb : Ringbuf} {queue : List (List UInt8)} {msg : Mem} {p : PortObj} {id len ptr : ℕ}

/-- `PORT_NAME_LEN`. -/
abbrev portNameLen : ℕ := 64

/-- `PORT_QUEUE_DEPTH`. -/
abbrev portQueueDepth : ℕ := 64

/-- The table of ports, with the names and the reference counts, and the places of sleeping receivers. -/
structure PortTable where
  ports : Ports
  name : ℕ → CStr
  refcount : ℕ → ℕ
  sleeping : List ℕ

namespace PortTable

/-- `port_find_by_name`: the comparison is that of `strncmp`. -/
def findByName (s : PortTable) (name : CStr) : Option ℕ :=
  (List.range maxPorts).find? fun i =>
    (s.ports.table i).id ≠ 0 ∧ (s.name i).take portNameLen = name.take portNameLen

/-- The first free place. -/
def findFree (s : PortTable) : Option ℕ := (List.range maxPorts).find? fun i => (s.ports.table i).id = 0

/-- The ring of a new port. -/
def newRing : Ringbuf := (ringbufInit 64 64).getD ⟨0, 0, 0, 0, fun _ => 0⟩

/-- `port_open`: the identifier, or 0. -/
def portOpen (s : PortTable) (name : CStr) (flags : ℕ) : ℕ × PortTable :=
  if name = [] then (0, s)
  else
    match s.findByName name with
    | some i =>
      if flags &&& 2 = 0 then (0, s)
      else ((s.ports.table i).id,
        { s with refcount := Function.update s.refcount i ((s.refcount i + 1) % 2^32) })
    | none =>
      if flags &&& 1 = 0 then (0, s)
      else
        match s.findFree with
        | none => (0, s)
        | some i => (i + 1,
          { s with
            ports := s.ports.set (i + 1) ⟨i + 1, newRing, none⟩
            name := Function.update s.name i (name.take (portNameLen - 1))
            refcount := Function.update s.refcount i 1 })

/-- `port_close`: the process that it wakes. -/
def portClose (s : PortTable) (id : ℕ) : Option ℕ × PortTable :=
  match s.ports.find id with
  | none => (none, s)
  | some p =>
    let refcount := s.refcount (id - 1) - 1
    let s := { s with refcount := Function.update s.refcount (id - 1) refcount }
    if refcount = 0 then (p.waiter, { s with ports := s.ports.set id { p with id := 0 } }) else (none, s)

/-! ## Runs -/

/-- A call, or the rest of a call of `port_recv` that slept. `kmalloc` returns `heap` if it is called. -/
inductive Call
  | open (name : CStr) (flags : ℕ)
  | close (id : ℕ)
  | send (id : ℕ) (msg : Mem) (len : ℕ) (heap : Option ℕ)
  | recv (id : ℕ) (buf : Mem) (cap cur : ℕ)
  | resume (i : ℕ) (buf : Mem) (cap cur : ℕ)

/-- What comes of the loop of `port_recv` at a place of the table. -/
def afterRecv (s : PortTable) (i : ℕ) : RecvResult → PortTable
  | .error => s
  | .blocked ports => { s with ports, sleeping := i :: s.sleeping }
  | .done _ _ ports => { s with ports }

/-- The state after a call. -/
def perform (s : PortTable) : Call → PortTable
  | .open name flags => (s.portOpen name flags).2
  | .close id => (s.portClose id).2
  | .send id msg len heap => { s with ports := (portSend s.ports id msg len heap).2.2 }
  | .recv id buf cap cur => s.afterRecv (id - 1) (portRecv s.ports id buf cap cur)
  | .resume i buf cap cur =>
    { s with sleeping := s.sleeping.erase i }.afterRecv i
      (recvLoop s.ports (i + 1) (s.ports.table i) buf cap cur)

/-- What `kmalloc` returns is no part of a live buffer, and only a sleeping receiver can go on. -/
def Possible (s : PortTable) : Call → Prop
  | .send _ _ len heap => ∀ ptr, heap = some ptr → s.ports.Unused ptr len
  | .resume i _ _ _ => i ∈ s.sleeping
  | _ => True

/-- The beginning, after `port_subsystem_init`. -/
def start (mem : Mem) : PortTable where
  ports := ⟨fun _ => ⟨0, ⟨0, 0, 0, 0, fun _ => 0⟩, none⟩, mem, fun _ => none⟩
  name _ := []
  refcount _ := 0
  sleeping := []

end PortTable

/-! ## What is queued -/

/-- The slots in a ring, from the next one to be read. -/
def Ringbuf.queued (rb : Ringbuf) : List (List UInt8) :=
  (List.range (sub64 rb.write_idx rb.read_idx)).map fun i =>
    (List.range rb.slot_size).map fun j => rb.data (rb.slotAt (rb.read_idx + i) + j)

/-- A number in a slot. -/
def field (item : List UInt8) (a n : ℕ) : ℕ := Mem.rd (fun j => item.getD j 0) a n

/-- The slot of a long message. -/
def IsLong (item : List UInt8) : Bool := portInlineMax < field item 4 4

/-- The addresses of the long messages in slots. -/
def buffers (items : List (List UInt8)) : List ℕ := (items.filter IsLong).map fun item => field item 8 8

/-- The buffers of the long messages in the queue of a port, if it is open. -/
def PortObj.held (p : PortObj) : List ℕ := if p.id = 0 then [] else buffers p.ring.queued

/-- The buffers of the long messages that are queued at a place of the table. -/
def PortTable.held (s : PortTable) (i : ℕ) : List ℕ := (s.ports.table i).held

/-- The live buffers. -/
def PortTable.liveBuffers (s : PortTable) : Set ℕ := {a | s.ports.live a ≠ none}

/-- As many buffers are live as long messages are queued in open ports. -/
def PortTable.Conserved (s : PortTable) : Prop :=
  s.liveBuffers.ncard = ∑ i ∈ Finset.range maxPorts, (s.held i).length

/-- The calls that leak: `port_send` of a long message to a port that is full, if there is memory for a
buffer, and `port_close` that destroys a port with a long message in its queue. -/
def PortTable.Leaky (s : PortTable) : PortTable.Call → Prop
  | .send id _ len heap =>
    ∃ p ptr, s.ports.find id = some p ∧ heap = some ptr ∧ portInlineMax < len ∧ len ≤ portMsgMax ∧
      p.ring.queued.length = portQueueDepth
  | .close id =>
    ∃ p, s.ports.find id = some p ∧ s.refcount (id - 1) ≤ 1 ∧ ∃ item ∈ p.ring.queued, IsLong item
  | _ => False

/-! ### The ring of a port -/

/-- The ring of a port: it holds what it seems to hold, all of it whole slots. -/
structure Ringbuf.OfPort (rb : Ringbuf) : Prop where
  size : rb.slot_size = portSlotSize
  count : rb.slot_count = portQueueDepth
  holds : rb.Holds rb.queued
  whole : ∀ item ∈ rb.queued, item.length = portSlotSize

/-- A queue of whole slots is what the ring shows. -/
theorem queued_eq (h : rb.Holds queue) (hwhole : ∀ item ∈ queue, item.length = rb.slot_size) :
    rb.queued = queue := by
  obtain ⟨pushed, popped, hinv, rfl⟩ := h
  have hsub : sub64 rb.write_idx rb.read_idx = pushed.length - popped.length := hinv.sub64_idx
  have hread : rb.read_idx = popped.length % 2^64 := hinv.read
  rw [Ringbuf.queued, hsub, hread]
  apply ext_getElem
  · rw [length_map, length_range, length_drop]
  intro i hi hi'
  rw [length_drop] at hi'
  have hlt : popped.length + i < pushed.length := by omega
  have hitem : (pushed.drop popped.length)[i] = pushed[popped.length + i] := getElem_drop
  have hlen := hwhole _ (getElem_mem (by rwa [length_drop] : i < (pushed.drop popped.length).length))
  rw [hitem] at hlen ⊢
  rw [getElem_map, getElem_range]
  apply ext_getElem
  · rw [length_map, length_range, hlen]
  intro j hj hj'
  rw [getElem_map, getElem_range, hinv.ok.slotAt_eq]
  exact hinv.data _ _ (Nat.le_add_right _ _) (getElem?_eq_getElem hlt) j _ (getElem?_eq_getElem hj')

theorem ofPort_of_holds (hsize : rb.slot_size = portSlotSize)
    (hcount : rb.slot_count = portQueueDepth) (h : rb.Holds queue)
    (hwhole : ∀ item ∈ queue, item.length = portSlotSize) : rb.OfPort ∧ rb.queued = queue := by
  have hq : rb.queued = queue := queued_eq h (hsize ▸ hwhole)
  exact ⟨⟨hsize, hcount, hq ▸ h, hq ▸ hwhole⟩, hq⟩

theorem ofPort_newRing : PortTable.newRing.OfPort ∧ PortTable.newRing.queued = [] :=
  ofPort_of_holds rfl rfl (holds_ringbufInit (show ringbufInit 64 64 = some _ from rfl)) (by simp)

/-- Numbers in the bytes of a slot. -/
theorem field_slotBytes (slot : Mem) {a n : ℕ} (h : a + n ≤ portSlotSize) :
    field (slotBytes slot) a n = slot.rd a n := by
  apply Mem.rd_congr
  intro x _ hx
  rw [slotBytes, getD_eq_getElem?_getD, getElem?_map, getElem?_range (by omega)]
  rfl

/-- Numbers in a slot that was popped. -/
theorem field_eq_rd {item : List UInt8} {slot : Mem} (hlen : item.length = portSlotSize)
    (h : ∀ (j : ℕ) (x : UInt8), j < portSlotSize → item[j]? = some x → slot j = x) {a n : ℕ}
    (hn : a + n ≤ portSlotSize) : slot.rd a n = field item a n := by
  apply Mem.rd_congr
  intro x _ hx
  have hlt : x < item.length := by omega
  rw [h x item[x] (by omega) (getElem?_eq_getElem hlt), getD_eq_getElem?_getD, getElem?_eq_getElem hlt]
  rfl

theorem buffers_append (a b : List (List UInt8)) : buffers (a ++ b) = buffers a ++ buffers b := by
  rw [buffers, filter_append, map_append, buffers, buffers]

theorem buffers_eq_nil {items : List (List UInt8)} (h : ∀ item ∈ items, ¬ IsLong item) :
    buffers items = [] := by
  rw [buffers, map_eq_nil_iff, filter_eq_nil_iff]
  exact h

/-- A short message has no buffer. -/
theorem buffers_inlineSlot (hlen : len ≤ portInlineMax) : buffers [slotBytes (inlineSlot msg len)] = [] := by
  apply buffers_eq_nil
  intro item hitem
  rw [mem_singleton.mp hitem, IsLong, field_slotBytes _ (by decide), (rd_inlineSlot (hlen.trans (by decide))).1]
  simpa using hlen

/-- A long one has the one that was allocated for it. -/
theorem buffers_outOfLineSlot (hlong : portInlineMax < len) (hlen : len ≤ portMsgMax)
    (hptr : ptr < 2^64) : buffers [slotBytes (outOfLineSlot msg len ptr)] = [ptr] := by
  obtain ⟨hl, hp⟩ := @rd_outOfLineSlot msg _ _ hlen hptr
  have hIsLong : IsLong (slotBytes (outOfLineSlot msg len ptr)) = true := by
    rw [IsLong, field_slotBytes _ (by decide), hl]
    exact decide_eq_true hlong
  rw [buffers, filter_cons_of_pos hIsLong, filter_nil, map_singleton, field_slotBytes _ (by decide), hp]

/-- A queue is not longer than its ring. -/
theorem Ringbuf.Holds.length_le (h : rb.Holds queue) : queue.length ≤ rb.slot_count := by
  obtain ⟨pushed, popped, hinv, rfl⟩ := h
  have hfits : pushed.length ≤ popped.length + rb.slot_count := hinv.fits
  rw [length_drop]
  omega

/-- A full ring stays full through all retries. -/
theorem pushRetry_full {slot : Mem} (h : ringbufPush rb slot portSlotSize = (false, rb)) (tries : ℕ) :
    pushRetry slot tries rb = (false, rb) := by
  induction tries with
  | zero => rfl
  | succ tries ih =>
    rw [pushRetry, h]
    exact ih

/-- `port_send` on the ring of a port: the retries fail if it is full, and the first one succeeds if it is
not. -/
theorem Ringbuf.OfPort.pushRetry (h : rb.OfPort) (slot : Mem) :
    Ipc.pushRetry slot sendTries rb = (false, rb) ∧ rb.queued.length = portQueueDepth ∨
    rb.queued.length ≠ portQueueDepth ∧ ∃ rb', Ipc.pushRetry slot sendTries rb = (true, rb') ∧
      rb'.OfPort ∧ rb'.queued = rb.queued ++ [slotBytes slot] := by
  rcases h.holds.push slot h.size.ge with ⟨hpush, hfull⟩ | ⟨rb', hpush, hholds, hsize, hcount⟩
  · exact .inl ⟨pushRetry_full hpush sendTries, hfull.trans h.count⟩
  have hroom := hholds.length_le
  rw [length_append, length_singleton, hcount, h.count] at hroom
  have hwhole : ∀ item ∈ rb.queued ++ [slotBytes slot], item.length = portSlotSize := by
    intro item hitem
    rcases mem_append.mp hitem with hold | hnew
    · exact h.whole item hold
    · rw [mem_singleton.mp hnew, slotBytes, length_map, length_range]
  refine .inr ⟨by omega, rb', ?_, ofPort_of_holds (hsize.trans h.size) (hcount.trans h.count) hholds hwhole⟩
  rw [sendTries, Ipc.pushRetry, hpush]
  rfl

/-- `ringbuf_pop` on the ring of a port: it is empty, or its first slot is taken out. -/
theorem Ringbuf.OfPort.pop (h : rb.OfPort) (buf : Mem) :
    ringbufPop rb buf portSlotSize = (false, buf, rb) ∨
    ∃ item slot rb', ringbufPop rb buf portSlotSize = (true, slot, rb') ∧ rb'.OfPort ∧
      rb.queued = item :: rb'.queued ∧ slot.rd 4 4 = field item 4 4 ∧ slot.rd 8 8 = field item 8 8 := by
  rcases h.holds.pop buf h.size.ge with ⟨hpop, -⟩ |
    ⟨item, rest, slot, rb', hqueue, hpop, hholds, hbytes, -, hsize, hcount⟩
  · exact .inl hpop
  have hwhole := h.whole
  rw [hqueue] at hwhole
  obtain ⟨hport, hrest⟩ := ofPort_of_holds (hsize.trans h.size) (hcount.trans h.count) hholds
    (forall_mem_cons.mp hwhole).2
  have hlen := hwhole item mem_cons_self
  exact .inr ⟨item, slot, rb', hpop, hport, by rw [hqueue, hrest],
    field_eq_rd hlen hbytes (by decide), field_eq_rd hlen hbytes (by decide)⟩

/-! ## The invariant -/

namespace PortTable

/-- What calls that do not leak keep: places have their own identifiers, rings are proper, nothing long is
in the ring of a closed port, and the live buffers are in the custody of the ports. -/
structure Inv (s : PortTable) : Prop where
  ids : ∀ i, (s.ports.table i).id = 0 ∨ (s.ports.table i).id = i + 1 ∧ i < maxPorts
  rings : ∀ i, (s.ports.table i).id ≠ 0 ∨ i ∈ s.sleeping → (s.ports.table i).ring.OfPort
  closed : ∀ i ∈ s.sleeping, (s.ports.table i).id = 0 →
    ∀ item ∈ (s.ports.table i).ring.queued, ¬ IsLong item
  custody : Custody (Finset.range maxPorts) s.held s.liveBuffers
  positive : ∀ a len, s.ports.live a = some len → 0 < len

variable {s : PortTable} {i : ℕ}

theorem Inv.conserved (h : s.Inv) : s.Conserved := h.custody.ncard

theorem Inv.start (mem : Mem) : (start mem).Inv where
  ids _ := .inl rfl
  rings i h := h.elim (fun h => absurd rfl h) fun h => absurd h List.not_mem_nil
  closed i h := absurd h List.not_mem_nil
  custody := by
    refine ⟨fun i _ => nodup_nil, fun _ _ _ _ _ => disjoint_nil_left _, fun a => ?_⟩
    exact iff_of_false (fun h => h rfl) fun ⟨_, _, h⟩ => absurd h not_mem_nil
  positive _ _ h := absurd h (by simp [PortTable.start])

/-- One place of the table is written. -/
theorem Inv.write (h : s.Inv) {s' : PortTable} (htable : s'.ports.table = update s.ports.table i p)
    (hid : p.id = 0 ∨ p.id = i + 1 ∧ i < maxPorts) (hring : p.ring.OfPort)
    (hclosed : p.id = 0 → ∀ item ∈ p.ring.queued, ¬ IsLong item)
    (hsleep : ∀ j ∈ s'.sleeping, j = i ∨ j ∈ s.sleeping)
    (hcustody : Custody (Finset.range maxPorts) (update s.held i p.held) s'.liveBuffers)
    (hpos : ∀ a len, s'.ports.live a = some len → 0 < len) : s'.Inv := by
  have hself : s'.ports.table i = p := by rw [htable, update_self]
  have hother {j : ℕ} (hj : j ≠ i) : s'.ports.table j = s.ports.table j := by
    rw [htable, update_of_ne hj]
  have hheld : s'.held = update s.held i p.held := by
    funext j
    by_cases hj : j = i
    · rw [hj, update_self, held, hself]
    · rw [update_of_ne hj, held, hother hj, held]
  refine ⟨fun j => ?_, fun j hj => ?_, fun j hj hzero => ?_, hheld ▸ hcustody, hpos⟩ <;>
    by_cases hji : j = i
  · rw [hji, hself]
    exact hid
  · rw [hother hji]
    exact h.ids j
  · rw [hji, hself]
    exact hring
  · rw [hother hji] at hj ⊢
    exact h.rings j (hj.imp_right fun hj => (hsleep j hj).resolve_left hji)
  · rw [hji, hself] at hzero ⊢
    exact hclosed hzero
  · rw [hother hji] at hzero ⊢
    exact h.closed j ((hsleep j hj).resolve_left hji) hzero

/-- The place of an open port. -/
theorem Inv.of_find (h : s.Inv) (hp : s.ports.find id = some p) :
    ∃ i, id = i + 1 ∧ i < maxPorts ∧ s.ports.table i = p ∧ p.id = i + 1 ∧ p.ring.OfPort ∧
      p.held = buffers p.ring.queued := by
  obtain ⟨hid, hmax, hpid, htable⟩ := Ports.find_eq_some hp
  have hplace : id = id - 1 + 1 := by omega
  have hopen : p.id ≠ 0 := by omega
  exact ⟨id - 1, hplace, by omega, htable, hpid.trans hplace, htable ▸ h.rings (id - 1) (.inl (htable ▸ hopen)),
    if_neg hopen⟩

theorem set_table (ports : Ports) (i : ℕ) (p : PortObj) :
    (ports.set (i + 1) p).table = update ports.table i p := rfl

/-! ### Opening and closing -/

theorem Inv.portOpen (h : s.Inv) (name : CStr) (flags : ℕ) : (s.portOpen name flags).2.Inv := by
  unfold PortTable.portOpen
  by_cases hname : name = []
  · rw [if_pos hname]
    exact h
  rw [if_neg hname]
  cases s.findByName name with
  | some i =>
    dsimp only
    split_ifs
    · exact h
    · exact { h with }
  | none =>
    by_cases hcreate : flags &&& 1 = 0
    · rw [if_pos hcreate]
      exact h
    rw [if_neg hcreate]
    cases hfree : s.findFree with
    | none => exact h
    | some i =>
      have hmem := mem_of_find?_eq_some hfree
      have hzero : (s.ports.table i).id = 0 := by simpa using find?_some hfree
      -- Neither the free place nor the new port has anything in its queue.
      have hheld : s.held i = [] := if_pos hzero
      have hnew : PortObj.held ⟨i + 1, newRing, none⟩ = [] := by
        rw [PortObj.held, if_neg (Nat.succ_ne_zero i), ofPort_newRing.2]
        rfl
      refine h.write (set_table s.ports i ⟨i + 1, newRing, none⟩) (.inr ⟨rfl, mem_range.mp hmem⟩)
        ofPort_newRing.1 (fun h => absurd h (Nat.succ_ne_zero i)) (fun j hj => .inr hj) ?_ h.positive
      rw [hnew, ← hheld, update_eq_self]
      exact h.custody

/-- `port_close`, if it destroys no port with a long message in its queue. -/
theorem Inv.portClose (h : s.Inv) (hok : ¬ s.Leaky (.close id)) : (s.portClose id).2.Inv := by
  unfold PortTable.portClose
  cases hp : s.ports.find id with
  | none => exact h
  | some p =>
    obtain ⟨i, rfl, hi, htable, hid, hring, hheld⟩ := h.of_find hp
    dsimp only
    split_ifs with hlast
    · have hshort : ∀ item ∈ p.ring.queued, ¬ IsLong item := fun item hitem hlong =>
        hok ⟨p, hp, by omega, item, hitem, hlong⟩
      refine h.write (set_table s.ports i { p with id := 0 }) (.inl rfl) hring (fun _ => hshort)
        (fun j hj => .inr hj) ?_ h.positive
      have hnone : PortObj.held { p with id := 0 } = s.held i := by
        rw [held, htable, hheld, buffers_eq_nil hshort]
        rfl
      rw [hnone, update_eq_self]
      exact h.custody
    · exact { h with }

/-- A `port_close` that leaks. -/
theorem not_conserved_close (h : s.Inv) (hleaky : s.Leaky (.close id)) : ¬ (s.portClose id).2.Conserved := by
  obtain ⟨p, hp, hlast, item, hitem, hlong⟩ := hleaky
  obtain ⟨i, rfl, hi, htable, hid, hring, hheld⟩ := h.of_find hp
  have hclose : (s.portClose (i + 1)).2 = { s with
      refcount := update s.refcount i (s.refcount i - 1)
      ports := s.ports.set (i + 1) { p with id := 0 } } := by
    rw [PortTable.portClose, hp]
    dsimp only
    rw [Nat.add_sub_cancel] at hlast ⊢
    rw [if_pos (by omega)]
  have hbefore : s.liveBuffers.ncard = _ := h.conserved
  -- The place has lost what it held, and nothing was freed.
  have hless : ∑ j ∈ Finset.range maxPorts, ((s.portClose (i + 1)).2.held j).length <
      ∑ j ∈ Finset.range maxPorts, (s.held j).length := by
    rw [hclose]
    apply Finset.sum_lt_sum
    · intro j _
      unfold held Ports.set
      dsimp only
      rw [Nat.add_sub_cancel]
      by_cases hji : j = i
      · rw [hji, update_self]
        exact Nat.zero_le _
      · rw [update_of_ne hji]
    · refine ⟨i, Finset.mem_range.mpr hi, ?_⟩
      unfold held Ports.set
      dsimp only
      rw [Nat.add_sub_cancel, update_self, htable, hheld]
      apply length_pos_of_mem (a := field item 8 8)
      exact mem_map_of_mem (mem_filter.mpr ⟨hitem, hlong⟩)
  intro hafter
  have hsame : (s.portClose (i + 1)).2.liveBuffers = s.liveBuffers := by rw [hclose]; rfl
  rw [Conserved, hsame, hbefore] at hafter
  omega

/-! ### Sending -/

/-- The end of `port_send`. It fails if the queue is full, and changes nothing then. -/
theorem pushSlot_cases (h : s.Inv) {ports : Ports} (slot : Mem)
    (htable : ports.table = s.ports.table) (hp : s.ports.find (i + 1) = some p) :
    (p.ring.queued.length = portQueueDepth ∧ ports.pushSlot (i + 1) p slot = (false, none, ports)) ∨
    p.ring.queued.length ≠ portQueueDepth ∧ ∃ ring : Ringbuf, ring.OfPort ∧
      ring.queued = p.ring.queued ++ [slotBytes slot] ∧
      ports.pushSlot (i + 1) p slot = (true, p.waiter, ports.set (i + 1) { p with ring, waiter := none }) := by
  obtain ⟨j, hj, -, hplace, -, hring, -⟩ := h.of_find hp
  obtain rfl : i = j := Nat.succ.inj hj
  unfold Ports.pushSlot
  rcases hring.pushRetry slot with ⟨hfails, hfull⟩ | ⟨hroom, ring, hpush, hport, hqueue⟩
  · have hsame : ports.set (i + 1) p = ports := by
      rw [Ports.set, Nat.add_sub_cancel, ← hplace, ← htable, update_eq_self]
    rw [hfails]
    rw [if_neg Bool.false_ne_true, hsame]
    exact .inl ⟨hfull, rfl⟩
  · rw [hpush]
    exact .inr ⟨hroom, ring, hport, hqueue, rfl⟩

/-- The ports after `kmalloc` and the copy of a long message. -/
def withBuffer (ports : Ports) (ptr : ℕ) (msg : Mem) (len : ℕ) : Ports :=
  { ports with
    mem := ports.mem.copy ptr msg 0 len
    live := Function.update ports.live ptr (some len) }

/-- What `port_send` does: nothing, or it queues a short message, or it queues a long one in a new buffer,
or it leaks the buffer. -/
theorem portSend_cases (h : s.Inv) (id : ℕ) (msg : Mem) (len : ℕ) (heap : Option ℕ) :
    (¬ s.Leaky (.send id msg len heap) ∧
      (portSend s.ports id msg len heap).1 = false ∧ (portSend s.ports id msg len heap).2.2 = s.ports) ∨
    (¬ s.Leaky (.send id msg len heap) ∧ (portSend s.ports id msg len heap).1 = true ∧
      ∃ (i : ℕ) (p : PortObj) (ring : Ringbuf), id = i + 1 ∧ s.ports.find id = some p ∧ ring.OfPort ∧
      (len ≤ portInlineMax ∧ ring.queued = p.ring.queued ++ [slotBytes (inlineSlot msg len)] ∧
        (portSend s.ports id msg len heap).2.2 = s.ports.set id { p with ring, waiter := none } ∨
      ∃ ptr, heap = some ptr ∧ portInlineMax < len ∧ len ≤ portMsgMax ∧
        ring.queued = p.ring.queued ++ [slotBytes (outOfLineSlot msg len ptr)] ∧
        (portSend s.ports id msg len heap).2.2 =
          (withBuffer s.ports ptr msg len).set id { p with ring, waiter := none })) ∨
    s.Leaky (.send id msg len heap) ∧ (portSend s.ports id msg len heap).1 = false ∧
      ∃ ptr, heap = some ptr ∧ 0 < len ∧
        (portSend s.ports id msg len heap).2.2 = withBuffer s.ports ptr msg len := by
  unfold portSend
  by_cases hlen : len = 0 ∨ len > portMsgMax
  · rw [if_pos hlen]
    refine .inl ⟨?_, rfl, rfl⟩
    rintro ⟨-, -, -, -, hlong, hmax, -⟩
    omega
  rw [if_neg hlen]
  cases hp : s.ports.find id with
  | none =>
    refine .inl ⟨?_, rfl, rfl⟩
    rintro ⟨p, -, hp', -⟩
    cases hp.symm.trans hp'
  | some p =>
    obtain ⟨i, rfl, -⟩ := h.of_find hp
    dsimp only
    split_ifs with hshort
    · rcases @pushSlot_cases _ _ _ h s.ports (inlineSlot msg len) rfl hp with
        ⟨-, hfails⟩ | ⟨-, ring, hring, hqueue, hpush⟩
      · rw [hfails]
        refine .inl ⟨?_, rfl, rfl⟩
        rintro ⟨-, -, -, -, hlong, -⟩
        omega
      · rw [hpush]
        refine .inr (.inl ⟨?_, rfl, i, p, ring, rfl, rfl, hring, .inl ⟨hshort, hqueue, rfl⟩⟩)
        rintro ⟨-, -, -, -, hlong, -⟩
        omega
    · cases heap with
      | none =>
        refine .inl ⟨?_, rfl, rfl⟩
        rintro ⟨-, ptr, -, hptr, -⟩
        cases hptr
      | some ptr =>
        change (_ ∧ ((withBuffer s.ports ptr msg len).pushSlot _ p _).1 = _ ∧ _) ∨ _
        rcases pushSlot_cases h (outOfLineSlot msg len ptr)
          (show (withBuffer s.ports ptr msg len).table = s.ports.table from rfl) hp with
          ⟨hfull, hfails⟩ | ⟨hroom, ring, hring, hqueue, hpush⟩
        · refine .inr (.inr ⟨⟨p, ptr, hp, rfl, by omega, by omega, hfull⟩, ?_, ptr, rfl, by omega, ?_⟩)
          · exact congrArg Prod.fst hfails
          · exact congrArg (fun r => r.2.2) hfails
        · refine .inr (.inl ⟨?_, congrArg Prod.fst hpush, i, p, ring, rfl, rfl, hring,
            .inr ⟨ptr, rfl, by omega, by omega, hqueue, congrArg (fun r => r.2.2) hpush⟩⟩)
          rintro ⟨p', -, hp', -, -, -, hfull⟩
          obtain rfl := some.inj (hp.symm.trans hp')
          exact hroom hfull

/-- A new buffer comes to life. -/
theorem liveBuffers_withBuffer (msg : Mem) (len : ℕ) :
    { s with ports := withBuffer s.ports ptr msg len }.liveBuffers = insert ptr s.liveBuffers := by
  ext a
  rw [Set.mem_insert_iff]
  change update s.ports.live ptr (some len) a ≠ none ↔ a = ptr ∨ s.ports.live a ≠ none
  by_cases ha : a = ptr
  · rw [ha, update_self]
    exact iff_of_true (some_ne_none len) (.inl rfl)
  · rw [update_of_ne ha, or_iff_right ha]

/-- What `kmalloc` returns is not live. -/
theorem Inv.notMem_of_unused (h : s.Inv) (hlen : 0 < len) (hunused : s.ports.Unused ptr len) :
    ptr ∉ s.liveBuffers := by
  intro hlive
  obtain ⟨l, hl⟩ := ne_none_iff_exists'.mp hlive
  have hdisj := hunused.2 ptr l hl
  have hpos := h.positive ptr l hl
  omega

theorem Inv.positive_withBuffer (h : s.Inv) (hlen : 0 < len) (msg : Mem) (a l : ℕ)
    (hl : (withBuffer s.ports ptr msg len).live a = some l) : 0 < l := by
  change update s.ports.live ptr (some len) a = some l at hl
  by_cases ha : a = ptr
  · rw [ha, update_self] at hl
    rwa [← some.inj hl]
  · rw [update_of_ne ha] at hl
    exact h.positive a l hl

/-- `port_send`, unless it leaks. -/
theorem Inv.portSend (h : s.Inv) {heap : Option ℕ} (hpossible : s.Possible (.send id msg len heap))
    (hok : ¬ s.Leaky (.send id msg len heap)) : (s.perform (.send id msg len heap)).Inv := by
  rw [perform]
  rcases portSend_cases h id msg len heap with ⟨-, -, hsame⟩ |
    ⟨-, -, i, p, ring, rfl, hp, hring, hqueued⟩ | ⟨hleaky, -⟩
  · rw [hsame]
    exact h
  · obtain ⟨j, hj, hi, htable, hid, -, hheld⟩ := h.of_find hp
    obtain rfl : i = j := Nat.succ.inj hj
    have hopen : p.id ≠ 0 := by omega
    have hafter : PortObj.held { p with ring, waiter := none } = buffers ring.queued := if_neg hopen
    rcases hqueued with ⟨hshort, hqueue, hports⟩ | ⟨ptr, rfl, hlong, hmax, hqueue, hports⟩
    · rw [hports]
      refine h.write (set_table s.ports i _) (.inr ⟨hid, hi⟩) hring (fun h => absurd h hopen)
        (fun j hj => .inr hj) ?_ h.positive
      have hsame : buffers p.ring.queued = s.held i := by rw [← hheld, ← htable, held]
      rw [hafter, hqueue, buffers_append, buffers_inlineSlot hshort, append_nil, hsame, update_eq_self]
      exact h.custody
    · have hunused := hpossible ptr rfl
      have hnew := h.notMem_of_unused (by omega) hunused
      have hptr : ptr < 2^64 := by
        have := hunused.1
        omega
      rw [hports]
      refine h.write (set_table (withBuffer s.ports ptr msg len) i _) (.inr ⟨hid, hi⟩) hring
        (fun h => absurd h hopen) (fun j hj => .inr hj) ?_ (h.positive_withBuffer (by omega) msg)
      have hgive := h.custody.give (Finset.mem_range.mpr hi) hnew
      rw [← liveBuffers_withBuffer msg len] at hgive
      rw [hafter, hqueue, buffers_append, buffers_outOfLineSlot hlong hmax hptr, ← hheld, ← htable]
      exact hgive
  · exact absurd hleaky hok

/-- A `port_send` that leaks. -/
theorem not_conserved_send (h : s.Inv) {heap : Option ℕ}
    (hpossible : s.Possible (.send id msg len heap)) (hleaky : s.Leaky (.send id msg len heap)) :
    ¬ (s.perform (.send id msg len heap)).Conserved := by
  rw [perform]
  rcases portSend_cases h id msg len heap with ⟨hok, -⟩ | ⟨hok, -⟩ | ⟨-, -, ptr, rfl, hlen, hports⟩
  · exact absurd hleaky hok
  · exact absurd hleaky hok
  have hnew := h.notMem_of_unused hlen (hpossible ptr rfl)
  have hbefore : s.liveBuffers.ncard = _ := h.conserved
  rw [hports]
  intro hafter
  rw [Conserved, liveBuffers_withBuffer, Set.ncard_insert_of_notMem hnew h.custody.finite, hbefore] at hafter
  exact absurd hafter (Nat.succ_ne_self _)

/-! ### Receiving -/

/-- A buffer is released. -/
theorem liveBuffers_release (ptr : ℕ) (ports : Ports) :
    ({ s with ports := { ports with live := update s.ports.live ptr none } }).liveBuffers =
      s.liveBuffers \ {ptr} := by
  ext a
  rw [Set.mem_sdiff, Set.mem_singleton_iff]
  change update s.ports.live ptr none a ≠ none ↔ s.ports.live a ≠ none ∧ a ≠ ptr
  by_cases ha : a = ptr
  · rw [ha, update_self]
    exact iff_of_false (fun h => h rfl) fun h => h.2 rfl
  · rw [update_of_ne ha]
    exact (and_iff_left ha).symm

/-- The loop of `port_recv` at a place where there is an open port or a sleeping receiver. -/
theorem Inv.recvLoop (h : s.Inv) (hplace : (s.ports.table i).id ≠ 0 ∨ i ∈ s.sleeping)
    {sleeping : List ℕ} (hsleep : ∀ j ∈ sleeping, j ∈ s.sleeping) (buf : Mem) (cap cur : ℕ) :
    ({ s with sleeping := sleeping }.afterRecv i
      (recvLoop s.ports (i + 1) (s.ports.table i) buf cap cur)).Inv := by
  have hring := h.rings i hplace
  unfold Ipc.recvLoop
  rcases hring.pop fun _ => 0 with hpop | ⟨item, slot, ring, hpop, hport, hqueue, hlen, hptr⟩
  · rw [hpop]
    refine h.write (set_table s.ports i _) (h.ids i) hring ?_ ?_ ?_ h.positive
    · intro hzero
      exact h.closed i (hplace.resolve_left (not_not.mpr hzero)) hzero
    · intro j hj
      exact (mem_cons.mp hj).imp_right (hsleep j)
    · have hheld : PortObj.held { s.ports.table i with waiter := some cur } = s.held i := rfl
      rw [hheld, update_eq_self]
      exact h.custody
  · rw [hpop]
    dsimp only
    rw [hlen, hptr]
    have hclosed (hzero : (s.ports.table i).id = 0) : ∀ item ∈ ring.queued, ¬ IsLong item := by
      intro item' hitem'
      refine h.closed i (hplace.resolve_left (not_not.mpr hzero)) hzero item' ?_
      rw [hqueue]
      exact mem_cons_of_mem _ hitem'
    by_cases hshort : field item 4 4 ≤ portInlineMax
    · -- Nothing changes in what the place holds.
      have hnot : ¬ IsLong item := by simpa [IsLong] using hshort
      have hheld : PortObj.held { s.ports.table i with ring } = s.held i := by
        rw [held, PortObj.held, PortObj.held, hqueue, buffers, buffers, filter_cons_of_neg hnot]
      rw [if_pos hshort]
      refine h.write (set_table s.ports i _) (h.ids i) hport hclosed (fun j hj => .inr (hsleep j hj)) ?_
        h.positive
      rw [hheld, update_eq_self]
      exact h.custody
    · -- A long message is in the queue of an open port only.
      have hlong : IsLong item = true := by simpa [IsLong] using hshort
      have hopen : (s.ports.table i).id ≠ 0 := by
        intro hzero
        refine h.closed i (hplace.resolve_left (not_not.mpr hzero)) hzero item ?_ hlong
        rw [hqueue]
        exact mem_cons_self
      have hi : i ∈ Finset.range maxPorts := Finset.mem_range.mpr ((h.ids i).resolve_left hopen).2
      have hheld : s.held i = field item 8 8 :: buffers ring.queued := by
        rw [held, PortObj.held, if_neg hopen, hqueue, buffers, filter_cons_of_pos hlong, map_cons]
        rfl
      have hafter : PortObj.held { s.ports.table i with ring } = buffers ring.queued := if_neg hopen
      have htake := h.custody.take hi hheld
      rw [if_neg hshort]
      refine h.write (set_table s.ports i _) (h.ids i) hport hclosed (fun j hj => .inr (hsleep j hj)) ?_ ?_
      · rw [hafter]
        rw [← liveBuffers_release _ s.ports] at htake
        exact htake
      · intro a l hl
        change update s.ports.live (field item 8 8) none a = some l at hl
        by_cases ha : a = field item 8 8
        · rw [ha, update_self] at hl
          cases hl
        · rw [update_of_ne ha] at hl
          exact h.positive a l hl

/-! ## All calls -/

/-- A call that does not leak keeps the invariant. -/
theorem Inv.perform (h : s.Inv) {c : Call} (hpossible : s.Possible c) (hok : ¬ s.Leaky c) :
    (s.perform c).Inv := by
  cases c with
  | «open» name flags => exact h.portOpen name flags
  | close id => exact h.portClose hok
  | send id msg len heap => exact h.portSend hpossible hok
  | recv id buf cap cur =>
    rw [PortTable.perform, portRecv]
    split_ifs
    · exact h
    cases hp : s.ports.find id with
    | none => exact h
    | some p =>
      obtain ⟨i, rfl, -, rfl, hid, -⟩ := h.of_find hp
      exact h.recvLoop (.inl (by rw [Nat.add_sub_cancel, hid]; exact Nat.succ_ne_zero i))
        (fun _ hj => hj) buf cap cur
  | resume i buf cap cur =>
    exact h.recvLoop (.inr hpossible) (fun _ hj => mem_of_mem_erase hj) buf cap cur

/-- After a call the live buffers are those of the queued messages exactly if it does not leak. -/
theorem Inv.conserved_perform_iff (h : s.Inv) {c : Call} (hpossible : s.Possible c) :
    (s.perform c).Conserved ↔ ¬ s.Leaky c := by
  refine ⟨fun hafter hleaky => ?_, fun hok => (h.perform hpossible hok).conserved⟩
  cases c with
  | close id => exact not_conserved_close h hleaky hafter
  | send id msg len heap => exact not_conserved_send h hpossible hleaky hafter
  | _ => exact hleaky

/-- A call that is possible and does not leak. -/
def Step (s s' : PortTable) : Prop := ∃ c, s.Possible c ∧ ¬ s.Leaky c ∧ s' = s.perform c

/-- Every state of a run without leaks. -/
theorem Inv.of_run {mem : Mem} (hrun : ReflTransGen Step (PortTable.start mem) s) : s.Inv := by
  refine Runs.invariant (P := Inv) hrun (.start mem) ?_
  rintro t t' ht ⟨c, hpossible, hok, rfl⟩
  exact ht.perform hpossible hok

/-- In every state of a run of calls that do not leak, as many buffers are live as long messages are
queued in open ports. The next call keeps it so, and a `port_send` that fails leaves the ports and the
heap as they are, if and only if it does not leak. -/
theorem port_buffers_of_run {mem : Mem} (hrun : ReflTransGen Step (start mem) s) :
    s.Conserved ∧ ∀ c, s.Possible c →
      ((s.perform c).Conserved ↔ ¬ s.Leaky c) ∧
      ∀ id msg len heap, c = .send id msg len heap → (portSend s.ports id msg len heap).1 = false →
        ((s.perform c).ports.table = s.ports.table ∧ (s.perform c).ports.live = s.ports.live ↔
          ¬ s.Leaky c) := by
  have hinv := Inv.of_run hrun
  refine ⟨hinv.conserved, fun c hpossible => ⟨hinv.conserved_perform_iff hpossible, ?_⟩⟩
  rintro id msg len heap rfl hfails
  rw [PortTable.perform]
  rcases portSend_cases hinv id msg len heap with ⟨hok, -, hsame⟩ | ⟨-, htrue, -⟩ |
    ⟨hleaky, -, ptr, rfl, hlen, hports⟩
  · rw [hsame]
    exact iff_of_true ⟨rfl, rfl⟩ hok
  · exact absurd (hfails.symm.trans htrue) Bool.false_ne_true
  · rw [hports]
    refine iff_of_false (fun hsame => ?_) (not_not.mpr hleaky)
    have hlive : s.ports.live ptr = some len := by
      rw [← hsame.2]
      exact update_self _ _ _
    exact hinv.notMem_of_unused hlen (hpossible ptr rfl) (by rw [liveBuffers, Set.mem_ofPred, hlive]; simp)

/-- A port is opened, and a message of 64 bytes is sent to it. -/
def opened : PortTable := (start fun _ => 0).perform (.open (cstr "log") 1)

def oneQueued : PortTable := opened.perform (.send 1 (fun _ => 0) 64 (some 0x10000))

/-- `port_open` does not touch the heap. -/
theorem live_portOpen (s : PortTable) (name : CStr) (flags : ℕ) :
    (s.portOpen name flags).2.ports.live = s.ports.live := by
  unfold portOpen
  by_cases hname : name = []
  · rw [if_pos hname]
  rw [if_neg hname]
  cases s.findByName name with
  | some i =>
    split_ifs <;> rfl
  | none =>
    by_cases hcreate : flags &&& 1 = 0
    · rw [if_pos hcreate]
    rw [if_neg hcreate]
    cases s.findFree <;> rfl

theorem find_one {s : PortTable} (h : (s.ports.table 0).id = 1) : s.ports.find 1 = some (s.ports.table 0) := by
  rw [Ports.find, if_neg (by decide), if_pos h]

theorem run_oneQueued : ReflTransGen Step (start fun _ => 0) oneQueued := by
  have hopen : Step (start fun _ => 0) opened := ⟨.open (cstr "log") 1, trivial, fun h => h, rfl⟩
  have hlive : opened.ports.live = fun _ => none := by
    rw [opened, perform, live_portOpen, start]
  have hsend : Step opened oneQueued := by
    refine ⟨.send 1 (fun _ => 0) 64 (some 0x10000), ?_, ?_, rfl⟩
    · intro ptr hptr
      rw [← some.inj hptr]
      refine ⟨by decide, fun a l h => ?_⟩
      rw [hlive] at h
      cases h
    · rintro ⟨p, -, hp, -, -, -, hfull⟩
      rw [find_one (by decide +kernel)] at hp
      rw [← some.inj hp] at hfull
      exact absurd hfull (by decide +kernel)
  exact .tail (.single hopen) hsend

/-- The message has its buffer. -/
theorem port_buffers_of_run_send : ReflTransGen Step (start fun _ => 0) oneQueued ∧
    oneQueued.held 0 = [0x10000] ∧ oneQueued.Conserved :=
  ⟨run_oneQueued, by decide +kernel, (port_buffers_of_run run_oneQueued).1⟩

/-- If the port is closed, then no port is open and the buffer is still live. -/
theorem close_leaks : ReflTransGen Step (start fun _ => 0) oneQueued ∧
    (∀ i < maxPorts, ((oneQueued.perform (.close 1)).ports.table i).id = 0) ∧
    (oneQueued.perform (.close 1)).ports.live 0x10000 = some 64 ∧
    ¬ (oneQueued.perform (.close 1)).Conserved := by
  refine ⟨run_oneQueued, by decide +kernel, by decide +kernel, fun hafter => ?_⟩
  refine ((Inv.of_run run_oneQueued).conserved_perform_iff (c := .close 1) trivial).mp hafter ?_
  exact ⟨_, find_one (by decide +kernel), by decide +kernel, by decide +kernel⟩

end PortTable

end FreeAsd.Ipc
