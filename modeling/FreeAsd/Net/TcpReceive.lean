import FreeAsd.Net.Tcp
import FreeAsd.Lib.Runs
import Mathlib.Data.List.Infix
import Mathlib.Tactic.Linarith

/-!
# TCP: what a connection receives

The segments of a stream `S` arrive in any order, more than once, in any overlap or not at all (`Carries`). The
bytes returned and buffered are a prefix of it (`Received`), as long as there is room for each segment
accepted and a FIN is the next in order (`InOrder`). The code checks neither.
-/

namespace FreeAsd.Tcp

open Function List

/-! ## The receive buffer -/

namespace Conn

/-- The number of bytes buffered. -/
def count (c : Conn) : ℕ := (c.rx_wr + rxBufSize - c.rx_rd) % rxBufSize

/-- The bytes buffered, the oldest first. -/
def buffered (c : Conn) : List UInt8 :=
  (List.range c.count).map fun k => c.rx_buf ((c.rx_rd + k) % rxBufSize)

/-- The indices are in the buffer. -/
structure IndexOk (c : Conn) : Prop where
  rd : c.rx_rd < rxBufSize
  wr : c.rx_wr < rxBufSize

variable {c : Conn}

@[simp] theorem length_buffered : c.buffered.length = c.count := by
  rw [buffered, length_map, length_range]

/-- Buffering one byte. -/
theorem buffered_push (h : c.IndexOk) (b : UInt8) (hroom : (c.rx_wr + 1) % rxBufSize ≠ c.rx_rd) :
    Conn.buffered { c with
        rx_buf := update c.rx_buf c.rx_wr b, rx_wr := (c.rx_wr + 1) % rxBufSize }
      = c.buffered ++ [b] := by
  obtain ⟨hrd, hwr⟩ := h
  have hcount : Conn.count { c with
      rx_buf := update c.rx_buf c.rx_wr b, rx_wr := (c.rx_wr + 1) % rxBufSize }
        = c.count + 1 := by
    simp only [count, rxBufSize] at *
    omega
  rw [buffered, hcount, range_succ, map_append, map_singleton, buffered]
  have hlast : (c.rx_rd + c.count) % rxBufSize = c.rx_wr := by
    simp only [count, rxBufSize] at *
    omega
  congr 1
  · apply map_congr_left
    intro k hk
    have hk' := mem_range.mp hk
    have hne : (c.rx_rd + k) % rxBufSize ≠ c.rx_wr := by
      simp only [count, rxBufSize] at *
      omega
    exact update_of_ne hne _ _
  · dsimp only
    rw [hlast, update_self]

/-- There is room for a byte unless all slots but one are taken. -/
theorem room_iff (h : c.IndexOk) : (c.rx_wr + 1) % rxBufSize ≠ c.rx_rd ↔ c.count + 1 < rxBufSize := by
  obtain ⟨hrd, hwr⟩ := h
  simp only [count, rxBufSize] at *
  omega

/-- Taking one byte out. -/
theorem buffered_pop (h : c.IndexOk) (hne : c.rx_rd ≠ c.rx_wr) :
    c.buffered = c.rx_buf c.rx_rd ::
      Conn.buffered { c with rx_rd := (c.rx_rd + 1) % rxBufSize } := by
  obtain ⟨hrd, hwr⟩ := h
  have hcount : c.count
      = Conn.count { c with rx_rd := (c.rx_rd + 1) % rxBufSize } + 1 := by
    simp only [count, rxBufSize] at *
    omega
  rw [buffered, hcount, range_succ_eq_map, map_cons, map_map, buffered]
  congr 1
  · rw [add_zero, Nat.mod_eq_of_lt hrd]
  apply map_congr_left
  intro k _
  have hidx : (c.rx_rd + (k + 1)) % rxBufSize = ((c.rx_rd + 1) % rxBufSize + k) % rxBufSize := by
    rw [Nat.mod_add_mod, add_right_comm, add_assoc]
  exact congrArg c.rx_buf hidx

theorem buffered_eq_nil (hne : c.rx_rd = c.rx_wr) : c.buffered = [] := by
  have hcount : c.count = 0 := by
    simp only [count, rxBufSize] at *
    omega
  rw [buffered, hcount]
  rfl

end Conn

/-- Data that fits is buffered whole. -/
theorem rxBuffer_spec {c : Conn} (h : c.IndexOk) {data : List UInt8}
    (hroom : c.count + data.length < rxBufSize) :
    (rxBuffer c data).buffered = c.buffered ++ data ∧ (rxBuffer c data).IndexOk := by
  induction data generalizing c with
  | nil => exact ⟨(append_nil _).symm, h⟩
  | cons b bs ih =>
    have hone : (c.rx_wr + 1) % rxBufSize ≠ c.rx_rd := by
      rw [c.room_iff h]
      rw [length_cons] at hroom
      omega
    rw [rxBuffer, if_neg hone]
    have hpush := c.buffered_push h b hone
    have hok : Conn.IndexOk { c with
        rx_buf := update c.rx_buf c.rx_wr b, rx_wr := (c.rx_wr + 1) % rxBufSize } :=
      ⟨h.rd, Nat.mod_lt _ (by norm_num)⟩
    have hlen := congrArg List.length hpush
    rw [length_append, Conn.length_buffered, Conn.length_buffered, length_singleton] at hlen
    obtain ⟨hbuf, hok'⟩ := ih hok (by rw [hlen]; rw [length_cons] at hroom; omega)
    refine ⟨?_, hok'⟩
    rw [hbuf, hpush, append_assoc]
    rfl

/-- Buffering touches nothing but the buffer. -/
theorem rxBuffer_frame (c : Conn) (data : List UInt8) :
    (rxBuffer c data).rcv_nxt = c.rcv_nxt ∧ (rxBuffer c data).state = c.state ∧
      (rxBuffer c data).fin_rcvd = c.fin_rcvd ∧ (rxBuffer c data).snd_una = c.snd_una ∧
      (rxBuffer c data).snd_nxt = c.snd_nxt := by
  induction data generalizing c with
  | nil => exact ⟨rfl, rfl, rfl, rfl, rfl⟩
  | cons b bs ih =>
    rw [rxBuffer]
    split_ifs
    · exact ⟨rfl, rfl, rfl, rfl, rfl⟩
    · exact ih _

/-- `net_tcp_recv` takes bytes off the front of the buffer. -/
theorem recvLoop_spec (cap : ℕ) {c : Conn} (h : c.IndexOk) :
    (recvLoop cap c).1 ++ (recvLoop cap c).2.buffered = c.buffered ∧
      (recvLoop cap c).2 = { c with rx_rd := (recvLoop cap c).2.rx_rd } ∧
      (recvLoop cap c).2.IndexOk := by
  induction cap generalizing c with
  | zero => exact ⟨rfl, rfl, h⟩
  | succ cap ih =>
    rw [recvLoop]
    split_ifs with hne
    · have hok : Conn.IndexOk { c with rx_rd := (c.rx_rd + 1) % rxBufSize } :=
        ⟨Nat.mod_lt _ (by norm_num), h.wr⟩
      obtain ⟨hbuf, hframe, hok'⟩ := ih hok
      refine ⟨?_, hframe, hok'⟩
      rw [c.buffered_pop h hne, ← hbuf]
      rfl
    · exact ⟨rfl, rfl, h⟩

/-! ## Runs -/

/-- What can happen next. -/
inductive Event
  /-- A packet comes in. -/
  | frame (src_ip : ℕ) (data : List UInt8)
  /-- The innermost call that waits in `tcp_tx` goes on. -/
  | resume
  /-- `net_tcp_recv` is called for the connection. -/
  | recv (cap : ℕ)
  /-- Something happens to the other connections. -/
  | other (conns : Fin maxConn → Conn)

/-- The network with the bytes that `net_tcp_recv` has returned for one connection. -/
structure Session where
  net : Net
  returned : List UInt8

/-- What happens, with the connection `i` in view. -/
def Session.exec (i : Fin maxConn) (s : Session) : Event → Session
  | .frame src_ip data => { s with net := tcpHandle s.net src_ip data }
  | .resume => { s with net := resume s.net }
  | .recv cap =>
    let r := netTcpRecv s.net i cap
    { net := r.2, returned := s.returned ++ r.1 }
  | .other conns => { s with net.conns := Function.update conns i (s.net.conns i) }

/-- All bytes of the stream that the connection has taken in. -/
def Session.received (i : Fin maxConn) (s : Session) : List UInt8 :=
  s.returned ++ (s.net.conns i).buffered

section

variable (S : List UInt8) (base : ℕ) (i : Fin maxConn)

/-- A segment of the peer: its bytes are those of the stream from `off` on, and its FIN stands after the
last byte. It is less than half of the sequence space away from the bytes received, so its number cannot
mean another place. -/
def Carries (received : ℕ) (seg : Segment) : Prop :=
  ∃ off, seg.seq = (base + off) % 2^32 ∧ seg.payload <+: S.drop off ∧
    (seg.has flFin → off + seg.payload.length = S.length) ∧
    off < received + 2^31 ∧ received < off + 2^31

/-- The segment that a packet brings to the connection. -/
def Brings (n : Net) (data : List UInt8) (seg : Segment) : Prop :=
  parseSegment data = some seg ∧ findConn n seg = some i

/-- What the network may do: packets for the connection come from its peer. The length of a packet is
a `uint16_t`. -/
def Honest (s : Session) : Event → Prop
  | .frame _ data => data.length < 2^16 ∧
      ∀ seg, Brings i s.net data seg → Carries S base (s.received i).length seg
  | _ => True

/-- The data of the segment is the next in order. -/
def Accepts (c : Conn) (seg : Segment) : Prop := seg.payload.length > 0 ∧ seg.seq = c.rcv_nxt

instance (c : Conn) (seg : Segment) : Decidable (Accepts c seg) :=
  inferInstanceAs (Decidable (_ ∧ _))

/-- A FIN that is handled now is the next in order. -/
def FinNext (c : Conn) (seg : Segment) : Prop :=
  seg.has flFin → c.state = .established → c.rcv_nxt = (seg.seq + seg.payload.length) % 2^32

/-- Data that is accepted fits, and a FIN is handled only when it is the next in order. A segment that
resets the connection is not looked at any further. -/
def InOrder (s : Session) : Event → Prop
  | .frame _ data => ∀ seg, Brings i s.net data seg → ¬ seg.has flRst →
      if Accepts (s.net.conns i) seg then (s.net.conns i).count + seg.payload.length < rxBufSize
      else FinNext (s.net.conns i) seg
  | .resume => ∀ seg, s.net.calls.head? = some (.afterData i seg) → FinNext (s.net.conns i) seg
  | _ => True

/-- One step of a run in which the peer is honest and everything comes in order. -/
def Step (s t : Session) : Prop :=
  ∃ e, Honest S base i s e ∧ InOrder i s e ∧ t = s.exec i e

/-- The connection has just been established. -/
structure Established (s : Session) : Prop where
  state : (s.net.conns i).state = .established
  rcv_nxt : (s.net.conns i).rcv_nxt = base % 2^32
  fin_rcvd : (s.net.conns i).fin_rcvd = false
  empty : (s.net.conns i).rx_rd = (s.net.conns i).rx_wr
  index : (s.net.conns i).rx_rd < rxBufSize
  returned : s.returned = []
  calls : ∀ seg, .afterData i seg ∉ s.net.calls

/-- What holds of a connection in every state: it has received a prefix of the stream, acknowledges
what it has received, and has seen the FIN only if it has received everything. -/
structure Received (s : Session) : Prop where
  stream : s.received i <+: S
  ack : (s.net.conns i).rcv_nxt
    = (base + (s.received i).length + if (s.net.conns i).fin_rcvd then 1 else 0) % 2^32
  fin : (s.net.conns i).fin_rcvd = true → s.received i = S

/-- The invariant of runs: `Received`, the indices, the states that a connection can be in, and where
the segments of the waiting calls stand in the stream. -/
structure RxInv (s : Session) : Prop extends Received S base i s where
  index : (s.net.conns i).IndexOk
  state : (s.net.conns i).state ∈ [State.established, .closeWait, .closed]
  calls : ∀ seg, .afterData i seg ∈ s.net.calls → ∃ off, seg.seq = (base + off) % 2^32 ∧
    (seg.has flFin → off + seg.payload.length = S.length) ∧
    off + seg.payload.length ≤ (s.received i).length

end

/-! ## What leaves the stream alone -/

/-- Two states of a connection with the same buffer and the same place in the stream. -/
structure SameRx (c c' : Conn) : Prop where
  rcv_nxt : c'.rcv_nxt = c.rcv_nxt
  fin_rcvd : c'.fin_rcvd = c.fin_rcvd
  rx_buf : c'.rx_buf = c.rx_buf
  rx_rd : c'.rx_rd = c.rx_rd
  rx_wr : c'.rx_wr = c.rx_wr

variable {S : List UInt8} {base : ℕ} {i j : Fin maxConn} {s : Session} {n n' : Net} {seg : Segment}

theorem SameRx.received (h : SameRx (s.net.conns i) (n.conns i)) :
    Session.received i { s with net := n } = s.received i := by
  rw [Session.received, Session.received, Conn.buffered, Conn.buffered, Conn.count, Conn.count,
    h.rx_buf, h.rx_rd, h.rx_wr]

/-- A change that leaves the buffer and the place in the stream alone, and lets no new segment of the
connection wait. -/
theorem RxInv.touch (h : RxInv S base i s) (hsame : SameRx (s.net.conns i) (n'.conns i))
    (hstate : (n'.conns i).state ∈ [State.established, .closeWait, .closed])
    (hcalls : ∀ seg, .afterData i seg ∈ n'.calls → .afterData i seg ∈ s.net.calls) :
    RxInv S base i { s with net := n' } := by
  refine ⟨⟨?_, ?_, ?_⟩, ⟨?_, ?_⟩, hstate, ?_⟩
  · rw [hsame.received]
    exact h.stream
  · rw [hsame.received, hsame.rcv_nxt, hsame.fin_rcvd]
    exact h.ack
  · rw [hsame.received, hsame.fin_rcvd]
    exact h.fin
  · rw [hsame.rx_rd]
    exact h.index.rd
  · rw [hsame.rx_wr]
    exact h.index.wr
  · rw [hsame.received]
    exact fun seg hseg => h.calls seg (hcalls seg hseg)

/-- What happens to another connection. -/
structure Quiet (i : Fin maxConn) (n n' : Net) : Prop where
  conn : n'.conns i = n.conns i
  calls : ∀ seg, .afterData i seg ∈ n'.calls → .afterData i seg ∈ n.calls

theorem RxInv.quiet (h : RxInv S base i s) (hq : Quiet i s.net n') : RxInv S base i { s with net := n' } := by
  apply h.touch
  · rw [hq.conn]
    exact ⟨rfl, rfl, rfl, rfl, rfl⟩
  · rw [hq.conn]
    exact h.state
  · exact hq.calls

theorem Quiet.set (hj : j ≠ i) (c : Conn) : Quiet i n (n.set j c) := ⟨update_of_ne hj.symm _ _, fun _ h => h⟩

/-- A connection of which only the state changes. -/
theorem RxInv.setState (h : RxInv S base i s) (st : State) (hst : st ∈ [State.closeWait, .closed])
    (j : Fin maxConn) :
    RxInv S base i { s with net := s.net.set j { s.net.conns j with state := st } } := by
  by_cases hj : j = i
  · subst hj
    apply h.touch
    · rw [Net.conns_set]
      exact ⟨rfl, rfl, rfl, rfl, rfl⟩
    · rw [Net.conns_set]
      exact mem_cons_of_mem _ hst
    · exact fun _ hseg => hseg
  · exact h.quiet (Quiet.set hj _)

theorem Quiet.trans {n'' : Net} (h : Quiet i n n') (h' : Quiet i n' n'') : Quiet i n n'' :=
  ⟨h'.conn.trans h.conn, fun seg hseg => h.calls seg (h'.calls seg hseg)⟩

theorem Quiet.push {k : Call} (hk : ∀ seg, k ≠ .afterData i seg) : Quiet i n (n.push k) := by
  refine ⟨rfl, ?_⟩
  intro seg hseg
  rcases mem_cons.mp hseg with heq | hmem
  · exact absurd heq.symm (hk seg)
  · exact hmem

theorem quiet_rxFin (hj : j ≠ i) (n : Net) (seg : Segment) : Quiet i n (rxFin n j seg) := by
  rw [rxFin]
  split_ifs
  · exact (Quiet.set hj _).trans (Quiet.push nofun)
  · exact (Quiet.set hj _).trans (Quiet.push nofun)
  · exact ⟨rfl, fun _ h => h⟩

theorem quiet_rxOpen (hj : j ≠ i) (n : Net) (seg : Segment) : Quiet i n (rxOpen n j seg) := by
  have hcall : ∀ seg', Call.afterData j seg ≠ .afterData i seg' := by
    intro seg' heq
    exact hj (Call.afterData.inj heq).1
  rw [rxOpen]
  split_ifs
  · exact (Quiet.set hj _).trans (Quiet.push hcall)
  · exact (Quiet.set hj _).trans (quiet_rxFin hj _ _)

theorem quiet_tcpRxConn (hj : j ≠ i) (n : Net) (seg : Segment) : Quiet i n (tcpRxConn n j seg) := by
  have hsame : Quiet i n n := ⟨rfl, fun _ h => h⟩
  have hsyn : Quiet i n (rxSynSent n j seg) := by
    rw [rxSynSent]
    split_ifs
    · exact Quiet.set hj _
    · exact hsame
  rw [tcpRxConn]
  split_ifs
  · exact Quiet.set hj _
  cases (n.conns j).state with
  | closed => exact hsame
  | synSent => exact hsyn
  | established | finWait1 | finWait2 => exact quiet_rxOpen hj n seg
  | closeWait => exact hsame

/-! ## One step -/

/-- The FIN part, given that a FIN is only handled at the end of the stream. -/
theorem RxInv.rxFin (h : RxInv S base i s) (hfin : seg.has flFin → (s.net.conns i).state = .established →
      s.received i = S ∧ (s.net.conns i).fin_rcvd = false) :
    RxInv S base i { s with net := rxFin s.net i seg } := by
  rw [Tcp.rxFin]
  split_ifs with hest hwait
  · obtain ⟨hall, hnot⟩ := hfin hest.1 hest.2
    generalize hc : { s.net.conns i with
      rcv_nxt := ((s.net.conns i).rcv_nxt + 1) % 2^32, fin_rcvd := true } = c
    have hconn : ((s.net.set i c).push (.afterFin i)).conns i = c := Net.conns_set _ _ _
    have hreceived : Session.received i { s with net := (s.net.set i c).push (.afterFin i) }
        = s.received i := by
      rw [Session.received, Session.received, hconn, ← hc]
      rfl
    refine ⟨⟨?_, ?_, ?_⟩, ?_, ?_, ?_⟩
    · rw [hreceived]
      exact h.stream
    · have hack := h.ack
      rw [hnot] at hack
      rw [hreceived, hconn, ← hc]
      dsimp only
      rw [hack, if_neg Bool.false_ne_true, if_pos rfl]
      omega
    · intro _
      rw [hreceived, hall]
    · rw [hconn, ← hc]
      exact ⟨h.index.rd, h.index.wr⟩
    · rw [hconn, ← hc]
      exact h.state
    · intro seg' hseg'
      rw [hreceived]
      have hq : Quiet i (s.net.set i c) ((s.net.set i c).push (.afterFin i)) := Quiet.push nofun
      exact h.calls seg' (hq.calls seg' hseg')
  · -- a connection that has not been closed from this side is in neither of these states
    have hstate := h.state
    rcases hwait.2 with h1 | h2
    · rw [h1] at hstate
      exact absurd hstate (by decide)
    · rw [h2] at hstate
      exact absurd hstate (by decide)
  · exact h

/-- The data of an accepted segment is the next of the stream. -/
theorem RxInv.next_of_accepts (h : RxInv S base i s) (hcarries : Carries S base (s.received i).length seg)
    (hacc : Accepts (s.net.conns i) seg) :
    (s.net.conns i).fin_rcvd = false ∧ s.received i ++ seg.payload <+: S ∧
      seg.seq = (base + (s.received i).length) % 2^32 ∧
      (seg.has flFin → (s.received i).length + seg.payload.length = S.length) := by
  obtain ⟨off, hseq, hfirst, hfin, hnew, hold⟩ := hcarries
  obtain ⟨hlen, hnext⟩ := hacc
  have hack := h.ack
  have hnot : (s.net.conns i).fin_rcvd = false := by
    by_contra hne
    rw [Bool.not_eq_false] at hne
    rw [hne, if_pos rfl] at hack
    have hall := h.fin hne
    have hoff : off = S.length + 1 := by
      rw [hall] at hack hnew hold
      omega
    rw [drop_eq_nil_of_le (by omega), prefix_nil] at hfirst
    rw [hfirst] at hlen
    cases hlen
  rw [hnot, if_neg Bool.false_ne_true, add_zero] at hack
  have hoff : off = (s.received i).length := by omega
  subst hoff
  refine ⟨hnot, ?_, hseq, hfin⟩
  obtain ⟨rest, hrest⟩ := h.stream
  rw [← hrest, drop_left] at hfirst
  rw [← hrest]
  exact (prefix_append_right_inj _).mpr hfirst

/-- A FIN that is the next in order stands at the end of what has been received. -/
theorem RxInv.all_of_finNext (h : RxInv S base i s) {off : ℕ} (hseq : seg.seq = (base + off) % 2^32)
    (hend : off + seg.payload.length = S.length)
    (hclose : off + seg.payload.length < (s.received i).length + 2^32)
    (hnext : (s.net.conns i).rcv_nxt = (seg.seq + seg.payload.length) % 2^32) :
    s.received i = S ∧ (s.net.conns i).fin_rcvd = false := by
  have hack := h.ack
  have hle := h.stream.length_le
  by_cases hf : (s.net.conns i).fin_rcvd = true
  · have hlen := congrArg List.length (h.fin hf)
    rw [hf, if_pos rfl] at hack
    omega
  · rw [if_neg hf] at hack
    exact ⟨h.stream.eq_of_length (by omega), Bool.not_eq_true _ ▸ hf⟩

/-- The acknowledgement of a segment leaves what is received alone. -/
theorem sameRx_rxAck (c : Conn) (seg : Segment) : SameRx c (rxAck c seg) := by
  rw [rxAck]
  dsimp only
  split_ifs <;> exact ⟨rfl, rfl, rfl, rfl, rfl⟩

theorem state_rxAck {c : Conn} (h : c.state = .established) (seg : Segment) :
    (rxAck c seg).state = .established := by
  rw [rxAck]
  dsimp only
  split_ifs with _ hwait
  · rw [h] at hwait
    exact absurd hwait.1 (by decide)
  · exact h
  · exact h

/-- The data part of an accepted segment. -/
theorem RxInv.rxData (h : RxInv S base i s) (hcarries : Carries S base (s.received i).length seg)
    (hacc : Accepts (s.net.conns i) seg)
    (hroom : (s.net.conns i).count + seg.payload.length < rxBufSize) :
    RxInv S base i
      { s with net := (s.net.set i (rxData (s.net.conns i) seg)).push (.afterData i seg) } := by
  obtain ⟨hnot, hfirst, hseq, hfin⟩ := h.next_of_accepts hcarries hacc
  obtain ⟨hbuf, hok⟩ := rxBuffer_spec h.index hroom
  obtain ⟨hrcv, hstate, hfinr, -, -⟩ := rxBuffer_frame (s.net.conns i) seg.payload
  generalize hn : (s.net.set i (Tcp.rxData (s.net.conns i) seg)).push (.afterData i seg) = n
  have hconn : n.conns i = Tcp.rxData (s.net.conns i) seg := by
    rw [← hn]
    exact Net.conns_set _ _ _
  have hbuf' : (n.conns i).buffered = (s.net.conns i).buffered ++ seg.payload := by
    rw [hconn, ← hbuf]
    rfl
  have hreceived : Session.received i { s with net := n } = s.received i ++ seg.payload := by
    rw [Session.received, Session.received, hbuf', append_assoc]
  have hfin' : (n.conns i).fin_rcvd = false := by
    rw [hconn]
    exact hfinr.trans hnot
  refine ⟨⟨?_, ?_, ?_⟩, ?_, ?_, ?_⟩
  · rw [hreceived]
    exact hfirst
  · have hack := h.ack
    rw [hnot, if_neg Bool.false_ne_true, add_zero] at hack
    have hnxt : (n.conns i).rcv_nxt
        = ((s.net.conns i).rcv_nxt + seg.payload.length) % 2^32 := by
      rw [hconn, ← hrcv]
      rfl
    rw [hreceived, hnxt, hfin', if_neg Bool.false_ne_true, hack, length_append]
    omega
  · rw [hfin']
    nofun
  · rw [hconn]
    exact ⟨hok.rd, hok.wr⟩
  · rw [hconn]
    exact hstate.symm ▸ h.state
  · intro seg' hseg'
    rw [hreceived, length_append]
    rw [← hn] at hseg'
    rcases mem_cons.mp hseg' with heq | hmem
    · rw [(Call.afterData.inj heq).2]
      exact ⟨_, hseq, hfin, le_refl _⟩
    · obtain ⟨off, hoff, hend, hle⟩ := h.calls seg' hmem
      exact ⟨off, hoff, hend, by omega⟩

/-- The payload of a segment is no longer than its packet. -/
theorem length_payload_le {data : List UInt8} (h : parseSegment data = some seg) :
    seg.payload.length ≤ data.length := by
  rw [parseSegment] at h
  dsimp only at h
  split_ifs at h
  rw [← Option.some.inj h, length_drop]
  exact Nat.sub_le _ _

/-- The connection found for a segment is not closed. -/
theorem state_of_findConn (h : findConn n seg = some i) : (n.conns i).state ≠ .closed := by
  have hp := find?_some h
  exact (of_decide_eq_true hp).1

section

variable (h : RxInv S base i s) (hcarries : Carries S base (s.received i).length seg)
  (hlen : seg.payload.length < 2^16)

include h hcarries hlen

/-- A segment for a connection that is open. -/
theorem RxInv.rxOpen (horder : if Accepts (s.net.conns i) seg then
      (s.net.conns i).count + seg.payload.length < rxBufSize
    else FinNext (s.net.conns i) seg) (hest : (s.net.conns i).state = .established) :
    RxInv S base i { s with net := rxOpen s.net i seg } := by
  generalize hn : s.net.set i (rxAck (s.net.conns i) seg) = n
  have hconn : n.conns i = rxAck (s.net.conns i) seg := by
    rw [← hn]
    exact Net.conns_set _ _ _
  have hsame : SameRx (s.net.conns i) (n.conns i) := hconn ▸ sameRx_rxAck _ _
  have hstate : (n.conns i).state = .established := hconn ▸ state_rxAck hest seg
  have hcalls : n.calls = s.net.calls := by rw [← hn]; rfl
  have h' : RxInv S base i { s with net := n } := by
    apply h.touch hsame
    · rw [hstate]
      decide
    · rw [hcalls]
      exact fun _ hseg => hseg
  have hacc : Accepts (n.conns i) seg ↔ Accepts (s.net.conns i) seg := by
    rw [Accepts, Accepts, hsame.rcv_nxt]
  have hcount : (n.conns i).count = (s.net.conns i).count := by
    rw [Conn.count, Conn.count, hsame.rx_rd, hsame.rx_wr]
  have hopen : Tcp.rxOpen s.net i seg = if Accepts (n.conns i) seg then
      (n.set i (Tcp.rxData (n.conns i) seg)).push (.afterData i seg) else Tcp.rxFin n i seg := by
    have hset : n.set i (Tcp.rxData (n.conns i) seg) = s.net.set i (Tcp.rxData (n.conns i) seg) := by
      rw [← hn, Net.set, Net.set, Net.set, update_idem]
    have hself : s.net.set i (n.conns i) = n := by
      rw [hconn]
      exact hn
    rw [hset, Tcp.rxOpen, ← hconn, hself]
    rfl
  rw [hopen]
  rw [if_congr hacc rfl rfl]
  split_ifs at horder ⊢ with ha
  · apply h'.rxData
    · rw [hsame.received]
      exact hcarries
    · exact hacc.mpr ha
    · rw [hcount]
      exact horder
  · apply h'.rxFin
    intro hfin hest'
    obtain ⟨off, hseq, -, hend, hnew, -⟩ := hcarries
    apply h'.all_of_finNext hseq (hend hfin)
    · rw [hsame.received]
      omega
    · rw [hsame.rcv_nxt]
      exact horder hfin hest

/-- A segment for the connection. -/
theorem RxInv.tcpRxConn (horder : ¬ seg.has flRst → if Accepts (s.net.conns i) seg then
      (s.net.conns i).count + seg.payload.length < rxBufSize
    else FinNext (s.net.conns i) seg) (hne : (s.net.conns i).state ≠ .closed) :
    RxInv S base i { s with net := tcpRxConn s.net i seg } := by
  rw [Tcp.tcpRxConn]
  split_ifs with hrst
  · exact h.setState .closed (by decide) i
  · have hstate := h.state
    cases hst : (s.net.conns i).state with
    | closed => exact absurd hst hne
    | established => exact h.rxOpen hcarries hlen (horder hrst) hst
    | closeWait => exact h
    | synSent | finWait1 | finWait2 =>
      rw [hst] at hstate
      exact absurd hstate (by decide)

end

/-- A packet. -/
theorem RxInv.tcpHandle (h : RxInv S base i s) {src_ip : ℕ} {data : List UInt8}
    (hhonest : Honest S base i s (.frame src_ip data)) (horder : InOrder i s (.frame src_ip data)) :
    RxInv S base i { s with net := tcpHandle s.net src_ip data } := by
  obtain ⟨hdata, hcarries⟩ := hhonest
  rw [Tcp.tcpHandle]
  cases hparse : parseSegment data with
  | none => exact h
  | some seg =>
    dsimp only
    cases hfind : findConn s.net seg with
    | none => exact h
    | some j =>
      dsimp only
      generalize hn : s.net.set j { s.net.conns j with remote_ip := src_ip } = n
      by_cases hj : j = i
      · subst hj
        have hconn : n.conns j = { s.net.conns j with remote_ip := src_ip } := by
          rw [← hn]
          exact Net.conns_set _ _ _
        have hsame : SameRx (s.net.conns j) (n.conns j) := by
          rw [hconn]
          exact ⟨rfl, rfl, rfl, rfl, rfl⟩
        have hstate : (n.conns j).state = (s.net.conns j).state := by rw [hconn]
        have h' : RxInv S base j { s with net := n } := by
          apply h.touch hsame
          · rw [hstate]
            exact h.state
          · rw [← hn]
            exact fun _ hseg => hseg
        apply h'.tcpRxConn
        · rw [hsame.received]
          exact hcarries seg ⟨hparse, hfind⟩
        · exact lt_of_le_of_lt (length_payload_le hparse) hdata
        · rw [hconn]
          exact horder seg ⟨hparse, hfind⟩
        · rw [hstate]
          exact state_of_findConn hfind
      · apply h.quiet
        rw [← hn]
        exact (Quiet.set hj _).trans (quiet_tcpRxConn hj _ _)

/-- A call that waited goes on. -/
theorem RxInv.resume (h : RxInv S base i s) (horder : InOrder i s .resume) :
    RxInv S base i { s with net := resume s.net } := by
  rw [Tcp.resume]
  cases hcalls : s.net.calls with
  | nil => exact h
  | cons k ks =>
    dsimp only
    generalize hn : { s.net with calls := ks } = n
    have hconn : n.conns = s.net.conns := by rw [← hn]
    have hpop : Quiet i s.net n := by
      refine ⟨congrFun hconn i, ?_⟩
      intro seg hseg
      rw [hcalls]
      rw [← hn] at hseg
      exact mem_cons_of_mem _ hseg
    have h' := h.quiet hpop
    cases k with
    | afterFin j =>
      subst hn
      exact h'.setState .closeWait (by decide) j
    | afterLastFin j =>
      subst hn
      exact h'.setState .closed (by decide) j
    | afterData j seg =>
      by_cases hj : j = i
      · subst hj
        apply h'.rxFin
        intro hfin hest
        have hmem : Call.afterData j seg ∈ s.net.calls := hcalls ▸ mem_cons_self
        obtain ⟨off, hseq, hend, hle⟩ := h.calls seg hmem
        have hreceived : Session.received j { s with net := n } = s.received j := by
          rw [Session.received, Session.received, hpop.conn]
        apply h'.all_of_finNext hseq (hend hfin)
        · rw [hreceived]
          omega
        · rw [hpop.conn] at hest ⊢
          exact horder seg (by rw [hcalls]; rfl) hfin hest
      · exact h'.quiet (quiet_rxFin hj n seg)

/-- A call of `net_tcp_recv`. -/
theorem RxInv.recv (h : RxInv S base i s) (cap : ℕ) : RxInv S base i (s.exec i (.recv cap)) := by
  obtain ⟨hbuf, hframe, hok⟩ := recvLoop_spec cap h.index
  have hconn : (netTcpRecv s.net i cap).2.conns i = (recvLoop cap (s.net.conns i)).2 := update_self _ _ _
  have hreceived : (s.exec i (.recv cap)).received i = s.received i := by
    rw [Session.received, Session.exec]
    rw [hconn, Session.received, ← hbuf, append_assoc]
    rfl
  have hconn' : (s.exec i (.recv cap)).net.conns i = (recvLoop cap (s.net.conns i)).2 := hconn
  refine ⟨⟨?_, ?_, ?_⟩, ?_, ?_, ?_⟩
  · rw [hreceived]
    exact h.stream
  · rw [hreceived, hconn', hframe]
    exact h.ack
  · rw [hreceived, hconn', hframe]
    exact h.fin
  · rw [hconn']
    exact hok
  · rw [hconn', hframe]
    exact h.state
  · rw [hreceived]
    exact h.calls

theorem RxInv.step {t : Session} (h : RxInv S base i s) (hstep : Step S base i s t) : RxInv S base i t := by
  obtain ⟨e, hhonest, horder, rfl⟩ := hstep
  cases e with
  | frame src_ip data => exact h.tcpHandle hhonest horder
  | resume => exact h.resume horder
  | recv cap => exact h.recv cap
  | other conns => exact h.quiet ⟨update_self _ _ _, fun _ hseg => hseg⟩

theorem Established.inv (h : Established base i s) : RxInv S base i s := by
  have hreceived : s.received i = [] := by
    rw [Session.received, h.returned, Conn.buffered_eq_nil h.empty]
    rfl
  refine ⟨⟨?_, ?_, ?_⟩, ⟨h.index, h.empty ▸ h.index⟩, ?_, ?_⟩
  · rw [hreceived]
    exact nil_prefix
  · rw [hreceived, h.fin_rcvd, h.rcv_nxt]
    rfl
  · rw [h.fin_rcvd]
    nofun
  · rw [h.state]
    decide
  · exact fun seg hseg => absurd hseg (h.calls seg)

/-! ## Every run -/

/-- In every run in which the peer is honest, accepted data fits and each FIN is handled when it is the
next in order: the bytes returned and buffered are a prefix of the stream, `rcv_nxt` acknowledges exactly
them (and the FIN), and `fin_rcvd` is set only when all has been received. -/
theorem received_of_run {S : List UInt8} {base : ℕ} {i : Fin maxConn} {s t : Session}
    (hstart : Established base i s) (hrun : Relation.ReflTransGen (Step S base i) s t) :
    Received S base i t :=
  (Runs.invariant (P := RxInv S base i) hrun hstart.inv fun _ _ => RxInv.step).toReceived

/-- A connection to port 80 that has just been established, the only one. -/
def fresh : Session where
  net.conns := fun j =>
    { remote_ip := 1, remote_port := 80, local_port := 49152, snd_nxt := 1, snd_una := 1, rcv_nxt := 0,
      state := if j = 0 then .established else .closed, fin_rcvd := false, rx_buf := fun _ => 0,
      rx_rd := 0, rx_wr := 0 }
  net.calls := []
  returned := []

theorem established_fresh : Established 0 0 fresh :=
  ⟨rfl, rfl, rfl, rfl, by decide, rfl, fun _ => not_mem_nil⟩

/-- A packet of the peer with the given flags and data, and sequence and acknowledgement numbers below
256. -/
def peerPacket (seq ack flags : UInt8) (data : List UInt8) : List UInt8 :=
  [0, 80, 192, 0, 0, 0, 0, seq, 0, 0, 0, ack, 0x50, flags, 0, 0, 0, 0, 0, 0] ++ data

/-- The one byte of a stream arrives and is read. -/
theorem received_of_run_byte :
    ∃ t, Relation.ReflTransGen (Step [7] 0 0) fresh t ∧ t.returned = [7] ∧ Received [7] 0 0 t := by
  have hparse : parseSegment (peerPacket 0 1 flAck [7]) = some ⟨80, 49152, 0, 1, flAck, [7]⟩ := by
    decide
  have hframe : Step [7] 0 0 fresh (fresh.exec 0 (.frame 1 (peerPacket 0 1 flAck [7]))) := by
    refine ⟨.frame 1 (peerPacket 0 1 flAck [7]), ⟨by decide, ?_⟩, ?_, rfl⟩
    · rintro seg ⟨hseg, -⟩
      rw [hparse] at hseg
      rw [← Option.some.inj hseg]
      exact ⟨0, by decide, by decide, by decide, by decide, by decide⟩
    · rintro seg ⟨hseg, -⟩ -
      rw [hparse] at hseg
      have hacc : Accepts (fresh.net.conns 0) ⟨80, 49152, 0, 1, flAck, [7]⟩ := by decide
      rw [← Option.some.inj hseg, if_pos hacc]
      decide
  have hrecv : Step [7] 0 0 (fresh.exec 0 (.frame 1 (peerPacket 0 1 flAck [7])))
      ((fresh.exec 0 (.frame 1 (peerPacket 0 1 flAck [7]))).exec 0 (.recv 1)) :=
    ⟨.recv 1, trivial, trivial, rfl⟩
  have hrun := (Relation.ReflTransGen.single hframe).tail hrecv
  exact ⟨_, hrun, by decide, received_of_run established_fresh hrun⟩

/-- The FIN of a stream of one byte arrives before the byte. It is taken at once: the end of the
stream is reported with nothing received. -/
theorem early_fin :
    Honest [7] 0 0 fresh (.frame 1 (peerPacket 1 1 (flFin ||| flAck) [])) ∧
      ((fresh.exec 0 (.frame 1 (peerPacket 1 1 (flFin ||| flAck) []))).net.conns 0).fin_rcvd = true ∧
      (fresh.exec 0 (.frame 1 (peerPacket 1 1 (flFin ||| flAck) []))).received 0 = [] := by
  have hparse : parseSegment (peerPacket 1 1 (flFin ||| flAck) [])
      = some ⟨80, 49152, 1, 1, flFin ||| flAck, []⟩ := by
    decide
  refine ⟨⟨by decide, ?_⟩, by decide, by decide⟩
  rintro seg ⟨hseg, -⟩
  rw [hparse] at hseg
  rw [← Option.some.inj hseg]
  exact ⟨1, by decide, by decide, by decide, by decide, by decide⟩

end FreeAsd.Tcp
