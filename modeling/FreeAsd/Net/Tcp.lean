import FreeAsd.Lib.Words
import Mathlib.Data.Fin.Basic

/-!
# TCP

The TCP client of `net.c`. `tcp_tx` polls the device while it has no hardware address for the peer, and what
it polls is handled at once. A call of `tcp_rx_conn` that waits in it is a `Call` on a stack, and `resume`
goes on with the innermost one. What a packet to be sent looks like is left out: no state depends on it.
-/

namespace FreeAsd.Tcp

/-- `NET_TCP_MAX_CONN`. -/
abbrev maxConn : ℕ := 4

instance : NeZero maxConn := ⟨by decide⟩

/-- `NET_TCP_RX_BUF`. -/
abbrev rxBufSize : ℕ := 32768

/-- `NET_TCP_MSS`. -/
abbrev mss : ℕ := 1460

/-- The states `TCP_ST_*` of a connection. -/
inductive State
  | closed
  | synSent
  | established
  | finWait1
  | finWait2
  | closeWait
deriving DecidableEq, Repr

/-- `tcp_conn_t`, without the frame buffer of `tcp_tx`. -/
structure Conn where
  remote_ip : ℕ
  remote_port : ℕ
  local_port : ℕ
  snd_nxt : ℕ
  snd_una : ℕ
  rcv_nxt : ℕ
  state : State
  fin_rcvd : Bool
  rx_buf : Mem
  rx_rd : ℕ
  rx_wr : ℕ

/-! ## Packets -/

/-- The flags `TCP_FL_FIN`, `TCP_FL_SYN`, `TCP_FL_RST` and `TCP_FL_ACK`. -/
def flFin : UInt8 := 0x01

@[inherit_doc flFin]
def flSyn : UInt8 := 0x02

@[inherit_doc flFin]
def flRst : UInt8 := 0x04

@[inherit_doc flFin]
def flAck : UInt8 := 0x10

/-- The fields of a received segment that `tcp_handle` reads. -/
structure Segment where
  src_port : ℕ
  dst_port : ℕ
  seq : ℕ
  ack : ℕ
  flags : UInt8
  payload : List UInt8
deriving DecidableEq, Repr

/-- `flags & f`. -/
def Segment.has (s : Segment) (f : UInt8) : Bool := s.flags &&& f != 0

/-- A number of `n` bytes in network order. -/
def beNum (data : List UInt8) (a n : ℕ) : ℕ := leNum ((data.drop a).take n).reverse

/-- The header checks of `tcp_handle`, and the fields of the segment if they pass. -/
def parseSegment (data : List UInt8) : Option Segment :=
  if data.length < 20 then none
  else
    let hlen := (((data.getD 12 0).toNat >>> 4) &&& 0xF) <<< 2
    if hlen < 20 ∨ hlen > data.length then none
    else some
      { src_port := beNum data 0 2
        dst_port := beNum data 2 2
        seq := beNum data 4 4
        ack := beNum data 8 4
        flags := data.getD 13 0
        payload := data.drop hlen }

/-! ## Receiving a segment -/

/-- The loop that buffers the data of a segment, up to the first byte for which there is no room. -/
def rxBuffer (c : Conn) : List UInt8 → Conn
  | [] => c
  | b :: bs =>
    let next := (c.rx_wr + 1) % rxBufSize
    if next = c.rx_rd then c
    else rxBuffer { c with rx_buf := Function.update c.rx_buf c.rx_wr b, rx_wr := next } bs

/-- A call of `tcp_rx_conn` for the connection `i` that waits in `tcp_tx`. -/
inductive Call
  /-- The data of the segment has been acknowledged, and its FIN flag comes next. -/
  | afterData (i : Fin maxConn) (seg : Segment)
  /-- A FIN in the state `ESTABLISHED` has been acknowledged. -/
  | afterFin (i : Fin maxConn)
  /-- A FIN after `net_tcp_close` has been acknowledged. -/
  | afterLastFin (i : Fin maxConn)
deriving DecidableEq, Repr

/-- `g_tcp`, with the calls that wait in `tcp_tx`, the innermost first. -/
structure Net where
  conns : Fin maxConn → Conn
  calls : List Call

namespace Net

/-- Write back a connection. -/
def set (n : Net) (i : Fin maxConn) (c : Conn) : Net := { n with conns := Function.update n.conns i c }

/-- Wait in `tcp_tx`. -/
def push (n : Net) (k : Call) : Net := { n with calls := k :: n.calls }

theorem conns_set (n : Net) (i : Fin maxConn) (c : Conn) : (n.set i c).conns i = c := Function.update_self _ _ _

theorem conns_push (n : Net) (k : Call) : (n.push k).conns = n.conns := rfl

end Net

/-- The end of `tcp_rx_conn`: the FIN flag. -/
def rxFin (n : Net) (i : Fin maxConn) (seg : Segment) : Net :=
  let c := n.conns i
  if seg.has flFin ∧ c.state = .established then
    (n.set i { c with rcv_nxt := (c.rcv_nxt + 1) % 2^32, fin_rcvd := true }).push (.afterFin i)
  else if seg.has flFin ∧ (c.state = .finWait1 ∨ c.state = .finWait2) then
    (n.set i { c with rcv_nxt := (c.rcv_nxt + 1) % 2^32 }).push (.afterLastFin i)
  else n

/-- The acknowledgement of a segment. -/
def rxAck (c : Conn) (seg : Segment) : Conn :=
  if seg.has flAck then
    let c := { c with snd_una := seg.ack }
    if c.state = .finWait1 ∧ seg.ack = c.snd_nxt then { c with state := .finWait2 } else c
  else c

/-- The data of a segment that is the next in order. -/
def rxData (c : Conn) (seg : Segment) : Conn :=
  let c := rxBuffer c seg.payload
  { c with rcv_nxt := (c.rcv_nxt + seg.payload.length) % 2^32 }

/-- A segment in the state `SYN_SENT`. -/
def rxSynSent (n : Net) (i : Fin maxConn) (seg : Segment) : Net :=
  if seg.has flSyn ∧ seg.has flAck then
    n.set i { n.conns i with
      rcv_nxt := (seg.seq + 1) % 2^32
      snd_una := seg.ack
      state := .established }
  else n

/-- A segment in the states `ESTABLISHED`, `FIN_WAIT_1` and `FIN_WAIT_2`. -/
def rxOpen (n : Net) (i : Fin maxConn) (seg : Segment) : Net :=
  let c := rxAck (n.conns i) seg
  if seg.payload.length > 0 ∧ seg.seq = c.rcv_nxt then
    (n.set i (rxData c seg)).push (.afterData i seg)
  else rxFin (n.set i c) i seg

/-- `tcp_rx_conn`, up to its first `tcp_tx` with something to do after it. -/
def tcpRxConn (n : Net) (i : Fin maxConn) (seg : Segment) : Net :=
  if seg.has flRst then n.set i { n.conns i with state := .closed }
  else match (n.conns i).state with
    | .synSent => rxSynSent n i seg
    | .established | .finWait1 | .finWait2 => rxOpen n i seg
    | .closed | .closeWait => n

/-- The call that waits in `tcp_tx` goes on. -/
def resume (n : Net) : Net :=
  match n.calls with
  | [] => n
  | k :: ks =>
    let n := { n with calls := ks }
    match k with
    | .afterData i seg => rxFin n i seg
    | .afterFin i => n.set i { n.conns i with state := .closeWait }
    | .afterLastFin i => n.set i { n.conns i with state := .closed }

/-- The connection that a segment is for: the first open one with its ports. -/
def findConn (n : Net) (seg : Segment) : Option (Fin maxConn) :=
  (List.finRange maxConn).find? fun i =>
    (n.conns i).state ≠ .closed ∧ (n.conns i).local_port = seg.dst_port ∧
      (n.conns i).remote_port = seg.src_port

/-- `tcp_handle`. -/
def tcpHandle (n : Net) (src_ip : ℕ) (data : List UInt8) : Net :=
  match parseSegment data with
  | none => n
  | some seg =>
    match findConn n seg with
    | none => n
    | some i => tcpRxConn (n.set i { n.conns i with remote_ip := src_ip }) i seg

/-! ## Reading -/

/-- The copy loop of `net_tcp_recv`, for at most `cap` bytes. -/
def recvLoop : ℕ → Conn → List UInt8 × Conn
  | 0, c => ([], c)
  | cap + 1, c =>
    if c.rx_rd ≠ c.rx_wr then
      let r := recvLoop cap { c with rx_rd := (c.rx_rd + 1) % rxBufSize }
      (c.rx_buf c.rx_rd :: r.1, r.2)
    else ([], c)

/-- `net_tcp_recv` after its wait: the bytes it returns. No byte at all with `fin_rcvd` set is the end
of the stream. -/
def netTcpRecv (n : Net) (i : Fin maxConn) (cap : ℕ) : List UInt8 × Net :=
  let r := recvLoop cap (n.conns i)
  (r.1, n.set i r.2)

/-! ## Sending -/

/-- Where a call of `net_tcp_send` is. -/
inductive Phase
  /-- In `tcp_tx`, with a chunk to send. -/
  | transmit
  /-- In the wait loop after a chunk, before the test of round `t`. -/
  | waiting (t : ℕ)
  /-- Returned, the length or nothing for -1. -/
  | returned (r : Option ℕ)
deriving DecidableEq, Repr

/-- A call of `net_tcp_send`. -/
structure Send where
  len : ℕ
  left : ℕ
  phase : Phase
deriving DecidableEq, Repr

/-- The length of the chunk to send next. -/
def Send.chunk (s : Send) : ℕ := if s.left > mss then mss else s.left

/-- The rounds of the wait loop. -/
abbrev waitRounds : ℕ := 200

/-- The head of the loop, with `left` bytes to go. -/
def Send.next (s : Send) (left : ℕ) : Send :=
  { s with left := left, phase := if left > 0 then .transmit else .returned (some s.len) }

/-- The start of `net_tcp_send`. -/
def netTcpSend (c : Conn) (len : ℕ) : Send :=
  if c.state = .established then Send.next { len := len, left := len, phase := .transmit } len
  else { len := len, left := len, phase := .returned none }

/-- `tcp_tx` returns, with or without having sent the chunk. -/
def sendTransmitted (ok : Bool) (c : Conn) (s : Send) : Conn × Send :=
  if ok then ({ c with snd_nxt := (c.snd_nxt + s.chunk) % 2^32 }, { s with phase := .waiting 0 })
  else (c, { s with phase := .returned none })

/-- The tests of a round of the wait loop, after the device has been polled. -/
def sendWait (c : Conn) (s : Send) (t : ℕ) : Send :=
  if c.snd_una ≥ c.snd_nxt then s.next (s.left - s.chunk)
  else if c.state ≠ .established then { s with phase := .returned none }
  else if t + 1 < waitRounds then { s with phase := .waiting (t + 1) }
  else s.next (s.left - s.chunk)

end FreeAsd.Tcp
