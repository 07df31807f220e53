import FreeAsd.Net.Tcp

/-!
# Received frames

`net_rx_dispatch` of `net.c` and the handlers below it, which trust the lengths they are given. A read outside
of the frame has no result (`bytes`). Every handler that is given a range inside the frame stays inside
(`Within`), also where the subtraction of a header wraps around.
-/

namespace FreeAsd.Frames

open Tcp (Segment)

/-- `NET_IP_ADDR`. -/
def netIpAddr : ℕ := 0x0A00020F

/-- `UDP_PAYLOAD_MAX`. -/
def udpPayloadMax : ℕ := 1472

/-- What a frame leads to. -/
inductive Event
  /-- A handler, `udp_ring_push` or `tcp_rx_conn` is given these bytes of the frame. -/
  | handed (data len : ℕ)
  | arpCacheStore (ip : ℕ) (mac : List UInt8)
  | arpReply (tha : List UInt8) (tpa : ℕ)
  | ping (id seq : ℕ)
  | udpRingPush (src_ip src_port : ℕ) (data : List UInt8)
  | tcpRxConn (src_ip : ℕ) (seg : Segment)
deriving DecidableEq

/-- The subtraction of a header's length from a `uint16_t`. -/
def sub16 (a b : ℕ) : ℕ := (a + 2^16 - b) % 2^16

variable (frame : List UInt8)

/-- `n` bytes of the frame, if they are there. -/
def bytes (i n : ℕ) : Option (List UInt8) :=
  if i + n ≤ frame.length then some ((frame.drop i).take n) else none

/-- A field of `n` bytes in network order. -/
def num (i n : ℕ) : Option ℕ := (bytes frame i n).map fun b => leNum b.reverse

/-- `arp_handle`. -/
def arpHandle (data len : ℕ) : Option (List Event) := do
  if len < 28 then return []
  let spa ← num frame (data + 14) 4
  let sha ← bytes frame (data + 8) 6
  let tpa ← num frame (data + 24) 4
  let op_lo ← num frame (data + 7) 1
  if op_lo ≠ 1 then return [.arpCacheStore spa sha]
  if tpa ≠ netIpAddr then return [.arpCacheStore spa sha]
  return [.arpCacheStore spa sha, .arpReply sha spa]

/-- `icmp_handle`. -/
def icmpHandle (data len : ℕ) : Option (List Event) := do
  if len < 8 then return []
  let type ← num frame data 1
  if type ≠ 0 then return []
  return [.ping (← num frame (data + 4) 2) (← num frame (data + 6) 2)]

/-- `tcp_handle`, up to the search for the connection. -/
def tcpHandle (src_ip data len : ℕ) : Option (List Event) := do
  if len < 20 then return []
  let src_port ← num frame data 2
  let dst_port ← num frame (data + 2) 2
  let seq ← num frame (data + 4) 4
  let ack ← num frame (data + 8) 4
  let data_off ← num frame (data + 12) 1
  let hlen := ((data_off >>> 4) &&& 0xF) <<< 2
  if hlen < 20 ∨ hlen > len then return []
  let payload := data + hlen
  let plen := sub16 len hlen
  let flags ← num frame (data + 13) 1
  return [.handed payload plen, .tcpRxConn src_ip
    ⟨src_port, dst_port, seq, ack, UInt8.ofNat flags, ← bytes frame payload plen⟩]

/-- The end of `ip4_handle`, for UDP. -/
def udpHandle (src_ip pl plen : ℕ) : Option (List Event) := do
  if plen < 8 then return []
  let payload_len := sub16 (← num frame (pl + 4) 2) 8
  let payload_len := if payload_len > plen - 8 then plen - 8 else payload_len
  let src_port ← num frame pl 2
  return [.handed (pl + 8) payload_len, .udpRingPush src_ip src_port
    (← bytes frame (pl + 8) (if payload_len > udpPayloadMax then udpPayloadMax else payload_len))]

/-- `ip4_handle`. -/
def ip4Handle (data len : ℕ) : Option (List Event) := do
  if len < 20 then return []
  let ihl := ((← num frame data 1) &&& 0x0F) <<< 2
  if ihl < 20 ∨ ihl > len then return []
  let total_len ← num frame (data + 2) 2
  let ip_total := if total_len < ihl ∨ total_len > len then len else total_len
  let dst ← num frame (data + 16) 4
  if dst ≠ netIpAddr ∧ dst ≠ 0xFFFFFFFF then return []
  let pl := data + ihl
  let plen := sub16 ip_total ihl
  let proto ← num frame (data + 9) 1
  if proto = 1 then return .handed pl plen :: (← icmpHandle frame pl plen)
  if proto = 6 then
    let src_ip ← num frame (data + 12) 4
    return .handed pl plen :: (← tcpHandle frame src_ip pl plen)
  if proto ≠ 17 then return []
  let src_ip ← num frame (data + 12) 4
  return .handed pl plen :: (← udpHandle frame src_ip pl plen)

/-- `net_rx_dispatch`. -/
def netRxDispatch (len : ℕ) : Option (List Event) := do
  if len < 14 then return []
  let type ← num frame 12 2
  let plen := sub16 len 14
  if type = 0x0806 then return .handed 14 plen :: (← arpHandle frame 14 plen)
  if type = 0x0800 then return .handed 14 plen :: (← ip4Handle frame 14 plen)
  return []

/-! ## Inside the frame -/

/-- All reads are inside the frame, and so is what is handed on. -/
def Within (m : Option (List Event)) : Prop :=
  ∃ es, m = some es ∧ ∀ data len, .handed data len ∈ es → data + len ≤ frame.length

variable {frame} {data len : ℕ}

theorem Within.nil : Within frame (some []) := ⟨[], rfl, by simp⟩

/-- A read inside the frame has a result. -/
theorem Within.bytes {i n : ℕ} {f : List UInt8 → Option (List Event)} (h : i + n ≤ frame.length)
    (hf : ∀ b, Within frame (f b)) : Within frame (bytes frame i n >>= f) := by
  rw [Frames.bytes, if_pos h]
  exact hf _

@[inherit_doc Within.bytes]
theorem Within.num {i n : ℕ} {f : ℕ → Option (List Event)} (h : i + n ≤ frame.length)
    (hf : ∀ v, Within frame (f v)) : Within frame (num frame i n >>= f) := by
  rw [Frames.num, Frames.bytes, if_pos h]
  exact hf _

/-- A range inside the frame is handed on. -/
theorem Within.handed {m : Option (List Event)} (h : data + len ≤ frame.length) (hm : Within frame m) :
    Within frame (m >>= fun es => some (.handed data len :: es)) := by
  obtain ⟨es, rfl, hes⟩ := hm
  refine ⟨_, rfl, fun data' len' hmem => ?_⟩
  rcases List.mem_cons.mp hmem with heq | hmem
  · obtain ⟨rfl, rfl⟩ := Event.handed.inj heq
    exact h
  · exact hes data' len' hmem

theorem sub16_of_le {a b : ℕ} (h : b ≤ a) (ha : a < 2^16) : sub16 a b = a - b := by
  rw [sub16]
  omega

section

variable (h : data + len ≤ frame.length) (hframe : frame.length < 2^16)

include h

theorem within_arpHandle : Within frame (arpHandle frame data len) := by
  rw [arpHandle]
  split_ifs with hlen
  · exact .nil
  refine .num (by omega) fun spa => .bytes (by omega) fun sha => .num (by omega) fun tpa =>
    .num (by omega) fun op_lo => ?_
  split_ifs <;> exact ⟨_, rfl, by simp⟩

theorem within_icmpHandle : Within frame (icmpHandle frame data len) := by
  rw [icmpHandle]
  split_ifs with hlen
  · exact .nil
  refine .num (by omega) fun type => ?_
  split_ifs
  · exact .nil
  · exact .num (by omega) fun id => .num (by omega) fun seq => ⟨_, rfl, by simp⟩

theorem within_udpHandle (src_ip : ℕ) : Within frame (udpHandle frame src_ip data len) := by
  rw [udpHandle]
  split_ifs with hlen
  · exact .nil
  refine .num (by omega) fun length => ?_
  dsimp only
  -- The length field of the header may be less than 8, and the difference wraps around.
  generalize hpl : (if sub16 length 8 > len - 8 then len - 8 else sub16 length 8) = payload_len
  have hle : payload_len ≤ len - 8 := by
    rw [← hpl]
    split_ifs <;> omega
  refine .num (by omega) fun src_port => .bytes (by split_ifs <;> omega) fun copied => ?_
  exact .handed (by omega) ⟨_, rfl, by simp⟩

include hframe

theorem within_tcpHandle (src_ip : ℕ) : Within frame (tcpHandle frame src_ip data len) := by
  rw [tcpHandle]
  split_ifs with hlen
  · exact .nil
  refine .num (by omega) fun src_port => .num (by omega) fun dst_port => .num (by omega) fun seq =>
    .num (by omega) fun ack => .num (by omega) fun data_off => ?_
  dsimp only
  split_ifs with hhlen
  · exact .nil
  rw [not_or, not_lt, not_lt] at hhlen
  rw [sub16_of_le hhlen.2 (by omega)]
  refine .num (by omega) fun flags => .bytes (by omega) fun payload => ?_
  exact .handed (by omega) ⟨_, rfl, by simp⟩

theorem within_ip4Handle : Within frame (ip4Handle frame data len) := by
  rw [ip4Handle]
  split_ifs with hlen
  · exact .nil
  refine .num (by omega) fun ihl_ver => ?_
  dsimp only
  split_ifs with hihl
  · exact .nil
  generalize (ihl_ver &&& 0x0F) <<< 2 = ihl at hihl ⊢
  refine .num (by omega) fun total_len => ?_
  generalize hip : (if total_len < ihl ∨ total_len > len then len else total_len) = ip_total
  have hip : ihl ≤ ip_total ∧ ip_total ≤ len := by
    rw [← hip]
    split_ifs <;> omega
  refine .num (by omega) fun dst => ?_
  split_ifs
  · exact .nil
  rw [sub16_of_le hip.1 (by omega)]
  refine .num (by omega) fun proto => ?_
  have hpl : data + ihl + (ip_total - ihl) ≤ frame.length := by omega
  split_ifs
  · exact .handed hpl (within_icmpHandle hpl)
  · exact .num (by omega) fun src_ip => .handed hpl (within_tcpHandle hpl hframe src_ip)
  · exact .nil
  · exact .num (by omega) fun src_ip => .handed hpl (within_udpHandle hpl src_ip)

end

/-- For every frame, all the bytes that the handlers read are in the frame, and so are the ranges that
they hand on. -/
theorem dispatch_within (hframe : frame.length < 2^16) :
    ∃ es, netRxDispatch frame frame.length = some es ∧
      ∀ data len, .handed data len ∈ es → data + len ≤ frame.length := by
  change Within frame _
  rw [netRxDispatch]
  split_ifs with hlen
  · exact .nil
  refine .num (by omega) fun type => ?_
  rw [sub16_of_le (by omega) hframe]
  have hpl : 14 + (frame.length - 14) ≤ frame.length := by omega
  split_ifs
  · exact .handed hpl (within_arpHandle hpl)
  · exact .handed hpl (within_ip4Handle hpl hframe)
  · exact .nil

/-- A datagram of one byte whose UDP header has the length 0. -/
def wrapped : List UInt8 :=
  List.replicate 12 0 ++ [8, 0, 0x45, 0, 0, 29, 0, 0, 0, 0, 64, 17, 0, 0, 10, 0, 2, 2, 10, 0, 2, 15,
    0, 53, 192, 0, 0, 0, 0, 0, 7]

/-- The byte is delivered. -/
theorem dispatch_within_wrapped :
    (∃ es, netRxDispatch wrapped wrapped.length = some es ∧
      ∀ data len, .handed data len ∈ es → data + len ≤ wrapped.length) ∧
    netRxDispatch wrapped wrapped.length = some [.handed 14 29, .handed 34 9, .handed 42 1,
      .udpRingPush 0x0A000202 53 [7]] :=
  ⟨dispatch_within (by decide), by decide +kernel⟩

end FreeAsd.Frames
