import FreeAsd.Net.TcpReceive

/-!
# TCP: what a reported send means

If `net_tcp_send` returns the length, the peer has acknowledged all of it (`send_acked`), provided that
acknowledgements are acceptable (`AckOk`), sequence numbers do not wrap and the last wait does not run into
its limit. The code looks at none of the three.
-/

namespace FreeAsd.Tcp

open Function

/-- The order of sequence numbers: `b` is `a` or at most half of the sequence space after it. -/
def SeqLe (a b : ℕ) : Prop := (b + 2^32 - a) % 2^32 < 2^31

/-- An acknowledgement of something that has been sent and was not acknowledged yet. -/
def AckOk (c : Conn) (a : ℕ) : Prop := SeqLe c.snd_una a ∧ SeqLe a c.snd_nxt ∧ a < 2^32

/-- What can happen next. -/
inductive SendEvent
  /-- A packet comes in. -/
  | frame (src_ip : ℕ) (data : List UInt8)
  /-- The innermost call that waits in `tcp_tx` goes on. -/
  | resume
  /-- `tcp_tx` for a chunk returns. -/
  | transmitted (ok : Bool)
  /-- A round of the wait loop. -/
  | wait
  /-- Something happens to the other connections. -/
  | other (conns : Fin maxConn → Conn)

/-- The network with a call of `net_tcp_send` and the acknowledgements taken since it began. -/
structure Sending where
  net : Net
  send : Send
  acks : List ℕ

/-- A connection takes the acknowledgement of segments in these states. -/
def State.isOpen : State → Bool
  | .established | .finWait1 | .finWait2 => true
  | _ => false

/-- The acknowledgement number that a packet brings to the connection. -/
def ackOf (n : Net) (i : Fin maxConn) (data : List UInt8) : Option ℕ := do
  let seg ← parseSegment data
  if findConn n seg = some i ∧ ¬ seg.has flRst ∧ (n.conns i).state.isOpen ∧ seg.has flAck then
    some seg.ack
  else none

/-- What happens, with the connection `i` in view. -/
def Sending.exec (i : Fin maxConn) (w : Sending) : SendEvent → Sending
  | .frame src_ip data =>
    { w with net := tcpHandle w.net src_ip data, acks := (ackOf w.net i data).toList ++ w.acks }
  | .resume => { w with net := resume w.net }
  | .transmitted ok =>
    if w.send.phase = .transmit then
      let r := sendTransmitted ok (w.net.conns i) w.send
      { w with net := w.net.set i r.1, send := r.2 }
    else w
  | .wait =>
    match w.send.phase with
    | .waiting t => { w with send := sendWait (w.net.conns i) w.send t }
    | _ => w
  | .other conns => { w with net.conns := Function.update conns i (w.net.conns i) }

/-- Acknowledgements are acceptable, sequence numbers do not wrap, and the last wait does not run into
its limit. -/
def Answered (i : Fin maxConn) (w : Sending) : SendEvent → Prop
  | .frame _ data => ∀ a, ackOf w.net i data = some a → AckOk (w.net.conns i) a
  | .transmitted _ => (w.net.conns i).snd_nxt + w.send.chunk < 2^32
  | .wait => w.send.phase = .waiting (waitRounds - 1) → w.send.left ≤ mss →
      (w.net.conns i).snd_nxt ≤ (w.net.conns i).snd_una
  | _ => True

/-- One step of such a run. -/
def SendStep (i : Fin maxConn) (w w' : Sending) : Prop := ∃ e, Answered i w e ∧ w' = w.exec i e

/-- `net_tcp_send` is called for `len` bytes. -/
structure SendStart (i : Fin maxConn) (len : ℕ) (w : Sending) : Prop where
  state : (w.net.conns i).state = .established
  send : w.send = netTcpSend (w.net.conns i) len
  acks : w.acks = []
  una : (w.net.conns i).snd_una ≤ (w.net.conns i).snd_nxt
  nxt : (w.net.conns i).snd_nxt < 2^32

/-! ## What packets do to the sender's counters -/

variable {i j : Fin maxConn} {n : Net} {seg : Segment}

/-- What becomes of the sender's counters: `snd_una` is now `una`, and `snd_nxt` is as before. -/
structure Snd (c : Conn) (una : ℕ) (c' : Conn) : Prop where
  una : c'.snd_una = una
  nxt : c'.snd_nxt = c.snd_nxt
  state : c'.state = .synSent → c.state = .synSent

/-- Nothing of the sender's changes when only the state does. -/
theorem Snd.setState {st : State} (hst : st ≠ .synSent) (n : Net) (i j : Fin maxConn) :
    Snd (n.conns i) (n.conns i).snd_una ((n.set j { n.conns j with state := st }).conns i) := by
  by_cases hj : j = i
  · subst hj
    rw [Net.conns_set]
    exact ⟨rfl, rfl, fun h => absurd h hst⟩
  · rw [(Quiet.set hj _).conn]
    exact ⟨rfl, rfl, id⟩

theorem rxFin_snd (n : Net) (i : Fin maxConn) (seg : Segment) :
    Snd (n.conns i) (n.conns i).snd_una ((rxFin n i seg).conns i) := by
  rw [rxFin]
  split_ifs
  · rw [Net.conns_push, Net.conns_set]
    exact ⟨rfl, rfl, id⟩
  · rw [Net.conns_push, Net.conns_set]
    exact ⟨rfl, rfl, id⟩
  · exact ⟨rfl, rfl, id⟩

theorem rxAck_snd (c : Conn) (seg : Segment) :
    Snd c (if seg.has flAck then seg.ack else c.snd_una) (rxAck c seg) := by
  rw [rxAck]
  dsimp only
  split_ifs
  · exact ⟨rfl, rfl, State.noConfusion⟩
  · exact ⟨rfl, rfl, id⟩
  · exact ⟨rfl, rfl, id⟩

/-- A segment in an open connection changes `snd_una` to its acknowledgement, if it has one. -/
theorem rxOpen_snd (n : Net) (i : Fin maxConn) (seg : Segment) :
    Snd (n.conns i) (if seg.has flAck then seg.ack else (n.conns i).snd_una)
      ((rxOpen n i seg).conns i) := by
  obtain ⟨huna, hnxt, hstate⟩ := rxAck_snd (n.conns i) seg
  rw [rxOpen, ← huna]
  split_ifs with hdata
  · obtain ⟨-, hst, -, hu, hn⟩ := rxBuffer_frame (rxAck (n.conns i) seg) seg.payload
    rw [Net.conns_push, Net.conns_set]
    exact ⟨hu, hn.trans hnxt, fun h => hstate (hst ▸ h)⟩
  · obtain ⟨hu, hn, hst⟩ := rxFin_snd (n.set i (rxAck (n.conns i) seg)) i seg
    rw [Net.conns_set] at hu hn hst
    exact ⟨hu, hn.trans hnxt, fun h => hstate (hst h)⟩

/-- A segment changes `snd_una` to its acknowledgement, if the connection takes one. -/
theorem tcpRxConn_snd (seg : Segment) (h : (n.conns i).state ≠ .synSent) :
    Snd (n.conns i)
      (if ¬ seg.has flRst ∧ (n.conns i).state.isOpen ∧ seg.has flAck then seg.ack
        else (n.conns i).snd_una)
      ((tcpRxConn n i seg).conns i) := by
  rw [tcpRxConn]
  by_cases hrst : seg.has flRst
  · rw [if_pos hrst, if_neg (not_and_of_not_left _ (not_not.mpr hrst))]
    exact Snd.setState (by decide) n i i
  · obtain ⟨hu, hn, hst⟩ := rxOpen_snd n i seg
    rw [if_neg hrst]
    cases hstate : (n.conns i).state with
    | established | finWait1 | finWait2 =>
      refine ⟨hu.trans (if_congr ?_ rfl rfl), hn, hst⟩
      exact ⟨fun hack => ⟨hrst, rfl, hack⟩, fun hall => hall.2.2⟩
    | synSent => exact absurd hstate h
    | closed | closeWait => exact ⟨(if_neg fun hall => Bool.false_ne_true hall.2.1).symm, rfl, id⟩

/-- A packet changes `snd_una` to the acknowledgement it brings, if it brings one, and nothing else of
the sender's. -/
theorem tcpHandle_snd (src_ip : ℕ) (data : List UInt8) (h : (n.conns i).state ≠ .synSent) :
    Snd (n.conns i) ((ackOf n i data).getD (n.conns i).snd_una)
      ((tcpHandle n src_ip data).conns i) := by
  rw [tcpHandle, ackOf]
  cases hparse : parseSegment data with
  | none => exact ⟨rfl, rfl, id⟩
  | some seg =>
    simp only [Option.bind_eq_bind, Option.bind_some]
    cases hfind : findConn n seg with
    | none => exact ⟨rfl, rfl, id⟩
    | some j =>
      dsimp only
      by_cases hj : j = i
      · subst hj
        obtain ⟨hu, hn, hst⟩ := tcpRxConn_snd (n := n.set j { n.conns j with remote_ip := src_ip }) seg
          (by rw [Net.conns_set]; exact h)
        rw [Net.conns_set] at hu hn hst
        refine ⟨hu.trans ?_, hn, hst⟩
        rw [apply_ite (Option.getD · _)]
        exact if_congr (and_iff_right rfl).symm rfl rfl
      · have hquiet := ((Quiet.set hj { n.conns j with remote_ip := src_ip }).trans
          (quiet_tcpRxConn hj (n.set j { n.conns j with remote_ip := src_ip }) seg)).conn
        have hnot : ¬ (some j = some i ∧ ¬ seg.has flRst ∧ (n.conns i).state.isOpen ∧ seg.has flAck) :=
          fun hall => hj (Option.some.inj hall.1)
        rw [hquiet, if_neg hnot]
        exact ⟨rfl, rfl, id⟩

/-- A call that goes on after `tcp_tx` changes nothing of the sender's. -/
theorem resume_snd (n : Net) (i : Fin maxConn) : Snd (n.conns i) (n.conns i).snd_una ((resume n).conns i) := by
  rw [resume]
  cases hcalls : n.calls with
  | nil => exact ⟨rfl, rfl, id⟩
  | cons k ks =>
    cases k with
    | afterFin j => exact Snd.setState (by decide) { n with calls := ks } i j
    | afterLastFin j => exact Snd.setState (by decide) { n with calls := ks } i j
    | afterData j seg =>
      by_cases hj : j = i
      · subst hj
        exact rxFin_snd { n with calls := ks } j seg
      · rw [(quiet_rxFin hj { n with calls := ks } seg).conn]
        exact ⟨rfl, rfl, id⟩

/-! ## The invariant -/

/-- What is known of the call in each phase: where `snd_nxt` is, and that a reported length has been
acknowledged. -/
def PhaseOk (start len nxt : ℕ) (acks : List ℕ) (s : Send) : Prop :=
  match s.phase with
  | .transmit => 0 < s.left ∧ s.left ≤ len ∧ nxt = start + (len - s.left)
  | .waiting t =>
    0 < s.left ∧ s.left ≤ len ∧ nxt = start + (len - s.left) + s.chunk ∧ t < waitRounds
  | .returned none => True
  | .returned (some r) => r = len ∧ (len = 0 ∨ start + len ∈ acks)

/-- The invariant of a call that began with `snd_nxt = start`. -/
structure SendInv (i : Fin maxConn) (start len : ℕ) (w : Sending) : Prop where
  state : (w.net.conns i).state ≠ .synSent
  send_len : w.send.len = len
  una : (w.net.conns i).snd_una ≤ (w.net.conns i).snd_nxt
  nxt : (w.net.conns i).snd_nxt < 2^32
  acked : (w.net.conns i).snd_una ∈ w.acks ∨ (w.net.conns i).snd_una ≤ start
  phase : PhaseOk start len (w.net.conns i).snd_nxt w.acks w.send

/-- An acceptable acknowledgement is between the two counters. -/
theorem AckOk.bounds {c : Conn} {a : ℕ} (h : AckOk c a) (huna : c.snd_una ≤ c.snd_nxt)
    (hnxt : c.snd_nxt < 2^32) : c.snd_una ≤ a ∧ a ≤ c.snd_nxt := by
  obtain ⟨hlow, hhigh, ha⟩ := h
  rw [SeqLe] at hlow hhigh
  omega

theorem PhaseOk.mono {start len nxt : ℕ} {acks acks' : List ℕ} {s : Send}
    (h : PhaseOk start len nxt acks s) (hsub : ∀ a ∈ acks, a ∈ acks') :
    PhaseOk start len nxt acks' s := by
  rw [PhaseOk] at h ⊢
  split at h
  · exact h
  · exact h
  · trivial
  · exact ⟨h.1, h.2.imp_right (hsub _)⟩

variable {w w' : Sending} {start len : ℕ}

theorem seqLe_refl (a : ℕ) : SeqLe a a := by
  rw [SeqLe]
  omega

/-- Nothing of the sender's changes. -/
theorem SendInv.same (h : SendInv i start len w)
    (hsnd : Snd (w.net.conns i) (w.net.conns i).snd_una (n.conns i)) :
    SendInv i start len { w with net := n } ∧ SeqLe (w.net.conns i).snd_una (n.conns i).snd_una := by
  refine ⟨⟨fun hsyn => h.state (hsnd.state hsyn), h.send_len, ?_, ?_, ?_, ?_⟩, ?_⟩
  · rw [hsnd.una, hsnd.nxt]
    exact h.una
  · rw [hsnd.nxt]
    exact h.nxt
  · rw [hsnd.una]
    exact h.acked
  · rw [hsnd.nxt]
    exact h.phase
  · rw [hsnd.una]
    exact seqLe_refl _

/-- The sender's counters after a packet. -/
theorem SendInv.frame (h : SendInv i start len w) {src_ip : ℕ} {data : List UInt8}
    (hok : Answered i w (.frame src_ip data)) :
    SendInv i start len (w.exec i (.frame src_ip data)) ∧
      SeqLe (w.net.conns i).snd_una ((w.exec i (.frame src_ip data)).net.conns i).snd_una := by
  have hsnd := tcpHandle_snd src_ip data h.state
  rw [Sending.exec]
  cases hack : ackOf w.net i data with
  | none =>
    rw [hack] at hsnd
    exact h.same hsnd
  | some a =>
    rw [hack] at hsnd
    obtain ⟨hu, hn, hst⟩ := hsnd
    have hacc := hok a hack
    refine ⟨⟨fun hsyn => h.state (hst hsyn), h.send_len, ?_, ?_, ?_, ?_⟩, ?_⟩
    · rw [hu, hn]
      exact (hacc.bounds h.una h.nxt).2
    · rw [hn]
      exact h.nxt
    · rw [hu]
      exact .inl List.mem_cons_self
    · rw [hn]
      exact h.phase.mono fun _ hmem => List.mem_cons_of_mem _ hmem
    · rw [hu]
      exact hacc.1

theorem chunk_le (s : Send) : s.chunk ≤ s.left := by
  rw [Send.chunk]
  split_ifs <;> omega

/-- The head of the loop, when everything before `left` has been sent. -/
theorem phaseOk_next {nxt left : ℕ} {acks : List ℕ} {s : Send} (hlen : s.len = len) (hle : left ≤ len)
    (hnxt : nxt = start + (len - left)) (hend : left = 0 → len = 0 ∨ start + len ∈ acks) :
    PhaseOk start len nxt acks (s.next left) := by
  rw [PhaseOk, Send.next]
  split_ifs with hpos
  · exact ⟨hpos, hle, hnxt⟩
  · exact ⟨hlen, hend (by omega)⟩

theorem SendInv.transmitted (h : SendInv i start len w) {ok : Bool} (hwrap : Answered i w (.transmitted ok)) :
    SendInv i start len (w.exec i (.transmitted ok)) ∧
      SeqLe (w.net.conns i).snd_una ((w.exec i (.transmitted ok)).net.conns i).snd_una := by
  by_cases htransmit : w.send.phase = .transmit
  · have hphase := h.phase
    rw [PhaseOk, htransmit] at hphase
    obtain ⟨hpos, hle, hnxt⟩ := hphase
    cases ok with
    | false =>
      have hexec : w.exec i (.transmitted false)
          = { w with send := { w.send with phase := .returned none } } := by
        rw [Sending.exec, if_pos htransmit, sendTransmitted, if_neg Bool.false_ne_true]
        dsimp only
        rw [Net.set, update_eq_self]
      rw [hexec]
      exact ⟨{ h with phase := trivial }, seqLe_refl _⟩
    | true =>
      obtain ⟨c, hc⟩ : ∃ c, c = { w.net.conns i with
        snd_nxt := (w.net.conns i).snd_nxt + w.send.chunk } := ⟨_, rfl⟩
      have hexec : w.exec i (.transmitted true)
          = { w with net := w.net.set i c, send := { w.send with phase := .waiting 0 } } := by
        rw [Sending.exec, if_pos htransmit, sendTransmitted, if_pos rfl, Nat.mod_eq_of_lt hwrap, hc]
      have hconn : (w.net.set i c).conns i = c := Net.conns_set _ _ _
      rw [hexec]
      refine ⟨⟨?_, h.send_len, ?_, ?_, ?_, ?_⟩, ?_⟩
      · rw [hconn, hc]
        exact h.state
      · rw [hconn, hc]
        exact Nat.le_add_right_of_le h.una
      · rw [hconn, hc]
        exact hwrap
      · rw [hconn, hc]
        exact h.acked
      · rw [hconn, hc]
        exact ⟨hpos, hle, by rw [hnxt]; rfl, by decide⟩
      · rw [hconn, hc]
        exact seqLe_refl _
  · rw [Sending.exec, if_neg htransmit]
    exact ⟨h, seqLe_refl _⟩

theorem SendInv.wait (h : SendInv i start len w) (hok : Answered i w .wait) :
    SendInv i start len (w.exec i .wait) := by
  rw [Sending.exec]
  cases hphase : w.send.phase with
  | transmit => exact h
  | returned r => exact h
  | waiting t =>
    dsimp only
    have hp := h.phase
    rw [PhaseOk, hphase] at hp
    obtain ⟨hpos, hle, hnxt, ht⟩ := hp
    have hchunk := chunk_le w.send
    have hsent : (w.net.conns i).snd_nxt = start + (len - (w.send.left - w.send.chunk)) := by
      rw [hnxt]
      omega
    refine ⟨h.state, ?_, h.una, h.nxt, h.acked, ?_⟩
    · rw [sendWait]
      split_ifs <;> exact h.send_len
    rw [sendWait]
    split_ifs with hbreak hclosed hround
    · apply phaseOk_next h.send_len (by omega) hsent
      intro hzero
      -- everything has been sent, so the number acknowledged is the end of the data
      have heq : (w.net.conns i).snd_una = start + len := by
        have hle' := h.una
        omega
      rcases h.acked with hmem | hold
      · exact .inr (heq ▸ hmem)
      · exact .inl (by omega)
    · trivial
    · rw [PhaseOk]
      exact ⟨hpos, hle, hnxt, hround⟩
    · apply phaseOk_next h.send_len (by omega) hsent
      intro hzero
      -- the last wait has not run into its limit
      exfalso
      have hlast : w.send.left ≤ mss := by
        rw [Send.chunk] at hzero
        split_ifs at hzero with hmss
        · omega
        · omega
      have hround' : t = waitRounds - 1 := by omega
      apply hbreak
      apply hok _ hlast
      rw [hphase, hround']

/-- One step, and `snd_una` does not go back in it. -/
theorem SendInv.step (h : SendInv i start len w) (hstep : SendStep i w w') :
    SendInv i start len w' ∧ SeqLe (w.net.conns i).snd_una (w'.net.conns i).snd_una := by
  obtain ⟨e, hok, rfl⟩ := hstep
  cases e with
  | frame src_ip data => exact h.frame hok
  | transmitted ok => exact h.transmitted hok
  | wait =>
    have hnet : (w.exec i .wait).net = w.net := by
      rw [Sending.exec]
      split <;> rfl
    rw [hnet]
    exact ⟨h.wait hok, seqLe_refl _⟩
  | resume => exact h.same (resume_snd w.net i)
  | other conns =>
    have hconn : (w.exec i (.other conns)).net.conns i = w.net.conns i := update_self _ _ _
    exact h.same (hconn.symm ▸ ⟨rfl, rfl, id⟩)

theorem SendStart.inv (h : SendStart i len w) : SendInv i (w.net.conns i).snd_nxt len w := by
  have hsend : w.send = Send.next ⟨len, len, .transmit⟩ len := by
    rw [h.send, netTcpSend, if_pos h.state]
  refine ⟨?_, ?_, h.una, h.nxt, .inr h.una, ?_⟩
  · rw [h.state]
    nofun
  · rw [hsend]
    rfl
  · rw [hsend]
    apply phaseOk_next rfl le_rfl
    · omega
    · exact .inl

/-- In every run of `net_tcp_send` in which acknowledgements are acceptable, sequence numbers do not wrap
and the last wait does not run into its limit: if the call has returned the length, an acknowledgement of
the end of the data has been taken, and `snd_una` never goes back. -/
theorem send_acked {i : Fin maxConn} {len : ℕ} {w₀ w : Sending} (hstart : SendStart i len w₀)
    (hrun : Relation.ReflTransGen (SendStep i) w₀ w) :
    (∀ r, w.send.phase = .returned (some r) →
        r = len ∧ (len = 0 ∨ ∃ a ∈ w.acks, SeqLe ((w₀.net.conns i).snd_nxt + len) a)) ∧
      ∀ w', SendStep i w w' → SeqLe (w.net.conns i).snd_una (w'.net.conns i).snd_una := by
  have hinv := Runs.invariant (P := SendInv i (w₀.net.conns i).snd_nxt len) hrun hstart.inv
    fun _ _ h hstep => (h.step hstep).1
  constructor
  · intro r hr
    have hphase := hinv.phase
    rw [PhaseOk, hr] at hphase
    refine ⟨hphase.1, hphase.2.imp_right fun hmem => ⟨_, hmem, ?_⟩⟩
    rw [SeqLe, Nat.add_sub_cancel_left]
    norm_num
  · exact fun w' hstep => (hinv.step hstep).2

/-- A call of `net_tcp_send` for one byte. -/
def sendByte : Sending := ⟨fresh.net, netTcpSend (fresh.net.conns 0) 1, []⟩

theorem sendStart_sendByte : SendStart 0 1 sendByte := ⟨rfl, rfl, rfl, by decide, by decide⟩

/-- The byte is sent and acknowledged, and the call returns. -/
theorem send_acked_byte :
    ∃ w, Relation.ReflTransGen (SendStep 0) sendByte w ∧ w.send.phase = .returned (some 1) ∧
      ∃ a ∈ w.acks, SeqLe ((sendByte.net.conns 0).snd_nxt + 1) a := by
  obtain ⟨w₁, hw₁⟩ : ∃ w₁, w₁ = sendByte.exec 0 (.transmitted true) := ⟨_, rfl⟩
  obtain ⟨w₂, hw₂⟩ : ∃ w₂, w₂ = w₁.exec 0 (.frame 1 (peerPacket 0 2 flAck [])) := ⟨_, rfl⟩
  obtain ⟨w₃, hw₃⟩ : ∃ w₃, w₃ = w₂.exec 0 .wait := ⟨_, rfl⟩
  have hack : ackOf w₁.net 0 (peerPacket 0 2 flAck []) = some 2 := by
    rw [hw₁]
    decide
  have hsent : SendStep 0 sendByte w₁ := ⟨.transmitted true, show 1 + 1 < 2^32 by decide, hw₁⟩
  have hframe : SendStep 0 w₁ w₂ := by
    refine ⟨.frame 1 (peerPacket 0 2 flAck []), ?_, hw₂⟩
    intro a ha
    rw [← Option.some.inj (hack.symm.trans ha), hw₁]
    exact ⟨by unfold SeqLe; decide, by unfold SeqLe; decide, by decide⟩
  have hwait : SendStep 0 w₂ w₃ := by
    refine ⟨.wait, ?_, hw₃⟩
    intro _ _
    rw [hw₂, hw₁]
    decide
  have hrun := ((Relation.ReflTransGen.single hsent).tail hframe).tail hwait
  have hphase : w₃.send.phase = .returned (some 1) := by
    rw [hw₃, hw₂, hw₁]
    decide
  have hacked := (send_acked sendStart_sendByte hrun).1 1 hphase
  exact ⟨w₃, hrun, hphase, hacked.2.resolve_left (by decide)⟩

/-- No packet comes in after a byte has been sent. After 200 rounds the call reports success. -/
theorem send_unacked :
    (((List.replicate 200 SendEvent.wait).foldl (Sending.exec 0)
        (sendByte.exec 0 (.transmitted true))).send.phase = .returned (some 1)) ∧
      ((List.replicate 200 SendEvent.wait).foldl (Sending.exec 0)
        (sendByte.exec 0 (.transmitted true))).acks = [] := by
  decide +kernel

end FreeAsd.Tcp
