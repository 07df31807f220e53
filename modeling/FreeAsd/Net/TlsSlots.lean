import FreeAsd.Net.Tcp
import FreeAsd.Net.TlsAuth

/-!
# The slots for TLS connections

No exit at which the handshake of `net_tls_connect` fails gives the slot back. The occupied slots are those of
the open connections and of the failed handshakes (`Slots.Inv`, `slots_exhausted`). What the server does is
arbitrary.
-/

namespace FreeAsd.Tls

open List

open Aead (Fault)

/-- `TLS_MAX_CONN`. -/
abbrev tlsMaxConn : ℕ := 2

/-- `TLS_HS_SERVER_HELLO`. -/
def hsServerHello : UInt8 := 2

/-- `TLS_EXT_KEY_SHARE`. -/
def extKeyShare : ℕ := 51

/-! ## The handshake -/

/-- What a handshake depends on: whether the ClientHello can be sent and its bytes, what arrives, what is
in `rbuf` and behind it on the stack, and the keys for a transcript and a key of the server. -/
structure Peer where
  sends : Bool
  hello : List UInt8
  source : Source
  stack : Mem
  schedule : List UInt8 → List UInt8 → KeySchedule × Mem × Mem

/-- The attempts to read the ServerHello into `rbuf`. When they are used up, the last record stays there,
whatever its type. -/
def recvServerHello : ℕ → Mem → ℕ → Source → Option (Mem × ℕ × Source)
  | 0, rbuf, rlen, src => some (rbuf, rlen, src)
  | n + 1, rbuf, _, src =>
    match readExact 5 src with
    | (none, _) => none
    | (some rhdr, src) =>
      if recordLength rhdr > 4096 then none
      else
        match readExact (recordLength rhdr) src with
        | (none, _) => none
        | (some raw, src) =>
          let rbuf := rbuf.copy 0 (raw.getD · 0) 0 raw.length
          if rhdr.getD 0 0 = recChangeCipher then recvServerHello n rbuf raw.length src
          -- An alert fails as any other type does.
          else if rhdr.getD 0 0 ≠ recHandshake then none
          else some (rbuf, raw.length, src)

/-- `R16`. -/
def r16 (b : Mem) (p : ℕ) : ℕ := (b p).toNat * 256 + (b (p + 1)).toNat

/-- The loop over the extensions: the key of the last key share. The first argument bounds the rounds;
a round takes at least four bytes. -/
def findKeyShare (rbuf : Mem) (ext_end : ℕ) : ℕ → ℕ → Option (List UInt8) → Option (List UInt8)
  | 0, _, server_pub => server_pub
  | n + 1, p, server_pub =>
    if p + 4 ≤ ext_end then
      let elen := r16 rbuf (p + 2)
      findKeyShare rbuf ext_end n (p + 4 + elen)
        (if r16 rbuf p = extKeyShare ∧ elen ≥ 36 then some ((List.range' (p + 8) 32).map rbuf)
          else server_pub)
    else server_pub

variable (poly1305_mac : List UInt8 → Mem → List UInt8)

/-- `net_tls_connect` from the ClientHello on: whether the handshake is done. -/
def handshake (peer : Peer) (tcp_id : ℤ) : Except Fault Bool :=
  if tcp_id < 0 ∨ tcp_id ≥ Tcp.maxConn ∨ !peer.sends then .ok false
  else
    match recvServerHello 4 peer.stack 0 peer.source with
    | none => .ok false
    | some (rbuf, rlen, src) =>
      let p := 4 + 2 + 32 + (1 + (rbuf (4 + 2 + 32)).toNat) + (2 + 1)
      let ext_end := p + 2 + r16 rbuf p
      if rbuf 0 ≠ hsServerHello then .ok false
      else if p + 2 > rlen then .ok false
      else
        match findKeyShare rbuf ext_end ext_end (p + 2) none with
        | none => .ok false
        | some server_pub => do
          let transcript := peer.hello ++ (List.range rlen).map rbuf
          let (ks, hs_key_s, hs_nonce_s) := peer.schedule transcript server_pub
          let done ← finishHandshake poly1305_mac ks 8 transcript ⟨src, hs_key_s, hs_nonce_s, 0, false⟩
          return done.isSome

/-! ## The slots -/

/-- `g_tls`, as far as the slots go: the `tcp_id` of each. -/
abbrev Table := Fin tlsMaxConn → ℤ

/-- The search of `net_tls_connect` for a slot. -/
def freeSlot (g_tls : Table) : Option (Fin tlsMaxConn) :=
  (List.finRange tlsMaxConn).find? fun i => g_tls i < 0

/-- `net_tls_connect`: the slot it returns, or nothing for -1. -/
def netTlsConnect (peer : Peer) (tcp_id : ℤ) (g_tls : Table) :
    Except Fault (Option (Fin tlsMaxConn) × Table) :=
  match freeSlot g_tls with
  | none => .ok (none, g_tls)
  | some slot => do
    let done ← handshake poly1305_mac peer tcp_id
    return (if done then some slot else none, Function.update g_tls slot tcp_id)

/-- `net_tls_close`. -/
def netTlsClose (id : ℤ) (g_tls : Table) : Table := fun i => if (i : ℤ) = id then -1 else g_tls i

/-- The occupied slots. -/
def occupied (g_tls : Table) : List (Fin tlsMaxConn) :=
  (List.finRange tlsMaxConn).filter fun i => 0 ≤ g_tls i

/-- The slots, with those of the successful connects and those that failed connects took for a TCP
connection, as far as they have not been closed since. -/
structure Slots where
  g_tls : Table
  opened : List (Fin tlsMaxConn)
  failed : List (Fin tlsMaxConn)

namespace Slots

/-- The slots after `net_tls_init`. -/
def init : Slots := ⟨fun _ => -1, [], []⟩

/-- A call that returns. -/
inductive Step : Slots → Slots → Prop
  | connect {s : Slots} {peer : Peer} {tcp_id : ℤ} {r : Option (Fin tlsMaxConn)} {g_tls : Table}
      (h : netTlsConnect poly1305_mac peer tcp_id s.g_tls = .ok (r, g_tls)) :
      Step s ⟨g_tls, r.toList ++ s.opened,
        if r = none ∧ 0 ≤ tcp_id then (freeSlot s.g_tls).toList ++ s.failed else s.failed⟩
  | close (s : Slots) (id : ℤ) :
      Step s ⟨netTlsClose id s.g_tls, s.opened.filter fun i => (i : ℤ) ≠ id,
        s.failed.filter fun i => (i : ℤ) ≠ id⟩

/-- What holds in every run: a slot is occupied by one connection, which is open or has failed. -/
structure Inv (s : Slots) : Prop where
  nodup : (s.opened ++ s.failed).Nodup
  occupied_iff : ∀ i, 0 ≤ s.g_tls i ↔ i ∈ s.opened ++ s.failed

variable {poly1305_mac} {s t : Slots} {tcp_id : ℤ}

theorem Inv.length_occupied (h : s.Inv) : (occupied s.g_tls).length = s.opened.length + s.failed.length := by
  rw [← length_append]
  refine List.Perm.length_eq ((perm_ext_iff_of_nodup ?_ h.nodup).mpr fun i => ?_)
  · exact (nodup_finRange _).filter _
  · simpa [occupied] using h.occupied_iff i

/-- What a connect does: it finds no slot, or it takes one and, where it succeeds, returns it. -/
theorem netTlsConnect_cases {peer : Peer} {g_tls g_tls' : Table} {r : Option (Fin tlsMaxConn)}
    (h : netTlsConnect poly1305_mac peer tcp_id g_tls = .ok (r, g_tls')) :
    freeSlot g_tls = none ∧ r = none ∧ g_tls' = g_tls ∨
      ∃ slot, freeSlot g_tls = some slot ∧ g_tls' = Function.update g_tls slot tcp_id ∧
        (r = none ∨ r = some slot ∧ 0 ≤ tcp_id) := by
  rw [netTlsConnect] at h
  cases hfree : freeSlot g_tls with
  | none =>
    rw [hfree] at h
    cases h
    exact .inl ⟨rfl, rfl, rfl⟩
  | some slot =>
    rw [hfree] at h
    cases hdone : handshake poly1305_mac peer tcp_id with
    | error e =>
      rw [hdone] at h
      cases h
    | ok done =>
      rw [hdone] at h
      cases h
      refine .inr ⟨slot, rfl, rfl, ?_⟩
      cases done with
      | false => exact .inl rfl
      | true =>
        -- `net_tcp_send` refuses a negative number.
        refine .inr ⟨rfl, Int.not_lt.mp fun hneg => ?_⟩
        rw [handshake, if_pos (.inl hneg)] at hdone
        cases hdone

/-- A free slot is taken, for a connection that is open or has failed. -/
theorem Inv.fill {slot : Fin tlsMaxConn} {opened failed : List (Fin tlsMaxConn)} (h : s.Inv)
    (hfree : s.g_tls slot < 0) (hid : 0 ≤ tcp_id)
    (hperm : (opened ++ failed).Perm (slot :: (s.opened ++ s.failed))) :
    Inv ⟨Function.update s.g_tls slot tcp_id, opened, failed⟩ := by
  have hnew : slot ∉ s.opened ++ s.failed := fun hmem =>
    absurd ((h.occupied_iff slot).mpr hmem) (by omega)
  refine ⟨hperm.nodup_iff.mpr (nodup_cons.mpr ⟨hnew, h.nodup⟩), fun i => ?_⟩
  rw [hperm.mem_iff, mem_cons, ← h.occupied_iff i]
  by_cases hi : i = slot <;> simp [hi, hid]

theorem Inv.step (h : s.Inv) (hstep : Step poly1305_mac s t) : t.Inv := by
  cases hstep with
  | @connect peer tcp_id r g_tls hcall =>
    obtain ⟨hnone, rfl, rfl⟩ | ⟨slot, hslot, rfl, hr⟩ := netTlsConnect_cases hcall
    · simpa [hnone] using h
    have hneg : s.g_tls slot < 0 := by simpa using find?_some hslot
    obtain rfl | ⟨rfl, hid⟩ := hr
    · by_cases hid : 0 ≤ tcp_id
      · rw [if_pos ⟨rfl, hid⟩, hslot]
        exact h.fill hneg hid perm_middle
      -- A negative number leaves the slot free.
      rw [if_neg fun hc => hid hc.2]
      refine ⟨h.nodup, fun i => ?_⟩
      by_cases hi : i = slot
      · simpa [hi, hid, hneg.not_ge] using h.occupied_iff slot
      · simpa [hi] using h.occupied_iff i
    · rw [if_neg (by simp)]
      exact h.fill hneg hid (by simp)
  | close id =>
    refine ⟨?_, fun i => ?_⟩
    · rw [← filter_append]
      exact h.nodup.filter _
    · rw [← filter_append, mem_filter, ← h.occupied_iff i]
      by_cases hi : (i : ℤ) = id <;> simp [netTlsClose, hi]

/-- In every run as many slots are occupied as connections are open if and only if every slot that a
failed connect took has been closed; and when no slot is free, all the connections are open if and only if
this is so. -/
theorem occupied_of_run (hrun : Relation.ReflTransGen (Step poly1305_mac) init s) :
    ((occupied s.g_tls).length = s.opened.length ↔ s.failed = []) ∧
      (freeSlot s.g_tls = none → (s.opened.length = tlsMaxConn ↔ s.failed = [])) := by
  have hocc := (Runs.invariant (P := Inv) hrun ⟨nodup_nil, by simp [init]⟩
    fun _ _ h hstep => h.step hstep).length_occupied
  rw [← length_eq_zero_iff]
  refine ⟨by omega, fun hnone => ?_⟩
  have hall : occupied s.g_tls = List.finRange tlsMaxConn :=
    filter_eq_self.mpr fun i hi => by simpa using find?_eq_none.mp hnone i hi
  rw [hall, length_finRange] at hocc
  omega

/-- The TCP connection is gone. -/
def noPeer : Peer := ⟨false, [], ⟨[], []⟩, fun _ => 0, fun _ _ => (zeroSchedule, fun _ => 0, fun _ => 0)⟩

/-- A connect fails and takes the first slot, and when that is closed no slot is occupied. -/
theorem occupied_of_run_closed : ∃ s t : Slots, Step zeroMac init s ∧ s.failed.length = 1 ∧
    Step zeroMac s t ∧ t.opened = [] ∧ (occupied t.g_tls).length = t.opened.length := by
  have hconnect := @Step.connect zeroMac init noPeer 0 _ _ rfl
  have hrun := Relation.ReflTransGen.tail (.single hconnect) (.close _ 0)
  exact ⟨_, _, hconnect, rfl, .close _ 0, rfl, (occupied_of_run hrun).1.mpr rfl⟩

/-- After two failed connects no connection is open, and no slot is free. -/
theorem slots_exhausted : ∃ s : Slots, Relation.ReflTransGen (Step Poly1305.poly1305Mac) init s ∧
    s.opened = [] ∧ (occupied s.g_tls).length = tlsMaxConn ∧
    ∀ peer tcp_id, netTlsConnect Poly1305.poly1305Mac peer tcp_id s.g_tls = .ok (none, s.g_tls) :=
  ⟨_, .tail (.single (@Step.connect _ _ noPeer 0 _ _ rfl)) (@Step.connect _ _ noPeer 1 _ _ rfl), rfl,
    rfl, fun _ _ => rfl⟩

end Slots

end FreeAsd.Tls
