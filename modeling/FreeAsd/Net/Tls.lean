import FreeAsd.Net.Aead
import FreeAsd.Lib.Runs

/-!
# TLS records

The receiving side of the record layer of `tls.c`, after the handshake. The TCP connection is what is still to
be read from it, and how many bytes each call of `net_tcp_recv` will find (`Source`). The server encrypts
as RFC 8446 has it (`encode`).
-/

namespace FreeAsd.Tls

open Aead (Fault)

/-- `TLS_REC_CHANGE_CIPHER`, `TLS_REC_HANDSHAKE` and `TLS_REC_APP_DATA`. -/
def recChangeCipher : UInt8 := 20

@[inherit_doc recChangeCipher]
def recHandshake : UInt8 := 22

@[inherit_doc recChangeCipher]
def recAppData : UInt8 := 23

/-! ## The TCP connection -/

/-- The bytes that a connection will deliver, and how many of them each read finds at most. -/
structure Source where
  stream : List UInt8
  reads : List ℕ
deriving DecidableEq, Repr

/-- `net_tcp_recv`, blocking: the bytes it returns. -/
def tcpRead (src : Source) (cap : ℕ) : List UInt8 × Source :=
  match src.reads with
  | [] => ([], src)
  | r :: rs =>
    let n := if r < cap then r else cap
    (src.stream.take n, { stream := src.stream.drop n, reads := rs })

/-- The loop that reads exactly `need` bytes, or fails when a read finds nothing. The first argument
bounds the rounds; a round reads at least one byte. -/
def readLoop : ℕ → ℕ → Source → Option (List UInt8) × Source
  | 0, need, src => (if need = 0 then some [] else none, src)
  | n + 1, need, src =>
    if need = 0 then (some [], src)
    else
      let r := tcpRead src need
      if r.1 = [] then (none, r.2)
      else
        let rest := readLoop n (need - r.1.length) r.2
        (rest.1.map (r.1 ++ ·), rest.2)

/-- Read exactly `need` bytes. -/
def readExact (need : ℕ) (src : Source) : Option (List UInt8) × Source := readLoop need need src

/-! ## Receiving a record -/

/-- `tls_conn_t`, as far as receiving goes. -/
structure TlsConn where
  source : Source
  hs_key_s : Mem
  hs_nonce_s : Mem
  seq_s : ℕ
  eof : Bool

/-- `make_nonce`. -/
def makeNonce (base : Mem) (seq : ℕ) : Mem := fun i =>
  if i < 4 then base i else base i ^^^ UInt8.ofNat (seq >>> (56 - (i - 4) * 8))

/-- The size of the buffer for a ciphertext. -/
abbrev recordMax : ℕ := 16384

/-- `R16` of the length field. -/
def recordLength (hdr : List UInt8) : ℕ := (hdr.getD 3 0).toNat * 256 + (hdr.getD 4 0).toNat

section

variable (poly1305_mac : List UInt8 → Mem → List UInt8)

/-- The end of `tls_recv_record`, with any authentication code: the type and the content of the record,
or nothing for -1. -/
def openRecordWith (c : TlsConn) (hdr body : List UInt8) :
    Except Fault (Option (UInt8 × List UInt8) × TlsConn) :=
  if hdr.getD 0 0 = recAppData then do
    let plain? ← Aead.openWith poly1305_mac c.hs_key_s (makeNonce c.hs_nonce_s c.seq_s) hdr body
    let c := { c with seq_s := (c.seq_s + 1) % 2^64 }
    match plain? with
    | none => .ok (none, c)
    | some plain =>
      match plain.getLast? with
      | none => .error .emptyPlaintext
      | some rtype => .ok (some (rtype, plain.dropLast), c)
  else if hdr.getD 0 0 = recHandshake then .ok (some (recHandshake, body), c)
  else if hdr.getD 0 0 = recChangeCipher then .ok (some (recChangeCipher, []), c)
  else .ok (none, c)

/-- `tls_recv_record`, with any authentication code. -/
def tlsRecvRecordWith (c : TlsConn) : Except Fault (Option (UInt8 × List UInt8) × TlsConn) :=
  match readExact 5 c.source with
  | (none, src) => .ok (none, { c with source := src })
  | (some hdr, src) =>
    if recordLength hdr > recordMax then .ok (none, { c with source := src })
    else
      match readExact (recordLength hdr) src with
      | (none, src) => .ok (none, { c with source := src })
      | (some body, src) => openRecordWith poly1305_mac { c with source := src } hdr body

/-- The loop of `net_tls_recv`, with any authentication code. The first argument bounds the rounds; a
round reads at least the header of a record. -/
def recvLoopWith : ℕ → ℕ → TlsConn → Except Fault (List UInt8 × TlsConn)
  | 0, _, c => .ok ([], c)
  | n + 1, cap, c => do
    match ← tlsRecvRecordWith poly1305_mac c with
    | (none, c) => .ok ([], { c with eof := true })
    | (some (rtype, plain), c) =>
      if rtype = recAppData then .ok (plain.take cap, c) else recvLoopWith n cap c

/-- `net_tls_recv`, with any authentication code: the bytes it returns. -/
def netTlsRecvWith (cap : ℕ) (c : TlsConn) : Except Fault (List UInt8 × TlsConn) :=
  recvLoopWith poly1305_mac (c.source.stream.length + 1) cap c

end

/-- `tls_recv_record`. -/
def tlsRecvRecord (c : TlsConn) : Except Fault (Option (UInt8 × List UInt8) × TlsConn) :=
  tlsRecvRecordWith Poly1305.poly1305Mac c

/-- The loop of `net_tls_recv`. -/
def recvLoop (n cap : ℕ) (c : TlsConn) : Except Fault (List UInt8 × TlsConn) :=
  recvLoopWith Poly1305.poly1305Mac n cap c

/-- `net_tls_recv`: the bytes it returns. -/
def netTlsRecv (cap : ℕ) (c : TlsConn) : Except Fault (List UInt8 × TlsConn) :=
  netTlsRecvWith Poly1305.poly1305Mac cap c

/-! ## The server -/

/-- A record of the server: the type and the content, and the number of zeros that pad it. -/
structure Record where
  type : UInt8
  content : List UInt8
  pad : ℕ
deriving DecidableEq, Repr

/-- The plaintext that is encrypted. -/
def Record.inner (r : Record) : List UInt8 := r.content ++ r.type :: List.replicate r.pad 0

/-- The header of an encrypted record with a ciphertext of `n` bytes. -/
def header (n : ℕ) : List UInt8 := [recAppData, 3, 3, UInt8.ofNat (n / 256), UInt8.ofNat n]

/-- The nonce of RFC 8446: the static one, combined with the number of the record in 64 bits, which
stands at the end of twelve bytes, the highest first. -/
def rfcNonce (iv : Mem) (k : ℕ) : Mem := fun i => iv i ^^^ UInt8.ofNat (k % 2^64 / 256^(11 - i))

/-- A record as it is sent, the `k`-th. -/
def encode (key iv : Mem) (k : ℕ) (r : Record) : List UInt8 :=
  let hdr := header (r.inner.length + 16)
  hdr ++ Aead.rfcSeal key (rfcNonce iv k) hdr r.inner

/-- The records from the `k`-th on. Numbers have 64 bits. -/
def serverStream (key iv : Mem) : ℕ → List Record → List UInt8
  | _, [] => []
  | k, r :: rs => encode key iv k r ++ serverStream key iv ((k + 1) % 2^64) rs

/-- The application data of some records. -/
def appData (rs : List Record) : List UInt8 :=
  (rs.filter fun r => r.type = recAppData).flatMap Record.content

/-- The nonce of the code is the one of the RFC. -/
theorem makeNonce_eq (iv : Mem) (k : ℕ) : makeNonce iv k = rfcNonce iv k := by
  funext i
  rw [makeNonce, rfcNonce]
  split_ifs with hi
  · -- the number does not reach the first four bytes
    have hpow : 256^8 ≤ 256^(11 - i) := Nat.pow_le_pow_right (by norm_num) (by omega)
    have hlt : k % 2^64 < 256^(11 - i) := by omega
    rw [Nat.div_eq_of_lt hlt]
    exact (UInt8.xor_zero).symm
  · congr 1
    apply UInt8.toNat_inj.mp
    obtain ⟨e, he, hle⟩ : ∃ e, e = 56 - (i - 4) * 8 ∧ e + 8 ≤ 64 := ⟨_, rfl, by omega⟩
    have hbyte : 256^(11 - i) = 2^e := by
      rw [show 256 = 2^8 by norm_num, ← Nat.pow_mul, he]
      congr 1
      omega
    have hsplit : 2^64 = 2^e * 2^(64 - e) := by
      rw [← Nat.pow_add]
      congr 1
      omega
    have hdvd : 2^8 ∣ 2^(64 - e) := Nat.pow_dvd_pow 2 (by omega)
    rw [UInt8.toNat_ofNat', UInt8.toNat_ofNat', ← he, hbyte, Nat.shiftRight_eq_div_pow, hsplit,
      Nat.mod_mul_right_div_self, Nat.mod_mod_of_dvd _ hdvd]

end FreeAsd.Tls
