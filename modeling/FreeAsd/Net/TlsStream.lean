import FreeAsd.Net.Tls

/-!
# TLS: the plaintext stream

What the calls of `net_tls_recv` have returned is the application data of the records taken so far
(`returned_of_run`), if every record taken is `Sound` and complete and the capacity is enough (`Clean`). None
of this is checked.
-/

namespace FreeAsd.Tls

open Nat List

open Aead (Fault)

/-! ## Reading -/

/-- A read that is complete takes the next bytes of the stream. -/
theorem readLoop_some {n need : ℕ} {src src' : Source} {bs : List UInt8}
    (h : readLoop n need src = (some bs, src')) :
    bs.length = need ∧ src.stream = bs ++ src'.stream := by
  induction n generalizing need src src' bs with
  | zero =>
    rw [readLoop] at h
    split_ifs at h with hzero
    · cases h
      exact ⟨hzero.symm, rfl⟩
    · cases h
  | succ n ih =>
    rw [readLoop] at h
    split_ifs at h with hzero
    · cases h
      exact ⟨hzero.symm, rfl⟩
    · generalize hr : tcpRead src need = r
      have hread : src.stream = r.1 ++ r.2.stream ∧ r.1.length ≤ need := by
        rw [← hr, tcpRead]
        split
        · exact ⟨rfl, zero_le _⟩
        · refine ⟨(take_append_drop _ _).symm, ?_⟩
          apply (length_take_le _ _).trans
          split_ifs <;> omega
      dsimp only at h
      rw [hr] at h
      split_ifs at h with hnil
      · cases h
      obtain ⟨hmap, hsrc⟩ := Prod.mk.inj h
      obtain ⟨rest, hrest, rfl⟩ := Option.map_eq_some_iff.mp hmap
      obtain ⟨hlen, hstream⟩ := ih (Prod.ext hrest hsrc)
      refine ⟨?_, ?_⟩
      · rw [length_append, hlen]
        omega
      · rw [hread.1, hstream, append_assoc]

/-- A read from an empty stream, or one that finds nothing, fails and takes nothing. -/
theorem readExact_idle {need : ℕ} {src : Source} (hneed : need ≠ 0)
    (hidle : src.stream = [] ∨ src.reads.headD 0 = 0) :
    (readExact need src).1 = none ∧ (readExact need src).2.stream = src.stream := by
  obtain ⟨n, rfl⟩ := exists_eq_succ_of_ne_zero hneed
  have hread : (tcpRead src (n + 1)).1 = [] ∧ (tcpRead src (n + 1)).2.stream = src.stream := by
    rw [tcpRead]
    cases hreads : src.reads with
    | nil => exact ⟨rfl, rfl⟩
    | cons r rs =>
      rcases hidle with hempty | hzero
      · rw [hempty]
        exact ⟨take_nil, drop_nil⟩
      · rw [hreads, headD_cons] at hzero
        dsimp only
        rw [hzero, if_pos (succ_pos n)]
        exact ⟨rfl, rfl⟩
  rw [readExact, readLoop, if_neg (succ_ne_zero n)]
  rw [if_pos hread.1]
  exact ⟨rfl, hread.2⟩

/-! ## A record -/

/-- A record that the code can handle: it has no padding, its authentication data fits the code's
buffer, and the code computes its tag right. -/
structure Sound (key iv : Mem) (k : ℕ) (r : Record) : Prop where
  pad : r.pad = 0
  fits : r.inner.length ≤ 8160
  mac : Poly1305.TagRight (Aead.rfcMacData (header (r.inner.length + 16))
    (Aead.rfcEncrypt key (rfcNonce iv k) 1 r.inner)) (Aead.rfcPolyKey key (rfcNonce iv k))

/-- What is left after a record with a ciphertext of `n` bytes has been read whole. -/
def skipRecord (n : ℕ) (src : Source) : Option Source :=
  match readExact 5 src with
  | (none, _) => none
  | (some _, src) =>
    match readExact n src with
    | (none, _) => none
    | (some _, src) => some src

/-- The authentication data of up to 8160 bytes fits the buffer. -/
theorem length_rfcMacData_le {ct : List UInt8} (n : ℕ) (h : ct.length ≤ 8160) :
    (Aead.rfcMacData (header n) ct).length ≤ Aead.macDataSize := by
  rw [← Aead.macInput_eq]
  simp only [Aead.macInput, Aead.pad16, Aead.macDataSize, length_append, length_replicate,
    length_leBytes, show (header n).length = 5 from rfl]
  omega

/-- The length in a header. -/
theorem recordLength_header {n : ℕ} (h : n < 2^16) : recordLength (header n) = n := by
  have hhigh : (UInt8.ofNat (n / 256)).toNat = n / 256 % 256 := UInt8.toNat_ofNat'
  have hlow : (UInt8.ofNat n).toNat = n % 256 := UInt8.toNat_ofNat'
  have hlen : recordLength (header n)
      = (UInt8.ofNat (n / 256)).toNat * 256 + (UInt8.ofNat n).toNat := rfl
  rw [hlen, hhigh, hlow]
  omega

/-- A sound record that arrives whole is decrypted. -/
theorem tlsRecvRecord_encode {c : TlsConn} {r : Record} {rest : List UInt8} {src : Source}
    (hsound : Sound c.hs_key_s c.hs_nonce_s c.seq_s r)
    (hstream : c.source.stream = encode c.hs_key_s c.hs_nonce_s c.seq_s r ++ rest)
    (hskip : skipRecord (r.inner.length + 16) c.source = some src) :
    tlsRecvRecord c = .ok (some (r.type, r.content),
        { c with source := src, seq_s := (c.seq_s + 1) % 2^64 }) ∧
      src.stream = rest := by
  have hlt := hsound.fits
  rw [skipRecord] at hskip
  cases hhdr : readExact 5 c.source with
  | mk hdr? src₁ =>
    rw [hhdr] at hskip
    cases hdr? with
    | none => exact nomatch hskip
    | some hdr =>
      dsimp only at hskip
      obtain ⟨hlen₁, hsplit₁⟩ := readLoop_some hhdr
      -- the first five bytes are the header
      rw [hstream, encode, append_assoc] at hsplit₁
      obtain ⟨hhdr_eq, hrest₁⟩ := append_inj hsplit₁ hlen₁.symm
      cases hbody : readExact (r.inner.length + 16) src₁ with
      | mk body? src₂ =>
        rw [hbody] at hskip
        cases body? with
        | none => exact nomatch hskip
        | some body =>
          have hsrc : src₂ = src := Option.some.inj hskip
          obtain ⟨hlen₂, hsplit₂⟩ := readLoop_some hbody
          rw [← hrest₁] at hsplit₂
          obtain ⟨hbody_eq, hrest₂⟩ := append_inj hsplit₂ (by rw [Aead.length_rfcSeal, hlen₂])
          have hrl : recordLength hdr = r.inner.length + 16 := by
            rw [← hhdr_eq, recordLength_header]
            omega
          have hmax : ¬ recordLength hdr > recordMax := by
            rw [hrl]
            simp only [recordMax]
            omega
          have hct : (Aead.rfcEncrypt c.hs_key_s (rfcNonce c.hs_nonce_s c.seq_s) 1
              r.inner).length ≤ 8160 := by
            rw [Aead.length_rfcEncrypt]
            exact hlt
          have hopen := Aead.open_rfcSeal (length_rfcMacData_le _ hct) hsound.mac
          rw [Aead.chacha20Poly1305Open, ← makeNonce_eq] at hopen
          have hinner : r.inner = r.content ++ [r.type] := by
            rw [Record.inner, hsound.pad]
            rfl
          refine ⟨?_, by rw [← hsrc, hrest₂]⟩
          rw [tlsRecvRecord, tlsRecvRecordWith, hhdr]
          dsimp only
          rw [if_neg hmax, hrl, hbody]
          dsimp only
          have htype : (header (r.inner.length + 16)).getD 0 0 = recAppData := rfl
          rw [openRecordWith, ← hhdr_eq, ← hbody_eq, if_pos htype, ← makeNonce_eq]
          simp only [bind, Except.bind]
          rw [hopen, hinner]
          simp only [getLast?_concat, dropLast_concat, hsrc]

/-! ## A call -/

section

variable (key iv : Mem) (cap : ℕ)

/-- The records that a call takes off the connection are sound and whole, and the capacity is enough
for the one it returns. A call may also find nothing where a record would begin. -/
def Clean : ℕ → List Record → Source → Prop
  | _, [], _ => True
  | k, r :: rs, src => src.reads.headD 0 = 0 ∨
      (Sound key iv k r ∧ ∃ src', skipRecord (r.inner.length + 16) src = some src' ∧
        if r.type = recAppData then r.content.length ≤ cap else Clean ((k + 1) % 2^64) rs src')

/-- The number of records that such a call takes. -/
def recordsTaken : List Record → Source → ℕ
  | [], _ => 0
  | r :: rs, src =>
    if src.reads.headD 0 = 0 then 0
    else
      match skipRecord (r.inner.length + 16) src with
      | none => 0
      | some src' => if r.type = recAppData then 1 else recordsTaken rs src' + 1

/-- The connection stands before the records `rs`, the first of them the `k`-th. -/
structure Before (k : ℕ) (rs : List Record) (c : TlsConn) : Prop where
  hs_key : c.hs_key_s = key
  hs_nonce : c.hs_nonce_s = iv
  seq : c.seq_s = k % 2^64
  stream : c.source.stream = serverStream key iv (k % 2^64) rs

end

variable {key iv : Mem} {cap k : ℕ} {rs : List Record} {c : TlsConn}

theorem appData_cons (r : Record) (rs : List Record) :
    appData (r :: rs) = (if r.type = recAppData then r.content else []) ++ appData rs := by
  rw [appData, filter_cons]
  by_cases htype : r.type = recAppData
  · rw [if_pos (decide_eq_true htype), if_pos htype, flatMap_cons]
    rfl
  · rw [if_neg (by rw [decide_eq_true_eq]; exact htype), if_neg htype]
    rfl

/-- A call that finds nothing. -/
theorem recvLoop_idle {n : ℕ} (h : Before key iv k rs c)
    (hidle : c.source.stream = [] ∨ c.source.reads.headD 0 = 0) :
    ∃ c', recvLoop (n + 1) cap c = .ok ([], c') ∧ Before key iv k rs c' := by
  obtain ⟨hnone, hstream⟩ := readExact_idle (show 5 ≠ 0 by decide) hidle
  refine ⟨{ c with source := (readExact 5 c.source).2, eof := true }, ?_, ?_⟩
  · have hrecord : tlsRecvRecord c = .ok (none, { c with source := (readExact 5 c.source).2 }) := by
      rw [tlsRecvRecord, tlsRecvRecordWith, ← Prod.mk.eta (p := readExact 5 c.source), hnone]
    rw [tlsRecvRecord] at hrecord
    rw [recvLoop, recvLoopWith, hrecord]
    rfl
  · exact { h with stream := hstream.trans h.stream }

/-- A clean call returns the application data of the records it takes. -/
theorem recvLoop_clean {n : ℕ} (hn : rs.length < n) (h : Before key iv k rs c)
    (hclean : Clean key iv cap (k % 2^64) rs c.source) :
    ∃ c', recvLoop n cap c = .ok (appData (rs.take (recordsTaken rs c.source)), c') ∧
      Before key iv (k + recordsTaken rs c.source) (rs.drop (recordsTaken rs c.source)) c' := by
  induction rs generalizing n k c with
  | nil =>
    obtain ⟨n, rfl⟩ := exists_eq_succ_of_ne_zero (ne_zero_of_lt hn)
    exact recvLoop_idle h (.inl h.stream)
  | cons r rs ih =>
    obtain ⟨n, rfl⟩ := exists_eq_succ_of_ne_zero (ne_zero_of_lt hn)
    by_cases hidle : c.source.reads.headD 0 = 0
    · rw [recordsTaken, if_pos hidle]
      exact recvLoop_idle h (.inr hidle)
    rw [Clean] at hclean
    obtain ⟨hsound, src, hskip, hrest⟩ := hclean.resolve_left hidle
    have hstream := h.stream
    rw [serverStream, ← h.hs_key, ← h.hs_nonce, ← h.seq] at hstream
    rw [← h.hs_key, ← h.hs_nonce, ← h.seq] at hsound
    obtain ⟨hrecord, hsrc⟩ := tlsRecvRecord_encode hsound hstream hskip
    generalize hc₁ : { c with source := src, seq_s := (c.seq_s + 1) % 2^64 } = c₁
    have hnext : (k % 2^64 + 1) % 2^64 = (k + 1) % 2^64 := by omega
    have hbefore : Before key iv (k + 1) rs c₁ := by
      rw [← hc₁]
      refine ⟨h.hs_key, h.hs_nonce, ?_, ?_⟩
      · rw [← hnext, ← h.seq]
      · rw [hsrc, h.hs_key, h.hs_nonce, h.seq, hnext]
    rw [recordsTaken, if_neg hidle, hskip]
    dsimp only
    have hloop : recvLoop (n + 1) cap c
        = if r.type = recAppData then .ok (r.content.take cap, c₁) else recvLoop n cap c₁ := by
      rw [tlsRecvRecord] at hrecord
      rw [recvLoop, recvLoopWith, hrecord, ← hc₁]
      rfl
    rw [hloop]
    split_ifs at hrest ⊢ with htype
    · refine ⟨c₁, ?_, hbefore⟩
      rw [take_succ_cons, take_zero, appData_cons, if_pos htype, take_of_length_le hrest]
      exact congrArg (fun out => Except.ok (out, c₁)) (append_nil _).symm
    · have hclean₁ : Clean key iv cap ((k + 1) % 2^64) rs c₁.source := by
        rw [← hnext, ← hc₁]
        exact hrest
      obtain ⟨c', hc', hb'⟩ := ih (lt_of_succ_lt_succ hn) hbefore hclean₁
      have hsource : c₁.source = src := by rw [← hc₁]
      rw [hsource] at hc' hb'
      refine ⟨c', ?_, ?_⟩
      · rw [take_succ_cons, appData_cons, if_neg htype]
        exact hc'
      · rw [drop_succ_cons, add_comm (recordsTaken rs src) 1, ← add_assoc]
        exact hb'

/-- Every record takes up some bytes of the stream. -/
theorem length_le_serverStream (key iv : Mem) (k : ℕ) (rs : List Record) :
    rs.length ≤ (serverStream key iv k rs).length := by
  induction rs generalizing k with
  | nil => exact zero_le _
  | cons r rs ih =>
    have hlen : 5 ≤ (encode key iv k r).length := by
      rw [encode, length_append]
      exact le_add_right 5 _
    rw [serverStream, length_append, length_cons]
    have hrest := ih ((k + 1) % 2^64)
    omega

/-! ## Runs -/

/-- The client, with the number of records taken and the bytes returned so far. -/
structure Session where
  conn : TlsConn
  taken : ℕ
  returned : List UInt8

/-- A call of `net_tls_recv` that is clean with respect to the records `sent`. -/
def Step (key iv : Mem) (sent : List Record) (s t : Session) : Prop :=
  ∃ cap, Clean key iv cap (s.taken % 2^64) (sent.drop s.taken) s.conn.source ∧
    ∃ out, netTlsRecv cap s.conn = .ok (out, t.conn) ∧
      t.taken = s.taken + recordsTaken (sent.drop s.taken) s.conn.source ∧
      t.returned = s.returned ++ out

/-- The connection has just been established: nothing of the server's records has been read. -/
structure Start (key iv : Mem) (sent : List Record) (s : Session) : Prop where
  before : Before key iv 0 sent s.conn
  taken : s.taken = 0
  returned : s.returned = []

/-- The invariant of runs. -/
structure StreamInv (key iv : Mem) (sent : List Record) (s : Session) : Prop where
  before : Before key iv s.taken (sent.drop s.taken) s.conn
  returned : s.returned = appData (sent.take s.taken)

theorem appData_append (as bs : List Record) : appData (as ++ bs) = appData as ++ appData bs := by
  rw [appData, filter_append, flatMap_append]
  rfl

variable {sent : List Record} {s t : Session}

/-- A clean call returns. -/
theorem StreamInv.call (h : StreamInv key iv sent s)
    (hclean : Clean key iv cap (s.taken % 2^64) (sent.drop s.taken) s.conn.source) :
    ∃ c', netTlsRecv cap s.conn = .ok (appData ((sent.drop s.taken).take
        (recordsTaken (sent.drop s.taken) s.conn.source)), c') ∧
      Before key iv (s.taken + recordsTaken (sent.drop s.taken) s.conn.source)
        ((sent.drop s.taken).drop (recordsTaken (sent.drop s.taken) s.conn.source)) c' := by
  apply recvLoop_clean _ h.before hclean
  rw [h.before.stream]
  exact lt_succ_of_le (length_le_serverStream _ _ _ _)

theorem StreamInv.step (h : StreamInv key iv sent s) (hstep : Step key iv sent s t) :
    StreamInv key iv sent t := by
  obtain ⟨cap, hclean, out, hcall, htaken, hreturned⟩ := hstep
  obtain ⟨c', hcall', hbefore⟩ := h.call hclean
  rw [hcall] at hcall'
  obtain ⟨hout, hconn⟩ := Prod.mk.inj (Except.ok.inj hcall')
  constructor
  · rw [htaken, hconn, ← drop_drop]
    exact hbefore
  · rw [hreturned, htaken, hout, h.returned, take_add, appData_append]

/-- In every run of calls that are all clean: what they have returned is the application data of the
records taken so far, a prefix of the whole, and the next call, if it is clean, returns. -/
theorem returned_of_run {key iv : Mem} {sent : List Record} {s t : Session}
    (hstart : Start key iv sent s) (hrun : Relation.ReflTransGen (Step key iv sent) s t) :
    t.returned <+: appData sent ∧ t.returned = appData (sent.take t.taken) ∧
      ∀ cap, Clean key iv cap (t.taken % 2^64) (sent.drop t.taken) t.conn.source →
        ∃ out c', netTlsRecv cap t.conn = .ok (out, c') := by
  have hinit : StreamInv key iv sent s := by
    constructor
    · rw [hstart.taken]
      exact hstart.before
    · rw [hstart.returned, hstart.taken]
      rfl
  have hinv := Runs.invariant (P := StreamInv key iv sent) hrun hinit fun _ _ => StreamInv.step
  refine ⟨?_, hinv.returned, ?_⟩
  · rw [hinv.returned]
    refine ⟨appData (sent.drop t.taken), ?_⟩
    rw [← appData_append, take_append_drop]
  · intro cap hclean
    obtain ⟨c', hc', -⟩ := hinv.call hclean
    exact ⟨_, c', hc'⟩

/-- A session whose server has sent some records under the key and the nonce of all zeros, with enough
bytes at each read. -/
def session (sent : List Record) : Session where
  conn :=
    { source := { stream := serverStream (fun _ => 0) (fun _ => 0) 0 sent
                  reads := List.replicate 100 100 }
      hs_key_s := fun _ => 0
      hs_nonce_s := fun _ => 0
      seq_s := 0
      eof := false }
  taken := 0
  returned := []

/-- A record of two bytes and one of one byte. -/
def shortRecords : List Record := [⟨recAppData, [1, 2], 0⟩, ⟨recAppData, [3], 0⟩]

theorem start_session (sent : List Record) : Start (fun _ => 0) (fun _ => 0) sent (session sent) :=
  ⟨⟨rfl, rfl, rfl, rfl⟩, rfl, rfl⟩

theorem clean_shortRecords :
    Clean (fun _ => 0) (fun _ => 0) 2 0 shortRecords (session shortRecords).conn.source := by
  have hsound : Sound (fun _ => 0) (fun _ => 0) 0 ⟨recAppData, [1, 2], 0⟩ :=
    ⟨rfl, by decide +kernel, by decide +kernel⟩
  have hskip : (skipRecord 19 (session shortRecords).conn.source).isSome := by decide +kernel
  obtain ⟨src, hsrc⟩ := Option.isSome_iff_exists.mp hskip
  refine .inr ⟨hsound, src, hsrc, ?_⟩
  rw [if_pos rfl]
  exact le_rfl

/-- A call with a capacity of two returns the first record. -/
theorem returned_of_run_first :
    ∃ t, Relation.ReflTransGen (Step (fun _ => 0) (fun _ => 0) shortRecords) (session shortRecords) t ∧
      t.returned = [1, 2] ∧ t.returned <+: appData shortRecords := by
  have hstart := start_session shortRecords
  obtain ⟨out, c, hcall⟩ := (returned_of_run hstart .refl).2.2 2 clean_shortRecords
  have htaken : recordsTaken shortRecords (session shortRecords).conn.source = 1 := by decide +kernel
  have hstep : Step (fun _ => 0) (fun _ => 0) shortRecords (session shortRecords) ⟨c, 1, out⟩ :=
    ⟨2, clean_shortRecords, out, hcall, htaken.symm, rfl⟩
  obtain ⟨hfirst, hreturned, -⟩ := returned_of_run hstart (.single hstep)
  exact ⟨_, .single hstep, hreturned, hfirst⟩

/-- What two calls with the same capacity return. -/
def twoCalls (cap : ℕ) (c : TlsConn) : Except Fault (List UInt8) := do
  let (first, c) ← netTlsRecv cap c
  let (second, _) ← netTlsRecv cap c
  return first ++ second

/-- Two calls with a capacity of one return the first byte of each record. The second byte of the
first is lost. -/
theorem returned_gap : twoCalls 1 (session shortRecords).conn = .ok [1, 3] ∧ appData shortRecords = [1, 2, 3] :=
  ⟨by decide +kernel, rfl⟩

end FreeAsd.Tls
