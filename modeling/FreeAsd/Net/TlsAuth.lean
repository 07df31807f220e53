import FreeAsd.Net.TlsStream

/-!
# TLS: authenticated data

Whatever an attacker puts on the connection, what `net_tls_recv` returns was verified (`authentic_of_run`), as
far as the records are `Harmless`: the bytes of a longer one are written behind the end of `mac_data` before
its tag is checked (`recv_overrun`). The authentication code and the key schedule can be any functions.
-/

namespace FreeAsd.Tls

open List

open Aead (Fault)

/-- `TLS_HS_FINISHED`. -/
def hsFinished : UInt8 := 20

/-! ## Records on the wire -/

/-- A record as it was read. -/
structure Wire where
  hdr : List UInt8
  body : List UInt8
deriving DecidableEq

namespace Wire

/-- The record claims to be encrypted. -/
def isProtected (w : Wire) : Bool := w.hdr.getD 0 0 = recAppData

/-- The body without the tag. -/
def ciphertext (w : Wire) : List UInt8 := w.body.take (w.body.length - 16)

/-- The last sixteen bytes of the body. -/
def tag (w : Wire) : List UInt8 := w.body.drop (w.body.length - 16)

/-- If the record is protected, then `mac_data` is large enough for it and it is not only a tag. -/
def Harmless (w : Wire) : Prop :=
  w.isProtected → (Aead.macInput w.hdr w.ciphertext).length ≤ Aead.macDataSize ∧ w.body.length ≠ 16

end Wire

instance : DecidablePred Wire.Harmless := fun w =>
  inferInstanceAs (Decidable (w.isProtected → _ ∧ _))

/-- Read the next record, or fail. -/
def readRecord (src : Source) : Option Wire × Source :=
  match readExact 5 src with
  | (none, src) => (none, src)
  | (some hdr, src) =>
    if recordLength hdr > recordMax then (none, src)
    else
      match readExact (recordLength hdr) src with
      | (none, src) => (none, src)
      | (some body, src) => (some ⟨hdr, body⟩, src)

/-- The records, each with the number of protected records before it. -/
def numbered : ℕ → List Wire → List (ℕ × Wire)
  | _, [] => []
  | k, w :: ws => (k, w) :: numbered (if w.isProtected then k + 1 else k) ws

/-- How many of the records are protected. -/
def countProtected (ws : List Wire) : ℕ := ws.countP Wire.isProtected

theorem countProtected_cons (w : Wire) (ws : List Wire) (k : ℕ) :
    k + countProtected (w :: ws) = (if w.isProtected then k + 1 else k) + countProtected ws := by
  unfold countProtected
  rw [countP_cons]
  split_ifs <;> omega

theorem numbered_append (k : ℕ) (ws ws' : List Wire) :
    numbered k (ws ++ ws') = numbered k ws ++ numbered (k + countProtected ws) ws' := by
  induction ws generalizing k with
  | nil => rfl
  | cons w ws ih => rw [cons_append, numbered, numbered, ih, countProtected_cons, cons_append]

/-- The nonce has 64 bits of the number. -/
theorem makeNonce_mod (iv : Mem) (k : ℕ) : makeNonce iv (k % 2^64) = makeNonce iv k := by
  rw [makeNonce_eq, makeNonce_eq]
  funext i
  rw [rfcNonce, rfcNonce, Nat.mod_mod]

section

variable (poly1305_mac : List UInt8 → Mem → List UInt8)

/-- The records that a call of `net_tls_recv` reads. -/
def recordsRead : ℕ → TlsConn → List Wire
  | 0, _ => []
  | n + 1, c =>
    match readRecord c.source with
    | (none, _) => []
    | (some w, src) =>
      w :: match openRecordWith poly1305_mac { c with source := src } w.hdr w.body with
        | .ok (some (rtype, _), c) => if rtype = recAppData then [] else recordsRead n c
        | _ => []

/-- The buffer is the beginning of the plaintext of the record, and its tag is right for the key with
the nonce of the number. -/
def Delivers (key iv : Mem) (out : List UInt8) (p : ℕ × Wire) : Prop :=
  p.2.isProtected ∧
    poly1305_mac (Aead.macInput p.2.hdr p.2.ciphertext) (Aead.polyKey key (makeNonce iv p.1)) = p.2.tag ∧
    out <+: Aead.chacha20Xor key 1 (makeNonce iv p.1) p.2.ciphertext

/-! ## The handshake -/

/-- What the code computes from the transcript: whether a Finished message is right, and the
application key and nonce of the server. -/
structure KeySchedule where
  finished : List UInt8 → List UInt8 → Bool
  app_key_s : List UInt8 → Mem
  app_nonce_s : List UInt8 → Mem

/-- What the loop over the messages of a record comes to. -/
inductive Parsed
  | more (transcript : List UInt8)
  | mismatch
  | finished (transcript : List UInt8)

/-- The loop over the messages of a record. The first argument bounds the rounds; a round takes at least
four bytes. -/
def parseMessages (ks : KeySchedule) : ℕ → List UInt8 → List UInt8 → Parsed
  | 0, _, transcript => .more transcript
  | n + 1, plain, transcript =>
    if plain.length < 4 then .more transcript
    else
      let hlen := (plain.getD 1 0).toNat * 2^16 + (plain.getD 2 0).toNat * 2^8 + (plain.getD 3 0).toNat
      if 4 + hlen > plain.length then .more transcript
      else if plain.getD 0 0 = hsFinished then
        if ks.finished transcript (plain.drop 4) then .finished (transcript ++ plain.take (4 + hlen))
        else .mismatch
      else parseMessages ks n (plain.drop (4 + hlen)) (transcript ++ plain.take (4 + hlen))

/-- The switch to the application keys. -/
def switchKeys (ks : KeySchedule) (transcript : List UInt8) (c : TlsConn) : TlsConn :=
  { c with hs_key_s := ks.app_key_s transcript, hs_nonce_s := ks.app_nonce_s transcript, seq_s := 0 }

/-- The end of `net_tls_connect`: it reads records under the handshake keys until the server is finished,
and switches the keys. -/
def finishHandshake (ks : KeySchedule) :
    ℕ → List UInt8 → TlsConn → Except Fault (Option (List UInt8 × TlsConn))
  | 0, _, _ => .ok none
  | n + 1, transcript, c => do
    match ← tlsRecvRecordWith poly1305_mac c with
    | (none, _) => .ok none
    | (some (rtype, plain), c) =>
      if rtype ≠ recHandshake then finishHandshake ks n transcript c
      else
        match parseMessages ks plain.length plain transcript with
        | .mismatch => .ok none
        | .more transcript => finishHandshake ks n transcript c
        | .finished transcript => .ok (some (transcript, switchKeys ks transcript c))

/-! ## The client and the attacker -/

/-- The client after the handshake, with the records read and the buffers returned so far. -/
structure Client where
  conn : TlsConn
  log : List Wire
  returned : List (List UInt8)

/-- The attacker replaces what is on the connection, or the client makes a call in which it reads
harmless records. -/
inductive Client.Step : Client → Client → Prop
  | attack (s : Client) (src : Source) :
      Client.Step s { s with conn := { s.conn with source := src } }
  | recv {s : Client} {cap : ℕ} {out : List UInt8} {c : TlsConn}
      (hharmless : ∀ w ∈ recordsRead poly1305_mac (s.conn.source.stream.length + 1) s.conn, w.Harmless)
      (hrecv : netTlsRecvWith poly1305_mac cap s.conn = .ok (out, c)) :
      Client.Step s ⟨c, s.log ++ recordsRead poly1305_mac (s.conn.source.stream.length + 1) s.conn,
        s.returned ++ [out]⟩

/-- What holds in every run. -/
structure Client.Inv (key iv : Mem) (s : Client) : Prop where
  hs_key : s.conn.hs_key_s = key
  hs_nonce : s.conn.hs_nonce_s = iv
  seq : s.conn.seq_s = countProtected s.log % 2^64
  delivers : ∃ used, used.Sublist (numbered 0 s.log) ∧
    List.Forall₂ (Delivers poly1305_mac key iv) (s.returned.filter (· ≠ [])) used

end

variable {poly1305_mac : List UInt8 → Mem → List UInt8} {key iv : Mem} {c c' : TlsConn}

theorem tlsRecvRecordWith_eq (c : TlsConn) :
    tlsRecvRecordWith poly1305_mac c =
      match readRecord c.source with
      | (none, src) => .ok (none, { c with source := src })
      | (some w, src) => openRecordWith poly1305_mac { c with source := src } w.hdr w.body := by
  rw [tlsRecvRecordWith, readRecord]
  rcases readExact 5 c.source with ⟨hdr | hdr, src⟩
  · rfl
  dsimp only
  split_ifs with hlong
  · rfl
  rcases readExact (recordLength hdr) src with ⟨body | body, src'⟩
  · rfl
  · rfl

/-- The steps of `chacha20_poly1305_open`. -/
theorem openWith_wire (key nonce : Mem) (w : Wire) :
    Aead.openWith poly1305_mac key nonce w.hdr w.body =
      if w.body.length < 16 then .ok none
      else if (Aead.macInput w.hdr w.ciphertext).length ≤ Aead.macDataSize then
        if poly1305_mac (Aead.macInput w.hdr w.ciphertext) (Aead.polyKey key nonce) = w.tag then
          .ok (some (Aead.chacha20Xor key 1 nonce w.ciphertext))
        else .ok none
      else .error .macDataOverrun := by
  unfold Aead.openWith Aead.macData Wire.ciphertext Wire.tag
  by_cases hshort : w.body.length < 16
  · rw [if_pos hshort, if_pos hshort]
  rw [if_neg hshort, if_neg hshort]
  dsimp only
  by_cases hfits : (Aead.macInput w.hdr (w.body.take (w.body.length - 16))).length ≤ Aead.macDataSize
  · rw [if_pos hfits, if_pos hfits]
    rfl
  · rw [if_neg hfits, if_neg hfits]
    rfl

theorem openWith_some {nonce : Mem} {w : Wire} {plain : List UInt8}
    (h : Aead.openWith poly1305_mac key nonce w.hdr w.body = .ok (some plain)) :
    poly1305_mac (Aead.macInput w.hdr w.ciphertext) (Aead.polyKey key nonce) = w.tag ∧
      plain = Aead.chacha20Xor key 1 nonce w.ciphertext := by
  rw [openWith_wire] at h
  split_ifs at h with hshort hfits htag
  · cases h
  · cases h
    exact ⟨htag, rfl⟩
  · cases h

/-- What opening a record can come to. Only a protected record counts, and only one whose tag is right
gives a content of the type of application data. -/
theorem openRecordWith_ok {w : Wire} {r : Option (UInt8 × List UInt8)}
    (h : openRecordWith poly1305_mac c w.hdr w.body = .ok (r, c')) :
    c' = (if w.isProtected then { c with seq_s := (c.seq_s + 1) % 2^64 } else c) ∧
    ∀ plain, r = some (recAppData, plain) → w.isProtected ∧
      poly1305_mac (Aead.macInput w.hdr w.ciphertext)
        (Aead.polyKey c.hs_key_s (makeNonce c.hs_nonce_s c.seq_s)) = w.tag ∧
      plain <+: Aead.chacha20Xor c.hs_key_s 1 (makeNonce c.hs_nonce_s c.seq_s) w.ciphertext := by
  unfold openRecordWith at h
  by_cases hprotected : w.hdr.getD 0 0 = recAppData
  · have hp : w.isProtected := decide_eq_true hprotected
    rw [if_pos hprotected] at h
    rw [if_pos hp]
    cases hopen : Aead.openWith poly1305_mac c.hs_key_s (makeNonce c.hs_nonce_s c.seq_s) w.hdr w.body with
    | error e => simp [hopen, bind, Except.bind] at h
    | ok plain? =>
      rw [hopen] at h
      simp only [bind, Except.bind] at h
      cases plain? with
      | none =>
        cases h
        exact ⟨rfl, fun plain hr => absurd hr (Option.some_ne_none _).symm⟩
      | some plain =>
        obtain ⟨htag, hplain⟩ := openWith_some hopen
        dsimp only at h
        split at h
        next => cases h
        next rtype hlast =>
          cases h
          refine ⟨rfl, fun plain' hr => ⟨hp, htag, ?_⟩⟩
          cases hr
          rw [← hplain]
          exact dropLast_prefix plain
  · have hp : ¬ w.isProtected := fun h => hprotected (of_decide_eq_true h)
    rw [if_neg hp]
    split_ifs at h with hhandshake hchange
    · cases h
      exact ⟨rfl, fun plain hr => absurd (Prod.mk.inj (Option.some.inj hr)).1 (by decide)⟩
    · cases h
      exact ⟨rfl, fun plain hr => absurd (Prod.mk.inj (Option.some.inj hr)).1 (by decide)⟩
    · cases h
      exact ⟨rfl, fun plain hr => absurd hr (Option.some_ne_none _).symm⟩

/-- A harmless record is opened, or refused. -/
theorem openRecordWith_harmless (poly1305_mac : List UInt8 → Mem → List UInt8) (c : TlsConn) {w : Wire}
    (h : w.Harmless) : ∃ r, openRecordWith poly1305_mac c w.hdr w.body = .ok r := by
  unfold openRecordWith
  by_cases hprotected : w.hdr.getD 0 0 = recAppData
  · obtain ⟨hfits, hlen⟩ := h (decide_eq_true hprotected)
    rw [if_pos hprotected, openWith_wire, if_pos hfits]
    by_cases hshort : w.body.length < 16
    · rw [if_pos hshort]
      exact ⟨_, rfl⟩
    rw [if_neg hshort]
    split_ifs with htag
    · -- a plaintext of at least one byte has a last one
      have hpos : (Aead.chacha20Xor c.hs_key_s 1 (makeNonce c.hs_nonce_s c.seq_s) w.ciphertext) ≠ [] := by
        apply ne_nil_of_length_pos
        rw [Aead.length_chacha20Xor, Wire.ciphertext, length_take]
        omega
      simp only [bind, Except.bind]
      rw [getLast?_eq_some_getLast hpos]
      exact ⟨_, rfl⟩
    · exact ⟨_, rfl⟩
  · rw [if_neg hprotected]
    split_ifs
    · exact ⟨_, rfl⟩
    · exact ⟨_, rfl⟩
    · exact ⟨_, rfl⟩

/-- The bytes of a longer record are written behind the end of `mac_data`. -/
theorem openRecordWith_overrun (poly1305_mac : List UInt8 → Mem → List UInt8) (c : TlsConn) {w : Wire}
    (hp : w.isProtected) (hlen : 16 ≤ w.body.length)
    (hlong : Aead.macDataSize < (Aead.macInput w.hdr w.ciphertext).length) :
    openRecordWith poly1305_mac c w.hdr w.body = .error .macDataOverrun := by
  rw [openRecordWith, if_pos (of_decide_eq_true hp), openWith_wire, if_neg (by omega), if_neg (by omega)]
  rfl

/-- What a call does: it counts the protected records that it reads, and what it returns is from one of
them. -/
theorem recvLoopWith_ok {n cap k : ℕ} {out : List UInt8} (hkey : c.hs_key_s = key)
    (hiv : c.hs_nonce_s = iv) (hseq : c.seq_s = k % 2^64)
    (h : recvLoopWith poly1305_mac n cap c = .ok (out, c')) :
    c'.hs_key_s = key ∧ c'.hs_nonce_s = iv ∧
      c'.seq_s = (k + countProtected (recordsRead poly1305_mac n c)) % 2^64 ∧
      (out ≠ [] → ∃ p ∈ numbered k (recordsRead poly1305_mac n c), Delivers poly1305_mac key iv out p) := by
  induction n generalizing c k with
  | zero =>
    cases h
    exact ⟨hkey, hiv, hseq, fun hne => absurd rfl hne⟩
  | succ n ih =>
    rw [recvLoopWith, tlsRecvRecordWith_eq] at h
    rw [recordsRead]
    rcases hread : readRecord c.source with ⟨w | w, src⟩
    · rw [hread] at h
      cases h
      exact ⟨hkey, hiv, hseq, fun hne => absurd rfl hne⟩
    rw [hread] at h
    dsimp only at h ⊢
    obtain ⟨c₁, hc₁⟩ : ∃ c₁ : TlsConn, c₁ = { c with source := src } := ⟨_, rfl⟩
    rw [← hc₁] at h ⊢
    have hkey₁ : c₁.hs_key_s = key := by rw [hc₁, ← hkey]
    have hiv₁ : c₁.hs_nonce_s = iv := by rw [hc₁, ← hiv]
    have hseq₁ : c₁.seq_s = k % 2^64 := by rw [hc₁, ← hseq]
    cases hopen : openRecordWith poly1305_mac c₁ w.hdr w.body with
    | error e =>
      rw [hopen] at h
      cases h
    | ok rc =>
      obtain ⟨r, c₂⟩ := rc
      rw [hopen] at h
      obtain ⟨hc₂, happ⟩ := openRecordWith_ok hopen
      -- the number of the next record
      have hkey₂ : c₂.hs_key_s = key := by rw [hc₂]; split_ifs <;> exact hkey₁
      have hiv₂ : c₂.hs_nonce_s = iv := by rw [hc₂]; split_ifs <;> exact hiv₁
      have hseq₂ : c₂.seq_s = (if w.isProtected then k + 1 else k) % 2^64 := by
        rw [hc₂]
        split_ifs
        · dsimp only
          omega
        · exact hseq₁
      simp only [bind, Except.bind] at h
      cases r with
      | none =>
        cases h
        refine ⟨hkey₂, hiv₂, ?_, fun hne => absurd rfl hne⟩
        rw [countProtected_cons]
        exact hseq₂
      | some r =>
        obtain ⟨rtype, plain⟩ := r
        dsimp only at h ⊢
        split_ifs at h ⊢ with htype
        · cases h
          refine ⟨hkey₂, hiv₂, ?_, fun _ => ⟨(k, w), mem_cons_self, ?_⟩⟩
          · rw [countProtected_cons]
            exact hseq₂
          · obtain ⟨hp, htag, hplain⟩ := happ plain (by rw [htype])
            rw [hkey₁, hiv₁, hseq₁, makeNonce_mod] at htag hplain
            exact ⟨hp, htag, (List.take_prefix cap plain).trans hplain⟩
        · obtain ⟨hk, hi, hs, hout⟩ := ih hkey₂ hiv₂ hseq₂ h
          refine ⟨hk, hi, ?_, ?_⟩
          · rw [countProtected_cons]
            exact hs
          · intro hne
            obtain ⟨p, hp, hdelivers⟩ := hout hne
            exact ⟨p, mem_cons_of_mem _ hp, hdelivers⟩

/-- A call that reads only harmless records returns. -/
theorem recvLoopWith_harmless {n : ℕ} (cap : ℕ) (c : TlsConn)
    (h : ∀ w ∈ recordsRead poly1305_mac n c, w.Harmless) :
    ∃ r, recvLoopWith poly1305_mac n cap c = .ok r := by
  induction n generalizing c with
  | zero => exact ⟨_, rfl⟩
  | succ n ih =>
    rw [recvLoopWith, tlsRecvRecordWith_eq]
    rw [recordsRead] at h
    rcases hread : readRecord c.source with ⟨w | w, src⟩
    · exact ⟨_, rfl⟩
    rw [hread] at h
    dsimp only at h ⊢
    obtain ⟨⟨r, c₂⟩, hopen⟩ := openRecordWith_harmless poly1305_mac { c with source := src } (h w mem_cons_self)
    rw [hopen] at h ⊢
    simp only [bind, Except.bind]
    cases r with
    | none => exact ⟨_, rfl⟩
    | some r =>
      dsimp only at h ⊢
      split_ifs at h ⊢ with htype
      · exact ⟨_, rfl⟩
      · exact ih c₂ (forall_mem_cons.mp h).2

/-! ## Runs -/

theorem Client.Inv.step {s t : Client} (h : s.Inv poly1305_mac key iv)
    (hstep : Client.Step poly1305_mac s t) : t.Inv poly1305_mac key iv := by
  cases hstep with
  | attack src => exact { h with }
  | @recv cap out c hharmless hrecv =>
    obtain ⟨hkey, hiv, hseq, hout⟩ := recvLoopWith_ok h.hs_key h.hs_nonce h.seq hrecv
    obtain ⟨used, hsub, hall⟩ := h.delivers
    refine ⟨hkey, hiv, ?_, ?_⟩
    · rw [hseq, countProtected, countProtected, countProtected, countP_append]
    rw [numbered_append, zero_add, filter_append]
    by_cases hnil : out = []
    · refine ⟨used, hsub.trans (sublist_append_left ..), ?_⟩
      rw [hnil]
      simpa using hall
    · obtain ⟨p, hp, hdelivers⟩ := hout hnil
      refine ⟨used ++ [p], hsub.append (singleton_sublist.mpr hp), ?_⟩
      have hkeep : [out].filter (· ≠ []) = [out] := by simp [hnil]
      rw [hkeep]
      exact rel_append hall (.cons hdelivers .nil)

/-- The key in use when the handshake is over is the application key, and the count starts again. -/
theorem finishHandshake_keys {ks : KeySchedule} {n : ℕ} {transcript transcript' : List UInt8}
    (h : finishHandshake poly1305_mac ks n transcript c = .ok (some (transcript', c'))) :
    c'.hs_key_s = ks.app_key_s transcript' ∧ c'.hs_nonce_s = ks.app_nonce_s transcript' ∧
      c'.seq_s = 0 := by
  induction n generalizing transcript c with
  | zero => cases h
  | succ n ih =>
    rw [finishHandshake] at h
    cases hrecord : tlsRecvRecordWith poly1305_mac c with
    | error e =>
      rw [hrecord] at h
      cases h
    | ok rc =>
      rw [hrecord] at h
      simp only [bind, Except.bind] at h
      rcases rc with ⟨_ | ⟨rtype, plain⟩, c₁⟩
      · cases h
      dsimp only at h
      split_ifs at h with htype
      · exact ih h
      split at h
      next => cases h
      next => exact ih h
      next t =>
        cases h
        exact ⟨rfl, rfl, rfl⟩

/-- After the handshake, whatever is put on the connection, the buffers returned are beginnings of
plaintexts of protected records, in the order in which these are read. Their tags are right for the
application key with the nonces of their numbers, counted from the end of the handshake. -/
theorem authentic_of_run {ks : KeySchedule} {n : ℕ} {transcript transcript' : List UInt8}
    (hconnect : finishHandshake poly1305_mac ks n transcript c = .ok (some (transcript', c')))
    {s : Client} (hrun : Relation.ReflTransGen (Client.Step poly1305_mac) ⟨c', [], []⟩ s) :
    (∃ used, used.Sublist (numbered 0 s.log) ∧
      List.Forall₂ (Delivers poly1305_mac (ks.app_key_s transcript') (ks.app_nonce_s transcript'))
        (s.returned.filter (· ≠ [])) used) ∧
    ∀ cap, (∀ w ∈ recordsRead poly1305_mac (s.conn.source.stream.length + 1) s.conn, w.Harmless) →
      ∃ r, netTlsRecvWith poly1305_mac cap s.conn = .ok r := by
  obtain ⟨hkey, hiv, hseq⟩ := finishHandshake_keys hconnect
  have hinv := Runs.invariant
    (P := Client.Inv poly1305_mac (ks.app_key_s transcript') (ks.app_nonce_s transcript')) hrun
    ⟨hkey, hiv, hseq, [], .slnil, .nil⟩ (fun _ _ h hstep => h.step hstep)
  exact ⟨hinv.delivers, fun cap hharmless => recvLoopWith_harmless cap s.conn hharmless⟩

/-! ## A connection, and a record that is too long -/

/-- All tags are zeros, and all keys. -/
def zeroMac : List UInt8 → Mem → List UInt8 := fun _ _ => List.replicate 16 0

@[inherit_doc zeroMac]
def zeroSchedule : KeySchedule := ⟨fun _ _ => true, fun _ => fun _ => 0, fun _ => fun _ => 0⟩

/-- A connection that will deliver this. -/
def connection (source : Source) : TlsConn := ⟨source, fun _ => 0, fun _ => 0, 0, false⟩

/-- A record with the byte 7 of application data. -/
def sevenRecord : List UInt8 :=
  [23, 3, 3, 0, 18] ++ Aead.chacha20Xor (fun _ => 0) 1 (makeNonce (fun _ => 0) 0) [7, 23]
    ++ List.replicate 16 0

/-- The connection after the handshake. -/
def connected : TlsConn := connection ⟨sevenRecord, [5, 18]⟩

/-- The server says Finished, in a record of its own. -/
theorem connect_finished (rest : List UInt8) (reads : List ℕ) :
    finishHandshake zeroMac zeroSchedule 8 []
        (connection ⟨[22, 3, 3, 0, 4, 20, 0, 0, 0] ++ rest, 5 :: 4 :: reads⟩) =
      .ok (some ([20, 0, 0, 0], connection ⟨rest, reads⟩)) := by
  have hread : readRecord ⟨[22, 3, 3, 0, 4, 20, 0, 0, 0] ++ rest, 5 :: 4 :: reads⟩ =
      (some ⟨[22, 3, 3, 0, 4], [20, 0, 0, 0]⟩, ⟨rest, reads⟩) := by
    have hhdr : readExact 5 ⟨[22, 3, 3, 0, 4, 20, 0, 0, 0] ++ rest, 5 :: 4 :: reads⟩ =
        (some [22, 3, 3, 0, 4], ⟨[20, 0, 0, 0] ++ rest, 4 :: reads⟩) := rfl
    have hbody : readExact 4 ⟨[20, 0, 0, 0] ++ rest, 4 :: reads⟩ = (some [20, 0, 0, 0], ⟨rest, reads⟩) := rfl
    rw [readRecord, hhdr]
    dsimp only
    rw [show recordLength [22, 3, 3, 0, 4] = 4 from rfl, if_neg (by decide), hbody]
  have hopen : ∀ c : TlsConn, openRecordWith zeroMac c [22, 3, 3, 0, 4] [20, 0, 0, 0] =
      .ok (some (recHandshake, [20, 0, 0, 0]), c) := by
    intro c
    rfl
  rw [finishHandshake, tlsRecvRecordWith_eq, connection, hread]
  dsimp only
  rw [hopen]
  rfl

/-- The client receives the byte, and it is from a record with a tag. -/
theorem authentic_of_run_seven :
    ∃ (s : Client) (used : List (ℕ × Wire)), s.returned = [[7]] ∧ used.Sublist (numbered 0 s.log) ∧
      List.Forall₂ (Delivers zeroMac (fun _ => 0) fun _ => 0) [[7]] used := by
  have hharmless : ∀ w ∈ recordsRead zeroMac (connected.source.stream.length + 1) connected,
      w.Harmless := by
    decide +kernel
  have hout : (netTlsRecvWith zeroMac 10 connected).map Prod.fst = .ok [7] := by decide +kernel
  obtain ⟨⟨out, c⟩, hrecv⟩ := recvLoopWith_harmless 10 connected hharmless
  have hrecv' : netTlsRecvWith zeroMac 10 connected = .ok (out, c) := hrecv
  rw [hrecv'] at hout
  cases hout
  have hrun : Relation.ReflTransGen (Client.Step zeroMac) ⟨connected, [], []⟩ _ :=
    .single (.recv hharmless hrecv')
  obtain ⟨used, hsub, hall⟩ := (authentic_of_run (connect_finished sevenRecord [5, 18]) hrun).1
  exact ⟨_, used, rfl, hsub, hall⟩

/-- A read that finds everything. -/
theorem readExact_all {bs : List UInt8} (h : bs ≠ []) :
    readExact bs.length ⟨bs, [bs.length]⟩ = (some bs, ⟨[], []⟩) := by
  obtain ⟨n, hn⟩ : ∃ n, bs.length = n + 1 := Nat.exists_eq_succ_of_ne_zero (by simpa using h)
  have hread : tcpRead ⟨bs, [bs.length]⟩ bs.length = (bs, ⟨[], []⟩) := by
    rw [tcpRead]
    simp
  have hloop : ∀ (n : ℕ) (src : Source), readLoop n 0 src = (some [], src) := by
    intro n src
    cases n with
    | zero => rfl
    | succ n => rfl
  rw [readExact, hn, readLoop, if_neg (Nat.succ_ne_zero n), ← hn, hread]
  rw [if_neg h, Nat.sub_self, hloop]
  simp

/-- A record with a body of 16384 zeros. -/
def overlong : TlsConn :=
  connection ⟨[23, 3, 3, 64, 0] ++ List.replicate 16384 0, [5, 16384]⟩

/-- The code writes it behind the end of `mac_data`. -/
theorem recv_overrun : netTlsRecv 100 overlong = .error .macDataOverrun := by
  generalize hbody : List.replicate 16384 (0 : UInt8) = body
  have hlen : body.length = 16384 := by rw [← hbody, length_replicate]
  have hne : body ≠ [] := ne_nil_of_length_pos (by omega)
  have hhdr : readExact 5 overlong.source = (some [23, 3, 3, 64, 0], ⟨body, [16384]⟩) := by
    rw [← hbody]
    rfl
  have hread : readRecord overlong.source = (some ⟨[23, 3, 3, 64, 0], body⟩, ⟨[], []⟩) := by
    have hrest := readExact_all hne
    rw [hlen] at hrest
    rw [readRecord, hhdr]
    dsimp only
    rw [show recordLength [23, 3, 3, 64, 0] = 16384 from rfl, if_neg (by decide), hrest]
  have hlong : Aead.macDataSize <
      (Aead.macInput [23, 3, 3, 64, 0] (Wire.ciphertext ⟨[23, 3, 3, 64, 0], body⟩)).length := by
    rw [Aead.macInput, Wire.ciphertext]
    simp only [length_append, length_take, hlen, Aead.macDataSize]
    omega
  have hopen := openRecordWith_overrun Poly1305.poly1305Mac { overlong with source := ⟨[], []⟩ }
    (w := ⟨[23, 3, 3, 64, 0], body⟩) rfl (by rw [hlen]; decide) hlong
  rw [netTlsRecv, netTlsRecvWith, recvLoopWith, tlsRecvRecordWith_eq, hread]
  dsimp only
  rw [hopen]
  rfl

end FreeAsd.Tls
