import FreeAsd.Ipc.RingbufRuns
import FreeAsd.Vfs.FileCalls
import FreeAsd.Vfs.RefCountRuns

/-!
# Pipes

`ringbuf_init` refuses the ring of a pipe and `vfs_pipe` ignores the answer, so the ring is whatever `kmalloc`
has left (`pipe_lossy`). If that happens to be an empty ring of the right shape, the pipe is a queue of bytes
(`fifo_of_run`) as long as no write finds some room, but too little.
-/

namespace FreeAsd.Vfs

open Nat Function List Machine

open Ipc (Ringbuf sub64)
open Arch (UserMem)

variable {σ β : Type} {portSend : ℕ → List UInt8 → σ → ℤ × σ}

/-- The size of a pipe. -/
abbrev pipeSize : ℕ := 4096

/-- The ring is a pipe with some bytes in it. -/
structure PipeHolds (rb : Ringbuf) (queue : List UInt8) : Prop where
  holds : rb.Holds (queue.map fun b => [b])
  slot_size : rb.slot_size = 1
  slot_count : rb.slot_count = pipeSize

variable {rb : Ringbuf} {queue : List UInt8}

section

variable (h : PipeHolds rb queue)

include h

/-- A pipe has no more bytes than slots. -/
theorem PipeHolds.length_le : queue.length ≤ pipeSize := by
  obtain ⟨pushed, popped, hinv, hqueue⟩ := h.holds
  have hlen := congrArg List.length hqueue
  rw [length_map, length_drop] at hlen
  have hfits : pushed.length ≤ popped.length + rb.slot_count := hinv.fits
  rw [h.slot_count] at hfits
  omega

/-- The indices tell how many bytes there are. -/
theorem PipeHolds.used : sub64 rb.write_idx rb.read_idx = queue.length := by
  obtain ⟨pushed, popped, hinv, hqueue⟩ := h.holds
  have hlen := congrArg List.length hqueue
  rw [length_map, length_drop] at hlen
  rw [hlen]
  exact hinv.sub64_idx

theorem PipeHolds.write_idx_lt : rb.write_idx < 2^64 := by
  obtain ⟨pushed, popped, hinv, -⟩ := h.holds
  have hwrite : rb.write_idx = pushed.length % 2^64 := hinv.write
  rw [hwrite]
  exact mod_lt _ (by decide)

/-- The loop of `vfs_read` takes bytes from the front. -/
theorem ringRead_spec {n fuel : ℕ} (hfuel : min n queue.length ≤ fuel) :
    ∃ rb', ringRead fuel n rb = (queue.take n, rb') ∧ PipeHolds rb' (queue.drop n) := by
  induction fuel generalizing n rb queue with
  | zero =>
    have htake : queue.take n = [] ∧ queue.drop n = queue := by
      rcases Nat.eq_zero_or_pos n with rfl | hn
      · exact ⟨rfl, rfl⟩
      · obtain rfl : queue = [] := length_eq_zero_iff.mp (by omega)
        exact ⟨take_nil, drop_nil⟩
    refine ⟨rb, ?_, ?_⟩
    · rw [htake.1, ringRead]
    · rw [htake.2]
      exact h
  | succ fuel ih =>
    rw [ringRead]
    by_cases hn : n = 0
    · subst hn
      exact ⟨rb, if_pos rfl, h⟩
    rw [if_neg hn]
    have hchunk : chunkOf rb.slot_size n = 1 := by
      rw [chunkOf, h.slot_size]
      split_ifs <;> omega
    dsimp only
    rw [hchunk]
    have hsize : 1 ≤ rb.slot_size := by rw [h.slot_size]
    rcases h.holds.pop (fun _ => 0) hsize with
      ⟨hpop, hempty⟩ | ⟨item, rest, buf, rb', hqueue, hpop, hholds, hbuf, -, hsize', hcount'⟩
    · rw [hpop]
      obtain rfl : queue = [] := map_eq_nil_iff.mp hempty
      exact ⟨rb, by rw [take_nil], by rw [drop_nil]; exact h⟩
    rw [hpop]
    obtain ⟨b, queue', rfl, hitem, rfl⟩ := map_eq_cons_iff.mp hqueue
    have hb : buf 0 = b := hbuf 0 b (by decide) (by rw [← hitem]; rfl)
    have hpipe : PipeHolds rb' queue' := ⟨hholds, hsize'.trans h.slot_size, hcount'.trans h.slot_count⟩
    obtain ⟨rb'', hread, hpipe'⟩ := ih hpipe (n := n - 1) (by
      rw [length_cons] at hfuel
      omega)
    dsimp only
    rw [hread]
    obtain ⟨m, rfl⟩ : ∃ m, n = m + 1 := ⟨n - 1, by omega⟩
    refine ⟨rb'', ?_, hpipe'⟩
    rw [take_succ_cons, Nat.add_sub_cancel]
    change ([buf 0] ++ _, _) = _
    rw [hb]
    rfl

/-- The loop of `vfs_write` appends as many bytes as there is room for. -/
theorem ringWrite_spec {data : List UInt8} {fuel : ℕ} (hfuel : data.length ≤ fuel) :
    ∃ rb', ringWrite fuel data rb = (min data.length (pipeSize - queue.length), rb') ∧
      PipeHolds rb' (queue ++ data.take (pipeSize - queue.length)) ∧
      rb'.write_idx % 2^64 =
        (rb.write_idx + min data.length (pipeSize - queue.length)) % 2^64 := by
  induction fuel generalizing data rb queue with
  | zero =>
    obtain rfl : data = [] := length_eq_zero_iff.mp (by omega)
    rw [take_nil, append_nil, length_nil, zero_min, add_zero, ringWrite]
    exact ⟨rb, rfl, h, rfl⟩
  | succ fuel ih =>
    rw [ringWrite]
    cases data with
    | nil =>
      rw [take_nil, append_nil, length_nil, zero_min, add_zero, if_pos rfl]
      exact ⟨rb, rfl, h, rfl⟩
    | cons b data =>
      rw [if_neg (cons_ne_nil b data)]
      have hchunk : chunkOf rb.slot_size (b :: data).length = 1 := by
        rw [chunkOf, h.slot_size, length_cons]
        split_ifs <;> omega
      dsimp only
      rw [hchunk]
      have hsize : 1 ≤ rb.slot_size := by rw [h.slot_size]
      rcases h.holds.push (fun i => (b :: data).getD i 0) hsize with
        ⟨hpush, hfull⟩ | ⟨rb', hpush, hholds, hsize', hcount'⟩
      · rw [hpush, if_neg Bool.false_ne_true]
        have hlen : queue.length = pipeSize := by
          rw [← h.slot_count, ← hfull, length_map]
        rw [hlen, Nat.sub_self, take_zero, append_nil, Nat.min_zero, Nat.add_zero]
        exact ⟨rb, rfl, h, rfl⟩
      · rw [hpush, if_pos rfl]
        have hpipe : PipeHolds rb' (queue ++ [b]) := by
          refine ⟨?_, hsize'.trans h.slot_size, hcount'.trans h.slot_count⟩
          rw [map_append]
          exact hholds
        have hlt := hpipe.length_le
        rw [length_append, length_singleton] at hlt
        have hidx : rb'.write_idx = (rb.write_idx + 1) % 2^64 := by
          unfold Ipc.ringbufPush at hpush
          split_ifs at hpush
          · cases hpush
          · cases hpush
          · rw [← (Prod.mk.inj hpush).2]
        have hfuel' : data.length ≤ fuel := by
          rw [length_cons] at hfuel
          omega
        obtain ⟨rb'', hwrite, hpipe', hidx'⟩ := ih hpipe hfuel'
        rw [length_append, length_singleton] at hwrite hpipe' hidx'
        rw [drop_succ_cons, drop_zero, hwrite]
        refine ⟨rb'', ?_, ?_, ?_⟩
        · rw [length_cons]
          congr 1
          omega
        · obtain ⟨k, hk⟩ : ∃ k, pipeSize - queue.length = k + 1 :=
            ⟨pipeSize - queue.length - 1, by omega⟩
          rw [hk, take_succ_cons]
          rw [show pipeSize - (queue.length + 1) = k by omega, append_assoc] at hpipe'
          exact hpipe'
        · rw [hidx', hidx, length_cons]
          omega

end

/-! ## System calls on a pipe -/

/-- The descriptor of a process is an end of the pipe whose ring is at `a`. -/
def State.PipeFd (s : State σ β) (a : ℕ) (q : Pid) (fd : ℕ) : Prop :=
  2 < fd % 2^32 ∧ ∃ i, s.lookup (some q) (fd % 2^32) = some i ∧ (s.g_nodes i).ring = some a

variable {a : ℕ} {q : Pid} {fd buf n : ℕ} {m : Machine σ β}

/-- The ring is replaced. -/
def Machine.setRing (m : Machine σ β) (a : ℕ) (rb : Ringbuf) : Machine σ β :=
  { m with vfs := { m.vfs with rings := Function.update m.vfs.rings a rb } }

theorem Machine.setRing_self (m : Machine σ β) (a : ℕ) : m.setRing a (m.vfs.rings a) = m := by
  unfold setRing
  rw [update_eq_self]

theorem Machine.setRing_setRing (m : Machine σ β) (a : ℕ) (rb rb' : Ringbuf) :
    (m.setRing a rb).setRing a rb' = m.setRing a rb' := by
  unfold setRing
  rw [update_idem]

theorem Machine.rings_setRing (m : Machine σ β) (a : ℕ) (rb : Ringbuf) : (m.setRing a rb).vfs.rings a = rb :=
  update_self ..

/-- The memory of the caller is replaced. -/
def Machine.setUser (m : Machine σ β) (user : UserMem) : Machine σ β :=
  { m with user := user }

/-- The bytes of the caller's buffer. -/
def userBytes (user : UserMem) (buf n : ℕ) : List UInt8 := (List.range n).map fun i => user.byte (buf + i)

theorem length_userBytes (user : UserMem) (buf n : ℕ) : (userBytes user buf n).length = n := by
  rw [userBytes, length_map, length_range]

theorem take_userBytes (user : UserMem) {buf k n : ℕ} (hk : k ≤ n) :
    (userBytes user buf n).take k = userBytes user buf k := by
  unfold userBytes
  rw [← map_take, take_range, min_eq_left hk]

/-- What was copied to the caller is in its buffer. -/
theorem userBytes_write (user : UserMem) (buf : ℕ) (bs : List UInt8) :
    userBytes (user.write buf bs) buf bs.length = bs := by
  have hbyte : ∀ i < bs.length, (user.write buf bs).byte (buf + i) = bs.getD i 0 := by
    intro i hi
    calc (user.write buf bs).byte (buf + i) = bs.getD (buf + i - buf) 0 := if_pos (by omega)
      _ = bs.getD i 0 := by rw [Nat.add_sub_cancel_left]
  have hmap : userBytes (user.write buf bs) buf bs.length = (List.range bs.length).map fun i => bs.getD i 0 :=
    map_congr_left fun i hi => hbyte i (mem_range.mp hi)
  rw [hmap]
  apply ext_getElem
  · rw [length_map, length_range]
  · intro i hi hi'
    rw [getElem_map, getElem_range]
    exact getD_eq_getElem bs 0 hi'

/-- The bytes to write fit, or the pipe is empty or full. -/
def Fits (used n : ℕ) : Prop := n + used ≤ pipeSize ∨ used = 0 ∨ used = pipeSize

instance (used n : ℕ) : Decidable (Fits used n) := inferInstanceAs (Decidable (_ ∨ _ ∨ _))

section

variable (portSend) (hfd : m.vfs.PipeFd a q fd)

include hfd

theorem pipeFd_setRing (rb : Ringbuf) : (m.setRing a rb).vfs.PipeFd a q fd := hfd

/-- `sys_write` on a pipe gets to its loop. -/
theorem sysWrite_eq_writeLoop (hvalid : Arch.validateUserPtr buf n) (hn : 0 < n) :
    m.sysWrite portSend q fd buf n = writeLoop portSend q (fd % 2^32) buf n n 0 m := by
  have hstd : 2 < fd % 2^32 := hfd.1
  unfold sysWrite
  rw [if_neg (by omega), hvalid, if_neg (by decide),
    if_neg (by rintro (⟨rfl, -⟩ | ⟨rfl, -⟩) <;> omega), if_neg (by rintro rfl; omega)]

variable (hpipe : PipeHolds (m.vfs.rings a) queue)

include hpipe

/-- `vfs_read` of a pipe. -/
theorem vfsRead_pipe (n : ℕ) :
    ∃ rb, m.vfs.vfsRead (some q) (fd % 2^32) n =
        ((if (queue.take n).length > 0 then 0 else VfsError.err.code, queue.take n),
          (m.setRing a rb).vfs) ∧
      PipeHolds rb (queue.drop n) := by
  obtain ⟨hstd, i, hlookup, hring⟩ := hfd
  have hfuel : min n queue.length ≤ ringFuel := by
    have hlen : queue.length ≤ 4096 := hpipe.length_le
    rw [ringFuel]
    omega
  obtain ⟨rb, hread, hdrop⟩ := ringRead_spec hpipe hfuel
  refine ⟨rb, ?_, hdrop⟩
  unfold State.vfsRead
  rw [if_neg (by omega), hlookup]
  dsimp only
  rw [hring]
  dsimp only
  rw [hread]
  rfl

/-- `vfs_write` to a pipe. -/
theorem vfsWrite_pipe {data : List UInt8} (hne : data ≠ []) (hdata : data.length ≤ kbufSize) :
    ∃ rb, m.vfs.vfsWrite portSend (some q) (fd % 2^32) data =
        (if min data.length (pipeSize - queue.length) > 0 then 0 else VfsError.err.code,
          (m.setRing a rb).vfs) ∧
      PipeHolds rb (queue ++ data.take (pipeSize - queue.length)) ∧
      rb.write_idx % 2^64 =
        ((m.vfs.rings a).write_idx + min data.length (pipeSize - queue.length)) % 2^64 := by
  obtain ⟨hstd, i, hlookup, hring⟩ := hfd
  have hfuel : data.length ≤ ringFuel := by
    have hdata' : data.length ≤ 4096 := hdata
    rw [ringFuel]
    omega
  obtain ⟨rb, hwrite, happend, hidx⟩ := ringWrite_spec hpipe hfuel
  refine ⟨rb, ?_, happend, hidx⟩
  unfold State.vfsWrite
  rw [if_neg (by rintro (hle | hnil); exacts [absurd hle (by omega), hne hnil]), hlookup]
  dsimp only
  rw [hring]
  dsimp only
  rw [hwrite]
  rfl

/-- The loop of `sys_read` over a pipe, after `total` of `n` bytes. -/
theorem readLoop_pipe (fuel total : ℕ) (hw : ∀ i < n, m.user.writable (buf + i))
    (htotal : total ≤ n) (hn : 0 < n) (hfuel : n ≤ fuel + total) :
    ∃ rb, readLoop q (fd % 2^32) buf n fuel total m =
        (if total = 0 ∧ queue = [] then VfsError.err.code
          else (total + min (n - total) queue.length : ℕ),
          (m.setRing a rb).setUser (m.user.write (buf + total) (queue.take (n - total)))) ∧
      PipeHolds rb (queue.drop (n - total)) := by
  -- at the end of the loop nothing is left to read
  have hdone : ∀ {m : Machine σ β} {queue : List UInt8}, PipeHolds (m.vfs.rings a) queue →
      ∃ rb, ((n : ℤ), m) = (if n = 0 ∧ queue = [] then VfsError.err.code
          else (n + min (n - n) queue.length : ℕ),
          (m.setRing a rb).setUser (m.user.write (buf + n) (queue.take (n - n)))) ∧
        PipeHolds rb (queue.drop (n - n)) := by
    intro m queue hpipe
    refine ⟨m.vfs.rings a, ?_, ?_⟩
    · rw [if_neg (fun h => absurd h.1 (by omega)), Nat.sub_self, take_zero,
        UserMem.write_nil, zero_min, add_zero, setRing_self]
      rfl
    · rw [Nat.sub_self, drop_zero]
      exact hpipe
  induction fuel generalizing total m queue with
  | zero =>
    obtain rfl : total = n := by omega
    rw [readLoop]
    exact hdone hpipe
  | succ fuel ih =>
    rw [readLoop]
    rcases lt_or_eq_of_le htotal with hlt | rfl
    · rw [if_pos hlt]
      generalize hchunk : chunkOf kbufSize (n - total) = chunk
      have hchunk' : chunk ≤ n - total ∧ 0 < chunk := by
        rw [← hchunk, chunkOf, kbufSize]
        split_ifs <;> omega
      obtain ⟨rb, hread, hdrop⟩ := vfsRead_pipe hfd hpipe chunk
      dsimp only
      rw [hread]
      dsimp only
      cases queue with
      | nil =>
        have hcode : (if ([] : List UInt8).length > 0 then 0 else VfsError.err.code) =
            VfsError.err.code := rfl
        rw [take_nil, hcode, if_pos (by decide)]
        refine ⟨rb, ?_, ?_⟩
        · rw [take_nil, UserMem.write_nil, length_nil, min_zero, add_zero]
          simp only [and_true]
          rfl
        · rw [drop_nil] at hdrop ⊢
          exact hdrop
      | cons b queue =>
        generalize hgot : (b :: queue).take chunk = got
        have hgotlen : got.length = min chunk (b :: queue).length := by rw [← hgot, length_take]
        have hpos : 0 < got.length := by
          rw [hgotlen, length_cons]
          omega
        rw [if_pos hpos, if_neg (lt_irrefl _), if_neg (by omega)]
        have hwgot : ∀ i < got.length, m.user.writable (buf + total + i) := by
          intro i hi
          rw [add_assoc]
          exact hw (total + i) (by omega)
        rw [UserMem.copyToUser_of_writable hwgot]
        have hpipe' : PipeHolds (((m.setRing a rb).setUser (m.user.write (buf + total) got)).vfs.rings a)
            ((b :: queue).drop chunk) := by
          rw [← rings_setRing m a rb] at hdrop
          exact hdrop
        have htotal' : total + got.length ≤ n := by omega
        obtain ⟨rb', hloop, hdrop'⟩ := ih (m := (m.setRing a rb).setUser
          (m.user.write (buf + total) got)) hfd hpipe' (total + got.length) hw htotal' (by omega)
        -- either the first chunk emptied the pipe, or it was a whole chunk
        have hsplit : (b :: queue).take (n - total) =
              got ++ ((b :: queue).drop chunk).take (n - (total + got.length)) ∧
            (b :: queue).drop (n - total) =
              ((b :: queue).drop chunk).drop (n - (total + got.length)) := by
          rcases le_total (b :: queue).length chunk with hall | hpart
          · rw [← hgot, take_of_length_le hall, drop_of_length_le hall, take_nil, append_nil, drop_nil,
              take_of_length_le (by omega), drop_of_length_le (by omega)]
            exact ⟨rfl, rfl⟩
          · rw [show n - total = chunk + (n - (total + got.length)) by omega, take_add, ← drop_drop, ← hgot]
            exact ⟨rfl, rfl⟩
        refine ⟨rb', ?_, ?_⟩
        · have hlen := congrArg List.length hsplit.1
          rw [length_append, length_take, length_take] at hlen
          change readLoop q (fd % 2^32) buf n fuel (total + got.length)
            ((m.setRing a rb).setUser (m.user.write (buf + total) got)) = _
          rw [hloop, if_neg (by omega), if_neg (fun h => cons_ne_nil b queue h.2), hlen,
            hsplit.1, ← UserMem.write_write, ← add_assoc, ← add_assoc]
          congr 1
          unfold setUser setRing
          rw [update_idem]
        · rw [hsplit.2]
          exact hdrop'
    · rw [if_neg (lt_irrefl _)]
      exact hdone hpipe

/-- `sys_read` of a pipe into a buffer that can be written takes bytes from the front. -/
theorem sysRead_pipe (hvalid : Arch.validateUserPtr buf n) (hw : ∀ i < n, m.user.writable (buf + i))
    (hn : 0 < n) :
    ∃ rb, m.sysRead q fd buf n =
        (some (if queue = [] then VfsError.err.code else (min n queue.length : ℕ)),
          (m.setRing a rb).setUser (m.user.write buf (queue.take n))) ∧
      PipeHolds rb (queue.drop n) := by
  obtain ⟨rb, hloop, hdrop⟩ := readLoop_pipe hfd hpipe n 0 hw (by omega) hn (by omega)
  refine ⟨rb, ?_, hdrop⟩
  have hstd : 2 < fd % 2^32 := hfd.1
  unfold sysRead
  rw [if_neg (by omega), hvalid, if_neg (by decide), if_neg (by rintro ⟨rfl, -⟩; omega), hloop]
  simp only [true_and, Nat.sub_zero, Nat.zero_add, Nat.add_zero]

variable (hr : ∀ i < n, m.user.readable (buf + i))

include hr

/-- One round of the loop of `sys_write` over a pipe: it takes the chunk for written if any of it was
queued. -/
theorem writeLoop_pipe (fuel : ℕ) {total : ℕ} (htotal : total < n) :
    ∃ rb, writeLoop portSend q (fd % 2^32) buf n (fuel + 1) total m =
        (if queue.length = pipeSize then
          (if total = 0 then VfsError.err.code else (total : ℤ), m.setRing a rb)
        else writeLoop portSend q (fd % 2^32) buf n fuel (total + min pipeSize (n - total))
          (m.setRing a rb)) ∧
      PipeHolds rb (queue ++ userBytes m.user (buf + total)
        (min (min pipeSize (n - total)) (pipeSize - queue.length))) ∧
      rb.write_idx % 2^64 = ((m.vfs.rings a).write_idx +
        min (min pipeSize (n - total)) (pipeSize - queue.length)) % 2^64 := by
  have hlen : queue.length ≤ 4096 := hpipe.length_le
  have hchunk : chunkOf kbufSize (n - total) = min pipeSize (n - total) := by
    rw [chunkOf, kbufSize, pipeSize]
    split_ifs <;> omega
  have hcopy : m.user.copyFromUser (buf + total) (min pipeSize (n - total)) =
      some (userBytes m.user (buf + total) (min pipeSize (n - total))) := by
    apply UserMem.copyFromUser_of_readable
    intro i hi
    rw [add_assoc]
    exact hr (total + i) (by omega)
  generalize hdata : userBytes m.user (buf + total) (min pipeSize (n - total)) = data
  have hdatalen : data.length = min pipeSize (n - total) := by rw [← hdata, length_userBytes]
  have hpos : 0 < min pipeSize (n - total) := by
    rw [pipeSize]
    omega
  obtain ⟨rb, hwrite, happend, hidx⟩ := vfsWrite_pipe portSend hfd hpipe
    (ne_nil_of_length_pos (l := data) (by omega)) (by rw [hdatalen]; exact min_le_left ..)
  refine ⟨rb, ?_, ?_, ?_⟩
  · rw [writeLoop, if_pos htotal, hchunk]
    dsimp only
    rw [hcopy, hdata]
    dsimp only
    rw [hwrite, hdatalen]
    dsimp only
    by_cases hfull : queue.length = pipeSize
    · rw [if_pos hfull, hfull, Nat.sub_self, Nat.min_zero, if_neg (lt_irrefl 0), if_pos (by decide)]
      rfl
    have hroom : 0 < min (min pipeSize (n - total)) (pipeSize - queue.length) := by
      simp only [pipeSize] at hfull ⊢
      omega
    rw [if_neg hfull, if_pos hroom, if_neg (lt_irrefl 0)]
    rfl
  · rw [← hdata] at happend
    rcases le_total (min pipeSize (n - total)) (pipeSize - queue.length) with hle | hle
    · rw [take_of_length_le (by rw [length_userBytes]; exact hle)] at happend
      rw [min_eq_left hle]
      exact happend
    · rw [take_userBytes _ hle] at happend
      rw [min_eq_right hle]
      exact happend
  · rw [hidx, hdatalen]

/-- A write of at most a chunk that does not fit into a pipe that is not full is taken for written,
but a part of it is not. -/
theorem sysWrite_partial (hvalid : Arch.validateUserPtr buf n) (hn : n ≤ pipeSize)
    (hlt : queue.length < pipeSize) (hover : pipeSize < n + queue.length) :
    ∃ rb, m.sysWrite portSend q fd buf n = ((n : ℤ), m.setRing a rb) ∧
      PipeHolds rb (queue ++ userBytes m.user buf (pipeSize - queue.length)) ∧
      rb.write_idx % 2^64 = ((m.vfs.rings a).write_idx + (pipeSize - queue.length)) % 2^64 := by
  obtain ⟨k, rfl⟩ : ∃ k, n = k + 1 := ⟨n - 1, by omega⟩
  obtain ⟨rb, hround, happend, hidx⟩ := writeLoop_pipe portSend hfd hpipe hr k k.succ_pos
  have hqueued : min (min pipeSize (k + 1 - 0)) (pipeSize - queue.length) = pipeSize - queue.length := by
    omega
  rw [hqueued] at happend hidx
  refine ⟨rb, ?_, happend, hidx⟩
  rw [sysWrite_eq_writeLoop portSend hfd hvalid k.succ_pos, hround, if_neg hlt.ne, zero_add,
    Nat.sub_zero, Nat.min_eq_right hn]
  cases k with
  | zero => rw [writeLoop]
  | succ k => rw [writeLoop, if_neg (lt_irrefl _)]

/-- `sys_write` to a pipe from a buffer that can be read appends what there is room for, and returns
how much that was. -/
theorem sysWrite_pipe (hvalid : Arch.validateUserPtr buf n) (hn : 0 < n) (hfits : Fits queue.length n) :
    ∃ rb, m.sysWrite portSend q fd buf n =
        (if queue.length = pipeSize then VfsError.err.code
          else (min n (pipeSize - queue.length) : ℕ), m.setRing a rb) ∧
      PipeHolds rb (queue ++ userBytes m.user buf (min n (pipeSize - queue.length))) ∧
      rb.write_idx % 2^64 =
        ((m.vfs.rings a).write_idx + min n (pipeSize - queue.length)) % 2^64 := by
  have hloop := sysWrite_eq_writeLoop portSend hfd hvalid hn
  obtain ⟨k, rfl⟩ : ∃ k, n = k + 1 := ⟨n - 1, by omega⟩
  obtain ⟨rb, hfirst, happend, hidx⟩ := writeLoop_pipe portSend hfd hpipe hr k hn
  have hqueued : min (min pipeSize (k + 1 - 0)) (pipeSize - queue.length) =
      min (k + 1) (pipeSize - queue.length) := by
    omega
  rw [hqueued] at happend hidx
  rw [hloop, hfirst, Nat.zero_add, Nat.sub_zero]
  by_cases hfull : queue.length = pipeSize
  · refine ⟨rb, ?_, happend, hidx⟩
    rw [if_pos hfull, if_pos hfull, if_pos rfl]
  rw [if_neg hfull, if_neg hfull]
  rcases lt_or_ge pipeSize (k + 1) with hmore | hall
  · -- more than a chunk: the pipe was empty, and is full when the second chunk comes
    have hempty : queue.length = 0 := by
      rcases hfits with hsum | hempty | hfull'
      · omega
      · exact hempty
      · exact absurd hfull' hfull
    have hroom : min (k + 1) (pipeSize - queue.length) = pipeSize := by omega
    obtain ⟨j, rfl⟩ : ∃ j, k = j + 1 := ⟨k - 1, by simp only [pipeSize] at hmore; omega⟩
    rw [hroom] at happend hidx ⊢
    have hpipe' : PipeHolds ((m.setRing a rb).vfs.rings a) (queue ++ userBytes m.user buf pipeSize) := by
      rw [rings_setRing]
      exact happend
    have hlen' : (queue ++ userBytes m.user buf pipeSize).length = pipeSize := by
      rw [length_append, length_userBytes, hempty, zero_add]
    obtain ⟨rb', hsecond, happend', hidx'⟩ :=
      writeLoop_pipe portSend (m := m.setRing a rb) hfd hpipe' hr j hmore
    rw [hlen', Nat.sub_self, Nat.min_zero, Nat.add_zero, rings_setRing] at hidx'
    have hnone : userBytes (m.setRing a rb).user (buf + pipeSize) 0 = [] := rfl
    rw [hlen', Nat.sub_self, Nat.min_zero, hnone, append_nil] at happend'
    refine ⟨rb', ?_, happend', hidx'.trans hidx⟩
    rw [min_eq_left hmore.le, hsecond, if_pos hlen', if_neg (by decide), setRing_setRing]
  · -- one chunk is everything, and fits
    have hroom : min (k + 1) (pipeSize - queue.length) = k + 1 := by
      rcases hfits with hsum | hempty | hfull'
      · omega
      · omega
      · exact absurd hfull' hfull
    refine ⟨rb, ?_, happend, hidx⟩
    rw [hroom, min_eq_right hall]
    cases k with
    | zero => rw [writeLoop]
    | succ k => rw [writeLoop, if_neg (lt_irrefl _)]

end

/-! ## Runs -/

/-- A machine with a pipe, and what went through: the parts of the writes that were queued, and what
the reads returned. -/
structure PipeRun (σ β : Type) where
  machine : Machine σ β
  accepted : List UInt8
  returned : List UInt8

namespace PipeRun

/-- The bytes that a write has queued, by the index of the ring. -/
def queued (a : ℕ) (m m' : Machine σ β) : ℕ :=
  sub64 (m'.vfs.rings a).write_idx (m.vfs.rings a).write_idx

/-- A write to the pipe. -/
def write (portSend : ℕ → List UInt8 → σ → ℤ × σ) (a : ℕ) (q : Pid) (fd buf n : ℕ) (s : PipeRun σ β) :
    PipeRun σ β :=
  let m := (s.machine.sysWrite portSend q fd buf n).2
  { s with machine := m
           accepted := s.accepted ++ userBytes s.machine.user buf (queued a s.machine m) }

/-- A read from the pipe. The bytes returned are those in the buffer of the caller. -/
def read (q : Pid) (fd buf n : ℕ) (s : PipeRun σ β) : PipeRun σ β :=
  let (r, m) := s.machine.sysRead q fd buf n
  { s with machine := m, returned := s.returned ++ userBytes m.user buf (r.getD 0).toNat }

/-- The caller's bytes can be read, and they fit or the pipe is empty or full. -/
def WriteOk (a buf n : ℕ) (m : Machine σ β) : Prop :=
  Arch.validateUserPtr buf n → (∀ i < n, m.user.readable (buf + i)) ∧
    Fits (sub64 (m.vfs.rings a).write_idx (m.vfs.rings a).read_idx) n

/-- The caller's bytes can be written. -/
def ReadOk (buf n : ℕ) (m : Machine σ β) : Prop :=
  Arch.validateUserPtr buf n → ∀ i < n, m.user.writable (buf + i)

/-- A step: a call on an end of the pipe, or anything that does not touch the ring. -/
inductive Step (portSend : ℕ → List UInt8 → σ → ℤ × σ) (a : ℕ) : PipeRun σ β → PipeRun σ β → Prop
  | write {s : PipeRun σ β} {q : Pid} {fd buf n : ℕ} (hfd : s.machine.vfs.PipeFd a q fd)
      (hok : WriteOk a buf n s.machine) : Step portSend a s (s.write portSend a q fd buf n)
  | read {s : PipeRun σ β} {q : Pid} {fd buf n : ℕ} (hfd : s.machine.vfs.PipeFd a q fd)
      (hok : ReadOk buf n s.machine) : Step portSend a s (s.read q fd buf n)
  | other {s : PipeRun σ β} {m : Machine σ β} (hring : m.vfs.rings a = s.machine.vfs.rings a) :
      Step portSend a s { s with machine := m }

/-- The header of an empty ring of the right shape is in the memory that `kmalloc` returns. -/
def Lucky (contents : Ringbuf) : Prop :=
  contents.slot_size = 1 ∧ contents.slot_count = pipeSize ∧
    contents.read_idx = contents.write_idx ∧ contents.write_idx < 2^64

/-- `vfs_pipe` has returned two descriptors. -/
def Start (a : ℕ) (p : Pid) (rfd wfd : Fd) (s : PipeRun σ β) : Prop :=
  (∃ (v : State σ β) (contents : Ringbuf), Lucky contents ∧
    v.vfsPipe (some p) (some (a, contents)) = (.ok (rfd, wfd), s.machine.vfs)) ∧
  s.accepted = [] ∧ s.returned = []

/-- What holds in every state of a run. -/
def Inv (a : ℕ) (s : PipeRun σ β) : Prop :=
  ∃ queue, PipeHolds (s.machine.vfs.rings a) queue ∧ s.accepted = s.returned ++ queue

end PipeRun

/-- A ring with the right header holds nothing. -/
theorem pipeHolds_of_lucky (h : PipeRun.Lucky rb) : PipeHolds rb [] := by
  obtain ⟨hsize, hcount, hread, hlt⟩ := h
  -- as if as many empty items as the indices say had been pushed and popped
  generalize hold : List.replicate rb.write_idx ([] : List UInt8) = old
  have hlen : old.length = rb.write_idx := by rw [← hold, length_replicate]
  have hnil : ∀ item ∈ old, item = [] := by
    rw [← hold]
    exact fun item hitem => (mem_replicate.mp hitem).2
  have hdrop : [] = old.drop old.length := (drop_eq_nil_of_le le_rfl).symm
  refine ⟨⟨old, old, ?_, hdrop⟩, hsize, hcount⟩
  constructor
  case ok =>
    have hpos : 0 < rb.slot_size := by omega
    exact ⟨⟨12, by decide, hcount⟩, hpos⟩
  case le => exact le_rfl
  case fits => exact le_add_right _ _
  case write => rw [hlen, mod_eq_of_lt hlt]
  case read => rw [hlen, mod_eq_of_lt hlt, hread]
  case sizes =>
    intro item hitem
    rw [hnil item hitem]
    exact zero_le _
  case data =>
    intro k item hk hitem
    exact absurd (List.getElem?_eq_some_iff.mp hitem).1 hk.not_gt
  case agree =>
    intro k x y hx hy j u v hu
    rw [hnil x (mem_of_getElem? hx)] at hu
    cases hu
  case producer => trivial
  case consumer => trivial

theorem pipeFd_of_table {s : State σ β} {p : Pid} {fd : Fd} {i : NodeId} (h3 : 3 ≤ fd.val)
    (htable : s.fd_table p fd = some i) (hring : (s.g_nodes i).ring = some a) : s.PipeFd a p fd := by
  have hlt : fd.val < 256 := fd.isLt
  have hmod : fd.val % 2^32 = fd.val := by omega
  refine ⟨by omega, i, ?_, hring⟩
  rw [hmod]
  exact (dif_pos fd.isLt).trans htable

/-- The descriptors that `vfs_pipe` returns are the ends of the pipe. -/
theorem vfsPipe_ok {v t : State σ β} {p : Pid} {contents : Ringbuf} {rfd wfd : Fd}
    (h : v.vfsPipe (some p) (some (a, contents)) = (.ok (rfd, wfd), t)) :
    t.rings a = contents ∧ t.PipeFd a p rfd ∧ t.PipeFd a p wfd := by
  unfold State.vfsPipe at h
  dsimp only at h
  split at h
  next => cases h
  next rid u halloc =>
  split at h
  next => cases h
  next wid w halloc' =>
  split at h
  next rfd' wfd' fds hfds =>
    obtain ⟨hfd, rfl⟩ := Prod.mk.inj h
    obtain ⟨rfl, rfl⟩ : rfd' = rfd ∧ wfd' = wfd := by simpa using hfd
    have hrings : w.rings a = contents := by
      rw [(State.allocNodeId_some halloc').2, (State.allocNodeId_some halloc).2]
      exact update_self ..
    -- both nodes have the ring, even if they are the same node
    have hnode : ∀ i, i = rid ∨ i = wid → ((((w.setNode rid (State.pipeEnd rid 1 a)).setNode wid
        (State.pipeEnd wid 2 a))).g_nodes i).ring = some a := by
      intro i hi
      unfold State.setNode
      dsimp only
      rw [update_apply, update_apply]
      split_ifs with hw hr
      · rfl
      · rfl
      · exact absurd hi (not_or_intro hr hw)
    have h3 : ∀ fd ∈ w.freeFds p, 3 ≤ fd.val :=
      fun fd hfd => (decide_eq_true_iff.mp (mem_filter.mp hfd).2).1
    have hfree : w.freeFds p = rfd' :: wfd' :: fds := hfds
    have hne := (State.freeFds_two hfree).2.2
    rw [hfree] at h3
    refine ⟨hrings, pipeFd_of_table (h3 rfd' (by simp)) ?_ (hnode rid (.inl rfl)),
      pipeFd_of_table (h3 wfd' (by simp)) ?_ (hnode wid (.inr rfl))⟩
    · unfold State.setFd
      dsimp only
      rw [update_self, update_of_ne hne.symm, update_self, update_self]
    · unfold State.setFd
      dsimp only
      rw [update_self, update_self]
  next => cases h

namespace PipeRun

variable {s t : PipeRun σ β}

/-- A write without bytes, or from a place that is no place for a buffer, does nothing. -/
theorem sysWrite_nothing (h : ¬ (0 < n ∧ Arch.validateUserPtr buf n)) :
    m.sysWrite portSend q fd buf n = (if n = 0 then 0 else esysFault, m) := by
  unfold sysWrite
  by_cases hn : n = 0
  · rw [if_pos hn, if_pos hn]
  · have hvalid : Arch.validateUserPtr buf n = false :=
      Bool.eq_false_iff.mpr fun hvalid => h ⟨by omega, hvalid⟩
    rw [if_neg hn, if_neg hn, hvalid]
    rfl

theorem sysRead_nothing (h : ¬ (0 < n ∧ Arch.validateUserPtr buf n)) :
    m.sysRead q fd buf n = (some (if n = 0 then 0 else esysFault), m) := by
  unfold sysRead
  by_cases hn : n = 0
  · rw [if_pos hn, if_pos hn]
  · have hvalid : Arch.validateUserPtr buf n = false :=
      Bool.eq_false_iff.mpr fun hvalid => h ⟨by omega, hvalid⟩
    rw [if_neg hn, if_neg hn, hvalid]
    rfl

section

variable (portSend) (hpipe : PipeHolds (m.vfs.rings a) queue) (hfd : m.vfs.PipeFd a q fd)

include hpipe hfd

/-- How many bytes a write queues: what there is room for, if the call gets that far. -/
theorem write_spec (hok : WriteOk a buf n m) :
    ∃ r m', m.sysWrite portSend q fd buf n = (r, m') ∧
      PipeHolds (m'.vfs.rings a) (queue ++ userBytes m.user buf (queued a m m')) ∧
      queued a m m' ≤ pipeSize - queue.length ∧
      (r = queued a m m' ∨ r < 0 ∧ queued a m m' = 0) ∧
      (0 < n → Arch.validateUserPtr buf n → queued a m m' = min n (pipeSize - queue.length)) := by
  by_cases hcall : 0 < n ∧ Arch.validateUserPtr buf n
  · obtain ⟨hr, hfits⟩ := hok hcall.2
    rw [hpipe.used] at hfits
    obtain ⟨rb, hwrite, happend, hidx⟩ := sysWrite_pipe portSend hfd hpipe hr hcall.2 hcall.1 hfits
    have hqueued : queued a m (m.setRing a rb) = min n (pipeSize - queue.length) := by
      have hlt := hpipe.write_idx_lt
      have hle : min n (pipeSize - queue.length) ≤ 4096 := (min_le_right ..).trans (sub_le ..)
      rw [queued, rings_setRing, sub64]
      omega
    rw [← hqueued] at happend
    refine ⟨_, _, hwrite, ?_, ?_, ?_, fun _ _ => hqueued⟩
    · rw [rings_setRing]
      exact happend
    · rw [hqueued]
      exact min_le_right ..
    · rw [hqueued]
      split_ifs with hfull
      · rw [hfull, Nat.sub_self, Nat.min_zero]
        exact .inr ⟨by decide, rfl⟩
      · exact .inl rfl
  · have hnone : queued a m m = 0 := by
      rw [queued, sub64, Nat.add_sub_cancel_left, Nat.mod_self]
    refine ⟨_, _, sysWrite_nothing hcall, ?_, ?_, ?_, fun hn hvalid => absurd ⟨hn, hvalid⟩ hcall⟩
    · rw [hnone]
      have hnil : userBytes m.user buf 0 = [] := rfl
      rw [hnil, append_nil]
      exact hpipe
    · rw [hnone]
      exact zero_le _
    · rw [hnone]
      split_ifs with hn
      · exact .inl rfl
      · exact .inr ⟨by decide, rfl⟩

/-- What a read returns: what there is, if the call gets that far. -/
theorem read_spec (hok : ReadOk buf n m) :
    ∃ r m', m.sysRead q fd buf n = (some r, m') ∧ PipeHolds (m'.vfs.rings a) (queue.drop r.toNat) ∧
      userBytes m'.user buf r.toNat = queue.take r.toNat ∧
      (0 < n → Arch.validateUserPtr buf n → queue ≠ [] → r = (min n queue.length : ℕ)) := by
  by_cases hcall : 0 < n ∧ Arch.validateUserPtr buf n
  · obtain ⟨rb, hread, hdrop⟩ := sysRead_pipe hfd hpipe hcall.2 (hok hcall.2) hcall.1
    refine ⟨_, _, hread, ?_, ?_, fun _ _ hne => if_neg hne⟩
    · have hring : ((m.setRing a rb).setUser (m.user.write buf (queue.take n))).vfs.rings a = rb :=
        rings_setRing m a rb
      rw [hring]
      split_ifs with hnil
      · rw [hnil, drop_nil] at hdrop ⊢
        exact hdrop
      rcases le_total n queue.length with hle | hle
      · rw [min_eq_left hle]
        exact hdrop
      · rw [min_eq_right hle, Int.toNat_natCast, drop_length]
        rw [drop_of_length_le hle] at hdrop
        exact hdrop
    · split_ifs with hnil
      · rw [hnil, take_nil]
        rfl
      have hwritten := userBytes_write m.user buf (queue.take n)
      rw [length_take] at hwritten
      rw [Int.toNat_natCast]
      refine hwritten.trans ?_
      rcases le_total n queue.length with hle | hle
      · rw [min_eq_left hle]
      · rw [min_eq_right hle, take_of_length_le hle, take_length]
  · have hzero : (if n = 0 then 0 else esysFault).toNat = 0 := by
      split_ifs <;> rfl
    refine ⟨_, _, sysRead_nothing hcall, ?_, ?_, fun hn hvalid => absurd ⟨hn, hvalid⟩ hcall⟩
    · rw [hzero, drop_zero]
      exact hpipe
    · rw [hzero]
      rfl

end

/-- A step keeps the invariant. -/
theorem Inv.step (h : s.Inv a) (hstep : Step portSend a s t) : t.Inv a := by
  obtain ⟨queue, hpipe, haccepted⟩ := h
  cases hstep with
  | write hfd hok =>
    obtain ⟨r, m', hwrite, hpipe', -⟩ := write_spec portSend hpipe hfd hok
    unfold PipeRun.write
    rw [hwrite]
    refine ⟨_, hpipe', ?_⟩
    dsimp only
    rw [haccepted, append_assoc]
  | read hfd hok =>
    obtain ⟨r, m', hread, hpipe', hbytes, -⟩ := read_spec hpipe hfd hok
    unfold PipeRun.read
    rw [hread]
    refine ⟨_, hpipe', ?_⟩
    dsimp only
    rw [Option.getD_some, hbytes, haccepted, append_assoc, take_append_drop]
  | other hring =>
    refine ⟨queue, ?_, haccepted⟩
    rw [hring]
    exact hpipe

theorem inv_of_start {p : Pid} {rfd wfd : Fd} (h : s.Start a p rfd wfd) : s.Inv a := by
  obtain ⟨⟨v, contents, hlucky, hpipe⟩, haccepted, hreturned⟩ := h
  refine ⟨[], ?_, ?_⟩
  · rw [(vfsPipe_ok hpipe).1]
    exact pipeHolds_of_lucky hlucky
  · rw [haccepted, hreturned]
    rfl

/-- In a run of reads and writes on the ends of a pipe, the bytes returned are a prefix of those queued,
and the rest, at most 4096 bytes, is in the pipe. A write returns how many bytes it queued, which is what
it was given or what there is room for. A read of a pipe with bytes returns them, or as many as it asked
for. -/
theorem fifo_of_run {p : Pid} {rfd wfd : Fd} (hstart : s.Start a p rfd wfd)
    (hrun : Relation.ReflTransGen (Step portSend a) s t) :
    (s.machine.vfs.PipeFd a p rfd ∧ s.machine.vfs.PipeFd a p wfd) ∧
    ∃ queue, t.accepted = t.returned ++ queue ∧ queue.length ≤ pipeSize ∧
      (∀ (q : Pid) (fd buf n : ℕ), t.machine.vfs.PipeFd a q fd → WriteOk a buf n t.machine →
        ∃ r m', t.machine.sysWrite portSend q fd buf n = (r, m') ∧
          queued a t.machine m' ≤ pipeSize - queue.length ∧
          (r = queued a t.machine m' ∨ r < 0 ∧ queued a t.machine m' = 0) ∧
          (0 < n → Arch.validateUserPtr buf n →
            queued a t.machine m' = min n (pipeSize - queue.length))) ∧
      ∀ (q : Pid) (fd buf n : ℕ), t.machine.vfs.PipeFd a q fd → ReadOk buf n t.machine →
        ∃ r m', t.machine.sysRead q fd buf n = (some r, m') ∧
          userBytes m'.user buf r.toNat = queue.take r.toNat ∧
          (0 < n → Arch.validateUserPtr buf n → queue ≠ [] → r = (min n queue.length : ℕ)) := by
  obtain ⟨queue, hpipe, haccepted⟩ := Runs.invariant (P := fun u => u.Inv a) hrun
    (inv_of_start hstart) (fun _ _ hu hstep => hu.step hstep)
  obtain ⟨⟨v, contents, hlucky, hmake⟩, -⟩ := hstart
  refine ⟨(vfsPipe_ok hmake).2, queue, haccepted, hpipe.length_le, ?_, ?_⟩
  · intro q fd buf n hfd hok
    obtain ⟨r, m', hwrite, -, hle, hr, hall⟩ := write_spec portSend hpipe hfd hok
    exact ⟨r, m', hwrite, hle, hr, hall⟩
  · intro q fd buf n hfd hok
    obtain ⟨r, m', hread, -, hbytes, hall⟩ := read_spec hpipe hfd hok
    exact ⟨r, m', hread, hbytes, hall⟩

/-! ## A pipe in memory that is right, and one in zeros -/

/-- A process with all the memory there is. -/
def withMemory (v : State Unit Unit) : Machine Unit Unit where
  vfs := v
  user := ⟨fun x => UInt8.ofNat x, fun _ => true, fun _ => true⟩
  console := ⟨[], [], []⟩

theorem vfs_withMemory (v : State Unit Unit) : (withMemory v).vfs = v := rfl

/-- The process makes a pipe, and `kmalloc` finds this in the memory. -/
def madeIn (contents : Ringbuf) : Machine Unit Unit :=
  withMemory (State.oneProcess.vfsPipe (some 1) (some (0, contents))).2

/-- The header of an empty pipe. -/
def emptyPipe : Ringbuf := ⟨1, pipeSize, 0, 0, fun _ => 0⟩

/-- No port takes messages. -/
def noPort : ℕ → List UInt8 → Unit → ℤ × Unit := fun _ _ _ => (-1, ())

theorem start_emptyPipe : Start 0 1 3 4 ⟨madeIn emptyPipe, [], []⟩ := by
  have hmade : (State.oneProcess.vfsPipe (some 1) (some (0, emptyPipe))).1 = .ok (3, 4) := by
    decide +kernel
  refine ⟨⟨State.oneProcess, emptyPipe, ⟨rfl, rfl, rfl, by decide⟩, ?_⟩, rfl, rfl⟩
  rw [madeIn, vfs_withMemory, ← hmade]

/-- Anything may be written to an empty pipe. -/
theorem writeOk_emptyPipe (buf n : ℕ) : WriteOk 0 buf n (madeIn emptyPipe) :=
  fun _ => ⟨fun _ _ => rfl, .inr (.inl (by decide +kernel))⟩

/-- Of 5000 bytes written to an empty pipe, 4096 are queued. -/
theorem fifo_of_run_full :
    ∃ r m', (madeIn emptyPipe).sysWrite noPort 1 4 0x1000 5000 = (r, m') ∧
      queued 0 (madeIn emptyPipe) m' = pipeSize := by
  have hrun : Relation.ReflTransGen (Step noPort 0) ⟨madeIn emptyPipe, [], []⟩ _ := .refl
  obtain ⟨⟨-, hwfd⟩, queue, hqueue, -, hwrite, -⟩ := fifo_of_run start_emptyPipe hrun
  obtain rfl : queue = [] := by simpa using hqueue.symm
  obtain ⟨r, m', heq, -, hr, hall⟩ := hwrite 1 4 0x1000 5000 hwfd (writeOk_emptyPipe _ _)
  exact ⟨r, m', heq, hall (by decide) (by decide)⟩

/-- If the pipe has room for one byte, then a write of two returns 2. -/
theorem sysWrite_two {m : Machine Unit Unit} (hfd : m.vfs.PipeFd a q fd)
    (hpipe : PipeHolds (m.vfs.rings a) queue) (hlen : queue.length = 4095)
    (hr : ∀ x, m.user.readable x) :
    ∃ m', m.sysWrite noPort q fd 0x1000 2 = (2, m') ∧ queued a m m' = 1 := by
  have hvalid : Arch.validateUserPtr 0x1000 2 := by decide
  obtain ⟨rb, hwrite, happend, hidx⟩ := sysWrite_partial noPort hfd hpipe (fun i _ => hr _) hvalid
    (by decide) (by rw [hlen]; decide) (by rw [hlen]; decide)
  refine ⟨_, hwrite, ?_⟩
  have hlt := hpipe.write_idx_lt
  rw [queued, rings_setRing, sub64]
  simp only [pipeSize] at hidx
  omega

/-- If 4095 bytes are written and then 2, then the second write returns 2, but it has queued 1. In
memory of zeros not even the first byte can be written. -/
theorem pipe_lossy :
    (∃ m m', ((madeIn emptyPipe).sysWrite noPort 1 4 0x1000 4095) = (4095, m) ∧
      m.sysWrite noPort 1 4 0x1000 2 = (2, m') ∧ queued 0 m m' = 1) ∧
    ((madeIn ⟨0, 0, 0, 0, fun _ => 0⟩).sysWrite noPort 1 4 0x1000 1).1 = -1 := by
  refine ⟨?_, by decide +kernel⟩
  obtain ⟨⟨v, contents, hlucky, hmake⟩, -⟩ := start_emptyPipe
  have hwfd := (vfsPipe_ok hmake).2.2
  have hpipe := pipeHolds_of_lucky hlucky
  rw [← (vfsPipe_ok hmake).1] at hpipe
  -- the first write fits, and leaves one free slot
  have hvalid : Arch.validateUserPtr 0x1000 4095 := by decide
  obtain ⟨rb, hfirst, happend, -⟩ := sysWrite_pipe noPort hwfd hpipe (fun _ _ => rfl) hvalid
    (by decide) (.inr (.inl rfl))
  have hpipe' := happend
  obtain ⟨m', hsecond, hqueued⟩ := sysWrite_two (pipeFd_setRing hwfd rb) hpipe'
    (by rw [nil_append, length_userBytes]; rfl) (fun _ => rfl)
  exact ⟨_, m', hfirst, hsecond, hqueued⟩

end PipeRun

end FreeAsd.Vfs
