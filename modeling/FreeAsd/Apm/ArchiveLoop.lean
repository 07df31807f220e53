import FreeAsd.Apm.Archive

/-!
# The loop over the files of an archive

What the loop of `apkg_extract` does with any bytes (`extractLoop_spec`), and with files as `build_apkg` writes
them (`extractLoop_files`).
-/

namespace FreeAsd.Apm

open Text List

variable {buf : ℕ → UInt8} {n rounds pos : ℕ} {e : Extract}

/-! ## The buffer -/

/-- The buffer begins with some bytes. -/
def Holds (buf : ℕ → UInt8) (bs : List UInt8) : Prop := ∀ i < bs.length, buf i = bs.getD i 0

theorem slice_eq {bs front mid back : List UInt8} {len : ℕ} (h : Holds buf bs)
    (hbs : bs = front ++ (mid ++ back)) (hpos : pos = front.length) (hlen : len = mid.length) :
    slice buf pos len = mid := by
  subst hpos hlen
  apply ext_getElem
  · rw [slice, length_map, length_range]
  intro i hi hi'
  have hlt : front.length + i < bs.length := by
    rw [hbs, length_append, length_append]
    omega
  subst hbs
  simp only [slice, getElem_map, getElem_range]
  rw [h _ hlt, getD_append_right _ _ _ _ (Nat.le_add_right _ _), Nat.add_sub_cancel_left,
    getD_append _ _ _ _ hi', getD_eq_getElem _ _ hi']

theorem length_slice (buf : ℕ → UInt8) (pos len : ℕ) : (slice buf pos len).length = len := by
  rw [slice, length_map, length_range]

/-- Bytes one after the other are slices one after the other. -/
theorem slice_append_iff {xs ys : List UInt8} :
    slice buf pos (xs ++ ys).length = xs ++ ys ↔
      slice buf pos xs.length = xs ∧ slice buf (pos + xs.length) ys.length = ys := by
  have hsplit : slice buf pos (xs ++ ys).length =
      slice buf pos xs.length ++ slice buf (pos + xs.length) ys.length := by
    simp [slice, range_add, Function.comp_def, add_assoc]
  rw [hsplit, append_eq_append_iff_of_size_eq_left (length_slice ..)]

/-- What `apkg_extract` makes of an archive, with a buffer that has been used before. -/
def extractBytes (bytes : List UInt8) (old : ℕ → UInt8) (p : PkgInfo) (outcomes : List Outcome) :
    ℤ × Extract :=
  apkgExtract (readFile bytes old).2 (readFile bytes old).1 ⟨p, [], outcomes, []⟩

/-- The bytes of an archive that are loaded. -/
def loaded (bytes : List UInt8) : List UInt8 := bytes.take (apkgBufSize - 1)

theorem readFile_fst (bytes : List UInt8) (old : ℕ → UInt8) :
    (readFile bytes old).1 = (loaded bytes).length := by
  rw [loaded, length_take, min_comm]
  rfl

theorem holds_readFile (bytes : List UInt8) (old : ℕ → UInt8) :
    Holds (readFile bytes old).2 (loaded bytes) := by
  intro i hi
  rw [← readFile_fst bytes old] at hi
  have hi' : i < apkgBufSize - 1 := lt_of_lt_of_le hi (Nat.min_le_right _ _)
  have hbytes : i < bytes.length := lt_of_lt_of_le hi (min_le_left _ _)
  have hlen : i < (loaded bytes).length := by
    rw [loaded, length_take]
    omega
  refine (if_pos hi).trans ?_
  rw [getD_eq_getElem _ _ hbytes, getD_eq_getElem _ _ hlen]
  simp [loaded]

theorem slice_readFile {bytes : List UInt8} {old : ℕ → UInt8} {len : ℕ}
    (h : pos + len ≤ (loaded bytes).length) :
    slice (readFile bytes old).2 pos len = (bytes.drop pos).take len := by
  have hle : pos + len ≤ apkgBufSize - 1 ∧ pos + len ≤ bytes.length := by
    rw [loaded, length_take] at h
    omega
  have hsplit : loaded bytes = bytes.take pos ++ ((bytes.drop pos).take len ++
      (loaded bytes).drop (pos + len)) := by
    have hfront : bytes.take pos ++ (bytes.drop pos).take len = (loaded bytes).take (pos + len) := by
      rw [← take_add, loaded, take_take, min_eq_left hle.1]
    rw [← append_assoc, hfront, take_append_drop]
  refine slice_eq (holds_readFile bytes old) hsplit ?_ ?_
  · rw [length_take]
    omega
  · rw [length_take, length_drop]
    omega

/-! ## The loop over the files -/

theorem length_fileBytes (f : CStr × List UInt8) : (fileBytes f).length = 6 + f.1.length + f.2.length := by
  rw [fileBytes, length_append, length_append, length_append, length_leBytes, length_leBytes]
  omega

/-- What is written of files, given what becomes of each. -/
def applied : List (CStr × List UInt8) → List Outcome → List (CStr × List UInt8)
  | [], _ => []
  | f :: fs, os =>
    match os.headD .done with
    | .fails => applied fs os.tail
    | .done => f :: applied fs os.tail
    | .stops k => (f.1, f.2.take k) :: applied fs os.tail

theorem write_spec (e : Extract) {fpath : CStr} (hpath : fpath.length ≤ 255) (buf : ℕ → UInt8) (pos dlen : ℕ) :
    (e.write fpath buf pos dlen).writes = e.writes ++ applied [(fpath, slice buf pos dlen)] e.outcomes ∧
    (e.write fpath buf pos dlen).p = { e.p with
      files := e.p.files ++ (applied [(fpath, slice buf pos dlen)] e.outcomes).map Prod.fst } ∧
    (e.write fpath buf pos dlen).outcomes = e.outcomes.tail ∧
    ∀ r ∈ (e.write fpath buf pos dlen).reads, r ∈ e.reads ∨ r = (pos, dlen) := by
  have hcopy : scopy pathLen fpath = fpath := take_of_length_le hpath
  have hrecord : ∀ (e : Extract) (data : List UInt8),
      (e.record fpath data).p = { e.p with files := e.p.files ++ [fpath] } := by
    intro e data
    unfold Extract.record
    rw [hcopy]
  have hreads : ∀ r ∈ e.reads ++ [(pos, dlen)], r ∈ e.reads ∨ r = (pos, dlen) := by
    intro r hr
    rcases mem_append.mp hr with hr | hr
    · exact .inl hr
    · exact .inr (mem_singleton.mp hr)
  unfold Extract.write applied applied
  cases e.outcomes.headD .done with
  | fails =>
    refine ⟨(append_nil _).symm, ?_, rfl, fun r hr => .inl hr⟩
    rw [map_nil, append_nil]
  | done | stops k => exact ⟨rfl, hrecord _ _, rfl, hreads⟩

theorem applied_singleton (f : CStr × List UInt8) (os : List Outcome) :
    applied [f] os = [] ∨ ∃ d, applied [f] os = [(f.1, d)] ∧ d.length ≤ f.2.length := by
  unfold applied applied
  cases os.headD .done with
  | fails => exact .inl rfl
  | done => exact .inr ⟨f.2, rfl, le_rfl⟩
  | stops k => exact .inr ⟨f.2.take k, rfl, length_take_le' _ _⟩

/-- A round that does not end the loop. -/
theorem extractLoop_succ (hplen : ¬n < pos + 2) (hpath : ¬n < pos + 2 + leNum (slice buf pos 2))
    {plen : ℕ} (hmin : plen = min (leNum (slice buf pos 2)) (pathLen - 1)) (hdlen : ¬n < pos + 2 + plen + 4)
    {dlen : ℕ} (hd : dlen = leNum (slice buf (pos + 2 + plen) 4))
    (hdata : ¬n < pos + 2 + plen + 4 + dlen) :
    extractLoop buf n (rounds + 1) pos e = extractLoop buf n rounds (pos + 2 + plen + 4 + dlen)
      ((((e.read pos 2).read (pos + 2) plen).read (pos + 2 + plen) 4).write
        ((slice buf (pos + 2) plen).takeWhile (· ≠ 0)) buf (pos + 2 + plen + 4) dlen) := by
  subst hmin hd
  rw [extractLoop, if_neg hplen]
  rw [if_neg hpath, if_neg hdlen, if_neg hdata]

section

variable (buf n rounds pos e)

/-- A round ends the loop, after it may have read up to three lengths, or writes a file and goes on. -/
theorem extractLoop_cases :
    (∃ rs : List (ℕ × ℕ), (∀ r ∈ rs, r.1 + r.2 ≤ n) ∧
      extractLoop buf n (rounds + 1) pos e = { e with reads := e.reads ++ rs }) ∨
    ∃ plen dlen mid, plen ≤ pathLen - 1 ∧ pos + 2 + plen + 4 + dlen ≤ n ∧
      mid = ((e.read pos 2).read (pos + 2) plen).read (pos + 2 + plen) 4 ∧
      extractLoop buf n (rounds + 1) pos e = extractLoop buf n rounds (pos + 2 + plen + 4 + dlen)
        (mid.write ((slice buf (pos + 2) plen).takeWhile (· ≠ 0)) buf (pos + 2 + plen + 4) dlen) := by
  obtain ⟨plen, hplen⟩ : ∃ l, l = min (leNum (slice buf pos 2)) (pathLen - 1) := ⟨_, rfl⟩
  obtain ⟨dlen, hdlen⟩ : ∃ l, l = leNum (slice buf (pos + 2 + plen) 4) := ⟨_, rfl⟩
  by_cases h1 : n < pos + 2
  · refine .inl ⟨[], by simp, ?_⟩
    rw [extractLoop, if_pos h1, append_nil]
  by_cases h2 : n < pos + 2 + leNum (slice buf pos 2)
  · refine .inl ⟨[(pos, 2)], by simp; omega, ?_⟩
    rw [extractLoop, if_neg h1]
    rw [if_pos h2]
    rfl
  by_cases h3 : n < pos + 2 + plen + 4
  · refine .inl ⟨[(pos, 2), (pos + 2, plen)], by simp; omega, ?_⟩
    rw [extractLoop, if_neg h1]
    rw [if_neg h2, ← hplen, if_pos h3]
    simp [Extract.read]
  by_cases h4 : n < pos + 2 + plen + 4 + dlen
  · refine .inl ⟨[(pos, 2), (pos + 2, plen), (pos + 2 + plen, 4)], by simp; omega, ?_⟩
    rw [extractLoop, if_neg h1]
    rw [if_neg h2, ← hplen, if_neg h3, ← hdlen, if_pos h4]
    simp [Extract.read]
  · exact .inr ⟨plen, dlen, _, hplen ▸ Nat.min_le_right _ _, Nat.le_of_not_lt h4, rfl,
      extractLoop_succ h1 h2 hplen h3 hdlen h4⟩

/-- What a run of the loop does, whatever the bytes are. -/
theorem extractLoop_spec :
    ∃ ws, (extractLoop buf n rounds pos e).writes = e.writes ++ ws ∧
      (extractLoop buf n rounds pos e).p = { e.p with files := e.p.files ++ ws.map Prod.fst } ∧
      ws.length ≤ rounds ∧ (∀ w ∈ ws, w.1.length ≤ 255 ∧ (0 : UInt8) ∉ w.1) ∧
      (pos ≤ n → pos + (ws.flatMap fileBytes).length ≤ n) ∧
      ∀ r ∈ (extractLoop buf n rounds pos e).reads, r ∈ e.reads ∨ r.1 + r.2 ≤ n := by
  induction rounds generalizing pos e with
  | zero =>
    exact ⟨[], (append_nil _).symm, by rw [map_nil, append_nil]; rfl, le_rfl, by simp,
      by simp, fun r hr => .inl hr⟩
  | succ rounds ih =>
    rcases extractLoop_cases buf n rounds pos e with ⟨rs, hrs, heq⟩ |
      ⟨plen, dlen, mid, hshort, hend, hmid, heq⟩
    · rw [heq]
      exact ⟨[], (append_nil _).symm, by rw [map_nil, append_nil], Nat.zero_le _, by simp,
        by simp, fun r hr => (mem_append.mp hr).imp_right (hrs r)⟩
    generalize hfpath : (slice buf (pos + 2) plen).takeWhile (· ≠ 0) = fpath
    have hpathlen : fpath.length ≤ plen := by
      rw [← hfpath]
      exact (List.takeWhile_prefix _).length_le.trans (length_slice ..).le
    have hzero : (0 : UInt8) ∉ fpath := by
      intro hmem
      rw [← hfpath] at hmem
      exact absurd (mem_takeWhile_imp hmem) (by decide)
    rw [heq, hfpath]
    obtain ⟨hwrites, hp, -, hreads⟩ := write_spec mid (hpathlen.trans hshort) buf (pos + 2 + plen + 4) dlen
    obtain ⟨ws, hws, hwsp, hlen, hall, hroom, hrs⟩ := ih (pos + 2 + plen + 4 + dlen)
      (mid.write fpath buf (pos + 2 + plen + 4) dlen)
    generalize hw : applied [(fpath, slice buf (pos + 2 + plen + 4) dlen)] mid.outcomes = w
    have hslice : (slice buf (pos + 2 + plen + 4) dlen).length = dlen := length_slice ..
    have hone : w.length ≤ 1 ∧ (∀ v ∈ w, v.1.length ≤ 255 ∧ (0 : UInt8) ∉ v.1) ∧
        (w.flatMap fileBytes).length ≤ 6 + plen + dlen := by
      rcases applied_singleton (fpath, slice buf (pos + 2 + plen + 4) dlen) mid.outcomes with
        hnil | ⟨d, hd, hdlen'⟩
      · rw [← hw, hnil]
        simp
      rw [← hw, hd]
      refine ⟨le_rfl, ?_, ?_⟩
      · intro v hv
        rw [mem_singleton.mp hv]
        exact ⟨hpathlen.trans hshort, hzero⟩
      · rw [flatMap_singleton, length_fileBytes]
        dsimp only at hdlen' ⊢
        omega
    have hmidp : mid.p = e.p := by rw [hmid]; rfl
    have hmidw : mid.writes = e.writes := by rw [hmid]; rfl
    rw [hw] at hwrites hp
    refine ⟨w ++ ws, ?_, ?_, ?_, ?_, ?_, ?_⟩
    · rw [hws, hwrites, hmidw, append_assoc]
    · rw [hwsp, hp, hmidp, map_append, append_assoc]
    · rw [length_append]
      omega
    · intro v hv
      rcases mem_append.mp hv with hv | hv
      · exact hone.2.1 v hv
      · exact hall v hv
    · intro _
      rw [flatMap_append, length_append]
      omega
    · intro r hr
      rcases hrs r hr with hr | hr
      · rcases hreads r hr with hr | rfl
        · rw [hmid] at hr
          simp only [Extract.read, append_assoc, mem_append, mem_cons, not_mem_nil, or_false] at hr
          rcases hr with hr | rfl | rfl | rfl
          · exact .inl hr
          · exact .inr (by dsimp only; omega)
          · exact .inr (by dsimp only; omega)
          · exact .inr (by dsimp only; omega)
        · exact .inr (by dsimp only; omega)
      · exact .inr hr

theorem reads_write (e : Extract) (fpath : CStr) (buf : ℕ → UInt8) (pos dlen : ℕ) {r : ℕ × ℕ}
    (h : r ∈ e.reads) : r ∈ (e.write fpath buf pos dlen).reads := by
  unfold Extract.write
  cases e.outcomes.headD .done with
  | fails => exact h
  | done | stops k => exact mem_append_left _ h

theorem reads_extractLoop {r : ℕ × ℕ} (h : r ∈ e.reads) : r ∈ (extractLoop buf n rounds pos e).reads := by
  induction rounds generalizing pos e with
  | zero => exact h
  | succ rounds ih =>
    rcases extractLoop_cases buf n rounds pos e with ⟨rs, -, heq⟩ | ⟨plen, dlen, mid, -, -, hmid, heq⟩
    · rw [heq]
      exact mem_append_left _ h
    rw [heq]
    apply ih
    apply reads_write
    rw [hmid]
    exact mem_append_left _ (mem_append_left _ (mem_append_left _ h))

end

/-! ## Files that are as they should be -/

theorem applied_cons (f : CStr × List UInt8) (fs : List (CStr × List UInt8)) (os : List Outcome) :
    applied (f :: fs) os = applied [f] os ++ applied fs os.tail := by
  rw [applied, applied]
  cases os.headD .done with
  | fails => rfl
  | done => rfl
  | stops k => rfl

theorem length_applied_le (fs : List (CStr × List UInt8)) (os : List Outcome) :
    (applied fs os).length ≤ fs.length := by
  induction fs generalizing os with
  | nil => exact le_rfl
  | cons f fs ih =>
    have ih := ih os.tail
    rw [applied]
    cases os.headD .done with
    | fails => exact ih.trans (Nat.le_succ _)
    | done => exact Nat.succ_le_succ ih
    | stops k => exact Nat.succ_le_succ ih

/-- All of a file is written. -/
def Outcome.Whole : Outcome → ℕ → Prop
  | .done, _ => True
  | .fails, _ => False
  | .stops k, len => len ≤ k

/-- All files are opened and written. -/
def AllWritten : List (CStr × List UInt8) → List Outcome → Prop
  | [], _ => True
  | f :: fs, os => (os.headD .done).Whole f.2.length ∧ AllWritten fs os.tail

theorem applied_eq_self_iff {fs : List (CStr × List UInt8)} {os : List Outcome} :
    applied fs os = fs ↔ AllWritten fs os := by
  induction fs generalizing os with
  | nil => exact ⟨fun _ => trivial, fun _ => rfl⟩
  | cons f fs ih =>
    rw [applied, AllWritten]
    cases os.headD .done with
    | fails =>
      refine ⟨fun h => ?_, fun h => h.1.elim⟩
      have hlen := length_applied_le fs os.tail
      have hmore : applied fs os.tail = f :: fs := h
      rw [hmore, length_cons] at hlen
      omega
    | done =>
      simp only [List.cons.injEq, true_and, Outcome.Whole]
      exact ih
    | stops k =>
      simp only [List.cons.injEq, Outcome.Whole]
      refine and_congr ?_ ih
      rw [Prod.ext_iff]
      simp only [true_and]
      refine ⟨fun h => ?_, take_of_length_le⟩
      rw [← h]
      exact length_take_le _ _

/-- The files that an archive has from a position on are written one after the other. -/
theorem extractLoop_files {bs front back : List UInt8} {files : List (CStr × List UInt8)}
    (h : Holds buf bs) (hbs : bs = front ++ (files.flatMap fileBytes ++ back))
    (hfit : ∀ f ∈ files, f.1.length ≤ 255 ∧ (0 : UInt8) ∉ f.1 ∧ f.2.length < 2^32)
    (hpos : pos = front.length) :
    (extractLoop buf bs.length files.length pos e).writes = e.writes ++ applied files e.outcomes ∧
    (extractLoop buf bs.length files.length pos e).p = { e.p with
      files := e.p.files ++ (applied files e.outcomes).map Prod.fst } := by
  induction files generalizing front pos e with
  | nil =>
    rw [applied, append_nil, map_nil, append_nil]
    exact ⟨rfl, rfl⟩
  | cons f files ih =>
    obtain ⟨path, data⟩ := f
    obtain ⟨hpath, hzero, hdata⟩ := hfit _ mem_cons_self
    dsimp only at hpath hzero hdata
    have hlen : bs.length = pos + 2 + path.length + 4 + data.length +
        (files.flatMap fileBytes ++ back).length := by
      rw [hbs, hpos, flatMap_cons, append_assoc, length_append, length_append, length_fileBytes]
      dsimp only
      omega
    -- The two lengths are read, and what is between and after them.
    obtain ⟨hs1, hs2, hs3, hdslice⟩ : slice buf pos 2 = leBytes 2 path.length ∧
        slice buf (pos + 2) path.length = path ∧
        slice buf (pos + 2 + path.length) 4 = leBytes 4 data.length ∧
        slice buf (pos + 2 + path.length + 4) data.length = data := by
      have hall := slice_eq h hbs hpos rfl
      rw [flatMap_cons, slice_append_iff, fileBytes, slice_append_iff, slice_append_iff,
        slice_append_iff] at hall
      simpa only [length_leBytes] using hall.1
    have hplen : leNum (slice buf pos 2) = path.length := by
      rw [hs1, leNum_leBytes, Nat.mod_eq_of_lt (by omega)]
    have hdlen : data.length = leNum (slice buf (pos + 2 + path.length) 4) := by
      rw [hs3, leNum_leBytes, Nat.mod_eq_of_lt (by omega)]
    have hmin : path.length = min (leNum (slice buf pos 2)) (pathLen - 1) := by
      rw [hplen]
      exact (min_eq_left hpath).symm
    have hfpath : (slice buf (pos + 2) path.length).takeWhile (· ≠ 0) = path := by
      rw [hs2, takeWhile_eq_self_iff]
      exact decide_ne_of_notMem hzero
    rw [length_cons, extractLoop_succ (by omega) (by rw [hplen]; omega) hmin (by omega) hdlen (by omega),
      hfpath]
    generalize hmid : ((e.read pos 2).read (pos + 2) path.length).read
      (pos + 2 + path.length) 4 = mid
    have hmidp : mid.p = e.p := by rw [← hmid]; rfl
    have hmidw : mid.writes = e.writes := by rw [← hmid]; rfl
    have hmido : mid.outcomes = e.outcomes := by rw [← hmid]; rfl
    obtain ⟨hwrites, hp, houtcomes, -⟩ := write_spec mid hpath buf (pos + 2 + path.length + 4) data.length
    rw [hdslice] at hwrites hp
    have hbs' : bs = (front ++ fileBytes (path, data)) ++ (files.flatMap fileBytes ++ back) := by
      rw [hbs, flatMap_cons, append_assoc, append_assoc]
    have hpos' : pos + 2 + path.length + 4 + data.length = (front ++ fileBytes (path, data)).length := by
      rw [length_append, length_fileBytes, hpos]
      dsimp only
      omega
    obtain ⟨ihwrites, ihp⟩ := ih (e := mid.write path buf (pos + 2 + path.length + 4) data.length) hbs'
      (forall_mem_cons.mp hfit).2 hpos'
    rw [applied_cons (path, data) files]
    constructor
    · rw [ihwrites, hwrites, houtcomes, hmidw, hmido, append_assoc]
    · rw [ihp, hp, houtcomes, hmidp, hmido, map_append, append_assoc]

end FreeAsd.Apm
