import FreeAsd.Apm.Archive

/-!
# Reading a text of keys and values

What `kv_get` finds in a text that `build_apkg` wrote (`kvGet_at`), and `pkg_parse` in the list of dependencies
(`dependsLoop_joined`). Values are cut to the buffer, so one comes back exactly if it is `Clean` and fits
(`cut_eq_iff`).
-/

namespace FreeAsd.Apm

open Text List

variable {key v rest line d : CStr} {lines : List (CStr × CStr)} {ds : List CStr} {max m : ℕ}

/-! ## Cut values -/

/-- No terminator and no end of line. -/
def Clean (s : CStr) : Prop := ∀ c ∈ s, c ≠ 0 ∧ c ≠ 10 ∧ c ≠ 13

instance (s : CStr) : Decidable (Clean s) := List.decidableBAll _ s

/-- A value as it is read, with room for `n` bytes. -/
def cut (n : ℕ) (v : CStr) : CStr := (v.takeWhile fun c => c ≠ 0 ∧ c ≠ 10 ∧ c ≠ 13).take n

/-- What is read is clean. -/
theorem clean_cut (n : ℕ) (v : CStr) : Clean (cut n v) := by
  intro c hc
  have hmem := mem_takeWhile_imp (mem_of_mem_take hc)
  rwa [decide_eq_true_eq] at hmem

/-- A clean value is only shortened. -/
theorem Clean.cut_eq (h : Clean v) (n : ℕ) : cut n v = v.take n := by
  have hall : v.takeWhile (fun c => c ≠ 0 ∧ c ≠ 10 ∧ c ≠ 13) = v :=
    takeWhile_eq_self_iff.mpr fun c hc => decide_eq_true (h c hc)
  rw [cut, hall]

/-- A value is read whole exactly if it is clean and fits. -/
theorem cut_eq_iff {n : ℕ} : cut n v = v ↔ Clean v ∧ v.length ≤ n := by
  constructor
  · intro h
    refine ⟨h ▸ clean_cut n v, ?_⟩
    rw [← h]
    exact length_take_le _ _
  · rintro ⟨hclean, hlen⟩
    rw [hclean.cut_eq, take_of_length_le hlen]

/-- A text of which only the first `m` bytes are there, up to the terminator. -/
def window (m : ℕ) (t : CStr) : CStr := (t.take m).takeWhile (· ≠ 0)

/-- A line that is there whole comes first. -/
theorem window_append (hzero : (0 : UInt8) ∉ line) (hlen : line.length ≤ m) :
    window m (line ++ rest) = line ++ window (m - line.length) rest := by
  rw [window, take_append, take_of_length_le hlen, takeWhile_append_of_pos (decide_ne_of_notMem hzero), window]

/-- Nothing after a stop counts. -/
theorem takeWhile_append_stop {P : UInt8 → Bool} {a : UInt8} (ha : P a = false) (v rest : CStr) :
    (v ++ a :: rest).takeWhile P = v.takeWhile P := by
  induction v with
  | nil => rw [nil_append, takeWhile_cons_of_neg (by simp [ha]), takeWhile_nil]
  | cons c v ih =>
    rw [cons_append, takeWhile_cons, takeWhile_cons, ih]

/-- The value of the key that the text begins with. -/
theorem kvValue_window (hlen : max - 1 ≤ m) : kvValue max (window m (v ++ 10 :: rest)) = cut (max - 1) v := by
  have hboth : (fun c : UInt8 => decide (decide (c ≠ 10 ∧ c ≠ 13) = true ∧ decide (c ≠ 0) = true)) =
      fun c => decide (c ≠ 0 ∧ c ≠ 10 ∧ c ≠ 13) := by
    funext c
    simp only [decide_eq_true_eq, decide_eq_decide]
    tauto
  rw [kvValue, window, takeWhile_takeWhile, hboth, ← take_takeWhile, take_take, min_eq_left hlen,
    takeWhile_append_stop (by decide), cut]

/-! ## Lines -/

/-- A key can be told from its value, and is a C string. -/
def KeyOk (key : CStr) : Prop := (61 : UInt8) ∉ key ∧ Clean key

instance (key : CStr) : Decidable (KeyOk key) := inferInstanceAs (Decidable (_ ∧ _))

/-- A clean text has no terminator. -/
theorem Clean.zero_notMem {s : CStr} (h : Clean s) : (0 : UInt8) ∉ s := fun hmem => (h 0 hmem).1 rfl

/-- A clean text has one line. -/
theorem Clean.newline_notMem {s : CStr} (h : Clean s) : (10 : UInt8) ∉ s := fun hmem => (h 10 hmem).2.1 rfl

/-- The rest of a line is passed over. -/
theorem kvLoop_false (h : (10 : UInt8) ∉ line) :
    kvLoop key max false (line ++ 10 :: rest) = kvLoop key max true rest := by
  induction line with
  | nil =>
    rw [nil_append, kvLoop, if_neg (by simp)]
    rfl
  | cons c line ih =>
    rw [mem_cons, not_or] at h
    rw [cons_append, kvLoop, if_neg (by simp), decide_eq_false (Ne.symm h.1), ih h.2]

/-- A line of another key is passed over. -/
theorem kvLoop_line (h : (10 : UInt8) ∉ line) (hkey : ¬(key ++ [61]) <+: line ++ 10 :: rest) :
    kvLoop key max true (line ++ 10 :: rest) = kvLoop key max true rest := by
  cases line with
  | nil =>
    rw [nil_append] at hkey ⊢
    rw [kvLoop, if_neg (fun h => hkey h.2)]
    rfl
  | cons c line =>
    rw [mem_cons, not_or] at h
    rw [cons_append] at hkey ⊢
    rw [kvLoop, if_neg (fun h => hkey h.2), decide_eq_false (Ne.symm h.1), kvLoop_false h.2]

/-- A line begins with one key only. -/
theorem key_eq_of_isPrefixOf {key' : CStr} (hkey : KeyOk key) (hkey' : KeyOk key')
    (h : (key ++ [61]) <+: key' ++ 61 :: rest) : key = key' := by
  have htake : ∀ {k : CStr}, KeyOk k → ∀ t : CStr, (k ++ 61 :: t).takeWhile (· ≠ 61) = k := by
    intro k hk t
    rw [takeWhile_append_stop (by decide), takeWhile_eq_self_iff]
    exact decide_ne_of_notMem hk.1
  obtain ⟨t, ht⟩ := h
  rw [append_assoc, singleton_append] at ht
  rw [← htake hkey t, ht, htake hkey']

/-- A line that is passed over on the way to a key. -/
def Passed (key : CStr) (l : CStr × CStr) : Prop := l.1 ≠ key ∧ KeyOk l.1 ∧ Clean l.2

/-- Lines of other keys are passed over. -/
theorem kvGet_skips (hkey : KeyOk key) {pre : List (CStr × CStr)} (hpre : ∀ l ∈ pre, Passed key l)
    (hlen : (kvText pre).length ≤ m) :
    kvGet (window m (kvText (pre ++ lines))) key max =
      kvGet (window (m - (kvText pre).length) (kvText lines)) key max := by
  induction pre generalizing m with
  | nil => rfl
  | cons l pre ih =>
    obtain ⟨hne, hlkey, hval⟩ := hpre l mem_cons_self
    generalize hline : l.1 ++ 61 :: l.2 = line
    have hsplit : ∀ ls, kvText (l :: ls) = (line ++ [10]) ++ kvText ls := by
      intro ls
      rw [kvText, flatMap_cons, ← hline]
      simp [kvText]
    have hzero : (0 : UInt8) ∉ line ++ [10] := by
      rw [← hline]
      simp [hlkey.2.zero_notMem, hval.zero_notMem]
    have hnewline : (10 : UInt8) ∉ line := by
      rw [← hline]
      simp [hlkey.2.newline_notMem, hval.newline_notMem]
    have hlength : (line ++ [10] ++ kvText pre).length = (line ++ [10]).length + (kvText pre).length :=
      length_append
    rw [hsplit, hlength] at hlen
    rw [cons_append, hsplit, hsplit, window_append hzero (by omega), hlength, ← Nat.sub_sub, kvGet,
      append_assoc, singleton_append, kvLoop_line hnewline]
    · exact ih (m := m - (line ++ [10]).length) (forall_mem_cons.mp hpre).2 (by omega)
    · intro hprefixed
      rw [← hline, append_assoc, cons_append] at hprefixed
      exact hne (key_eq_of_isPrefixOf hkey hlkey hprefixed).symm

/-- What is found for a key, after lines that are passed over. -/
theorem kvGet_at (hkey : KeyOk key) {pre : List (CStr × CStr)} (hpre : ∀ l ∈ pre, Passed key l)
    (hlen : (kvText pre).length + key.length + max ≤ m) (hmax : 0 < max) :
    kvGet (window m (kvText (pre ++ (key, v) :: lines))) key max = some (cut (max - 1) v) := by
  have hline : kvText ((key, v) :: lines) = (key ++ [61]) ++ (v ++ 10 :: kvText lines) := by
    simp [kvText]
  have hzero : (0 : UInt8) ∉ key ++ [61] := by simp [hkey.2.zero_notMem]
  obtain ⟨c, p, hcons⟩ : ∃ c p, key ++ [61] = c :: p := exists_cons_of_ne_nil (by simp)
  have hkeylen : (key ++ [61]).length = key.length + 1 := by simp
  rw [kvGet_skips hkey hpre (by omega), hline, window_append hzero (by omega), kvGet, hcons,
    cons_append, kvLoop, ← cons_append, ← hcons, if_pos ⟨rfl, prefix_append _ _⟩,
    drop_left' hkeylen, kvValue_window (by omega)]

/-- How long a text of keys and values can be. -/
theorem length_kvText_le {n : ℕ} (h : ∀ l ∈ lines, l.1.length ≤ n) :
    (kvText lines).length ≤ (n + 2) * lines.length + ((lines.map Prod.snd).map List.length).sum := by
  induction lines with
  | nil => exact Nat.zero_le _
  | cons l lines ih =>
    have hl := h l mem_cons_self
    have ih := ih (forall_mem_cons.mp h).2
    rw [kvText, flatMap_cons, length_append, ← kvText, length_append, length_cons, length_append,
      length_singleton, map_cons, map_cons, sum_cons, length_cons, Nat.mul_succ]
    omega

/-! ## Dependencies -/

/-- A word that can stand in a list of dependencies. -/
structure DepWord (d : CStr) : Prop where
  ne_nil : d ≠ []
  blank : (32 : UInt8) ∉ d
  length : d.length ≤ pkgNameLen - 1

/-- A word ends at the blank after it. -/
theorem takeWhile_word (h : (32 : UInt8) ∉ d) (t : CStr) (ht : t = [] ∨ t.head? = some 32) :
    (d ++ t).takeWhile (· ≠ 32) = d := by
  have hall : d.takeWhile (· ≠ 32) = d := takeWhile_eq_self_iff.mpr (decide_ne_of_notMem h)
  cases t with
  | nil => rw [append_nil, hall]
  | cons c t =>
    obtain rfl : c = 32 := by simpa using ht
    rw [takeWhile_append_stop (by decide), hall]

/-- A word does not begin with a blank. -/
theorem dropWhile_word (h : DepWord d) (t : CStr) : (d ++ t).dropWhile (· = 32) = d ++ t := by
  obtain ⟨c, p, rfl⟩ := exists_cons_of_ne_nil h.ne_nil
  rw [cons_append, dropWhile_cons_of_neg]
  rw [decide_eq_true_eq]
  rintro rfl
  exact h.blank mem_cons_self

/-- Joined words do not begin with a blank. -/
theorem dropWhile_joined (h : ∀ d ∈ ds, DepWord d) :
    (joined ds).dropWhile (· = 32) = joined ds := by
  rcases ds with _ | ⟨d, _ | ⟨e, es⟩⟩
  · rfl
  · have hdrop := dropWhile_word (h d mem_cons_self) []
    rwa [append_nil] at hdrop
  · exact dropWhile_word (h d mem_cons_self) _

/-- Words that are joined are found again. -/
theorem dependsLoop_joined {n : ℕ} {acc : List CStr} {tp : CStr}
    (htp : tp.dropWhile (· = 32) = joined ds) (hds : ∀ d ∈ ds, DepWord d)
    (hlen : acc.length + ds.length ≤ maxDeps) (hn : ds.length ≤ n) :
    dependsLoop n tp acc = acc ++ ds := by
  induction ds generalizing n tp acc with
  | nil =>
    rw [append_nil]
    cases n with
    | zero => rfl
    | succ n =>
      rw [dependsLoop]
      rw [htp, joined, if_pos rfl, ite_self]
  | cons d ds ih =>
    have hd := hds d mem_cons_self
    rw [length_cons] at hlen hn
    obtain ⟨n, rfl⟩ : ∃ k, n = k + 1 := ⟨n - 1, by omega⟩
    -- What is left after the first word begins with a blank, if there are more words.
    obtain ⟨t, ht, hstart, hnext⟩ : ∃ t, joined (d :: ds) = d ++ t ∧ (t = [] ∨ t.head? = some 32) ∧
        t.dropWhile (· = 32) = joined ds := by
      cases ds with
      | nil => exact ⟨[], by rw [joined, append_nil], .inl rfl, rfl⟩
      | cons e es =>
        refine ⟨32 :: joined (e :: es), rfl, .inr rfl, ?_⟩
        rw [dropWhile_cons_of_pos (by decide)]
        exact dropWhile_joined (forall_mem_cons.mp hds).2
    have htp' : tp ≠ [] := by
      rintro rfl
      rw [ht] at htp
      exact hd.ne_nil (append_eq_nil_iff.mp htp.symm).1
    have hword : d ++ t ≠ [] := fun h => hd.ne_nil (append_eq_nil_iff.mp h).1
    have hfull : ¬(tp = [] ∨ maxDeps ≤ acc.length) := by
      rintro (h | h)
      · exact htp' h
      · omega
    rw [dependsLoop, if_neg hfull]
    dsimp only
    rw [htp, ht, if_neg hword, takeWhile_word hd.blank t hstart, take_of_length_le hd.length,
      drop_left, ih hnext (forall_mem_cons.mp hds).2]
    · rw [append_assoc, singleton_append]
    · rw [length_append, length_singleton]
      omega
    · omega

/-- The bytes of a text that are no blanks. -/
def weight (s : CStr) : ℕ := (s.filter (· ≠ 32)).length

/-- Weights add up. -/
theorem weight_append (s t : CStr) : weight (s ++ t) = weight s + weight t := by
  rw [weight, filter_append, length_append, weight, weight]

/-- A word weighs its length. -/
theorem weight_of_notMem {s : CStr} (h : (32 : UInt8) ∉ s) : weight s = s.length := by
  rw [weight, filter_eq_self.mpr (decide_ne_of_notMem h)]

/-- Joined words weigh their lengths. -/
theorem weight_joined (h : ∀ d ∈ ds, (32 : UInt8) ∉ d) :
    weight (joined ds) = (ds.map List.length).sum := by
  induction ds with
  | nil => rfl
  | cons d ds ih =>
    have hd := weight_of_notMem (h d mem_cons_self)
    have ih := ih (forall_mem_cons.mp h).2
    cases ds with
    | nil => rw [joined, hd, map_singleton, sum_singleton]
    | cons e es =>
      have hblank : weight [32] = 0 := rfl
      rw [joined, ← singleton_append, weight_append, weight_append, hd, ih, hblank, zero_add]
      rfl

/-- The words that are found: they are words of the text, not too many, and not longer than the text. -/
theorem dependsLoop_spec (n : ℕ) (tp : CStr) {acc : List CStr} (hacc : acc.length ≤ maxDeps) :
    ∃ ds, dependsLoop n tp acc = acc ++ ds ∧ (acc ++ ds).length ≤ maxDeps ∧
      (∀ d ∈ ds, DepWord d ∧ ∀ c ∈ d, c ∈ tp) ∧ (ds.map List.length).sum ≤ weight tp := by
  induction n generalizing tp acc with
  | zero => exact ⟨[], by rw [dependsLoop, append_nil], by rwa [append_nil], by simp, by simp⟩
  | succ n ih =>
    rw [dependsLoop]
    dsimp only
    split_ifs with hend hblank
    · exact ⟨[], by rw [append_nil], by rwa [append_nil], by simp, by simp⟩
    · exact ⟨[], by rw [append_nil], by rwa [append_nil], by simp, by simp⟩
    rw [not_or, not_le] at hend
    obtain ⟨q, hq⟩ : ∃ q, q = tp.dropWhile (· = 32) := ⟨_, rfl⟩
    generalize hword : (q.takeWhile (· ≠ 32)).take (pkgNameLen - 1) = word
    rw [← hq] at hblank ⊢
    rw [hword]
    have hsub : ∀ c ∈ q, c ∈ tp := fun c hc => (dropWhile_sublist _).mem (hq ▸ hc)
    obtain ⟨rest, hrest⟩ : word <+: q := by
      rw [← hword]
      exact (List.take_prefix _ _).trans (List.takeWhile_prefix _)
    have hdep : DepWord word := by
      constructor
      case ne_nil =>
        obtain ⟨c, p, hcons⟩ := exists_cons_of_ne_nil hblank
        have hc : c ≠ 32 := by
          rintro rfl
          have hhead := head?_dropWhile_not (fun c : UInt8 => decide (c = 32)) tp
          rw [← hq, hcons] at hhead
          simp at hhead
        rw [← hword, hcons, takeWhile_cons_of_pos (by simp [hc])]
        exact cons_ne_nil _ _
      case blank =>
        intro hmem
        rw [← hword] at hmem
        have hnot := mem_takeWhile_imp (mem_of_mem_take hmem)
        cases hnot
      case length =>
        rw [← hword]
        exact length_take_le _ _
    have hweight : weight tp = word.length + weight rest := by
      have htp : tp = tp.takeWhile (· = 32) ++ q := by rw [hq, takeWhile_append_dropWhile]
      have hblanks : weight (tp.takeWhile (· = 32)) = 0 := by
        rw [weight, length_eq_zero_iff, filter_eq_nil_iff]
        intro c hc
        have hc' := mem_takeWhile_imp hc
        simpa using hc'
      calc weight tp = weight (tp.takeWhile (· = 32)) + weight q := by rw [← weight_append, ← htp]
        _ = weight (word ++ rest) := by rw [hblanks, zero_add, hrest]
        _ = word.length + weight rest := by rw [weight_append, weight_of_notMem hdep.blank]
    have hdrop : q.drop word.length = rest := by rw [← hrest, drop_left]
    rw [hdrop]
    have hacc' : (acc ++ [word]).length ≤ maxDeps := by
      rw [length_append, length_singleton]
      omega
    obtain ⟨ds, heq, hlen, hds, hsum⟩ := ih rest hacc'
    refine ⟨word :: ds, ?_, ?_, ?_, ?_⟩
    · rw [heq, append_assoc, singleton_append]
    · rwa [append_assoc, singleton_append] at hlen
    · intro d hd
      rcases mem_cons.mp hd with rfl | hd
      · exact ⟨hdep, fun c hc => hsub c (hrest ▸ mem_append_left _ hc)⟩
      · obtain ⟨hdw, hchars⟩ := hds d hd
        exact ⟨hdw, fun c hc => hsub c (hrest ▸ mem_append_right _ (hchars c hc))⟩
    · rw [map_cons, sum_cons, hweight]
      omega

end FreeAsd.Apm
