import FreeAsd.Lib.Bytes

/-!
# Opening and saving a file with `hx`

`Buffer::load` of `userland/hx/src/buf.rs` leaves out carriage returns, what is behind byte 511 of a line
and what is behind line 4096, and `Editor::open` reads at most 524288 bytes. `Editor::save` writes what
there is, so a file is preserved exactly if nothing was left out (`preserves_iff`).
-/

namespace FreeAsd.Hx

open List

/-- `MAX_LINES`. -/
abbrev maxLines : ℕ := 4096

/-- `MAX_COLS`. -/
abbrev maxCols : ℕ := 512

/-- The size of `FILE_BUF`. -/
abbrev fileBuf : ℕ := 524288

/-- The lines of a buffer in which the line after `rows` is `line`. A line that nothing was put into is not
counted. -/
def lines (rows : List CStr) (line : CStr) : List CStr := if line = [] then rows else rows ++ [line]

/-- The loop of `Buffer::load`, with the lines before `row`, and the one at `row` up to `col`. -/
def loadLoop : List CStr → CStr → List UInt8 → List CStr
  | rows, line, [] => lines rows line
  | rows, line, b :: data =>
    if b = 10 then
      if maxLines ≤ rows.length + 1 then rows ++ [line] else loadLoop (rows ++ [line]) [] data
    else if b ≠ 13 ∧ line.length < maxCols - 1 then loadLoop rows (line ++ [b]) data
    else loadLoop rows line data

/-- `Buffer::load`, into a new buffer. -/
def load (data : List UInt8) : List CStr :=
  let rows := loadLoop [] [] data
  if rows = [] then [[]] else rows

/-- `Editor::open`, of a file that can be read. -/
def openFile (file : List UInt8) : List CStr :=
  let data := file.take fileBuf
  if data = [] then [[]] else load data

/-- The lines, each with a line end. -/
def text (rows : List CStr) : List UInt8 := rows.flatMap (· ++ [10])

/-- `Editor::save`: the contents of the file, unless it cannot be opened for writing. -/
def save (writable : Bool) (rows : List CStr) : Option (List UInt8) :=
  if writable then some (text rows) else none

/-- Opening and saving adds at most a line end. -/
def Preserves (writable : Bool) (file : List UInt8) : Prop :=
  ∀ out, save writable (openFile file) = some out → out = file ∨ out = file ++ [10]

/-- A line that a buffer can hold. -/
def LineOk (line : CStr) : Prop := 10 ∉ line ∧ 13 ∉ line ∧ line.length < maxCols

/-- What a buffer can hold: some lines, and a last one, which is not counted if it is empty. -/
structure Held (rows : List CStr) (line : CStr) : Prop where
  ok : ∀ l ∈ line :: rows, LineOk l
  count : (lines rows line).length ≤ maxLines

variable {rows pre : List CStr} {line rest : CStr} {data file : List UInt8}

theorem lineOk_nil : LineOk [] := ⟨not_mem_nil, not_mem_nil, by decide⟩

theorem lines_of_ne_nil (h : line ≠ []) : lines rows line = rows ++ [line] := if_neg h

theorem length_lines_le : (lines rows line).length ≤ rows.length + 1 := by
  unfold lines
  split_ifs <;> simp

/-- What is loaded can be held, and is not longer than the file. -/
theorem loadLoop_spec (hlen : rows.length < maxLines) (hok : ∀ l ∈ line :: rows, LineOk l) (data : List UInt8) :
    ∃ rows' line', loadLoop rows line data = lines rows' line' ∧ Held rows' line' ∧
      (text rows' ++ line').length ≤ (text rows ++ line).length + data.length := by
  induction data generalizing rows line with
  | nil => exact ⟨rows, line, rfl, ⟨hok, length_lines_le.trans hlen⟩, le_rfl⟩
  | cons b data ih =>
    obtain ⟨hline, hrows⟩ := forall_mem_cons.mp hok
    have hok' : ∀ l ∈ [] :: (rows ++ [line]), LineOk l := by
      simpa [or_imp, forall_and, lineOk_nil] using ⟨hrows, hline⟩
    rw [loadLoop]
    split_ifs with hb hfull hput
    · refine ⟨rows ++ [line], [], rfl, ⟨hok', by simpa [lines] using Nat.succ_le_of_lt hlen⟩, ?_⟩
      simp [text]
      omega
    · obtain ⟨rows', line', he, hheld, hle⟩ := ih (by simp; omega) hok'
      refine ⟨rows', line', he, hheld, hle.trans ?_⟩
      simp [text]
      omega
    · obtain ⟨h10, h13, hcols⟩ := hline
      have hline' : LineOk (line ++ [b]) := by
        refine ⟨?_, ?_, by simp; omega⟩
        · simpa using ⟨h10, Ne.symm hb⟩
        · simpa using ⟨h13, Ne.symm hput.1⟩
      obtain ⟨rows', line', he, hheld, hle⟩ := ih hlen (forall_mem_cons.mpr ⟨hline', hrows⟩)
      refine ⟨rows', line', he, hheld, hle.trans ?_⟩
      simp
      omega
    · obtain ⟨rows', line', he, hheld, hle⟩ := ih hlen hok
      exact ⟨rows', line', he, hheld, hle.trans (by simp)⟩

/-- A line that can be held is loaded as it is. -/
theorem loadLoop_line (h : LineOk (line ++ rest)) :
    loadLoop rows line (rest ++ data) = loadLoop rows (line ++ rest) data := by
  induction rest generalizing line with
  | nil => rw [nil_append, append_nil]
  | cons b rest ih =>
    obtain ⟨h10, h13, hcols⟩ := id h
    have hb : b ≠ 10 := by rintro rfl; simp at h10
    have hput : b ≠ 13 ∧ line.length < maxCols - 1 := by
      refine ⟨by rintro rfl; simp at h13, ?_⟩
      simp at hcols
      omega
    rw [cons_append, loadLoop, if_neg hb, if_pos hput]
    rw [append_cons line b rest] at h ⊢
    exact ih h

/-- What can be held is loaded as it is. -/
theorem loadLoop_text (h : Held (pre ++ rows) line) :
    loadLoop pre [] (text rows ++ line) = lines (pre ++ rows) line := by
  induction rows generalizing pre with
  | nil =>
    have hload : loadLoop pre [] (line ++ []) = loadLoop pre line [] := loadLoop_line (h.ok line mem_cons_self)
    rw [append_nil] at hload ⊢
    exact hload
  | cons l rows ih =>
    have htext : text (l :: rows) ++ line = l ++ 10 :: (text rows ++ line) := by simp [text]
    have hload : loadLoop pre [] (l ++ 10 :: (text rows ++ line)) =
        loadLoop pre l (10 :: (text rows ++ line)) := loadLoop_line (h.ok l (by simp))
    rw [htext, hload, loadLoop, if_pos rfl]
    by_cases hfull : maxLines ≤ pre.length + 1
    · -- This is the last line.
      have hcount := h.count
      rw [if_pos hfull]
      unfold lines at hcount ⊢
      split_ifs at hcount ⊢
      · simp at hcount
        obtain rfl : rows = [] := length_eq_zero_iff.mp (by omega)
        rfl
      · simp at hcount
        omega
    · rw [append_cons pre l rows] at h ⊢
      rw [if_neg hfull]
      exact ih h

/-- What is written: a line end is added unless there is one at the end. -/
theorem text_openFile (h : loadLoop [] [] (file.take fileBuf) = lines rows line) :
    text (openFile file) = text rows ++ line ++ if line = [] ∧ rows ≠ [] then [] else [10] := by
  have hopen : openFile file = load (file.take fileBuf) := by
    rw [openFile]
    split_ifs with hnil
    · rw [hnil]
      rfl
    · rfl
  rw [hopen, load, h]
  by_cases hline : line = []
  · subst hline
    by_cases hrows : rows = []
    · subst hrows
      rfl
    · have hlines : lines rows [] = rows := rfl
      rw [hlines, if_neg hrows, if_pos ⟨rfl, hrows⟩, append_nil, append_nil]
  · rw [lines_of_ne_nil hline, if_neg (by simp), if_neg fun hc => hline hc.1]
    simp [text]

/-- A file is preserved exactly if it consists of lines that a buffer can hold, the last one perhaps without
a line end, and without the line end at its end is not longer than what is read. -/
theorem preserves_iff (writable : Bool) (file : List UInt8) :
    Preserves writable file ↔ (writable = true → ∃ rows line, Held rows line ∧
      (text rows ++ line).length ≤ fileBuf ∧
      (file = text rows ++ line ∨ line ≠ [] ∧ file = text rows ++ line ++ [10])) := by
  constructor
  · rintro h rfl
    obtain ⟨rows, line, he, hheld, hle⟩ :=
      @loadLoop_spec [] [] (by decide) (by simpa using lineOk_nil) (file.take fileBuf)
    have hfit : (text rows ++ line).length ≤ min fileBuf file.length := by simpa [text] using hle
    have hout := h _ rfl
    rw [text_openFile he] at hout
    split_ifs at hout with hend
    · rw [append_nil] at hout
      refine ⟨rows, line, hheld, hfit.trans (min_le_left _ _), .inl ?_⟩
      refine (hout.resolve_right fun hout => ?_).symm
      rw [hout, length_append, length_singleton] at hfit
      omega
    · rcases hout with rfl | hout
      · by_cases hline : line = []
        · obtain rfl : rows = [] := of_not_not fun hrows => hend ⟨hline, hrows⟩
          subst hline
          exact ⟨[[]], [], ⟨by simpa using lineOk_nil, by decide⟩, by decide, .inl rfl⟩
        · exact ⟨rows, line, hheld, hfit.trans (min_le_left _ _), .inr ⟨hline, rfl⟩⟩
      · exact ⟨rows, line, hheld, hfit.trans (min_le_left _ _), .inl (append_cancel_right hout).symm⟩
  · intro h out hout
    cases writable with
    | false => cases hout
    | true =>
      obtain rfl := Option.some.inj hout
      obtain ⟨rows, line, hheld, hread, hfile⟩ := h rfl
      have hload : loadLoop [] [] (file.take fileBuf) = lines rows line := by
        rcases hfile with rfl | ⟨hline, rfl⟩
        · rw [take_of_length_le hread]
          exact loadLoop_text hheld
        rw [take_append, take_of_length_le hread]
        cases fileBuf - (text rows ++ line).length with
        | zero =>
          rw [take_zero, append_nil]
          exact loadLoop_text hheld
        | succ k =>
          -- The line end at the end is read, too.
          have hlines : lines rows line = lines (rows ++ [line]) [] := lines_of_ne_nil hline
          have htext : text rows ++ line ++ take (k + 1) [10] = text (rows ++ [line]) ++ [] := by simp [text]
          have hok : ∀ l ∈ [] :: (rows ++ [line]), LineOk l := by
            simpa [or_imp, forall_and, lineOk_nil, and_comm] using hheld.ok
          rw [htext, hlines]
          exact loadLoop_text ⟨hok, hlines ▸ hheld.count⟩
      rw [text_openFile hload]
      rcases hfile with rfl | ⟨hline, rfl⟩
      · split_ifs
        · exact .inl (append_nil _)
        · exact .inr rfl
      · exact .inl (by rw [if_neg fun hc => hline hc.1])

/-- A carriage return is lost. -/
theorem carriage_return_lost : ¬Preserves true [13] := by
  intro h
  exact absurd (h [10] rfl) (by decide)

end FreeAsd.Hx
