import FreeAsd.Lib.Bytes
import Mathlib.Data.List.TakeWhile

/-!
# Numbers in text

Numbers as decimal and hexadecimal digits, as C programs without a library print and read them, on
words of 32 and 64 bits. A number that was printed is read back (`readDecimal_decimal`,
`readHex64_hex64`).
-/

namespace FreeAsd.Text

open Nat List

variable {c : UInt8} {v n : ℕ}

/-- The blanks of the parsers. -/
def isSpace (c : UInt8) : Bool := c = 32 ∨ c = 9 ∨ c = 10 ∨ c = 13

/-- A decimal digit. -/
def isDigit (c : UInt8) : Bool := 48 ≤ c ∧ c ≤ 57

/-! ## Decimal -/

/-- The digits of a number in front of others. The first argument bounds the digits. -/
def decimalLoop : ℕ → ℕ → List UInt8 → List UInt8
  | 0, _, acc => acc
  | n + 1, v, acc => if v = 0 then acc else decimalLoop n (v / 10) (UInt8.ofNat (48 + v % 10) :: acc)

/-- A number of 32 bits in decimal. -/
def decimal (v : ℕ) : List UInt8 := if v = 0 then [48] else decimalLoop 10 v []

/-- One more digit. -/
def readDigit (v : ℕ) (c : UInt8) : ℕ := (v * 10 + (c.toNat - 48)) % 2^32

/-- The number of 32 bits at the beginning of a text. -/
def readDecimal (s : List UInt8) : ℕ := (s.takeWhile isDigit).foldl readDigit 0

/-- A digit that is printed. -/
theorem toNat_digit (d : ℕ) : (UInt8.ofNat (48 + d % 10)).toNat = 48 + d % 10 := by
  rw [UInt8.toNat_ofNat']
  omega

/-- It is a digit. -/
theorem isDigit_digit (d : ℕ) : isDigit (UInt8.ofNat (48 + d % 10)) = true := by
  have hval := toNat_digit d
  unfold isDigit
  rw [decide_eq_true_eq, UInt8.le_iff_toNat_le, UInt8.le_iff_toNat_le, hval]
  constructor
  · exact le_add_right 48 _
  · have : (57 : UInt8).toNat = 57 := rfl
    omega

/-- Only digits are put in front. -/
theorem mem_decimalLoop {acc : List UInt8} (h : c ∈ decimalLoop n v acc) : isDigit c = true ∨ c ∈ acc := by
  induction n generalizing v acc with
  | zero => exact .inr h
  | succ n ih =>
    rw [decimalLoop] at h
    split_ifs at h with hv
    · exact .inr h
    rcases ih h with hc | hc
    · exact .inl hc
    · rcases mem_cons.mp hc with rfl | hc
      · exact .inl (isDigit_digit v)
      · exact .inr hc

/-- At most `n` digits are put in front. -/
theorem length_decimalLoop_le (n v : ℕ) (acc : List UInt8) :
    (decimalLoop n v acc).length ≤ n + acc.length ∧ acc.length ≤ (decimalLoop n v acc).length := by
  induction n generalizing v acc with
  | zero => exact ⟨by rw [decimalLoop, zero_add], le_rfl⟩
  | succ n ih =>
    rw [decimalLoop]
    split_ifs with hv
    · omega
    · have hlen := ih (v / 10) (UInt8.ofNat (48 + v % 10) :: acc)
      rw [length_cons] at hlen
      omega

/-- Reading the digits gives the number back. -/
theorem foldl_decimalLoop (acc : List UInt8) (hn : v < 10^n) (hv : v < 2^32) :
    (decimalLoop n v acc).foldl readDigit 0 = acc.foldl readDigit v := by
  induction n generalizing v acc with
  | zero =>
    obtain rfl : v = 0 := by simpa using hn
    rfl
  | succ n ih =>
    rw [decimalLoop]
    split_ifs with hzero
    · rw [hzero]
    have hdigit : readDigit (v / 10) (UInt8.ofNat (48 + v % 10)) = v := by
      rw [readDigit, toNat_digit]
      omega
    have hlt : v / 10 < 10^n := by
      omega
    rw [ih _ hlt (by omega), foldl_cons, hdigit]

/-- A number is printed in digits. -/
theorem isDigit_of_mem_ite (h : c ∈ if v = 0 then [48] else decimalLoop n v []) : isDigit c = true := by
  split_ifs at h with hv
  · rw [mem_singleton.mp h]
    rfl
  · rcases mem_decimalLoop h with hc | hc
    · exact hc
    · exact absurd hc not_mem_nil

/-- So is one of 32 bits. -/
theorem isDigit_of_mem_decimal (h : c ∈ decimal v) : isDigit c = true := isDigit_of_mem_ite h

/-- It has one to ten digits. -/
theorem length_decimal (v : ℕ) : 0 < (decimal v).length ∧ (decimal v).length ≤ 10 := by
  unfold decimal
  split_ifs with hv
  · exact ⟨one_pos, by decide⟩
  · have hle := (length_decimalLoop_le 10 v []).1
    have hpos := (length_decimalLoop_le 9 (v / 10) [UInt8.ofNat (48 + v % 10)]).2
    rw [decimalLoop, if_neg hv] at hle ⊢
    exact ⟨hpos, hle⟩

/-- It is read back. -/
theorem readDecimal_decimal (h : v < 2^32) : readDecimal (decimal v) = v := by
  have hall : (decimal v).takeWhile isDigit = decimal v :=
    takeWhile_eq_self_iff.mpr fun c hc => isDigit_of_mem_decimal hc
  rw [readDecimal, hall, decimal]
  split_ifs with hv
  · rw [hv]
    rfl
  · exact foldl_decimalLoop [] (by omega) h

/-- A number of any size in decimal. -/
def numeral (v : ℕ) : List UInt8 := if v = 0 then [48] else decimalLoop v v []

/-- The bound does not matter if it is large enough. -/
theorem decimalLoop_eq {m : ℕ} (acc : List UInt8) (hm : v < 10^m) (hn : v < 10^n) :
    decimalLoop m v acc = decimalLoop n v acc := by
  induction m generalizing n v acc with
  | zero =>
    obtain rfl : v = 0 := by simpa using hm
    cases n with
    | zero => rfl
    | succ n => rw [decimalLoop, decimalLoop, if_pos rfl]
  | succ m ih =>
    cases n with
    | zero =>
      obtain rfl : v = 0 := by simpa using hn
      exact if_pos rfl
    | succ n =>
      rw [pow_succ] at hm hn
      rw [decimalLoop, decimalLoop]
      split_ifs
      · rfl
      · exact ih _ (by omega) (by omega)

/-- For numbers of ten digits the two are the same. -/
theorem numeral_eq (h : v < 10^10) : numeral v = decimal v := by
  unfold numeral decimal
  split_ifs
  · rfl
  · exact decimalLoop_eq [] (Nat.lt_pow_self (by decide)) h

/-- A number of any size is printed in digits. -/
theorem isDigit_of_mem_numeral (h : c ∈ numeral v) : isDigit c = true := isDigit_of_mem_ite h

/-- A number below `10^k` has at most `k` digits. -/
theorem length_numeral {k : ℕ} (hk : 0 < k) (h : v < 10^k) : (numeral v).length ≤ k := by
  unfold numeral
  split_ifs
  · exact hk
  · rw [decimalLoop_eq [] (Nat.lt_pow_self (by decide)) h]
    exact (length_decimalLoop_le k v []).1

/-! ## Words -/

/-- Words with a blank between them. -/
def joined : List (List UInt8) → List UInt8
  | [] => []
  | [s] => s
  | s :: t :: ss => s ++ 32 :: joined (t :: ss)

/-! ## Hexadecimal -/

/-- A hexadecimal digit. -/
def hexDigit (n : ℕ) : UInt8 := UInt8.ofNat (if n < 10 then 48 + n else 87 + n)

/-- A number of 64 bits as sixteen digits. -/
def hex64 (v : ℕ) : List UInt8 := (List.range 16).map fun i => hexDigit (v / 16^(15 - i) % 16)

/-- The value of a digit. -/
def nibble (c : UInt8) : Option ℕ :=
  if 48 ≤ c ∧ c ≤ 57 then some (c.toNat - 48)
  else if 97 ≤ c ∧ c ≤ 102 then some (c.toNat - 87)
  else if 65 ≤ c ∧ c ≤ 70 then some (c.toNat - 55)
  else none

/-- The text begins with sixteen digits. -/
def isHex64 (s : List UInt8) : Bool := 16 ≤ s.length ∧ (s.take 16).all fun c => (nibble c).isSome

/-- The number that digits go on with, up to the first that is none. -/
def readHexLoop (v : ℕ) : List UInt8 → ℕ
  | [] => v
  | c :: s =>
    match nibble c with
    | none => v
    | some d => readHexLoop ((v * 16 + d) % 2^64) s

/-- The number of at most sixteen digits at the beginning of a text. -/
def readHex64 (s : List UInt8) : ℕ := readHexLoop 0 (s.take 16)

/-- The value of a digit that is printed. -/
theorem nibble_hexDigit (h : n < 16) : nibble (hexDigit n) = some n := by
  have hall : ∀ n < 16, nibble (hexDigit n) = some n := by decide
  exact hall n h

/-- It is no blank. -/
theorem isSpace_hexDigit (h : n < 16) : isSpace (hexDigit n) = false := by
  have hall : ∀ n < 16, isSpace (hexDigit n) = false := by decide
  exact hall n h

/-- A decimal digit is no blank. -/
theorem isSpace_of_isDigit (h : isDigit c = true) : isSpace c = false := by
  rw [Bool.eq_false_iff]
  intro hspace
  rcases of_decide_eq_true hspace with rfl | rfl | rfl | rfl
  · cases h
  · cases h
  · cases h
  · cases h

/-- There are sixteen digits. -/
@[simp] theorem length_hex64 (v : ℕ) : (hex64 v).length = 16 := by
  rw [hex64, length_map, length_range]

/-- All of them are digits. -/
theorem mem_hex64 (h : c ∈ hex64 v) : ∃ n < 16, c = hexDigit n := by
  obtain ⟨i, -, rfl⟩ := mem_map.mp h
  exact ⟨_, mod_lt _ (by decide), rfl⟩

/-- What is printed can be read. -/
theorem isHex64_hex64 (v : ℕ) : isHex64 (hex64 v) = true := by
  unfold isHex64
  rw [decide_eq_true_eq, length_hex64, take_of_length_le (length_hex64 v).le, all_eq_true]
  refine ⟨le_rfl, fun c hc => ?_⟩
  obtain ⟨n, hn, rfl⟩ := mem_hex64 hc
  rw [nibble_hexDigit hn]
  rfl

/-- Reading the digits from the `k`-th last on. -/
theorem readHexLoop_digits (v w k : ℕ) :
    readHexLoop w ((List.range k).map fun i => hexDigit (v / 16^(k - 1 - i) % 16)) % 2^64 =
      (w * 16^k + v % 16^k) % 2^64 := by
  induction k generalizing w with
  | zero => simp [readHexLoop, mod_one]
  | succ k ih =>
    have htail : (List.range (k + 1)).map (fun i => hexDigit (v / 16^(k + 1 - 1 - i) % 16)) =
        hexDigit (v / 16^k % 16) :: (List.range k).map fun i => hexDigit (v / 16^(k - 1 - i) % 16) := by
      rw [range_succ_eq_map, map_cons, map_map]
      congr 1
      apply map_congr_left
      intro i hi
      rw [Function.comp_apply, show k + 1 - 1 - (i + 1) = k - 1 - i by omega]
    have hsplit : v % 16^(k + 1) = v % 16^k + 16^k * (v / 16^k % 16) := by
      rw [pow_succ, mod_mul]
    rw [htail, readHexLoop, nibble_hexDigit (mod_lt _ (by decide))]
    rw [ih, hsplit, add_mod, mod_mul_mod, ← add_mod]
    congr 1
    ring

/-- What is read has 64 bits. -/
theorem readHexLoop_lt (s : List UInt8) (h : v < 2^64) : readHexLoop v s < 2^64 := by
  induction s generalizing v with
  | nil => exact h
  | cons c s ih =>
    rw [readHexLoop]
    split
    next => exact h
    next => exact ih (mod_lt _ (by decide))

/-- It is the number that was printed. -/
theorem readHex64_hex64 (h : v < 2^64) : readHex64 (hex64 v) = v := by
  have hloop := readHexLoop_digits v 0 16
  have hlt := readHexLoop_lt (hex64 v) (show 0 < 2^64 by decide)
  rw [readHex64, take_of_length_le (length_hex64 v).le]
  have hsame : (List.range 16).map (fun i => hexDigit (v / 16^(16 - 1 - i) % 16)) = hex64 v := rfl
  rw [hsame, mod_eq_of_lt hlt] at hloop
  rw [hloop]
  omega

end FreeAsd.Text
