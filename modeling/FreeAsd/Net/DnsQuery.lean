import FreeAsd.Lib.LexicalPath
import FreeAsd.Net.Tcp
import Mathlib.Data.List.TakeWhile

/-!
# DNS queries

`dns_build_query` writes a query for a host name. A reader takes the labels apart by their lengths
(`decodeName`), so the message asks for the host name where every length fits into the six bits of RFC 1035
and none is 0 (`query_iff`). The code checks neither, and a name without labels is not checked at all.
-/

namespace FreeAsd.Dns

open List Tcp

/-- The character between two labels. -/
def dot : UInt8 := 46

/-! ## The query -/

/-- The header that `dns_build_query` writes, with `DNS_QUERY_ID`, the flag for recursion and one
question. -/
def header : List UInt8 := [0xAB, 0xCD, 1, 0, 0, 1, 0, 0, 0, 0, 0, 0]

/-- A label as it is written: the length is cut to a byte. -/
def encodeLabel (label : CStr) : List UInt8 := UInt8.ofNat label.length :: label

/-- The loop over the labels, on what is left of the name and what has been written. The first argument
bounds the rounds; a round takes at least one character. -/
def labelLoop (cap : ℤ) : ℕ → CStr → List UInt8 → Option (List UInt8)
  | 0, _, buf => some buf
  | n + 1, p, buf =>
    if p = [] then some buf
    else
      let label := p.takeWhile (· ≠ dot)
      if (buf.length : ℤ) + 1 + label.length + 4 ≥ cap then none
      else labelLoop cap n ((p.dropWhile (· ≠ dot)).drop 1) (buf ++ encodeLabel label)

/-- `dns_build_query`: what it has written to the beginning of the buffer when it succeeds. -/
def dnsBuildQuery (host : CStr) (cap : ℤ) : Option (List UInt8) :=
  if cap < 12 then none
  else (labelLoop cap host.length host header).map (· ++ [0, 0, 1, 0, 1])

/-! ## Its meaning -/

/-- The parts of a name between dots. One dot at the end is ignored. -/
def components (host : CStr) : List CStr :=
  if (host.splitOn dot).getLast? = some [] then (host.splitOn dot).dropLast else host.splitOn dot

/-- The labels that a name in a message begins with, and what follows the name. -/
def decodeName : ℕ → List UInt8 → Option (List CStr × List UInt8)
  | n + 1, len :: rest =>
    if len = 0 then some ([], rest)
    else if len.toNat > 63 ∨ len.toNat > rest.length then none
    else (decodeName n (rest.drop len.toNat)).map fun r => (rest.take len.toNat :: r.1, r.2)
  | _, _ => none

/-- A question. -/
structure Question where
  qname : List CStr
  qtype : ℕ
  qclass : ℕ
deriving DecidableEq

/-- The question of a message that counts one question and no other entries. -/
def decodeQuery (msg : List UInt8) : Option Question :=
  if beNum msg 4 2 = 1 ∧ beNum msg 6 6 = 0 then do
    let (qname, rest) ← decodeName msg.length (msg.drop 12)
    if rest.length ≥ 4 then some ⟨qname, beNum rest 0 2, beNum rest 2 2⟩ else none
  else none

/-- A label has 1 to 63 bytes. -/
def LabelOk (label : CStr) : Prop := 1 ≤ label.length ∧ label.length ≤ 63

instance : DecidablePred LabelOk := fun _ => inferInstanceAs (Decidable (_ ∧ _))

/-! ## Building and decoding -/

theorem splitOn_eq (host : CStr) : host.splitOn dot = host.takeWhile (· ≠ dot) ::
    if dot ∈ host then ((host.dropWhile (· ≠ dot)).drop 1).splitOn dot else [] := by
  induction host with
  | nil => simp
  | cons c host ih =>
    by_cases hc : c = dot
    · rw [hc, splitOn_cons_self]
      simp
    · rw [splitOn_cons_eq_if_modifyHead, ih]
      simp [hc, Ne.symm hc]

/-- The parts of a name are found one by one. -/
theorem components_of_ne {host : CStr} (h : host ≠ []) : components host =
    host.takeWhile (· ≠ dot) :: components ((host.dropWhile (· ≠ dot)).drop 1) := by
  rw [components, splitOn_eq]
  by_cases hmem : dot ∈ host
  · rw [if_pos hmem, components]
    obtain ⟨seg, segs, hsplit⟩ := exists_cons_of_ne_nil (splitOn_ne_nil dot ((host.dropWhile (· ≠ dot)).drop 1))
    rw [hsplit, getLast?_cons_cons, dropLast_cons_cons]
    split_ifs <;> rfl
  · have hall := decide_ne_of_notMem hmem
    rw [if_neg hmem, dropWhile_eq_nil_iff.mpr hall, takeWhile_eq_self_iff.mpr hall]
    simp [components, h]

/-- The loop writes the labels, and what is left to be written fits behind the last one. -/
theorem labelLoop_some {cap : ℤ} {n : ℕ} {p : CStr} {buf out : List UInt8} (hn : p.length ≤ n)
    (h : labelLoop cap n p buf = some out) :
    out = buf ++ (components p).flatMap encodeLabel ∧ (p ≠ [] → (out.length : ℤ) + 4 < cap) := by
  induction n generalizing p buf with
  | zero =>
    obtain rfl := length_eq_zero_iff.mp (Nat.le_zero.mp hn)
    cases h
    exact ⟨(append_nil _).symm, fun hp => absurd rfl hp⟩
  | succ n ih =>
    rw [labelLoop] at h
    dsimp only at h
    split_ifs at h with hp hroom
    · cases h
      rw [hp]
      exact ⟨(append_nil _).symm, fun hp => absurd rfl hp⟩
    have hshort : ((p.dropWhile (· ≠ dot)).drop 1).length ≤ n := by
      have hle := (dropWhile_sublist (· ≠ dot) (l := p)).length_le
      rw [length_drop]
      omega
    obtain ⟨hout, hfits⟩ := ih hshort h
    rw [components_of_ne hp, flatMap_cons, ← append_assoc]
    refine ⟨hout, fun _ => ?_⟩
    by_cases hrest : (p.dropWhile (· ≠ dot)).drop 1 = []
    · have hnil : (components []).flatMap encodeLabel = [] := rfl
      rw [hout, hrest, hnil, append_nil, length_append, encodeLabel, length_cons]
      omega
    · exact hfits hrest

/-- Labels of the right lengths are found again. -/
theorem decodeName_encode {labels : List CStr} (h : ∀ l ∈ labels, LabelOk l) (rest : List UInt8) {n : ℕ}
    (hn : (labels.flatMap encodeLabel).length < n) :
    decodeName n (labels.flatMap encodeLabel ++ 0 :: rest) = some (labels, rest) := by
  induction labels generalizing n with
  | nil =>
    obtain ⟨n, rfl⟩ := Nat.exists_eq_succ_of_ne_zero (Nat.ne_zero_of_lt hn)
    rfl
  | cons l labels ih =>
    obtain ⟨n, rfl⟩ := Nat.exists_eq_succ_of_ne_zero (Nat.ne_zero_of_lt hn)
    obtain ⟨hpos, hle⟩ := h l mem_cons_self
    have hlen : (UInt8.ofNat l.length).toNat = l.length := by
      rw [UInt8.toNat_ofNat']
      omega
    have hne : UInt8.ofNat l.length ≠ 0 := fun e => by
      rw [e] at hlen
      exact absurd hlen.symm (ne_of_gt hpos)
    rw [flatMap_cons, encodeLabel, length_append, length_cons] at hn
    rw [flatMap_cons, encodeLabel, append_assoc, cons_append, decodeName, if_neg hne, hlen,
      if_neg (by rw [length_append]; omega), drop_left, take_left,
      ih (forall_mem_cons.mp h).2 (by omega)]
    rfl

/-- Labels that are found have the right lengths. -/
theorem decodeName_ok {n : ℕ} {msg : List UInt8} {r : List CStr × List UInt8}
    (h : decodeName n msg = some r) : ∀ l ∈ r.1, LabelOk l := by
  fun_induction decodeName n msg generalizing r with
  | case1 n rest =>
    cases h
    simp
  | case2 n len rest hne hlong => cases h
  | case3 n len rest hne hlong ih =>
    obtain ⟨r, hr, rfl⟩ := Option.map_eq_some_iff.mp h
    have hpos : len.toNat ≠ 0 := fun e => hne (UInt8.toNat_inj.mp e)
    refine forall_mem_cons.mpr ⟨?_, ih hr⟩
    rw [LabelOk, length_take]
    omega
  | case4 => cases h

theorem qname_ok {msg : List UInt8} {q : Question} (h : decodeQuery msg = some q) :
    ∀ l ∈ q.qname, LabelOk l := by
  rw [decodeQuery] at h
  split_ifs at h
  obtain ⟨⟨qname, rest⟩, hname, h⟩ := Option.bind_eq_some_iff.mp h
  dsimp only at h
  split_ifs at h
  cases h
  exact decodeName_ok hname

/-- A query is within the buffer and asks for the address of the host if and only if all the parts of the
name have 1 to 63 bytes and there is room for the query of an empty name. -/
theorem query_iff {host : CStr} {cap : ℤ} {msg : List UInt8} (h : dnsBuildQuery host cap = some msg) :
    msg.length ≤ cap ∧ decodeQuery msg = some ⟨components host, 1, 1⟩ ↔
      (host = [] → 17 ≤ cap) ∧ ∀ l ∈ components host, LabelOk l := by
  rw [dnsBuildQuery] at h
  split_ifs at h
  obtain ⟨out, hloop, rfl⟩ := Option.map_eq_some_iff.mp h
  obtain ⟨hout, hfits⟩ := labelLoop_some le_rfl hloop
  rw [hout] at hfits ⊢
  rw [append_assoc]
  have hlen : host = [] → (components host).flatMap encodeLabel = [] := by
    rintro rfl
    rfl
  constructor
  · rintro ⟨hle, hdecode⟩
    refine ⟨fun hnil => ?_, ?_⟩
    · rw [hlen hnil] at hle
      exact hle
    · exact qname_ok hdecode
  · rintro ⟨hcap, hok⟩
    refine ⟨?_, ?_⟩
    · by_cases hnil : host = []
      · rw [hlen hnil]
        exact hcap hnil
      · have := hfits hnil
        simp only [length_append, length_cons, length_nil] at this ⊢
        omega
    · rw [decodeQuery, if_pos ⟨rfl, rfl⟩, drop_left' (show header.length = 12 from rfl),
        decodeName_encode hok _ (by simp only [length_append, length_cons]; omega)]
      rfl

/-- A name with two labels is found again. -/
theorem query_iff_two : ∃ msg, dnsBuildQuery (cstr "a.bc") 256 = some msg ∧ msg.length ≤ 256 ∧
    decodeQuery msg = some ⟨[cstr "a", cstr "bc"], 1, 1⟩ := by
  obtain ⟨hle, hdecode⟩ := (@query_iff (cstr "a.bc") 256 _ rfl).mpr ⟨by decide, by decide⟩
  exact ⟨_, rfl, Int.ofNat_le.mp hle, hdecode⟩

/-- The name ends where two dots are next to each other: the query is for another host, and the label
behind them is read as the type. -/
theorem query_two_dots : ∃ msg, dnsBuildQuery (cstr "a..b") 256 = some msg ∧
    decodeQuery msg = some ⟨[cstr "a"], 354, 0⟩ := ⟨_, rfl, by decide⟩

end FreeAsd.Dns
