import FreeAsd.Lib.Lists
import FreeAsd.Vfs.Canonical
import FreeAsd.Vfs.Ramfs
import Mathlib.Data.List.GetD
import Mathlib.Data.List.Nodup

/-!
# Listing a directory of the ramfs

An entry directly in the directory is listed well (`strAt_strncpy`). For one further down `ramfs_readdir` cuts
at the last separator (`slash_mem_of_cut`), so the list is good exactly if a child with an entry of its own
stands earlier in the table (`InOrderAt`, `readdir_iff`).
-/

namespace FreeAsd.Ramfs

open Function List

open Vfs (slash IsCanonical)

variable {t : Table} {f : Option ℕ} {cap i n : ℕ} {buf : ℕ → Dirent} {acc : (ℕ → Dirent) × ℕ}
  {dir path name a b c s : CStr} {d : Dirent}

/-! ## Names -/

theorem strrchr_eq_none {x : UInt8} (h : strrchr x s = none) : x ∉ s := by
  induction s with
  | nil => simp
  | cons y s ih =>
    unfold strrchr at h
    split at h
    · cases h
    · rename_i hs
      split_ifs at h with hy
      exact not_mem_cons_of_ne_of_not_mem (Ne.symm hy) (ih hs)

theorem strrchr_eq_some {x : UInt8} {k : ℕ} (h : strrchr x s = some k) :
    ∃ a b, s = a ++ x :: b ∧ a.length = k ∧ x ∉ b := by
  induction s generalizing k with
  | nil => exact absurd h (by simp [strrchr])
  | cons y s ih =>
    unfold strrchr at h
    split at h
    · rename_i i hs
      obtain ⟨a, b, rfl, hlen, hb⟩ := ih hs
      exact ⟨y :: a, b, rfl, by rw [length_cons, hlen]; exact Option.some.inj h, hb⟩
    · rename_i hs
      split_ifs at h with hy
      exact ⟨[], s, by rw [hy]; rfl, Option.some.inj h, strrchr_eq_none hs⟩

/-- A name that fits its buffer is copied with its terminator. -/
theorem strAt_strncpy (m : Mem) (h0 : 0 ∉ s) (hlen : s.length < nameLen) : StrAt (strncpy m s nameLen) 0 s := by
  refine ⟨spells_of_getD fun i hi => ?_, ?_, h0⟩
  · rw [zero_add, strncpy, if_pos (hi.trans hlen)]
  · rw [zero_add, strncpy, if_pos hlen, getD_eq_default _ _ le_rfl]

/-- The copy of a name up to its last separator is no string without a separator. -/
theorem slash_mem_of_cut {m : Mem} (h0 : 0 ∉ a ++ slash :: b)
    (h : StrAt (strncpy m (a ++ slash :: b) (a.length + 1)) 0 s) : slash ∈ s := by
  have hget : ∀ j ≤ a.length, strncpy m (a ++ slash :: b) (a.length + 1) j ∈ a ++ slash :: b := by
    intro j hj
    have hlt : j < (a ++ slash :: b).length := by
      rw [length_append, length_cons]
      omega
    rw [strncpy, if_pos (by omega), getD_eq_getElem _ _ hlt]
    exact getElem_mem hlt
  have hlong : a.length < s.length := by
    by_contra hle
    have hz := h.2.1
    rw [zero_add] at hz
    exact h0 (hz ▸ hget s.length (by omega))
  have hs := h.1.getD hlong
  rw [zero_add, strncpy, if_pos (Nat.lt_succ_self _), getD_eq_getElem s _ hlong] at hs
  have hslash : (a ++ slash :: b).getD a.length 0 = slash := by simp
  rw [← hslash, hs]
  exact getElem_mem hlong

/-- The test finds a name in the list. -/
theorem listed_iff (hs : StrAt d.name 0 s) (h0 : 0 ∉ a ++ slash :: b) :
    listed d (a ++ slash :: b) a.length = true ↔ s = a ∧ d.kind = .dir := by
  have hget : ∀ j < a.length, (a ++ slash :: b).getD j 0 = a.getD j 0 := fun j hj =>
    getD_append _ _ _ _ hj
  simp only [listed, Bool.and_eq_true, all_eq_true, mem_range, decide_eq_true_eq]
  constructor
  · rintro ⟨⟨hbytes, hend⟩, hkind⟩
    refine ⟨hs.unique ⟨spells_of_getD fun j hj => ?_, by rwa [zero_add], fun h => ?_⟩, hkind⟩
    · rw [zero_add, hbytes j hj, hget j hj]
    · exact h0 (mem_append_left _ h)
  · rintro ⟨rfl, hkind⟩
    refine ⟨⟨fun j hj => ?_, ?_⟩, hkind⟩
    · have hj' := hs.1.getD hj
      rwa [zero_add, ← hget j hj] at hj'
    · have hend := hs.2.1
      rwa [zero_add] at hend

/-! ## Contents -/

/-- The contents in question: distinct canonical absolute paths that fit into an entry. -/
structure Content (t : Table) : Prop where
  canonical : ∀ i < maxFiles, (t i).valid → IsCanonical (t i).path
  string : ∀ i < maxFiles, (t i).valid → 0 ∉ (t i).path ∧ (t i).path.length < nameLen
  distinct : ∀ i < maxFiles, ∀ j < maxFiles, (t i).valid → (t j).valid →
    (t i).path = (t j).path → i = j

/-- The root, or a directory with an entry. -/
def IsDir (t : Table) (f : Option ℕ) : Prop :=
  ∀ k ∈ f, k < maxFiles ∧ (t k).valid ∧ (t k).kind = .dir

/-- A path is that of the directory with a name after it. -/
def Below (dir path name : CStr) : Prop :=
  name ≠ [] ∧ path = (if dir = [slash] then [] else dir) ++ slash :: name

/-- `c` is the first component after the directory of some entry below it. -/
def Child (t : Table) (dir c : CStr) : Prop :=
  slash ∉ c ∧ ∃ i < maxFiles, (t i).valid ∧
    (Below dir (t i).path c ∨ ∃ rest, Below dir (t i).path (c ++ slash :: rest))

/-- The child is a directory entry or has entries below it. -/
def ChildIsDir (t : Table) (dir c : CStr) : Prop :=
  ∃ i < maxFiles, (t i).valid ∧
    (Below dir (t i).path c ∧ (t i).kind = .dir ∨ ∃ rest, Below dir (t i).path (c ++ slash :: rest))

/-- The buffer lists the children of the directory, each once. -/
structure Listing (t : Table) (dir : CStr) (buf : ℕ → Dirent) (count : ℕ) : Prop where
  terminated : ∀ j < count, ∃ c, StrAt (buf j).name 0 c ∧ c.length < nameLen
  names : ∀ c, (∃ j < count, StrAt (buf j).name 0 c) ↔ Child t dir c
  once : ∀ j < count, ∀ k < count, ∀ c, StrAt (buf j).name 0 c → StrAt (buf k).name 0 c → j = k
  kind : ∀ j < count, ∀ c, StrAt (buf j).name 0 c → ((buf j).kind = .dir ↔ ChildIsDir t dir c)

theorem relName_eq_some (hp : IsCanonical path) (hd : dir ≠ []) :
    relName dir path = some name ↔ Below dir path name := by
  unfold relName Below
  by_cases hroot : dir = [slash]
  · rw [if_pos hroot, if_pos hroot, nil_append]
    obtain ⟨rest, rfl⟩ : ∃ rest, path = slash :: rest := head?_eq_some_iff.mp hp.absolute
    rw [head?_cons, tail_cons, cons_inj_right]
    split_ifs with h
    · have hnil : rest = [] := h.resolve_left fun hne => hne rfl
      simp [hnil, eq_comm]
    · have hne : rest ≠ [] := fun e => h (.inr e)
      rw [Option.some.injEq]
      exact ⟨fun e => ⟨e ▸ hne, e⟩, fun e => e.2⟩
  · rw [if_neg hroot, if_neg hroot]
    constructor
    · intro h
      split_ifs at h with hpre
      obtain ⟨hpre, hhead⟩ := hpre
      obtain ⟨rest, rfl⟩ := isPrefixOf_iff_prefix.mp hpre
      rw [drop_left, head?_eq_some_iff] at hhead
      obtain ⟨rest, rfl⟩ := hhead
      obtain rfl : rest = name := by
        rw [← Option.some.inj h, ← drop_drop, drop_left]
        rfl
      refine ⟨fun hnil => ?_, rfl⟩
      -- The root is the only canonical path that ends with a separator.
      refine hp.trailing ?_ (by rw [hnil, getLast?_concat])
      rw [hnil]
      intro e
      exact hd (append_left_eq_self.mp (e.trans (nil_append _).symm))
    · rintro ⟨-, rfl⟩
      rw [if_pos ⟨List.isPrefixOf_iff_prefix.mpr (prefix_append _ _),
        by rw [drop_left]; rfl⟩, ← drop_drop, drop_left]
      rfl

section

variable (hc : Content t) (hs : IsDir t f)

include hc hs

theorem dirPath_ne_nil : dirPath t f ≠ [] := by
  cases f with
  | none => exact cons_ne_nil _ _
  | some k =>
    obtain ⟨hk, hv, -⟩ := hs k rfl
    intro e
    have hhead := (hc.canonical k hk hv).absolute
    rw [show (t k).path = [] from e] at hhead
    cases hhead

/-- The relative name is what the path has after that of the directory. -/
theorem entryName_eq_some (hi : i < maxFiles) :
    entryName t f i = some name ↔ (t i).valid ∧ Below (dirPath t f) (t i).path name := by
  unfold entryName
  by_cases hv : (t i).valid
  · have hrel : _ ↔ Below _ _ name := relName_eq_some (hc.canonical i hi hv) (dirPath_ne_nil hc hs)
    by_cases hself : f = some i
    · -- Nothing is below itself.
      rw [if_pos (.inr hself), hself]
      refine ⟨fun h => absurd h (by simp), ?_⟩
      rintro ⟨-, hne, hpath⟩
      change (t i).path = (if (t i).path = [slash] then [] else (t i).path) ++ slash :: name at hpath
      split_ifs at hpath with hroot
      · rw [hroot] at hpath
        exact absurd (List.cons.inj hpath).2.symm hne
      · have hlen := congrArg List.length hpath
        rw [length_append, length_cons] at hlen
        omega
    · rw [if_neg (by simp [hv, hself]), hrel]
      simp [hv]
  · rw [if_pos (.inl (by simpa using hv))]
    simp [hv]

theorem string_of_entryName (hi : i < maxFiles) (h : entryName t f i = some name) :
    0 ∉ name ∧ name.length < nameLen := by
  obtain ⟨hv, -, hpath⟩ := (entryName_eq_some hc hs hi).mp h
  obtain ⟨h0, hlen⟩ := hc.string i hi hv
  rw [hpath] at h0 hlen
  rw [length_append, length_cons] at hlen
  exact ⟨fun hz => h0 (mem_append_right _ (mem_cons_of_mem _ hz)), by omega⟩

/-- Entries with the same relative name are one entry. -/
theorem entryName_inj (hi : i < maxFiles) (hn : n < maxFiles) (h : entryName t f i = some name)
    (h' : entryName t f n = some name) : i = n := by
  obtain ⟨hv, -, hpath⟩ := (entryName_eq_some hc hs hi).mp h
  obtain ⟨hv', -, hpath'⟩ := (entryName_eq_some hc hs hn).mp h'
  exact hc.distinct i hi n hn hv hv' (hpath.trans hpath'.symm)

end

/-! ## The loop -/

/-- The entries among the first `n` that lie directly in the directory. -/
def directs (t : Table) (f : Option ℕ) (n : ℕ) : List ℕ :=
  (List.range n).filter fun i => (entryName t f i).any (slash ∉ ·)

theorem mem_directs : i ∈ directs t f n ↔ i < n ∧ ∃ name, entryName t f i = some name ∧ slash ∉ name := by
  simp [directs, Option.any_eq_true]

/-- An entry further down lies in a child that is a directory with an entry before it, directly in
this child or behind a list that fills the buffer. -/
def InOrderAt (t : Table) (f : Option ℕ) (cap i : ℕ) : Prop :=
  ∀ c rest, slash ∉ c → entryName t f i = some (c ++ slash :: rest) →
    (∃ j < i, entryName t f j = some c ∧ (t j).kind = .dir) ∧
      (slash ∉ rest ∨ cap ≤ (directs t f i).length)

/-- The buffer has room for all children. -/
def Room (t : Table) (dir : CStr) (cap : ℕ) : Prop :=
  ∀ cs : List CStr, cs.Nodup → (∀ c ∈ cs, Child t dir c) → cs.length ≤ cap

theorem length_directs_le (hc : Content t) (hs : IsDir t f) (hn : n ≤ maxFiles)
    (hroom : Room t (dirPath t f) cap) : (directs t f n).length ≤ cap := by
  have hname : ∀ i ∈ directs t f n, ∃ name, entryName t f i = some name ∧ slash ∉ name ∧
      (entryName t f i).getD [] = name := by
    intro i hi
    obtain ⟨-, name, he, hslash⟩ := mem_directs.mp hi
    exact ⟨name, he, hslash, by rw [he]; rfl⟩
  rw [← length_map (fun i => (entryName t f i).getD [])]
  refine hroom _ (List.Nodup.map_on ?_ (nodup_range.filter _)) ?_
  · intro i hi j hj e
    obtain ⟨name, he, -, hget⟩ := hname i hi
    obtain ⟨name', he', -, hget'⟩ := hname j hj
    obtain rfl : name = name' := hget.symm.trans (e.trans hget')
    exact entryName_inj hc hs ((mem_directs.mp hi).1.trans_le hn) ((mem_directs.mp hj).1.trans_le hn)
      he he'
  · intro c hmem
    obtain ⟨i, hi, rfl⟩ := mem_map.mp hmem
    obtain ⟨name, he, hslash, hget⟩ := hname i hi
    have hlt := (mem_directs.mp hi).1.trans_le hn
    obtain ⟨hv, hbelow⟩ := (entryName_eq_some hc hs hlt).mp he
    rw [hget]
    exact ⟨hslash, i, hlt, hv, .inl hbelow⟩

section

variable (t f cap buf)

/-- What an iteration does: nothing, or it fills the next slot. -/
theorem readdirStep_cases (acc : (ℕ → Dirent) × ℕ) (i : ℕ) :
    (readdirStep t f cap acc i = acc ∧ (cap ≤ acc.2 ∨ entryName t f i = none ∨
      ∃ a b, entryName t f i = some (a ++ slash :: b) ∧ slash ∉ b ∧
        ∃ j < acc.2, listed (acc.1 j) (a ++ slash :: b) a.length = true)) ∨
    acc.2 < cap ∧ ∃ d, readdirStep t f cap acc i = (update acc.1 acc.2 d, acc.2 + 1) ∧
      ((∃ a b, entryName t f i = some (a ++ slash :: b) ∧ slash ∉ b ∧
        (∀ j < acc.2, ¬listed (acc.1 j) (a ++ slash :: b) a.length = true) ∧
        d.name = strncpy (acc.1 acc.2).name (a ++ slash :: b) (a.length + 1)) ∨
      ∃ name, entryName t f i = some name ∧ slash ∉ name ∧ d.kind = (t i).kind ∧
        d.name = strncpy (acc.1 acc.2).name name nameLen) := by
  unfold readdirStep
  split_ifs with hfull
  · exact .inl ⟨rfl, .inl hfull⟩
  split
  · rename_i he
    exact .inl ⟨rfl, .inr (.inl he)⟩
  rename_i name he
  split
  · rename_i k hk
    obtain ⟨a, b, rfl, rfl, hb⟩ := strrchr_eq_some hk
    split_ifs with hany
    · simp only [any_eq_true, mem_range] at hany
      exact .inl ⟨rfl, .inr (.inr ⟨a, b, he, hb, hany⟩)⟩
    · simp only [any_eq_true, mem_range, not_exists, not_and] at hany
      exact .inr ⟨by omega, _, rfl, .inl ⟨a, b, he, hb, hany, rfl⟩⟩
  · rename_i hk
    exact .inr ⟨by omega, _, rfl, .inr ⟨name, he, strrchr_eq_none hk, rfl, rfl⟩⟩

theorem readdirLoop_succ (n : ℕ) :
    readdirLoop t f cap buf (n + 1) =
      readdirStep t f cap (readdirLoop t f cap buf n) n := by
  rw [readdirLoop, range_succ, foldl_append]
  rfl

/-- Slots that are filled stay as they are. -/
theorem readdirLoop_mono {m : ℕ} (h : m ≤ n) :
    (readdirLoop t f cap buf m).2 ≤ (readdirLoop t f cap buf n).2 ∧
      ∀ j < (readdirLoop t f cap buf m).2,
        (readdirLoop t f cap buf n).1 j = (readdirLoop t f cap buf m).1 j := by
  induction n, h using Nat.le_induction with
  | base => exact ⟨le_rfl, fun _ _ => rfl⟩
  | succ n _ ih =>
    rw [readdirLoop_succ]
    rcases readdirStep_cases t f cap (readdirLoop t f cap buf n) n with
      ⟨e, -⟩ | ⟨-, d, e, -⟩ <;> rw [e]
    · exact ih
    · refine ⟨ih.1.trans (Nat.le_succ _), fun j hj => ?_⟩
      rw [← ih.2 j hj]
      exact update_of_ne (by omega) ..

theorem readdirLoop_le_cap (n : ℕ) : (readdirLoop t f cap buf n).2 ≤ cap := by
  induction n with
  | zero => exact Nat.zero_le cap
  | succ n ih =>
    rw [readdirLoop_succ]
    rcases readdirStep_cases t f cap (readdirLoop t f cap buf n) n with
      ⟨e, -⟩ | ⟨hlt, d, e, -⟩ <;> rw [e]
    · exact ih
    · exact hlt

end

/-- A slot shows an entry that lies directly in the directory. -/
def Shown (t : Table) (f : Option ℕ) (d : Dirent) (i : ℕ) : Prop :=
  ∃ name, entryName t f i = some name ∧ slash ∉ name ∧ StrAt d.name 0 name ∧
    name.length < nameLen ∧ d.kind = (t i).kind

/-- The slots show the direct entries among the first `n`, in the order of the table. -/
structure Lists (t : Table) (f : Option ℕ) (n : ℕ) (acc : (ℕ → Dirent) × ℕ) : Prop where
  count : acc.2 = (directs t f n).length
  shown : ∀ j i, (directs t f n)[j]? = some i → Shown t f (acc.1 j) i

theorem Lists.exists_shown (h : Lists t f n acc) {j : ℕ} (hj : j < acc.2) :
    ∃ i ∈ directs t f n, (directs t f n)[j]? = some i ∧ Shown t f (acc.1 j) i := by
  have hj' : j < (directs t f n).length := h.count ▸ hj
  have he := getElem?_eq_getElem hj'
  exact ⟨_, getElem_mem hj', he, h.shown j _ he⟩

/-- A direct entry is shown by some slot. -/
theorem Lists.exists_slot (h : Lists t f n acc) (hi : i < n)
    (he : entryName t f i = some name) (hslash : slash ∉ name) :
    ∃ j < acc.2, StrAt (acc.1 j).name 0 name ∧ (acc.1 j).kind = (t i).kind := by
  obtain ⟨j, hj, hget⟩ := getElem_of_mem (mem_directs.mpr ⟨hi, name, he, hslash⟩)
  obtain ⟨name', he', -, hstr, -, hkind⟩ := h.shown j i (by rw [getElem?_eq_getElem hj, hget])
  obtain rfl : name = name' := Option.some.inj (he.symm.trans he')
  exact ⟨j, h.count ▸ hj, hstr, hkind⟩

/-- The entry that a slot with a name shows. -/
theorem Lists.entry_of_strAt (h : Lists t f n acc) {j : ℕ} (hj : j < acc.2)
    (hstr : StrAt (acc.1 j).name 0 c) : ∃ i < n, (directs t f n)[j]? = some i ∧
      entryName t f i = some c ∧ slash ∉ c ∧ (acc.1 j).kind = (t i).kind := by
  obtain ⟨i, hmem, hget, name, he, hslash, hname, -, hkind⟩ := h.exists_shown hj
  obtain rfl := hname.unique hstr
  exact ⟨i, (mem_directs.mp hmem).1, hget, he, hslash, hkind⟩

section

variable (hc : Content t) (hs : IsDir t f) (hroom : Room t (dirPath t f) cap)

include hc hs hroom

/-- An iteration over an entry in order. -/
theorem Lists.step (h : Lists t f n acc) (hn : n < maxFiles) (ho : InOrderAt t f cap n) :
    Lists t f (n + 1) (readdirStep t f cap acc n) := by
  have hsucc : directs t f (n + 1) = directs t f n ++
      if (entryName t f n).any (slash ∉ ·) then [n] else [] := by
    rw [directs, range_succ, filter_append, filter_singleton, Bool.cond_eq_ite]
    rfl
  have hskip : ¬(entryName t f n).any (slash ∉ ·) = true → Lists t f (n + 1) acc := by
    intro hno
    rw [if_neg hno, append_nil] at hsucc
    exact ⟨hsucc ▸ h.count, hsucc ▸ h.shown⟩
  rcases readdirStep_cases t f cap acc n with ⟨e, hwhy⟩ | ⟨hlt, d, e, hwhat⟩ <;> rw [e]
  · refine hskip fun hyes => ?_
    rcases hwhy with hfull | hnone | ⟨a, b, he, -⟩
    · -- There is a slot for every direct entry.
      have hle := length_directs_le hc hs (Nat.succ_le_of_lt hn) hroom
      rw [hsucc, if_pos hyes, length_append, ← h.count, length_singleton] at hle
      omega
    · rw [hnone] at hyes
      cases hyes
    · rw [he] at hyes
      exact absurd hyes (by simp)
  rcases hwhat with ⟨a, b, he, hb, hnot, -⟩ | ⟨name, he, hslash, hkind, hname⟩
  · -- The list has the parent of the entry, so that the loop does not come here.
    obtain ⟨c, rest, hsplit, hfirst⟩ := eq_append_cons_of_mem (show slash ∈ a ++ slash :: b by simp)
    obtain ⟨⟨j, hj, hje, hdir⟩, hdeep⟩ := ho c rest hfirst (hsplit ▸ he)
    have hrest : slash ∉ rest := hdeep.resolve_right fun hle => by rw [← h.count] at hle; omega
    obtain ⟨rfl, -, rfl⟩ := (append_cons_inj_of_notMem hfirst hrest).mp hsplit.symm
    obtain ⟨k, hk, hstr, hkind⟩ := h.exists_slot hj hje hfirst
    exact absurd ((listed_iff hstr (string_of_entryName hc hs hn he).1).mpr ⟨rfl, hkind.trans hdir⟩) (hnot k hk)
  · have hyes : (entryName t f n).any (slash ∉ ·) = true := by simp [he, hslash]
    rw [if_pos hyes] at hsucc
    refine ⟨by rw [hsucc, length_append, ← h.count]; rfl, fun j i hj => ?_⟩
    rw [hsucc, getElem?_concat_eq_some, ← h.count] at hj
    dsimp only
    rcases hj with hj | ⟨rfl, rfl⟩
    · have hlt := (List.getElem?_eq_some_iff.mp hj).1
      rw [update_of_ne (h.count ▸ hlt.ne)]
      exact h.shown j i hj
    · obtain ⟨h0, hlen⟩ := string_of_entryName hc hs hn he
      rw [update_self]
      exact ⟨name, he, hslash, hname ▸ strAt_strncpy _ h0 hlen, hlen, hkind⟩

theorem Lists.loop (buf : ℕ → Dirent) (hn : n ≤ maxFiles) (ho : ∀ i < n, InOrderAt t f cap i) :
    Lists t f n (readdirLoop t f cap buf n) := by
  induction n with
  | zero => exact ⟨rfl, fun j i h => absurd h (by simp [directs])⟩
  | succ n ih =>
    rw [readdirLoop_succ]
    exact (ih (by omega) fun i hi => ho i (by omega)).step hc hs hroom hn (ho n (by omega))

/-! ## The list -/

/-- The first entry that is not in order spoils the list. -/
theorem inOrderAt_of_listing
    (hl : Listing t (dirPath t f) (readdirLoop t f cap buf maxFiles).1 (readdirLoop t f cap buf maxFiles).2)
    (hi : i < maxFiles) : InOrderAt t f cap i := by
  induction i using Nat.strong_induction_on with
  | _ i ih =>
    intro c rest hfirst he
    have h := Lists.loop hc hs hroom buf hi.le fun j hj => ih j hj (hj.trans hi)
    have hmono := readdirLoop_mono t f cap buf hi.le
    have hslot := readdirLoop_mono t f cap buf (Nat.succ_le_of_lt hi)
    rw [readdirLoop_succ] at hslot
    obtain ⟨hv, hbelow⟩ := (entryName_eq_some hc hs hi).mp he
    have hcases := readdirStep_cases t f cap (readdirLoop t f cap buf i) i
    have hcap := readdirLoop_le_cap t f cap buf maxFiles
    generalize readdirLoop t f cap buf maxFiles = out at *
    generalize readdirLoop t f cap buf i = acc at *
    by_cases hfull : cap ≤ acc.2
    · -- The list is complete here, so that the child has been listed.
      obtain ⟨j, hj, hstr⟩ := (hl.names c).mpr ⟨hfirst, i, hi, hv, .inr ⟨rest, hbelow⟩⟩
      have hdir := (hl.kind j hj c hstr).mpr ⟨i, hi, hv, .inr ⟨rest, hbelow⟩⟩
      have hj : j < acc.2 := hj.trans_le (hcap.trans hfull)
      rw [hmono.2 j hj] at hstr hdir
      obtain ⟨k, hk, -, hke, -, hkind⟩ := h.entry_of_strAt hj hstr
      exact ⟨⟨k, hk, hke, hkind.symm.trans hdir⟩, .inr (h.count ▸ hfull)⟩
    rcases hcases with ⟨-, hfull' | hnone | ⟨a, b, he', hb, j, hj, hlisted⟩⟩ | ⟨-, d, e, hwhat⟩
    · exact absurd hfull' hfull
    · cases hnone.symm.trans he
    · obtain ⟨k, hmem, -, name, hke, hslash, hstr, -, hkind⟩ := h.exists_shown hj
      obtain ⟨rfl, hdir⟩ := (listed_iff hstr (string_of_entryName hc hs hi he').1).mp hlisted
      obtain ⟨rfl, -, rfl⟩ := (append_cons_inj_of_notMem hslash hb).mp (Option.some.inj (he'.symm.trans he))
      exact ⟨⟨k, (mem_directs.mp hmem).1, hke, hkind.symm.trans hdir⟩, .inl hb⟩
    rw [e] at hslot
    have hj : acc.2 < out.2 := hslot.1
    have hd : out.1 acc.2 = d := (hslot.2 _ (Nat.lt_succ_self _)).trans (update_self ..)
    rcases hwhat with ⟨a, b, he', -, -, hname⟩ | ⟨name, he', hslash, -⟩
    · -- The name that was cut is not that of a child.
      obtain ⟨s, hstr, -⟩ := hl.terminated _ hj
      have hchild := (hl.names s).mp ⟨_, hj, hstr⟩
      rw [hd, hname] at hstr
      exact absurd (slash_mem_of_cut (string_of_entryName hc hs hi he').1 hstr) hchild.1
    · obtain rfl := Option.some.inj (he'.symm.trans he)
      exact absurd (mem_append_right _ mem_cons_self) hslash

end

/-- Where all entries are in order, the direct ones are the children. -/
theorem Lists.listing (h : Lists t f maxFiles acc) (hc : Content t) (hs : IsDir t f)
    (ho : ∀ i < maxFiles, InOrderAt t f cap i) : Listing t (dirPath t f) acc.1 acc.2 := by
  have hname : ∀ i < maxFiles, ∀ name, (t i).valid ∧ Below (dirPath t f) (t i).path name →
      entryName t f i = some name := fun i hi name => (entryName_eq_some hc hs hi).mpr
  refine ⟨fun j hj => ?_, fun c => ⟨?_, ?_⟩, ?_, fun j hj c hstr => ?_⟩
  · obtain ⟨-, -, -, name, -, -, hstr, hlen, -⟩ := h.exists_shown hj
    exact ⟨name, hstr, hlen⟩
  · rintro ⟨j, hj, hstr⟩
    obtain ⟨i, hi, -, he, hslash, -⟩ := h.entry_of_strAt hj hstr
    obtain ⟨hv, hbelow⟩ := (entryName_eq_some hc hs hi).mp he
    exact ⟨hslash, i, hi, hv, .inl hbelow⟩
  · rintro ⟨hslash, i, hi, hv, hbelow⟩
    obtain ⟨k, hk, hke⟩ : ∃ k < maxFiles, entryName t f k = some c := by
      rcases hbelow with hbelow | ⟨rest, hbelow⟩
      · exact ⟨i, hi, hname i hi c ⟨hv, hbelow⟩⟩
      · obtain ⟨⟨k, hk, hke, -⟩, -⟩ := ho i hi c rest hslash (hname i hi _ ⟨hv, hbelow⟩)
        exact ⟨k, hk.trans hi, hke⟩
    obtain ⟨j, hj, hstr, -⟩ := h.exists_slot hk hke hslash
    exact ⟨j, hj, hstr⟩
  · intro j hj k hk c hstr hstr'
    obtain ⟨i, hi, hget, he, -⟩ := h.entry_of_strAt hj hstr
    obtain ⟨i', hi', hget', he', -⟩ := h.entry_of_strAt hk hstr'
    obtain rfl := entryName_inj hc hs hi hi' he he'
    exact (getElem?_inj (h.count ▸ hj) (nodup_range.filter _)).mp (hget.trans hget'.symm)
  · obtain ⟨i, hi, -, he, hslash, hkind⟩ := h.entry_of_strAt hj hstr
    obtain ⟨hv, hbelow⟩ := (entryName_eq_some hc hs hi).mp he
    rw [hkind]
    refine ⟨fun hdir => ⟨i, hi, hv, .inl ⟨hbelow, hdir⟩⟩, ?_⟩
    rintro ⟨k, hk, hv', ⟨hbelow', hdir⟩ | ⟨rest, hbelow'⟩⟩
    · obtain rfl := entryName_inj hc hs hi hk he (hname k hk c ⟨hv', hbelow'⟩)
      exact hdir
    · obtain ⟨⟨l, hl, hle, hdir⟩, -⟩ := ho k hk c rest hslash (hname k hk _ ⟨hv', hbelow'⟩)
      obtain rfl := entryName_inj hc hs hi (hl.trans hk) he hle
      exact hdir

/-- A buffer with room for the children gets the list of the children if and only if every entry
further down is in order. -/
theorem readdir_iff (t : Table) (f : Option ℕ) (cap : ℕ) (buf : ℕ → Dirent) (hc : Content t)
    (hs : IsDir t f) (hroom : Room t (dirPath t f) cap) :
    Listing t (dirPath t f) (ramfsReaddir t f cap buf).1 (ramfsReaddir t f cap buf).2 ↔
      ∀ i < maxFiles, InOrderAt t f cap i :=
  ⟨fun hl _ hi => inOrderAt_of_listing hc hs hroom hl hi,
    fun ho => (Lists.loop hc hs hroom buf le_rfl ho).listing hc hs ho⟩

/-- The table with the one file `/a/b`. -/
def nested : Table := Function.update Table.empty 0 ⟨cstr "/a/b", [], .file, true⟩

/-- The table with the directory `/a` before that file. -/
def ordered : Table :=
  Function.update (Function.update Table.empty 0 ⟨cstr "/a", [], .dir, true⟩) 1
    ⟨cstr "/a/b", [], .file, true⟩

/-- Every entry has one of these two paths, and no two have the same. -/
structure TwoPaths (t : Table) : Prop where
  path : ∀ i, (t i).valid → (t i).path = cstr "/a" ∨ (t i).path = cstr "/a/b"
  inj : ∀ i j, (t i).valid → (t j).valid → (t i).path = (t j).path → i = j

theorem nested_valid (h : (nested i).valid) : i = 0 := by
  by_contra hne
  rw [nested, update_of_ne hne] at h
  exact absurd h (by simp [Table.empty])

theorem ordered_valid (h : (ordered i).valid) : i = 0 ∨ i = 1 := by
  by_contra hne
  rw [not_or] at hne
  rw [ordered, update_of_ne hne.2, update_of_ne hne.1] at h
  exact absurd h (by simp [Table.empty])

theorem twoPaths_nested : TwoPaths nested := by
  refine ⟨fun i h => .inr ?_, fun i j h h' _ => ?_⟩
  · rw [nested_valid h]
    rfl
  · rw [nested_valid h, nested_valid h']

theorem twoPaths_ordered : TwoPaths ordered := by
  refine ⟨fun i h => ?_, fun i j h h' => ?_⟩
  · rcases ordered_valid h with rfl | rfl
    · exact .inl rfl
    · exact .inr rfl
  · rcases ordered_valid h with rfl | rfl <;> rcases ordered_valid h' with rfl | rfl <;> decide

/-- The paths are canonical and fit. -/
theorem TwoPaths.content {t : Table} (h : TwoPaths t) : Content t := by
  have hproper : ∀ seg ∈ [cstr "a", cstr "b"], Proper Vfs.dot seg ∧ slash ∉ seg := by
    intro seg hseg
    simp only [mem_cons, not_mem_nil, or_false] at hseg
    rcases hseg with rfl | rfl <;> exact ⟨⟨by decide, by decide, by decide⟩, by decide⟩
  have hone : ∀ seg ∈ [cstr "a"], Proper Vfs.dot seg ∧ slash ∉ seg := fun seg hseg =>
    hproper seg (mem_cons.mpr (.inl (mem_singleton.mp hseg)))
  refine ⟨fun i _ hv => ?_, fun i _ hv => ?_, fun i _ j _ hv hv' => h.inj i j hv hv'⟩
  · rcases h.path i hv with e | e <;> rw [e]
    · exact Vfs.isCanonical_render hone
    · exact Vfs.isCanonical_render hproper
  · rcases h.path i hv with e | e <;> rw [e] <;> exact ⟨by decide, by decide⟩

/-- The root has one child. -/
theorem TwoPaths.room {t : Table} (h : TwoPaths t) : Room t [slash] 1 := by
  have hchild : ∀ c, Child t [slash] c → c = cstr "a" := by
    rintro c ⟨hslash, i, -, hv, hbelow⟩
    rcases hbelow with ⟨-, hpath⟩ | ⟨rest, -, hpath⟩ <;> rcases h.path i hv with e | e <;>
      rw [e] at hpath <;> have hname := (List.cons.inj hpath).2
    · exact hname.symm
    · exact absurd (hname ▸ (by decide : slash ∈ cstr "a/b")) hslash
    · have hname : cstr "a" = c ++ slash :: rest := hname
      exact absurd (hname ▸ mem_append_right c mem_cons_self) (by decide : slash ∉ cstr "a")
    · have hname : cstr "a" ++ slash :: cstr "b" = c ++ slash :: rest := hname
      exact ((append_cons_inj_of_notMem (by decide) (by decide)).mp hname).1.symm
  intro cs hnodup hcs
  rcases cs with - | ⟨c, - | ⟨c', cs⟩⟩
  · exact Nat.zero_le 1
  · exact le_rfl
  · have hsame := (hchild c (hcs c (by simp))).trans (hchild c' (hcs c' (by simp))).symm
    exact absurd hnodup (by simp [hsame])

/-- A buffer of zeros. -/
def blank : ℕ → Dirent := fun _ => ⟨fun _ => 0, .file, 0⟩

/-- The second table is in order, and the listing of its root is right. -/
theorem readdir_iff_ordered :
    Listing ordered [slash] (ramfsReaddir ordered none 1 blank).1 (ramfsReaddir ordered none 1 blank).2 := by
  refine (readdir_iff ordered none 1 blank twoPaths_ordered.content (by simp [IsDir])
    twoPaths_ordered.room).mpr fun i _ c rest hslash hname => ?_
  have hv : (ordered i).valid := by
    by_contra hv
    rw [entryName, if_pos (.inl (Bool.eq_false_iff.mpr hv))] at hname
    cases hname
  rcases ordered_valid hv with rfl | rfl
  · have hfirst : cstr "a" = c ++ slash :: rest := Option.some.inj hname
    exact absurd (hfirst ▸ mem_append_right c mem_cons_self) (by decide : slash ∉ cstr "a")
  · have hsplit : cstr "a" ++ slash :: cstr "b" = c ++ slash :: rest := Option.some.inj hname
    obtain ⟨rfl, -, rfl⟩ := (append_cons_inj_of_notMem (by decide) (by decide)).mp hsplit
    exact ⟨⟨0, by decide, rfl, rfl⟩, .inl (by decide)⟩

/-- In the first one it is not: the listing of the root is `a/`. -/
theorem nested_not_listing : Content nested ∧ IsDir nested none ∧ Room nested [slash] 1 ∧
    ¬Listing nested [slash] (ramfsReaddir nested none 1 blank).1
      (ramfsReaddir nested none 1 blank).2 := by
  refine ⟨twoPaths_nested.content, by simp [IsDir], twoPaths_nested.room, fun hl => ?_⟩
  have hstr : StrAt ((ramfsReaddir nested none 1 blank).1 0).name 0 (cstr "a/") := by
    refine ⟨⟨?_, ?_, trivial⟩, ?_, by decide⟩ <;> decide +kernel
  have hchild := (hl.names (cstr "a/")).mp ⟨0, by decide +kernel, hstr⟩
  exact hchild.1 (by decide)

end FreeAsd.Ramfs
