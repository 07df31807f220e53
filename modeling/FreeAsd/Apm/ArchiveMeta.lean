import FreeAsd.Apm.KeyValue
import Mathlib.Algebra.Group.Action.Defs
import Mathlib.Algebra.Order.BigOperators.Group.List

/-!
# The metadata of an archive

What `pkg_parse` makes of the text that `build_apkg` put into an archive: the record carries the strings
of the package exactly if they fit (`carries_iff`).
-/

namespace FreeAsd.Apm

open Text List

/-! ## What is recorded -/

/-- The strings of a package fit the record, and are lines of their own. -/
structure Package.MetaFits (pkg : Package) : Prop where
  name : Clean pkg.name ∧ pkg.name.length ≤ 63
  version : Clean pkg.version ∧ pkg.version.length ≤ 31
  arch : Clean pkg.arch ∧ pkg.arch.length ≤ 15
  description : Clean pkg.description ∧ pkg.description.length ≤ 255
  filename : Clean pkg.filename ∧ pkg.filename.length ≤ 115
  depends : (∀ d ∈ pkg.depends, DepWord d ∧ Clean d) ∧ pkg.depends.length ≤ maxDeps ∧
    (joined pkg.depends).length ≤ 511

/-- A record has the strings of a package. -/
structure Carries (p : PkgInfo) (pkg : Package) : Prop where
  name : p.name = pkg.name
  version : p.version = pkg.version
  arch : p.arch = pkg.arch
  description : p.description = pkg.description
  filename : p.filename = pkg.filename
  depends : p.depends = pkg.depends

/-! ## Digits -/

theorem clean_of_isDigit {s : CStr} (h : ∀ c ∈ s, isDigit c = true) : Clean s := by
  intro c hc
  have hdigit := h c hc
  refine ⟨?_, ?_, ?_⟩
  · rintro rfl
    cases hdigit
  · rintro rfl
    cases hdigit
  · rintro rfl
    cases hdigit

theorem clean_numeral (v : ℕ) : Clean (numeral v) := clean_of_isDigit fun _ => isDigit_of_mem_numeral

theorem clean_cksum (digest : Digest) (bytes : List UInt8) : Clean (cksum digest bytes) := by
  have hhex : ∀ n < 16, hexDigit n ≠ 0 ∧ hexDigit n ≠ 10 ∧ hexDigit n ≠ 13 := by decide
  intro c hc
  rcases mem_append.mp hc with hc | hc
  · have hclean : Clean (cstr "sha256:") := by decide
    exact hclean c hc
  obtain ⟨b, -, hb⟩ := mem_flatMap.mp hc
  have hlt := b.toNat_lt
  rcases mem_cons.mp hb with rfl | hb
  · exact hhex _ (by omega)
  · rw [mem_singleton.mp hb]
    exact hhex _ (Nat.mod_lt _ (by decide))

theorem length_cksum (digest : Digest) (bytes : List UInt8) : (cksum digest bytes).length = 71 := by
  have hfirst : (cstr "sha256:").length = 7 := rfl
  rw [cksum, length_append, hfirst, length_flatMap]
  simp [map_const']

/-- A number that was written is read again. -/
theorem readLong_numeral {v : ℕ} (h : v < 10^10) : readLong (numeral v) = v := by
  have hloop : ∀ (n v : ℕ) (acc : CStr), v < 10^n → v < 10^10 →
      (decimalLoop n v acc).foldl (fun v c => Int.bmod (v * 10 + (c.toInt8.toInt - 48)) (2^64)) 0 =
        acc.foldl (fun v c => Int.bmod (v * 10 + (c.toInt8.toInt - 48)) (2^64)) (v : ℤ) := by
    intro n
    induction n with
    | zero =>
      intro v acc hn hv
      obtain rfl : v = 0 := by simpa using hn
      rfl
    | succ n ih =>
      intro v acc hn hv
      rw [decimalLoop]
      split_ifs with hzero
      · rw [hzero]
        rfl
      have hdigit : (UInt8.ofNat (48 + v % 10)).toInt8.toInt = 48 + ((v % 10 : ℕ) : ℤ) := by
        have hall : ∀ d < 10, (UInt8.ofNat (48 + d)).toInt8.toInt = 48 + (d : ℤ) := by decide
        exact hall _ (Nat.mod_lt _ (by decide))
      have hstep : Int.bmod (((v / 10 : ℕ) : ℤ) * 10 + ((UInt8.ofNat (48 + v % 10)).toInt8.toInt - 48))
          (2^64) = v := by
        rw [hdigit, Int.bmod_eq_of_le] <;> omega
      rw [ih _ _ (by rw [pow_succ] at hn; omega) (by omega), foldl_cons, hstep]
  rw [numeral_eq h, readLong, decimal]
  split_ifs with hzero
  · rw [hzero]
    rfl
  · exact hloop 10 v [] h h

/-! ## The fields of the record -/

section

variable {pkg : Package} {checksum : CStr} {size : ℕ}

/-- The record that is made of the text. -/
def metaRecord (pkg : Package) (checksum : CStr) (size : ℕ) : PkgInfo :=
  pkgParse (window 4095 (kvText (pkg.metaLines checksum size)))

/-- The first `k` values of the text are lines of their own that are not long. -/
def MetaUpTo (pkg : Package) (checksum : CStr) (size k : ℕ) : Prop :=
  ∀ l ∈ (pkg.metaLines checksum size).take k, Clean l.2 ∧ l.2.length ≤ 255

theorem MetaUpTo.zero : MetaUpTo pkg checksum size 0 := fun _ hl => absurd hl not_mem_nil

theorem MetaUpTo.succ {k n : ℕ} {l : CStr × CStr} (h : MetaUpTo pkg checksum size k)
    (hl : (pkg.metaLines checksum size)[k]? = some l) (hval : Clean l.2 ∧ l.2.length ≤ n)
    (hn : n ≤ 255) : MetaUpTo pkg checksum size (k + 1) := by
  intro l' hl'
  rw [take_add_one, hl] at hl'
  rcases mem_append.mp hl' with hl' | hl'
  · exact h l' hl'
  · rw [mem_singleton.mp hl']
    exact ⟨hval.1, hval.2.trans hn⟩

theorem MetaUpTo.mono {j k : ℕ} (h : MetaUpTo pkg checksum size k) (hjk : j ≤ k) :
    MetaUpTo pkg checksum size j := fun l hl => h l (take_subset_take_left _ hjk hl)

/-- After the strings there are a checksum and two numbers. -/
theorem MetaUpTo.numbers (h : MetaUpTo pkg checksum size 5) (hchecksum : Clean checksum ∧ checksum.length ≤ 79)
    (hsize : (numeral size).length ≤ 31) (hinstalled : (numeral pkg.installedSize).length ≤ 31) :
    MetaUpTo pkg checksum size 8 :=
  ((h.succ rfl hchecksum (by decide)).succ rfl ⟨clean_numeral _, hsize⟩ (by decide)).succ rfl
    ⟨clean_numeral _, hinstalled⟩ (by decide)

theorem Package.MetaFits.metaUpTo (h : pkg.MetaFits) : MetaUpTo pkg checksum size 5 :=
  ((((MetaUpTo.zero.succ rfl h.name (by decide)).succ rfl h.version (by decide)).succ rfl h.arch
    (by decide)).succ rfl h.description (by decide)).succ rfl h.filename (by decide)

variable (pkg checksum size) in
theorem metaLines_key : ∀ l ∈ pkg.metaLines checksum size, KeyOk l.1 ∧ l.1.length ≤ 14 := by
  simp only [Package.metaLines, mem_cons, not_mem_nil, or_false, forall_eq_or_imp, forall_eq]
  decide

/-- What is found for the key of a line, if the values before it are lines that are not long. -/
theorem kvGet_metaLines {k max : ℕ} {key v : CStr} (h : MetaUpTo pkg checksum size k)
    (hl : (pkg.metaLines checksum size)[k]? = some (key, v)) (hpos : 0 < max) (hmax : max ≤ 512) :
    kvGet (window 4095 (kvText (pkg.metaLines checksum size))) key max = some (cut (max - 1) v) := by
  have hkeys : ((pkg.metaLines checksum size).map Prod.fst).Nodup := by
    simp only [Package.metaLines, List.map]
    decide
  obtain ⟨hlt, hline⟩ := List.getElem?_eq_some_iff.mp hl
  have hcount : k < 10 := hlt
  have hsplit : pkg.metaLines checksum size = (pkg.metaLines checksum size).take k ++
      (key, v) :: (pkg.metaLines checksum size).drop (k + 1) := by
    rw [← hline, getElem_cons_drop, take_append_drop]
  have hkey := metaLines_key _ _ _ _ (mem_of_getElem? hl)
  have hpre : ∀ l ∈ (pkg.metaLines checksum size).take k, Passed key l := by
    intro l hmem
    refine ⟨?_, (metaLines_key _ _ _ l (mem_of_mem_take hmem)).1, (h l hmem).1⟩
    rw [hsplit, map_append, nodup_append] at hkeys
    exact hkeys.2.2 _ (mem_map_of_mem hmem) _ mem_cons_self
  have hlen := length_kvText_le fun l (hmem : l ∈ (pkg.metaLines checksum size).take k) =>
    (metaLines_key _ _ _ l (mem_of_mem_take hmem)).2
  have hsum := sum_le_card_nsmul
    ((((pkg.metaLines checksum size).take k).map Prod.snd).map List.length) 255 (by
      simp only [mem_map, forall_exists_index, and_imp, forall_apply_eq_imp_iff₂]
      exact fun l hmem => (h l hmem).2)
  simp only [length_map, length_take, smul_eq_mul] at hlen hsum
  rw [hsplit]
  exact kvGet_at hkey.1 hpre (by omega) hpos

/-- The fields of a record, each one if the values before its own are lines that are not long. -/
structure MetaFields (upTo : ℕ → Prop) (pkg : Package) (checksum : CStr) (size : ℕ) (r : PkgInfo) : Prop where
  name : upTo 0 → r.name = cut 63 pkg.name
  version : upTo 1 → r.version = cut 31 pkg.version
  arch : upTo 2 → r.arch = cut 15 pkg.arch
  description : upTo 3 → r.description = cut 255 pkg.description
  filename : upTo 4 → r.filename = cut 115 pkg.filename
  checksum : upTo 5 → r.checksum = cut 79 checksum
  size : upTo 6 → r.size = readLong (cut 31 (numeral size))
  installed_size : upTo 7 → r.installed_size = readLong (cut 31 (numeral pkg.installedSize))
  depends : upTo 8 → r.depends =
    dependsLoop (cut 511 (joined pkg.depends)).length (cut 511 (joined pkg.depends)) []

theorem metaRecord_fields :
    MetaFields (MetaUpTo pkg checksum size) pkg checksum size (metaRecord pkg checksum size) := by
  constructor <;> intro h
  all_goals
    rw [metaRecord, pkgParse, kvGet_metaLines h rfl (by decide) (by decide)]
    rfl

end

/-! ## Exactly the packages that fit -/

/-- The last byte of words that are joined is no blank. -/
theorem joined_last {ds : List CStr} (h : ∀ d ∈ ds, DepWord d) (hne : joined ds ≠ []) :
    ∃ s c, joined ds = s ++ [c] ∧ c ≠ 32 := by
  induction ds with
  | nil => exact absurd rfl hne
  | cons d ds ih =>
    have hd := h d mem_cons_self
    cases ds with
    | nil =>
      obtain ⟨s, c, hsc⟩ : ∃ s c, d = s ++ [c] :=
        ⟨d.dropLast, d.getLast hd.ne_nil, (dropLast_concat_getLast hd.ne_nil).symm⟩
      refine ⟨s, c, hsc, ?_⟩
      rintro rfl
      exact hd.blank (hsc ▸ mem_append_right _ mem_cons_self)
    | cons e es =>
      have he := h e (mem_cons_of_mem _ mem_cons_self)
      have hne' : joined (e :: es) ≠ [] := by
        cases es with
        | nil => exact he.ne_nil
        | cons f fs => exact fun hnil => he.ne_nil (append_eq_nil_iff.mp hnil).1
      obtain ⟨s, c, hsc, hc⟩ := ih (forall_mem_cons.mp h).2 hne'
      exact ⟨d ++ 32 :: s, c, by rw [joined, hsc, append_assoc, cons_append], hc⟩

theorem length_le_sum_length {ds : List CStr} (h : ∀ d ∈ ds, d ≠ []) :
    ds.length ≤ (ds.map List.length).sum := by
  have hpos : ∀ n ∈ ds.map List.length, 1 ≤ n := by simpa [Nat.one_le_iff_ne_zero] using h
  exact length_map List.length ▸ length_le_sum_of_one_le _ hpos

/-- Dependencies come back exactly if they are words, not too many and not too long. -/
theorem depends_iff (ds : List CStr) :
    dependsLoop (cut 511 (joined ds)).length (cut 511 (joined ds)) [] = ds ↔
      (∀ d ∈ ds, DepWord d ∧ Clean d) ∧ ds.length ≤ maxDeps ∧ (joined ds).length ≤ 511 := by
  have hclean : ∀ {ds : List CStr}, (∀ d ∈ ds, Clean d) → Clean (joined ds) := by
    intro ds hds
    induction ds with
    | nil => exact fun c hc => absurd hc not_mem_nil
    | cons d ds ih =>
      have hd := hds d mem_cons_self
      have ih := ih (forall_mem_cons.mp hds).2
      cases ds with
      | nil => exact hd
      | cons e es =>
        intro c hc
        rcases mem_append.mp hc with hc | hc
        · exact hd c hc
        · rcases mem_cons.mp hc with rfl | hc
          · decide
          · exact ih c hc
  constructor
  · intro h
    obtain ⟨ds', heq, hlen, hwords, hsum⟩ := dependsLoop_spec (cut 511 (joined ds)).length
      (cut 511 (joined ds)) (show ([] : List CStr).length ≤ maxDeps from Nat.zero_le _)
    rw [h, nil_append] at heq
    subst heq
    have hall : ∀ d ∈ ds, DepWord d ∧ Clean d := by
      intro d hd
      obtain ⟨hword, hchars⟩ := hwords d hd
      exact ⟨hword, fun c hc => clean_cut _ _ c (hchars c hc)⟩
    refine ⟨hall, hlen, ?_⟩
    -- If the text were cut, then bytes of the last word would be missing.
    by_contra hlong
    have hcut := (hclean fun d hd => (hall d hd).2).cut_eq 511
    obtain ⟨s, c, hsc, hc⟩ := joined_last (fun d hd => (hall d hd).1) (ne_nil_of_length_pos (by omega))
    have hslen : 511 ≤ s.length := by
      rw [hsc, length_append, length_singleton] at hlong
      omega
    have hlast : weight [c] = 1 := by
      rw [weight_of_notMem (by simpa using Ne.symm hc), length_singleton]
    have hfull := weight_joined fun d hd => (hall d hd).1.blank
    have hparts : weight (joined ds) = weight (s.take 511) + weight (s.drop 511) + weight [c] := by
      rw [← weight_append, take_append_drop, hsc, weight_append]
    rw [hcut, hsc, take_append_of_le_length hslen] at hsum
    omega
  · rintro ⟨hall, hcount, hlen⟩
    have hcut : cut 511 (joined ds) = joined ds := cut_eq_iff.mpr ⟨hclean fun d hd => (hall d hd).2, hlen⟩
    have hwords : ∀ d ∈ ds, DepWord d := fun d hd => (hall d hd).1
    rw [hcut, dependsLoop_joined (dropWhile_joined hwords) hwords (by rw [length_nil]; omega), nil_append]
    -- There is at least a byte for each word.
    have hsum := weight_joined fun d hd => (hwords d hd).blank
    have hweight : weight (joined ds) ≤ (joined ds).length := length_filter_le _ _
    have hcard := length_le_sum_length fun d hd => (hwords d hd).ne_nil
    omega

/-- The record has the strings of the package exactly if they fit. -/
theorem carries_iff {pkg : Package} {checksum : CStr} {size : ℕ} (hchecksum : Clean checksum)
    (hcklen : checksum.length ≤ 79) (hsize : (numeral size).length ≤ 31)
    (hinstalled : (numeral pkg.installedSize).length ≤ 31) :
    Carries (metaRecord pkg checksum size) pkg ↔ pkg.MetaFits := by
  constructor
  · intro h
    have hname := cut_eq_iff.mp ((metaRecord_fields.name .zero).symm.trans h.name)
    have h1 : MetaUpTo pkg checksum size 1 := MetaUpTo.zero.succ rfl hname (by decide)
    have hversion := cut_eq_iff.mp ((metaRecord_fields.version h1).symm.trans h.version)
    have h2 := h1.succ rfl hversion (by decide)
    have harch := cut_eq_iff.mp ((metaRecord_fields.arch h2).symm.trans h.arch)
    have h3 := h2.succ rfl harch (by decide)
    have hdescription := cut_eq_iff.mp ((metaRecord_fields.description h3).symm.trans h.description)
    have h4 := h3.succ rfl hdescription (by decide)
    have hfilename := cut_eq_iff.mp ((metaRecord_fields.filename h4).symm.trans h.filename)
    have h5 := h4.succ rfl hfilename (by decide)
    have hdepends := (metaRecord_fields.depends (h5.numbers ⟨hchecksum, hcklen⟩ hsize hinstalled)).symm.trans
      h.depends
    exact ⟨hname, hversion, harch, hdescription, hfilename, (depends_iff _).mp hdepends⟩
  · intro h
    have h5 : MetaUpTo pkg checksum size 5 := h.metaUpTo
    constructor
    case name => rw [metaRecord_fields.name .zero, cut_eq_iff.mpr h.name]
    case version => rw [metaRecord_fields.version (h5.mono (by decide)), cut_eq_iff.mpr h.version]
    case arch => rw [metaRecord_fields.arch (h5.mono (by decide)), cut_eq_iff.mpr h.arch]
    case description => rw [metaRecord_fields.description (h5.mono (by decide)), cut_eq_iff.mpr h.description]
    case filename => rw [metaRecord_fields.filename (h5.mono (by decide)), cut_eq_iff.mpr h.filename]
    case depends =>
      rw [metaRecord_fields.depends (h5.numbers ⟨hchecksum, hcklen⟩ hsize hinstalled)]
      exact (depends_iff _).mpr h.depends

end FreeAsd.Apm
