import Mathlib.Data.Finite.Prod

/-!
# The entropy pool

`kernel/security/security.c`: `entropy_mix` and `entropy_get64` mix the pool by quarter rounds. Each
assignment of a round can be undone, so no call maps two pools to one (`mixing_bijective`).
-/

namespace FreeAsd.Security

open Function

/-- `POOL_WORDS`. -/
abbrev poolWords : ℕ := 32

/-- `g_pool`. -/
abbrev Pool := Fin poolWords → BitVec 64

/-- `ROTL64`. -/
def rotl64 (x : BitVec 64) (n : ℕ) : BitVec 64 := x <<< n ||| x >>> (64 - n)

/-- Half a line of `pool_quarter_round`: `*a += *b; *d ^= *a; *d = ROTL64(*d, n)`. -/
def addXorRotl (a b d : Fin poolWords) (n : ℕ) (p : Pool) : Pool :=
  let p := update p a (p a + p b)
  let p := update p d (p d ^^^ p a)
  update p d (rotl64 (p d) n)

/-- `pool_quarter_round`. -/
def poolQuarterRound (a b c d : Fin poolWords) (p : Pool) : Pool :=
  addXorRotl c d b 63 (addXorRotl a b d 16 (addXorRotl c d b 24 (addXorRotl a b d 32 p)))

/-- A round of `pool_mix`. -/
def mixRound (p : Pool) (i : Fin 4) : Pool :=
  let at_ (k : ℕ) : Fin poolWords := Fin.ofNat poolWords (k + i)
  poolQuarterRound (at_ 16) (at_ 20) (at_ 24) (at_ 28) (poolQuarterRound (at_ 0) (at_ 4) (at_ 8) (at_ 12) p)

/-- `pool_mix`. -/
def poolMix (p : Pool) : Pool := (List.finRange 4).foldl mixRound p

/-- The pool, and the index that counts its words round. -/
structure State where
  g_pool : Pool
  g_pool_idx : ℕ

namespace State

/-- A word is put into the pool, and the pool is mixed. -/
def mixIn (s : State) (x : BitVec 64) : Pool :=
  let i := Fin.ofNat poolWords s.g_pool_idx
  poolMix (update s.g_pool i (s.g_pool i ^^^ x))

/-- `entropy_mix`. -/
def entropyMix (seed : BitVec 64) (s : State) : State := ⟨s.mixIn seed, (s.g_pool_idx + 1) % 2^32⟩

/-- `entropy_get64`, with what `sec_rdtsc` returns. -/
def entropyGet64 (tsc : BitVec 64) (s : State) : BitVec 64 × State :=
  let p := s.mixIn tsc
  (p 0 ^^^ p 16, ⟨update p 0 (p 0 + p 1), (s.g_pool_idx + 1) % 2^32⟩)

/-- A call, with its seed or time stamp. -/
inductive Call
  | mix (seed : BitVec 64)
  | get (tsc : BitVec 64)

/-- The state after a call. -/
def step (s : State) : Call → State
  | .mix seed => entropyMix seed s
  | .get tsc => (entropyGet64 tsc s).2

end State

/-! ## One assignment -/

/-- A word is changed by an operation that can be undone and that depends on other words only. -/
theorem injective_update {ι α : Type*} [DecidableEq ι] {i : ι} {f : (ι → α) → α → α}
    (hf : ∀ p x, f (update p i x) = f p) (hinj : ∀ p, Injective (f p)) :
    Injective fun p => update p i (f p (p i)) := by
  intro p q h
  have hrest : q = update p i (q i) := by
    refine eq_update_iff.mpr ⟨rfl, fun j hj => ?_⟩
    simpa [hj] using (congrFun h j).symm
  have hi : f p (p i) = f q (q i) := by simpa using congrFun h i
  rw [hrest, hf, update_self] at hi
  rw [hrest, ← hinj p hi, update_eq_self]

theorem rotl64_injective {n : ℕ} (hn : n < 64) : Injective fun x => rotl64 x n := by
  intro x y h
  refine BitVec.eq_of_getLsbD_eq fun i hi => ?_
  -- bit `i` goes to place `i + n`, around the end of the word
  have hbit := congrArg (·.getLsbD ((i + n) % 64)) h
  simp only [rotl64, BitVec.getLsbD_or, BitVec.getLsbD_shiftLeft, BitVec.getLsbD_ushiftRight] at hbit
  by_cases hwrap : i + n < 64
  · have hhigh : ∀ z : BitVec 64, z.getLsbD (64 - n + (i + n)) = false :=
      fun z => BitVec.getLsbD_of_ge z _ (by omega)
    have hhere : ¬i + n < n := by omega
    simpa [Nat.mod_eq_of_lt hwrap, hwrap, hhere, hhigh] using hbit
  · have hmod : (i + n) % 64 = i + n - 64 := by omega
    have hlow : i + n - 64 < n := by omega
    have hback : 64 - n + (i + n - 64) = i := by omega
    simpa [hmod, hlow, hback] using hbit

theorem addXorRotl_injective {a b d : Fin poolWords} {n : ℕ} (hba : b ≠ a) (had : a ≠ d) (hn : n < 64) :
    Injective (addXorRotl a b d n) := by
  have hadd : Injective fun p : Pool => update p a (p a + p b) :=
    injective_update (f := fun p x => x + p b) (fun p x => by simp [hba]) fun p x y h => by simpa using h
  have hxor : Injective fun p : Pool => update p d (p d ^^^ p a) :=
    injective_update (f := fun p x => x ^^^ p a) (fun p x => by simp [had]) fun p x y h => by simpa using h
  have hrotl : Injective fun p : Pool => update p d (rotl64 (p d) n) :=
    injective_update (fun _ _ => rfl) fun _ => rotl64_injective hn
  exact hrotl.comp (hxor.comp hadd)

/-! ## The calls -/

theorem poolQuarterRound_injective {a b c d : Fin poolWords} (h : [a, b, c, d].Nodup) :
    Injective (poolQuarterRound a b c d) := by
  simp only [List.nodup_cons, List.mem_cons, List.not_mem_nil, not_or, or_false] at h
  obtain ⟨⟨hab, -, had⟩, ⟨hbc, -⟩, hcd, -⟩ := h
  have hfirst : ∀ n < 64, Injective (addXorRotl a b d n) := fun n => addXorRotl_injective (Ne.symm hab) had
  have hsecond : ∀ n < 64, Injective (addXorRotl c d b n) :=
    fun n => addXorRotl_injective (Ne.symm hcd) (Ne.symm hbc)
  exact (hsecond 63 (by decide)).comp ((hfirst 16 (by decide)).comp
    ((hsecond 24 (by decide)).comp (hfirst 32 (by decide))))

theorem poolMix_injective : Injective poolMix := by
  have hround : ∀ i, Injective (mixRound · i) := fun i =>
    (poolQuarterRound_injective (by revert i; decide)).comp (poolQuarterRound_injective (by revert i; decide))
  have hfold : ∀ is : List (Fin 4), Injective fun p => is.foldl mixRound p := by
    intro is
    induction is with
    | nil => exact injective_id
    | cons i is ih => exact ih.comp (hround i)
  exact hfold _

theorem mixIn_injective (idx : ℕ) (x : BitVec 64) : Injective fun pool => State.mixIn ⟨pool, idx⟩ x :=
  poolMix_injective.comp
    (injective_update (i := Fin.ofNat poolWords idx) (f := fun _ y => y ^^^ x) (fun _ _ => rfl)
      fun _ y z h => by simpa using h)

theorem get_injective (idx : ℕ) (tsc : BitVec 64) :
    Injective fun pool => (State.entropyGet64 tsc ⟨pool, idx⟩).2.g_pool := by
  have hadd : Injective fun p : Pool => update p 0 (p 0 + p 1) :=
    injective_update (f := fun p x => x + p 1) (fun p x => by rw [update_of_ne (by decide)])
      fun p x y h => by simpa using h
  exact hadd.comp (mixIn_injective idx tsc)

/-- Mixing is a bijection on the pools, and so is a call for each seed or time stamp and index; different
seeds give different pools; and no sequence of calls makes two pools equal. -/
theorem mixing_bijective :
    Bijective poolMix ∧
    (∀ idx seed, Bijective fun pool => (State.entropyMix seed ⟨pool, idx⟩).g_pool) ∧
    (∀ idx pool, Injective fun seed => (State.entropyMix seed ⟨pool, idx⟩).g_pool) ∧
    (∀ idx tsc, Bijective fun pool => (State.entropyGet64 tsc ⟨pool, idx⟩).2.g_pool) ∧
    ∀ (calls : List State.Call) (idx : ℕ), Injective fun pool => (calls.foldl State.step ⟨pool, idx⟩).g_pool := by
  have hfinite : Finite (BitVec 64) := .of_injective BitVec.toFin fun _ _ => BitVec.eq_of_toFin_eq
  have hbij : ∀ {f : Pool → Pool}, Injective f → Bijective f := Finite.injective_iff_bijective.mp
  refine ⟨hbij poolMix_injective, fun idx seed => hbij (mixIn_injective idx seed), fun idx pool seed seed' h => ?_,
    fun idx tsc => hbij (get_injective idx tsc), fun calls => ?_⟩
  · have hword := congrFun (poolMix_injective h) (Fin.ofNat poolWords idx)
    simpa using hword
  · induction calls with
    | nil => exact fun idx => injective_id
    | cons call calls ih =>
      intro idx
      cases call with
      | mix seed => exact (ih ((idx + 1) % 2^32)).comp (mixIn_injective idx seed)
      | get tsc => exact (ih ((idx + 1) % 2^32)).comp (get_injective idx tsc)

end FreeAsd.Security
