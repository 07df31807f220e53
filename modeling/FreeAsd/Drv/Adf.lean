import FreeAsd.Lib.Runs
import Mathlib.Algebra.GroupWithZero.Nat
import Mathlib.Data.List.FinRange

/-!
# The life of a driver

`adf_load` and `adf_unload`. Where `probe` and `attach` return 0, a module is attached once and later
detached and freed once (`lives_of_run`). But `adf_unload` calls `detach` whatever happened before.
-/

namespace FreeAsd.Adf

open Function

/-- `MAX_MODULES`. -/
abbrev maxModules : ℕ := 64

/-- What happens to a module: a callback of its driver, with whether it returned 0, or the `kfree` of its
memory. -/
inductive Event
  | probe (ok : Bool)
  | attach (ok : Bool)
  | detach
  | free
deriving DecidableEq

/-- `module_t`, with modules for the memory at `load_base` and for the driver `dev.entry`. -/
structure Slot where
  mod_id : ℕ
  load_base : Option ℕ
  entry : Option ℕ

/-- The state of `adf.c`, with the number of modules so far and what has happened to each. -/
structure Modules where
  g_modules : Fin maxModules → Slot
  g_next_mod_id : ℕ
  loads : ℕ
  history : ℕ → List Event

namespace Modules

/-- The state after the initialisation. -/
def init : Modules := ⟨fun _ => ⟨0, none, none⟩, 1, 0, fun _ => []⟩

/-- Something happens to a module, if there is one. -/
def record (s : Modules) (m : Option ℕ) (e : Event) : Modules :=
  match m with
  | none => s
  | some m => { s with history := update s.history m (s.history m ++ [e]) }

/-- The search for the first slot with a number. -/
def findSlot (s : Modules) (mod_id : ℕ) : Option (Fin maxModules) :=
  (List.finRange maxModules).find? fun i => (s.g_modules i).mod_id = mod_id

/-- `adf_unload`. -/
def adfUnload (mod_id : ℕ) (s : Modules) : ℤ × Modules :=
  match s.findSlot mod_id with
  | none => (-1, s)
  | some i =>
    let mod := s.g_modules i
    let s := (s.record mod.entry .detach).record mod.load_base .free
    (0, { s with g_modules := update s.g_modules i ⟨0, none, mod.entry⟩ })

/-- `adf_load`. The argument is nothing if there is no such file or `elf_load` fails; otherwise it says
whether `probe` and `attach` of the driver, which has all three callbacks, return 0. -/
def adfLoad (driver : Option (Bool × Bool)) (s : Modules) : ℕ × Modules :=
  match driver with
  | none => (0, s)
  | some (probe, attach) =>
    let m := s.loads
    let s := { s with loads := m + 1 }
    match s.findSlot 0 with
    | none => (0, s.record m .free)
    | some i =>
      let mid := s.g_next_mod_id
      let s := { s with
        g_next_mod_id := (mid + 1) % 2^32, g_modules := update s.g_modules i ⟨mid, some m, some m⟩ }
      let s := s.record m (.probe probe)
      if !probe then (0, (adfUnload mid s).2)
      else
        let s := s.record m (.attach attach)
        if !attach then (0, (adfUnload mid (s.record m .detach)).2) else (mid, s)

/-- A module is in a slot. -/
def Loaded (s : Modules) (m : ℕ) : Prop := ∃ i, (s.g_modules i).load_base = some m

/-- What may have happened to a module that is in a slot, and to one that is not: there was no slot, or
`probe` failed, or it was detached after `attach`, once, and freed. -/
def Lives (loaded : Prop) (h : List Event) : Prop :=
  loaded ∧ h = [.probe true, .attach true] ∨
    ¬loaded ∧ (h = [.free] ∨ h = [.probe false, .free] ∨
      ∃ ok, h = [.probe true, .attach ok, .detach, .free])

/-- A call for which the code is right: `probe` and `attach` return 0, the numbers are not used up (the
next one is 0 after the last), and the number to unload is not that of the free slots. -/
inductive Step : Modules → Modules → Prop
  | load {s : Modules} {driver : Option (Bool × Bool)} (hok : ∀ d ∈ driver, d = (true, true))
      (hid : s.g_next_mod_id ≠ 0) : Step s (adfLoad driver s).2
  | unload {s : Modules} {mod_id : ℕ} (hid : mod_id ≠ 0) : Step s (adfUnload mod_id s).2

/-- What holds in every run: a slot is free, or has a module of its own under a number of its own. -/
structure Inv (s : Modules) : Prop where
  next : s.g_next_mod_id < 2^32
  slot : ∀ i, (s.g_modules i).mod_id = 0 ∧ (s.g_modules i).load_base = none ∨
    0 < (s.g_modules i).mod_id ∧ (s.g_next_mod_id = 0 ∨ (s.g_modules i).mod_id < s.g_next_mod_id) ∧
      ∃ m < s.loads, (s.g_modules i).load_base = some m ∧ (s.g_modules i).entry = some m
  own : ∀ i j, (s.g_modules i).mod_id ≠ 0 → i ≠ j →
    (s.g_modules i).mod_id ≠ (s.g_modules j).mod_id ∧
      (s.g_modules i).load_base ≠ (s.g_modules j).load_base
  lives : ∀ m < s.loads, Lives (s.Loaded m) (s.history m)
  fresh : ∀ m, s.loads ≤ m → s.history m = []

variable {s t : Modules} {i : Fin maxModules}

theorem mod_id_of_findSlot {mod_id : ℕ} (h : s.findSlot mod_id = some i) : (s.g_modules i).mod_id = mod_id := by
  simpa using List.find?_some h

/-- A module that a slot neither loses nor gets is where it was. -/
theorem loaded_update {b : Slot} {m : ℕ} (ht : t.g_modules = update s.g_modules i b)
    (hs : (s.g_modules i).load_base ≠ some m) (hb : b.load_base ≠ some m) :
    t.Loaded m ↔ s.Loaded m := by
  rw [Loaded, ht, exists_update_iff s.g_modules fun _ x => x.load_base = some m, Loaded]
  grind

theorem Inv.unload (h : Inv s) {mod_id : ℕ} (hid : mod_id ≠ 0) : Inv (adfUnload mod_id s).2 := by
  cases hf : s.findSlot mod_id with
  | none => simpa [adfUnload, hf] using h
  | some i =>
    have hi : (s.g_modules i).mod_id ≠ 0 := mod_id_of_findSlot hf ▸ hid
    obtain ⟨h0, -⟩ | ⟨-, -, m, hm, hb, he⟩ := h.slot i
    · exact absurd h0 hi
    simp only [adfUnload, hf, hb, he, record]
    refine ⟨h.next, fun j => ?_, fun j k => ?_, fun n hn => ?_, fun n hn => ?_⟩
    · grind [h.slot j]
    · grind [h.own j k, h.slot j]
    · have hlives := h.lives n hn
      by_cases hnm : n = m
      · -- the module was attached, and it is in no other slot
        subst hnm
        have hl : s.Loaded n := ⟨i, hb⟩
        have hout : ∀ j, (update s.g_modules i ⟨0, none, some n⟩ j).load_base ≠ some n := by
          intro j
          grind [h.own i j]
        have hn : s.history n = [.probe true, .attach true] := by simpa [Lives, hl] using hlives
        simp [Lives, Loaded, hout, hn]
      · rw [loaded_update rfl (by grind) (by simp)]
        simpa [hnm] using hlives
    · grind [h.fresh n hn]

theorem Inv.load (h : Inv s) {driver : Option (Bool × Bool)} (hok : ∀ d ∈ driver, d = (true, true))
    (hid : s.g_next_mod_id ≠ 0) : Inv (adfLoad driver s).2 := by
  cases driver with
  | none => exact h
  | some d =>
    obtain rfl := hok d rfl
    have hnil := h.fresh s.loads le_rfl
    have hlives : ∀ n < s.loads + 1, n ≠ s.loads → Lives (s.Loaded n) (s.history n) :=
      fun n hn hne => h.lives n (by omega)
    have hfind : ({ s with loads := s.loads + 1 } : Modules).findSlot 0 = s.findSlot 0 := rfl
    cases hf : s.findSlot 0 with
    | none =>
      simp only [adfLoad, hfind, hf, record]
      refine ⟨h.next, fun j => ?_, h.own, fun n hn => ?_, fun n hn => ?_⟩
      · grind [h.slot j]
      · by_cases hnm : n = s.loads
        · subst hnm
          have hout : ∀ j, (s.g_modules j).load_base ≠ some s.loads := by
            intro j
            grind [h.slot j]
          simp [Lives, Loaded, hout, hnil]
        · simpa [hnm, Loaded] using hlives n hn hnm
      · grind [h.fresh n]
    | some i =>
      have hi := mod_id_of_findSlot hf
      have hnext := h.next
      have hlater : (s.g_next_mod_id + 1) % 2^32 = 0 ∨
          s.g_next_mod_id < (s.g_next_mod_id + 1) % 2^32 := by omega
      simp only [adfLoad, hfind, hf, record, Bool.not_true, Bool.false_eq_true, if_false]
      refine ⟨Nat.mod_lt _ (by decide), fun j => ?_, fun j k => ?_, fun n hn => ?_, fun n hn => ?_⟩
      · dsimp only
        generalize (s.g_next_mod_id + 1) % 2^32 = next at hlater
        grind [h.slot j]
      · grind [h.own j k, h.slot j, h.slot k]
      · by_cases hnm : n = s.loads
        · subst hnm
          have hin : ∃ j, (update s.g_modules i ⟨s.g_next_mod_id, some s.loads, some s.loads⟩ j).load_base
              = some s.loads := ⟨i, by simp⟩
          simp [Lives, Loaded, hin, hnil]
        · rw [loaded_update rfl (by grind [h.slot i]) (by simpa using Ne.symm hnm)]
          simpa [hnm] using hlives n hn hnm
      · grind [h.fresh n]

/-- In a run in which `probe` and `attach` return 0, the numbers are not used up and 0 is not unloaded, a
module in a slot has been probed and attached and nothing else; every other has then been detached and
freed once, or found no slot and was freed; and no two modules share a number. -/
theorem lives_of_run (h : Relation.ReflTransGen Step init s) :
    (∀ m < s.loads, Lives (s.Loaded m) (s.history m)) ∧
      ∀ i j, (s.g_modules i).mod_id ≠ 0 → (s.g_modules i).mod_id = (s.g_modules j).mod_id → i = j := by
  have h0 : Inv init := by constructor <;> simp [init]
  have hs := Runs.invariant h h0 fun a b ha hab => by
    cases hab with
    | load hok hid => exact ha.load hok hid
    | unload hid => exact ha.unload hid
  exact ⟨hs.lives, fun i j hi hij => by_contra fun hne => (hs.own i j hi hne).1 hij⟩

/-- The run of one load and its unload. -/
theorem lives_of_run_once :
    Lives ((adfUnload 1 (adfLoad (some (true, true)) init).2).2.Loaded 0)
      ((adfUnload 1 (adfLoad (some (true, true)) init).2).2.history 0) :=
  (lives_of_run (.tail (.single (@Step.load init (some (true, true)) (by simp) (by decide)))
    (@Step.unload _ 1 (by decide)))).1 0 (by decide)

/-- After a failed `probe` the driver is detached though not attached, after a failed `attach` it is
detached twice, and `adf_unload(0)` detaches it after its memory was freed. -/
theorem detach_unattached :
    (adfLoad (some (false, true)) init).2.history 0 = [.probe false, .detach, .free] ∧
      (adfLoad (some (true, false)) init).2.history 0 =
        [.probe true, .attach false, .detach, .detach, .free] ∧
      (adfUnload 0 (adfUnload 1 (adfLoad (some (true, true)) init).2).2).2.history 0 =
        [.probe true, .attach true, .detach, .free, .detach] := by
  decide

end Modules

end FreeAsd.Adf
