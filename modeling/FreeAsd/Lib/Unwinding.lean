import Mathlib.Data.List.Basic

/-!
# Unwinding

A system takes calls of one user and events of others. If a symmetric relation between states is kept by
every call, with the same result, and by every event on one side, then two runs with the same calls have the
same results (`Unwinding.results_eq`).
-/

namespace FreeAsd.Unwinding

variable {S C E O : Type*} (call : C → S → O × S) (event : E → S → S)

/-- The results of the calls in a run, and the state at its end. -/
def run : List (C ⊕ E) → S → List O × S
  | [], s => ([], s)
  | .inl c :: es, s =>
    let (o, s) := call c s
    let (os, s) := run es s
    (o :: os, s)
  | .inr e :: es, s => run es (event e s)

/-- The calls of a run. -/
def calls : List (C ⊕ E) → List C := List.filterMap Sum.getLeft?

variable {call event} {okC : C → Prop} {okE : E → Prop} {R : S → S → Prop}
  (hcall : ∀ c s t, okC c → R s t → (call c s).1 = (call c t).1 ∧ R (call c s).2 (call c t).2)
  (hevent : ∀ e s t, okE e → R s t → R (event e s) t)

include hcall hevent

/-- A run has the results of its calls alone, made in a related state. -/
theorem run_eq_calls {es : List (C ⊕ E)} (hC : ∀ c, .inl c ∈ es → okC c)
    (hE : ∀ e, .inr e ∈ es → okE e) {s t : S} (h : R s t) :
    (run call event es s).1 = (run call event ((calls es).map .inl) t).1 := by
  induction es generalizing s t with
  | nil => rfl
  | cons x es ih =>
    have hC' : ∀ c, .inl c ∈ es → okC c := fun c hc => hC c (List.mem_cons_of_mem _ hc)
    have hE' : ∀ e, .inr e ∈ es → okE e := fun e he => hE e (List.mem_cons_of_mem _ he)
    cases x with
    | inl c =>
      obtain ⟨hresult, hrel⟩ := hcall c s t (hC c List.mem_cons_self) h
      change _ :: _ = _ :: _
      rw [hresult, ih hC' hE' hrel]
      rfl
    | inr e =>
      exact ih hC' hE' (hevent e s t (hE e List.mem_cons_self) h)

/-- Two runs from related states with the same calls have the same results. -/
theorem results_eq (hsymm : ∀ s t, R s t → R t s) {es fs : List (C ⊕ E)}
    (hcalls : calls es = calls fs) (hC : ∀ c ∈ calls es, okC c) (hEs : ∀ e, .inr e ∈ es → okE e)
    (hEf : ∀ e, .inr e ∈ fs → okE e) {s t : S} (h : R s t) :
    (run call event es s).1 = (run call event fs t).1 := by
  have hmem : ∀ {gs : List (C ⊕ E)} c, .inl c ∈ gs → c ∈ calls gs := fun c hc =>
    List.mem_filterMap.mpr ⟨.inl c, hc, rfl⟩
  have hleft := run_eq_calls hcall hevent (fun c hc => hC c (hmem c hc)) hEs h
  have hright := run_eq_calls hcall hevent (fun c hc => hC c (hcalls ▸ hmem c hc)) hEf (hsymm s t h)
  have hsame : calls ((calls es).map (.inl : C → C ⊕ E)) = calls es := by
    rw [calls, List.filterMap_map]
    exact List.filterMap_some
  have hmid : (run call event ((calls es).map .inl) s).1 =
      (run call event ((calls ((calls es).map .inl)).map .inl) t).1 :=
    run_eq_calls hcall hevent (fun c hc => hC c (hsame ▸ hmem c hc))
      (fun e he => absurd he (by simp)) h
  rw [hsame] at hmid
  rw [hleft, hright, ← hcalls, hmid]

end FreeAsd.Unwinding
