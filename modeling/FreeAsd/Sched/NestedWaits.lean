import FreeAsd.Sched.ExitStatus

/-!
# Nested waits

`Nest.waits` is the stack of the open waits. The source has room for one: `sched_reap` clears its globals at
its end, so the outer wait is forgotten when the inner call returns; `Wait.fresh` says that this has not
happened (`nested_waits_iff`).
-/

namespace FreeAsd.Sched

open Relation

/-- A call of `sched_reap` that has not returned. -/
structure Wait where
  waiter : PcbId
  child : PcbId
  fresh : Bool

/-- The processes, and the open waits. -/
structure Nest where
  procs : Procs
  waits : List Wait

namespace Nest

/-- A call of `sched_reap` has returned inside the innermost wait. -/
def stale : List Wait → List Wait
  | [] => []
  | w :: waits => { w with fresh := false } :: waits

/-- The globals of `sched_reap` are the same. -/
structure SameGlobals (s s' : Procs) : Prop where
  waiter : s'.g_reap_waiter = s.g_reap_waiter
  jmp : s'.g_reap_jmp = s.g_reap_jmp
  active : s'.g_reap_jmp_active = s.g_reap_jmp_active

/-- The steps of a run with nested waits. Only the innermost process calls `sched_reap` and `sched_exit`,
and the rest of the kernel leaves the globals of `sched_reap` alone. -/
inductive Step : Nest → Nest → Prop
  | reap {n : Nest} {pid : ℕ} {waiter : PcbId} {s : Procs} (hcur : n.procs.g_current = some waiter)
      (hnest : ∀ w ∈ n.waits.head?, w.child = waiter) (h : schedReap n.procs pid = .ok (.running s)) :
      Step n ⟨s, ⟨waiter, slotOf pid, true⟩ :: n.waits⟩
  | reapImmediate {n : Nest} {pid : ℕ} {waiter : PcbId} {s : Procs} {call : ReapCall}
      (hcur : n.procs.g_current = some waiter) (hnest : ∀ w ∈ n.waits.head?, w.child = waiter)
      (h : schedReap n.procs pid = .ok (.immediate s call)) :
      Step n ⟨(reapFinish s call).1, stale n.waits⟩
  | exit {n : Nest} {code : ℤ} {w : Wait} {waits : List Wait} {s : Procs} {call : ReapCall}
      (hwaits : n.waits = w :: waits) (hcur : n.procs.g_current = some w.child)
      (h : schedExit n.procs code = .ok (s, .reap call)) :
      Step n ⟨(reapFinish s call).1, stale waits⟩
  | other (n : Nest) (s : Procs) (h : SameGlobals n.procs s) : Step n ⟨s, n.waits⟩

/-- A fresh wait is the one that the globals are about; after a stale one they are clear. -/
def Records (s : Procs) (w : Wait) : Prop :=
  if w.fresh then s.g_reap_jmp_active = true ∧ s.g_reap_waiter = some w.waiter ∧
    ∃ call, s.g_reap_jmp = some call ∧ call.pcb = w.child ∧ call.waiter = w.waiter
  else s.g_reap_jmp_active = false ∧ s.g_reap_waiter = none

def Inv (n : Nest) : Prop := ∀ w ∈ n.waits.head?, Records n.procs w

variable {n n' : Nest} {s : Procs} {pid : ℕ} {waiter : PcbId} {call : ReapCall} {w : Wait}
  {waits : List Wait} {code : ℤ}

/-- After the end of `sched_reap` the globals are clear. -/
theorem inv_finish (s : Procs) (call : ReapCall) (waits : List Wait) :
    Inv ⟨(reapFinish s call).1, stale waits⟩ := by
  intro w hw
  cases waits with
  | nil => exact nomatch hw
  | cons w' waits =>
    cases hw
    rw [reapFinish_eq]
    exact ⟨rfl, rfl⟩

/-- What `sched_reap` leaves in the globals when it goes over to the child. -/
theorem schedReap_globals (hcur : s.g_current = some waiter) {s' : Procs}
    (h : schedReap s pid = .ok (.running s')) : Records s' ⟨waiter, slotOf pid, true⟩ := by
  unfold schedReap at h
  cases hfind : schedFind s pid with
  | none =>
    rw [hfind] at h
    exact nomatch h
  | some p =>
    have hp : p = slotOf pid := (schedFind_slot hfind).1
    rw [hfind, hcur] at h
    dsimp only at h
    split_ifs at h with hrun
    · obtain ⟨s₁, htake, h⟩ := bind_eq_ok h
      obtain ⟨links, runq, rfl⟩ := reapTakeoff_ok htake
      obtain rfl := ReapStart.running.inj (Except.ok.inj h)
      exact ⟨rfl, rfl, _, rfl, hp, rfl⟩
    · exact nomatch Except.ok.inj h

theorem Inv.step (h : n.Inv) (hs : Step n n') : n'.Inv := by
  cases hs with
  | reap hcur _ hr =>
    intro w hw
    cases hw
    exact schedReap_globals hcur hr
  | reapImmediate | exit => exact inv_finish _ _ _
  | other s hs =>
    intro w hw
    have hw' := h w hw
    unfold Records at hw' ⊢
    rw [hs.waiter, hs.jmp, hs.active]
    exact hw'

/-- Without a wait on record, `sched_exit` goes over to some process of the queues. -/
theorem exitSwitch_ne_reap (s s' : Procs) (call : ReapCall) : exitSwitch s ≠ .ok (s', .reap call) := by
  intro h
  obtain ⟨⟨s₁, next⟩, -, h⟩ := bind_eq_ok h
  dsimp only at h
  cases hnext : exitTarget s₁ next with
  | none =>
    rw [hnext] at h
    exact nomatch h
  | some next =>
    rw [hnext] at h
    exact nomatch (Prod.mk.inj (Except.ok.inj h)).2

theorem schedExit_ne_reap (hactive : s.g_reap_jmp_active = false) (s' : Procs) (call : ReapCall) :
    schedExit s code ≠ .ok (s', .reap call) := by
  intro h
  unfold schedExit at h
  cases hcur : s.g_current with
  | none =>
    rw [hcur] at h
    exact nomatch h
  | some cur =>
    obtain ⟨pcb, hdie, -⟩ := die_eq s cur code
    rw [hcur] at h
    dsimp only at h
    rw [hdie, hactive] at h
    exact exitSwitch_ne_reap _ _ _ h

/-- The exit of the innermost process returns to the process that waits for it, and the enclosing waiter,
if there is one, is on record then. -/
def Returns (n : Nest) (code : ℤ) (w : Wait) (waits : List Wait) : Prop :=
  ∃ s call, schedExit n.procs code = .ok (s, .reap call) ∧ call.waiter = w.waiter ∧ call.pcb = w.child ∧
    s.g_current = some w.waiter ∧
    ∀ outer ∈ waits.head?, (reapFinish s call).1.g_reap_waiter = some outer.waiter

/-- In every state of a run with nested waits, the innermost process returns to its waiter with the
enclosing waiter on record if and only if no call of `sched_reap` has returned inside its wait and there
is no enclosing waiter. -/
theorem nested_waits_iff {cpu_count idle_fn : ℕ}
    (hrun : ReflTransGen Step ⟨schedInit cpu_count idle_fn, []⟩ n) (hwaits : n.waits = w :: waits)
    (hcur : n.procs.g_current = some w.child) (code : ℤ) :
    n.Returns code w waits ↔ w.fresh = true ∧ waits = [] := by
  have hinv : n.Inv := Runs.invariant (P := Inv) hrun nofun fun _ _ => Inv.step
  have hw : Records n.procs w := by
    refine hinv w ?_
    rw [hwaits]
    rfl
  unfold Records at hw
  constructor
  · rintro ⟨s, call, hexit, -, -, -, houter⟩
    constructor
    · by_contra hfresh
      rw [if_neg hfresh] at hw
      exact schedExit_ne_reap hw.1 s call hexit
    · cases waits with
      | nil => rfl
      | cons outer waits =>
        have hnone := houter outer rfl
        exact nomatch hnone
  · rintro ⟨hfresh, rfl⟩
    rw [if_pos hfresh] at hw
    obtain ⟨hactive, hwaiter, call, hjmp, hpcb, hcall⟩ := hw
    exact ⟨_, call, schedExit_resume hcur hactive hwaiter hjmp, hcall, hpcb, rfl, nofun⟩

/-- The current process spawns a child, which gets its entry point and is put into its queue. -/
def startChild (s : Procs) : Except Fault Procs :=
  let (pid, s) := schedSpawn s schedBatch 10 0 true
  schedEnqueue (s.setPcb (slotOf pid) { s.pcb (slotOf pid) with rip := 4096 }) (slotOf pid)

/-- The init process starts a child and waits for it; the child starts one of its own and waits for it;
that one exits, and then the child. -/
theorem two_waits : ∃ s₁, startChild (schedBootstrapInitThread (schedInit 1 0)) = .ok s₁ ∧
    SameGlobals (schedInit 1 0) s₁ ∧ s₁.g_current = some .bootstrap ∧
    ∃ s₂, schedReap s₁ 1 = .ok (.running s₂) ∧ s₂.g_current = some (slotOf 1) ∧
    ∃ s₃, startChild s₂ = .ok s₃ ∧ SameGlobals s₂ s₃ ∧ s₃.g_current = some (slotOf 1) ∧
    ∃ s₄, schedReap s₃ 2 = .ok (.running s₄) ∧ s₄.g_current = some (slotOf 2) ∧
    ∃ s₅ call, schedExit s₄ 5 = .ok (s₅, .reap call) ∧ (reapFinish s₅ call).1.g_current = some (slotOf 1) ∧
    ∃ s₆, schedExit (reapFinish s₅ call).1 0 = .ok (s₆, .process (.idle 0)) :=
  ⟨_, rfl, ⟨rfl, rfl, rfl⟩, rfl, _, rfl, rfl, _, rfl, ⟨rfl, rfl, rfl⟩, rfl, _, rfl, rfl, _, _, rfl, rfl, _, rfl⟩

/-- The first wait of a run. -/
theorem first_wait {s₁ s₂ : Procs} {cpu_count idle_fn : ℕ} (h : SameGlobals (schedInit cpu_count idle_fn) s₁)
    (hcur : s₁.g_current = some waiter) (hreap : schedReap s₁ pid = .ok (.running s₂)) :
    ReflTransGen Step ⟨schedInit cpu_count idle_fn, []⟩ ⟨s₂, [⟨waiter, slotOf pid, true⟩]⟩ := by
  have hnest : ∀ w ∈ ([] : List Wait).head?, w.child = waiter := nofun
  exact (ReflTransGen.single (.other _ s₁ h)).tail (.reap hcur hnest hreap)

/-- A single wait is answered. -/
theorem nested_waits_one : ∃ n w, ReflTransGen Step ⟨schedInit 1 0, []⟩ n ∧ n.waits = [w] ∧
    w.waiter = .bootstrap ∧ n.Returns 5 w [] := by
  obtain ⟨s₁, -, h₁, hcur₁, s₂, hreap, hcur₂, -⟩ := two_waits
  have hrun := first_wait h₁ hcur₁ hreap
  exact ⟨_, _, hrun, rfl, rfl, (nested_waits_iff hrun rfl hcur₂ 5).mpr ⟨rfl, rfl⟩⟩

/-- With two waits, the inner one is answered, and then the outer one is not: control goes to the idle
process. -/
theorem nested_waits_lost : ∃ n w, ReflTransGen Step ⟨schedInit 1 0, []⟩ n ∧ n.waits = [w] ∧
    w.waiter = .bootstrap ∧ n.procs.g_current = some w.child ∧
    ∃ s, schedExit n.procs 0 = .ok (s, .process (.idle 0)) := by
  obtain ⟨s₁, -, h₁, hcur₁, s₂, hreap₂, hcur₂, s₃, -, h₃, hcur₃, s₄, hreap₄, hcur₄, s₅, call, hexit, hcur₅, hlost⟩ :=
    two_waits
  have hrun₂ := first_wait h₁ hcur₁ hreap₂
  have hnest : ∀ w ∈ [(⟨.bootstrap, slotOf 1, true⟩ : Wait)].head?, w.child = slotOf 1 := by
    rintro w ⟨⟩
    rfl
  have hrun₄ := (hrun₂.tail (.other _ s₃ h₃)).tail (.reap hcur₃ hnest hreap₄)
  exact ⟨_, _, hrun₄.tail (.exit rfl hcur₄ hexit), rfl, rfl, hcur₅, hlost⟩

end Nest

end FreeAsd.Sched
