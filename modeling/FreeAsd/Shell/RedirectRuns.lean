import FreeAsd.Shell.RedirectTable

/-!
# When redirections are undone

The table of a shell is the same after a command exactly under the conditions stated here
(`redirections_iff`): the redirected place must be in use and the place where it is saved free; in the
kernel's shell this is so for pipes only.
-/

namespace FreeAsd.Shell

open Function Vfs Table Option

/-- There is something in the place, and room for saving it. -/
structure Table.Kept (T : Table) (target save : Fd) : Prop where
  used : T target ≠ none
  free : T save = none

namespace Table

variable {T : Table} {x target save rfd wfd : Fd} {i j : NodeId}

/-! ## One redirection -/

/-- A new descriptor, a stage, and the end of the descriptor. -/
theorem stage_eq_iff (hx : T.FirstFree x) (htarget : target.val < 3) (hsave : 3 ≤ save.val) :
    (stage (update T x (some i)) target save x).clear x = T ↔ T.Kept target save := by
  have hhigh := hx.high
  have hxtarget : target ≠ x := Fin.ne_of_val_ne (by omega)
  have hne : save ≠ target := Fin.ne_of_val_ne (by omega)
  obtain ⟨U, hU⟩ : ∃ U : Table, U = update T x (some i) := ⟨_, rfl⟩
  have hUtarget : U target = T target := by rw [hU, update_of_ne hxtarget]
  have hUx : U x ≠ none := by
    rw [hU, update_self]
    exact some_ne_none i
  rw [← hU]
  constructor
  · intro heq
    have hused : T target ≠ none := by
      intro hnone
      apply stage_none (hUtarget.trans hnone) hne (.inl hUx)
      calc
        U.stage target save x target = (U.stage target save x).clear x target := (clear_of_ne _ hxtarget).symm
        _ = none := by rw [heq, hnone]
    obtain ⟨a, ha⟩ := ne_none_iff_exists'.mp hused
    rw [stage_some (hUtarget.trans ha) hne] at heq
    refine ⟨hused, ?_⟩
    rw [← heq]
    exact clear_eq_of (fun _ => rfl) fun _ => clear_self _ _
  · rintro ⟨hused, hfree⟩
    obtain ⟨a, ha⟩ := ne_none_iff_exists'.mp hused
    rw [stage_some (hUtarget.trans ha) hne]
    funext y
    refine clear_eq_of (fun hy => hy ▸ hx.free) fun hyx => clear_eq_of (fun hy => hy ▸ hfree) fun _ => ?_
    rw [hU, update_of_ne hyx]

/-! ## Pipes -/

/-- The table with the ends of a pipe in it. -/
structure Piped (T U : Table) (rfd wfd : Fd) : Prop where
  first : T.FirstFree rfd
  lt : rfd < wfd
  free : T wfd = none
  read : U rfd ≠ none
  write : U wfd ≠ none
  rest : ∀ y, y ≠ rfd → y ≠ wfd → U y = T y

theorem Piped.ne_low {U : Table} (h : T.Piped U rfd wfd) {y : Fd} (hy : y.val < 3) : y ≠ rfd ∧ y ≠ wfd := by
  have hfirst := h.first.high
  have hlt : rfd.val < wfd.val := h.lt
  exact ⟨Fin.ne_of_val_ne (by omega), Fin.ne_of_val_ne (by omega)⟩

/-- What redirecting and restoring a place does in both shells: if there was something in it, then only the
place where it is saved is lost, and if not, then it keeps the descriptor. -/
structure Effect (T S : Table) (target save fd : Fd) : Prop where
  frame : ∀ y, y ≠ target → y ≠ save → S y = T y
  used : T target ≠ none → S = T.clear save
  unused : T target = none → T fd ≠ none → S target ≠ none

theorem effect_stage (T : Table) (fd : Fd) (hne : save ≠ target) :
    T.Effect (T.stage target save fd) target save fd := by
  refine ⟨fun y => stage_of_ne T fd, fun hused => ?_, fun hunused hfd => stage_none hunused hne (.inl hfd)⟩
  obtain ⟨a, ha⟩ := ne_none_iff_exists'.mp hused
  exact stage_some ha hne fd

theorem kernelStage_none (h : T target = none) (save fd : Fd) :
    T.kernelStage target save fd = T.dup fd target := by
  rw [kernelStage, h]
  rfl

theorem effect_kernelStage (T : Table) (fd : Fd) (hne : save ≠ target) :
    T.Effect (T.kernelStage target save fd) target save fd := by
  have hstage := effect_stage T fd hne
  by_cases h : T target = none
  · rw [kernelStage_none h]
    exact ⟨fun y htarget _ => dup_of_ne T fd htarget, fun hused => absurd h hused,
      fun _ hfd => dup_of_ne_none hfd target⟩
  · rwa [kernelStage, if_pos (isSome_iff_ne_none.mpr h)]

section

variable {U S1 S2 : Table} {a1 a2 : Prop} (hpiped : T.Piped U rfd wfd)
  (h1 : a1 → U.Effect S1 1 11 wfd) (h1' : ¬a1 → S1 = U)
  (h2 : a2 → (S1.clear wfd).Effect S2 0 10 rfd) (h2' : ¬a2 → S2 = S1.clear wfd)
include hpiped h1 h1' h2 h2'

omit hpiped h1 h1' in
/-- The second command leaves the other places alone. -/
theorem second_frame {y : Fd} (hy : y ≠ 0) (hy' : y ≠ 10) : S2 y = S1.clear wfd y := by
  by_cases ha : a2
  · exact (h2 ha).frame y hy hy'
  · rw [h2' ha]

omit h2 h2' in
/-- Between the two commands, if place 1 was in use. -/
theorem first_used (hkept : a1 → U 1 ≠ none) (hfree : a1 → T 11 = none) {y : Fd} (hy : y ≠ rfd) :
    S1.clear wfd y = T y := by
  refine clear_eq_of (fun hyw => hyw ▸ hpiped.free) fun hyw => ?_
  by_cases ha : a1
  · rw [(h1 ha).used (hkept ha)]
    exact clear_eq_of (fun hy11 => hy11 ▸ hfree ha) fun _ => hpiped.rest y hy hyw
  · rw [h1' ha, hpiped.rest y hy hyw]

omit h1' in
/-- If the table is the same afterwards, then place 1 was in use and place 11 was free. -/
theorem first_kept (heq : S2.clear rfd = T) (ha : a1) : T.Kept 1 11 := by
  obtain ⟨h1r, h1w⟩ := hpiped.ne_low (show (1 : Fd).val < 3 by decide)
  have hU1 : U 1 = T 1 := hpiped.rest 1 h1r h1w
  have hused : T 1 ≠ none := by
    intro hnone
    apply (h1 ha).unused (hU1.trans hnone) hpiped.write
    calc
      S1 1 = S1.clear wfd 1 := (clear_of_ne _ h1w).symm
      _ = S2 1 := (second_frame h2 h2' (by decide) (by decide)).symm
      _ = S2.clear rfd 1 := (clear_of_ne _ h1r).symm
      _ = none := by rw [heq, hnone]
  refine ⟨hused, ?_⟩
  rw [← heq]
  refine clear_eq_of (fun _ => rfl) fun _ => ?_
  rw [second_frame h2 h2' (by decide) (by decide), (h1 ha).used (hU1 ▸ hused)]
  exact clear_eq_of (fun _ => rfl) fun _ => clear_self _ _

/-- The table after a pipe. -/
theorem pipe_eq_iff : S2.clear rfd = T ↔ (a1 → T.Kept 1 11) ∧
    (a2 → T.Kept 0 10 ∨ T 0 = none ∧ a1 ∧ rfd = 11 ∧ S2 = S1.clear wfd) := by
  obtain ⟨h0r, h0w⟩ := hpiped.ne_low (show (0 : Fd).val < 3 by decide)
  obtain ⟨h1r, h1w⟩ := hpiped.ne_low (show (1 : Fd).val < 3 by decide)
  have hU1 : U 1 = T 1 := hpiped.rest 1 h1r h1w
  constructor
  · intro heq
    have hkept := first_kept hpiped h1 h2 h2' heq
    have hbetween : ∀ y, y ≠ rfd → S1.clear wfd y = T y := fun y =>
      first_used hpiped h1 h1' (fun ha => hU1 ▸ (hkept ha).used) fun ha => (hkept ha).free
    refine ⟨hkept, fun ha => ?_⟩
    by_cases hzero : T 0 = none
    · -- The read end was lost, or else it would be in place 0.
      right
      have hread : S1.clear wfd rfd = none := by
        by_contra hread
        apply (h2 ha).unused ((hbetween 0 h0r).trans hzero) hread
        rw [← clear_of_ne S2 h0r, heq, hzero]
      have hlost : a1 ∧ rfd = 11 := by
        rw [clear_of_ne _ hpiped.lt.ne] at hread
        by_cases ha1 : a1
        · refine ⟨ha1, ?_⟩
          by_contra hr
          rw [(h1 ha1).used (hU1 ▸ (hkept ha1).used), clear_of_ne _ hr] at hread
          exact hpiped.read hread
        · rw [h1' ha1] at hread
          exact absurd hread hpiped.read
      refine ⟨hzero, hlost.1, hlost.2, ?_⟩
      have hnothing : S2 rfd = none := by
        rw [(h2 ha).frame rfd (by rw [hlost.2]; decide) (by rw [hlost.2]; decide), hread]
      rw [← clear_of_none hnothing, heq]
      funext y
      by_cases hy : y = rfd
      · rw [hy, hread, hpiped.first.free]
      · exact (hbetween y hy).symm
    · left
      refine ⟨hzero, ?_⟩
      rw [← heq, (h2 ha).used (by rwa [hbetween 0 h0r])]
      exact clear_eq_of (fun _ => rfl) fun _ => clear_self _ _
  · rintro ⟨hkept, hkept'⟩
    have hbetween : ∀ y, y ≠ rfd → S1.clear wfd y = T y := fun y =>
      first_used hpiped h1 h1' (fun ha => hU1 ▸ (hkept ha).used) fun ha => (hkept ha).free
    funext y
    refine clear_eq_of (fun hy => hy ▸ hpiped.first.free) fun hy => ?_
    by_cases ha : a2
    · rcases hkept' ha with hkept' | ⟨-, -, -, hsame⟩
      · rw [(h2 ha).used (by rw [hbetween 0 h0r]; exact hkept'.used)]
        exact clear_eq_of (fun hy10 => hy10 ▸ hkept'.free) fun _ => hbetween y hy
      · rw [hsame, hbetween y hy]
    · rw [h2' ha, hbetween y hy]

end

end Table

/-- There is no command. -/
abbrev Blank (cmd : CStr) : Prop := cmd.dropWhile (· = 32) = []

variable {σ β : Type} {p : Pid} (o : Surroundings σ β p) (r : Run σ β) {r1 r' : Run σ β} {cmd g_cwd : CStr}

theorem table_close_of (a : Fd) {m : ℕ} (ha : a.val = m) (hm : 3 ≤ m) :
    (r.close o m).table p = (r.table p).clear a := by
  subst ha
  exact table_close o r hm

/-- `vfs_pipe` fails, or the ends of a new pipe are in the table. -/
theorem table_piped : ((r.pipe o).1 = none ∧ (r.pipe o).2.table p = r.table p) ∨
    ∃ rfd wfd, (r.pipe o).1 = some (rfd, wfd) ∧ (r.table p).Piped ((r.pipe o).2.table p) rfd wfd := by
  rcases table_pipe o r with hnone | ⟨rfd, wfd, i, j, hfds, hfirst, hlt, hfree, heq⟩
  · exact .inl hnone
  refine .inr ⟨rfd, wfd, hfds, hfirst, hlt, hfree, ?_, ?_, fun y hr hw => ?_⟩ <;> rw [heq]
  · rw [update_of_ne hlt.ne, update_self]
    exact some_ne_none i
  · rw [update_self]
    exact some_ne_none j
  · rw [update_of_ne hw, update_of_ne hr]

/-- Descriptors of the kernel are not in the table. -/
theorem table_closeOpened_kernel {fd : Option ℕ} (hfd : ∀ x ∈ fd, maxFds ≤ x) :
    (Asdsh.closeOpened o fd r).table p = r.table p := by
  cases fd with
  | none => rfl
  | some x => exact table_close_kernel o r (hfd x rfl)

/-! ## The shell of the user -/

namespace Asdsh

/-- A place is redirected, something happens, and the place is restored. -/
theorem table_restore (target save x : Fd) {m n : ℕ} (htarget : target.val = m)
    (hsave : save.val = n) (hn : 3 ≤ n) (hr' : r'.table p = (redirect o (some x.val) m n r).table p) :
    (restore o (some x.val) m n r').table p = (r.table p).stage target save x := by
  rw [restore, table_close_of o _ save hsave hn, table_dup2 o _ save target hsave htarget, hr', redirect,
    table_dup2 o _ x target rfl htarget, table_dup2 o _ target save htarget hsave, stage]

theorem table_spawnCmdStr_blank (h : Blank cmd) (in_fd out_fd : Option ℕ) :
    (spawnCmdStr o cmd in_fd out_fd r).2 = r := by
  rw [spawnCmdStr]
  rw [if_pos h]

theorem table_spawnCmdStr_plain (cmd : CStr) : (spawnCmdStr o cmd none none r).2.table p = r.table p := by
  by_cases h : Blank cmd
  · rw [table_spawnCmdStr_blank o r h]
  · rw [spawnCmdStr]
    rw [if_neg h]
    exact table_spawn o r _ _

theorem table_spawnCmdStr_in (h : ¬Blank cmd) (x : Fd) :
    (spawnCmdStr o cmd (some x.val) none r).2.table p = (r.table p).stage 0 10 x := by
  rw [spawnCmdStr]
  rw [if_neg h]
  exact table_restore o r 0 10 x rfl rfl (by decide) (table_spawn o _ _ _)

theorem table_spawnCmdStr_out (h : ¬Blank cmd) (x : Fd) :
    (spawnCmdStr o cmd none (some x.val) r).2.table p = (r.table p).stage 1 11 x := by
  rw [spawnCmdStr]
  rw [if_neg h]
  exact table_restore o r 1 11 x rfl rfl (by decide) (table_spawn o _ _ _)

/-- The condition for a command line. -/
def Restores (resolve : CStr → CStr) (line : CStr) (r : Run σ β) : Prop :=
  match splitPipe line with
  | some (cmd1, cmd2) => (r.pipe o).1 ≠ none →
      (¬Blank cmd1 → (r.table p).Kept 1 11) ∧ (¬Blank cmd2 → (r.table p).Kept 0 10)
  | none =>
    let parsed := splitRedirect 511 line
    let cmd_name := (nameAndArg parsed.1).1
    let fds := (openRedirect o resolve parsed.2 r).1
    findBuiltin cmd_name = none → ¬Blank cmd_name →
      (fds.1 ≠ none → (r.table p).Kept 0 10) ∧ (fds.2 ≠ none → (r.table p).Kept 1 11)

/-- There is no redirection, or a file is opened for input or for output. -/
theorem openRedirect_cases (resolve : CStr → CStr) (redirect : Option Redirect) :
    openRedirect o resolve redirect r = ((none, none), r) ∨ ∃ path flags,
      let res := r.open o path flags (some p)
      openRedirect o resolve redirect r = ((res.1, none), res.2) ∨
        openRedirect o resolve redirect r = ((none, res.1), res.2) := by
  rcases redirect with _ | (name | name | name)
  · exact .inl rfl
  · exact .inr ⟨resolve name, 0x01, .inl rfl⟩
  · exact .inr ⟨resolve name, 0x32, .inr rfl⟩
  · exact .inr ⟨resolve name, 0x52, .inr rfl⟩

/-- The file of a redirection gets the first free place. -/
theorem table_openRedirect {resolve : CStr → CStr} {redirect : Option Redirect}
    {fds : Option ℕ × Option ℕ} (hopened : openRedirect o resolve redirect r = (fds, r1)) :
    fds = (none, none) ∧ r1.table p = r.table p ∨
      ∃ x i, (r.table p).FirstFree x ∧ r1.table p = update (r.table p) x (some i) ∧
        (fds = (some x.val, none) ∨ fds = (none, some x.val)) := by
  rcases openRedirect_cases o r resolve redirect with h | ⟨path, flags, h⟩
  · cases hopened.symm.trans h
    exact .inl ⟨rfl, rfl⟩
  rcases table_open o r path flags with ⟨hfd, htable⟩ | ⟨x, i, hfd, hfirst, htable⟩
  · rcases h with h | h <;> rw [hfd] at h <;> cases hopened.symm.trans h
    all_goals exact .inl ⟨rfl, htable⟩
  · refine .inr ⟨x, i, hfirst, ?_⟩
    rcases h with h | h <;> rw [hfd] at h <;> cases hopened.symm.trans h
    · exact ⟨htable, .inl rfl⟩
    · exact ⟨htable, .inr rfl⟩

theorem table_runExternal (cmd : CStr) (arg : Option CStr) : (runExternal o cmd arg r).table p = r.table p := by
  rw [runExternal]
  split_ifs
  · exact table_spawn o r _ _
  · exact (table_wait o _).trans (table_spawn o r _ _)

/-- A command that is built in leaves the table alone, and others are spawned. -/
theorem table_runCommand {cmd_part : CStr} {in_fd out_fd : Option ℕ}
    (h : runCommand o g_cwd cmd_part in_fd out_fd r = some r') :
    r'.table p = if findBuiltin (nameAndArg cmd_part).1 = none then
      (spawnCmdStr o (nameAndArg cmd_part).1 in_fd out_fd r).2.table p else r.table p := by
  rw [runCommand] at h
  rcases hfind : findBuiltin (nameAndArg cmd_part).1 with _ | (⟨prog, takesArg⟩ | _ | _)
  · rw [hfind] at h
    rw [if_pos rfl, ← some.inj h]
    split_ifs
    · rfl
    · exact table_wait o _
  · rw [hfind] at h
    rw [if_neg (by simp), ← some.inj h]
    exact table_runExternal o r _ _
  · rw [hfind] at h
    rw [if_neg (by simp), ← some.inj h]
  · rw [hfind] at h
    cases h

/-- A command with a redirection. -/
theorem table_redirected {cmd_part : CStr} (target save : Fd) {x : Fd} {i : NodeId}
    {in_fd out_fd : Option ℕ} {r2 : Run σ β} (hfirst : (r.table p).FirstFree x)
    (hopen : r1.table p = update (r.table p) x (some i))
    (hrun : runCommand o g_cwd cmd_part in_fd out_fd r1 = some r2) (htarget : target.val < 3)
    (hsave : 3 ≤ save.val)
    (hspawn : ∀ cmd, ¬Blank cmd →
      (spawnCmdStr o cmd in_fd out_fd r1).2.table p = (r1.table p).stage target save x) :
    (r2.close o x.val).table p = r.table p ↔
      (findBuiltin (nameAndArg cmd_part).1 = none → ¬Blank (nameAndArg cmd_part).1 →
        (r.table p).Kept target save) := by
  have hclosed : (clear (update (r.table p) x (some i)) x) = r.table p := by
    rw [clear, update_idem, ← hfirst.free, update_eq_self]
  rw [table_close o r2 hfirst.high, table_runCommand o r1 hrun]
  split_ifs with hfind
  · by_cases hblank : Blank (nameAndArg cmd_part).1
    · rw [table_spawnCmdStr_blank o r1 hblank, hopen]
      exact iff_of_true hclosed fun _ h => absurd hblank h
    · rw [hspawn _ hblank, hopen, stage_eq_iff hfirst htarget hsave]
      exact ⟨fun h _ _ => h, fun h => h hfind hblank⟩
  · rw [hopen]
    exact iff_of_true hclosed fun h => absurd h hfind

/-- Two commands with a pipe between them. -/
theorem table_pipeline (cmd1 cmd2 : CStr) {rfd wfd : Fd} (hpiped : (r.table p).Piped (r1.table p) rfd wfd) :
    ((spawnCmdStr o cmd2 (some rfd.val) none
        ((spawnCmdStr o cmd1 none (some wfd.val) r1).2.close o wfd.val)).2.close o rfd.val).table p = r.table p ↔
      (¬Blank cmd1 → (r.table p).Kept 1 11) ∧ (¬Blank cmd2 → (r.table p).Kept 0 10) := by
  have hrfd := hpiped.first.high
  have hlt : rfd.val < wfd.val := hpiped.lt
  generalize hr2 : (spawnCmdStr o cmd1 none (some wfd.val) r1).2 = r2
  generalize hr3 : (spawnCmdStr o cmd2 (some rfd.val) none (r2.close o wfd.val)).2 = r3
  rw [table_close o r3 hrfd]
  have hclose := table_close o r2 (show 3 ≤ wfd.val by omega)
  have h1 : ¬Blank cmd1 → (r1.table p).Effect (r2.table p) 1 11 wfd := by
    intro h
    rw [← hr2, table_spawnCmdStr_out o r1 h]
    exact effect_stage _ _ (by decide)
  have h1' : ¬¬Blank cmd1 → r2.table p = r1.table p := by
    intro h
    rw [← hr2, table_spawnCmdStr_blank o r1 (not_not.mp h)]
  have hstage : ¬Blank cmd2 → r3.table p = ((r2.table p).clear wfd).stage 0 10 rfd := by
    intro h
    rw [← hr3, table_spawnCmdStr_in o _ h, hclose]
  have h2 : ¬Blank cmd2 → ((r2.table p).clear wfd).Effect (r3.table p) 0 10 rfd := by
    intro h
    rw [hstage h]
    exact effect_stage _ _ (by decide)
  have h2' : ¬¬Blank cmd2 → r3.table p = (r2.table p).clear wfd := by
    intro h
    rw [← hr3, table_spawnCmdStr_blank o _ (not_not.mp h), hclose]
  rw [pipe_eq_iff hpiped h1 h1' h2 h2']
  refine and_congr_right fun _ => forall_congr' fun hcmd2 => or_iff_left ?_
  -- If the read end was in place 11, then place 10 was in use, and ends up in place 0.
  rintro ⟨hzero, hcmd1, rfl, hsame⟩
  obtain ⟨h0r, h0w⟩ := hpiped.ne_low (show (0 : Fd).val < 3 by decide)
  have hten : (10 : Fd) ≠ wfd := Fin.ne_of_val_ne (ne_of_lt (lt_trans (by decide) hlt))
  have hbetween : ∀ y : Fd, y ≠ 1 → y ≠ 11 → y ≠ wfd → (r2.table p).clear wfd y = r.table p y := by
    intro y hy hy' hw
    rw [clear_of_ne _ hw, (h1 hcmd1).frame y hy hy', hpiped.rest y hy' hw]
  have hused := hpiped.first.first 10 (by decide) (by decide)
  have hzero' : (r2.table p).clear wfd 0 = none := by rw [hbetween 0 (by decide) h0r h0w, hzero]
  have hused' : (r2.table p).clear wfd 10 ≠ none := by rwa [hbetween 10 (by decide) (by decide) hten]
  have hnot : ((r2.table p).clear wfd).stage 0 10 11 0 ≠ none := stage_none hzero' (by decide) (.inr hused')
  rw [← hstage hcmd2, hsame] at hnot
  exact hnot hzero'

/-- The table of the user's shell after a command line. -/
theorem execLine_restores_iff {resolve : CStr → CStr} {line : CStr}
    (h : execLine o g_cwd resolve line r = some r') :
    r'.table p = r.table p ↔ Restores o resolve line r := by
  rw [execLine] at h
  rw [Restores]
  rcases hpipe : splitPipe line with _ | ⟨cmd1, cmd2⟩
  · rw [hpipe] at h
    dsimp only at h ⊢
    rcases hopened : openRedirect o resolve (splitRedirect 511 line).2 r with ⟨⟨in_fd, out_fd⟩, r1⟩
    have htable := table_openRedirect o r hopened
    rw [hopened] at h
    rcases hrun : runCommand o g_cwd (splitRedirect 511 line).1 in_fd out_fd r1 with _ | r2
    · rw [hrun] at h
      cases h
    rw [hrun] at h
    cases h
    rcases htable with ⟨hfds, htable⟩ | ⟨x, i, hfirst, htable, hfds | hfds⟩
    · cases hfds
      have hsame : r2.table p = r.table p := by
        rw [table_runCommand o r1 hrun, table_spawnCmdStr_plain, ite_self, htable]
      exact iff_of_true hsame fun _ _ => ⟨fun h => absurd rfl h, fun h => absurd rfl h⟩
    · cases hfds
      have hiff := table_redirected o r 0 10 hfirst htable hrun (by decide) (by decide)
        fun cmd hcmd => table_spawnCmdStr_in o r1 hcmd x
      refine hiff.trans ⟨fun h hfind hblank => ⟨fun _ => h hfind hblank, fun h => absurd rfl h⟩, ?_⟩
      exact fun h hfind hblank => (h hfind hblank).1 (some_ne_none _)
    · cases hfds
      have hiff := table_redirected o r 1 11 hfirst htable hrun (by decide) (by decide)
        fun cmd hcmd => table_spawnCmdStr_out o r1 hcmd x
      refine hiff.trans ⟨fun h hfind hblank => ⟨fun h => absurd rfl h, fun _ => h hfind hblank⟩, ?_⟩
      exact fun h hfind hblank => (h hfind hblank).2 (some_ne_none _)
  · rw [hpipe] at h
    have htable := table_piped o r
    rcases hp : r.pipe o with ⟨fds, r1⟩
    rw [hp] at h htable
    rcases htable with ⟨rfl, hsame⟩ | ⟨rfd, wfd, rfl, hpiped⟩
    · cases h
      exact iff_of_true hsame fun h => absurd rfl h
    · have hiff := table_pipeline o r cmd1 cmd2 hpiped
      rw [← some.inj h]
      refine Iff.trans ?_ (hiff.trans ⟨fun h _ => h, fun h => h (some_ne_none _)⟩)
      split_ifs <;> simp only [table_wait]

end Asdsh

/-! ## The shell of the kernel -/

namespace KernelShell

/-- There is a command, and a program for it. -/
def Attempts (cmd : CStr) (r : Run σ β) : Prop :=
  ¬Blank cmd ∧ (r.stat o (binPath ((words ((cmd.dropWhile (· = 32)).take 511)).headD []))).1 = true

theorem spawnCmd_of_not (h : ¬Attempts o cmd r) (in_fd out_fd : Option ℕ) :
    (spawnCmd o cmd in_fd out_fd r).1 = 0 ∧ (spawnCmd o cmd in_fd out_fd r).2.table p = r.table p := by
  rw [spawnCmd]
  by_cases hblank : Blank cmd
  · rw [if_pos hblank]
    exact ⟨rfl, rfl⟩
  · have hfound : ¬(r.stat o (binPath ((words ((cmd.dropWhile (· = 32)).take 511)).headD []))).1 = true :=
      fun hfound => h ⟨hblank, hfound⟩
    rw [if_neg hblank, if_pos (by simpa using hfound)]
    exact ⟨rfl, table_stat o r _⟩

section

variable {r' : Run σ β} (target save : Fd) {m n : ℕ} (htarget : target.val = m) (hlow : m ≤ 2)
  (hsave : save.val = n) (hn : 3 ≤ n)
include htarget hlow hsave hn

/-- A place is redirected, something happens, and the place is restored, if it was saved. -/
theorem table_restore {fd : ℕ} (hr' : r'.table p = (redirect o (some fd) target n r).2.table p) :
    (restore o (some fd) (redirect o (some fd) target n r).1 m n r').table p =
      if (r.table p target).isSome then
        ((((r.dup2 o m n).dup2 o fd m).table p).dup save target).clear save
      else (r.dup2 o fd m).table p := by
  by_cases h : (r.table p target).isSome = true
  · have hredirect : redirect o (some fd) target n r = (true, (r.dup2 o m n).dup2 o fd m) := by
      rw [redirect, htarget]
      exact if_pos h
    rw [hredirect] at hr' ⊢
    rw [restore, if_pos rfl, if_pos h, table_close_of o _ save hsave hn,
      table_dup2 o _ save target hsave htarget, table_close_low o _ hlow, hr']
  · have hredirect : redirect o (some fd) target n r = (false, r.dup2 o fd m) := by
      rw [redirect, htarget]
      exact if_neg h
    rw [hredirect] at hr' ⊢
    rw [restore, if_neg Bool.false_ne_true, if_neg h, table_close_low o _ hlow, hr']

/-- With a descriptor in the table. -/
theorem table_restore_fd (x : Fd) (hr' : r'.table p = (redirect o (some x.val) target n r).2.table p) :
    (restore o (some x.val) (redirect o (some x.val) target n r).1 m n r').table p =
      (r.table p).kernelStage target save x := by
  rw [table_restore o r target save htarget hlow hsave hn hr', table_dup2 o _ x target rfl htarget,
    table_dup2 o _ x target rfl htarget, table_dup2 o _ target save htarget hsave, kernelStage, stage]

/-- With a descriptor of the kernel nothing is redirected, but the place is saved and restored. -/
theorem table_restore_kernel {fd : ℕ} (hfd : maxFds ≤ fd)
    (hr' : r'.table p = (redirect o (some fd) target n r).2.table p) :
    (restore o (some fd) (redirect o (some fd) target n r).1 m n r').table p = r.table p ↔
      r.table p target = none ∨ r.table p save = none := by
  have hne : save ≠ target := Fin.ne_of_val_ne (by omega)
  rw [table_restore o r target save htarget hlow hsave hn hr', ← htarget, table_dup2_kernel o _ hfd,
    table_dup2_kernel o _ hfd, table_dup2 o _ target save rfl hsave]
  cases hT : r.table p target with
  | none => exact iff_of_true rfl (.inl rfl)
  | some a =>
    -- Duplicating the place to itself changes nothing.
    have hsaved : (r.table p).dup target save target = some a := by
      rw [dup_of_ne _ _ hne.symm, hT]
    have hself : ((r.table p).dup target save).dup target target = (r.table p).dup target save := by
      rw [dup_of_some hsaved, ← hsaved, update_eq_self]
    have hstage := stage_some hT hne target
    rw [stage, hself] at hstage
    rw [isSome_some, if_pos rfl, hstage]
    constructor
    · intro heq
      right
      rw [← heq, clear_self]
    · rintro (h | h)
      · cases h
      · exact clear_of_none h

end

section

variable {cmd : CStr} (h : Attempts o cmd r)
include h

/-- What `spawn_cmd` does if it gets as far as spawning. -/
theorem spawnCmd_eq (in_fd out_fd : Option ℕ) :
    ∃ r0 path argv, r0.table p = r.table p ∧
      (spawnCmd o cmd in_fd out_fd r).2 = restore o out_fd (redirect o out_fd 1 11
        (redirect o in_fd 0 10 r0).2).1 1 11 (restore o in_fd (redirect o in_fd 0 10 r0).1 0 10
          ((redirect o out_fd 1 11 (redirect o in_fd 0 10 r0).2).2.spawn o path argv).2) := by
  obtain ⟨hblank, hfound⟩ := h
  rw [spawnCmd]
  rw [if_neg hblank, if_neg (by simpa using hfound)]
  exact ⟨_, _, _, table_stat o r _, rfl⟩

theorem table_spawnCmd_in (x : Fd) :
    (spawnCmd o cmd (some x.val) none r).2.table p = (r.table p).kernelStage 0 10 x := by
  obtain ⟨r0, path, argv, hr0, heq⟩ := spawnCmd_eq o r h (some x.val) none
  rw [heq, ← hr0]
  exact table_restore_fd o r0 0 10 rfl (by decide) rfl (by decide) x (table_spawn o _ _ _)

theorem table_spawnCmd_out (x : Fd) :
    (spawnCmd o cmd none (some x.val) r).2.table p = (r.table p).kernelStage 1 11 x := by
  obtain ⟨r0, path, argv, hr0, heq⟩ := spawnCmd_eq o r h none (some x.val)
  rw [heq, ← hr0]
  exact table_restore_fd o r0 1 11 rfl (by decide) rfl (by decide) x (table_spawn o _ _ _)

theorem table_spawnCmd_kernel_in {fd : ℕ} (hfd : maxFds ≤ fd) :
    (spawnCmd o cmd (some fd) none r).2.table p = r.table p ↔ r.table p 0 = none ∨ r.table p 10 = none := by
  obtain ⟨r0, path, argv, hr0, heq⟩ := spawnCmd_eq o r h (some fd) none
  rw [heq, ← hr0]
  exact table_restore_kernel o r0 0 10 rfl (by decide) rfl (by decide) hfd (table_spawn o _ _ _)

theorem table_spawnCmd_kernel_out {fd : ℕ} (hfd : maxFds ≤ fd) :
    (spawnCmd o cmd none (some fd) r).2.table p = r.table p ↔ r.table p 1 = none ∨ r.table p 11 = none := by
  obtain ⟨r0, path, argv, hr0, heq⟩ := spawnCmd_eq o r h none (some fd)
  rw [heq, ← hr0]
  exact table_restore_kernel o r0 1 11 rfl (by decide) rfl (by decide) hfd (table_spawn o _ _ _)

omit h in
theorem table_spawnCmd_plain (cmd : CStr) : (spawnCmd o cmd none none r).2.table p = r.table p := by
  by_cases h : Attempts o cmd r
  · obtain ⟨r0, path, argv, hr0, heq⟩ := spawnCmd_eq o r h none none
    rw [heq, ← hr0]
    exact table_spawn o r0 path argv
  · exact (spawnCmd_of_not o r h none none).2

end

/-- The condition for a command line. -/
def Restores (resolve_path : CStr → CStr) (cmd : CStr) (r : Run σ β) : Prop :=
  match splitPipe (cmd.take 511) with
  | some (cmd1, cmd2) =>
    match r.pipe o with
    | (none, _) => True
    | (some (rfd, wfd), r1) =>
      let res1 := spawnCmd o cmd1 none (some wfd.val) r1
      (Attempts o cmd1 r1 → (r.table p).Kept 1 11) ∧
        (res1.1 ≠ 0 ∧ Attempts o cmd2 (res1.2.close o wfd.val) →
          (r.table p).Kept 0 10 ∨ r.table p 0 = none ∧ rfd = 11)
  | none =>
    let parsed := splitRedirect (cmd.take 511).length (cmd.take 511)
    let opened := openRedirect o resolve_path parsed.2 r
    Attempts o parsed.1 opened.2 →
      (opened.1.1 ≠ none → r.table p 0 = none ∨ r.table p 10 = none) ∧
        (opened.1.2 ≠ none → r.table p 1 = none ∨ r.table p 11 = none)

/-- Two commands with a pipe between them. -/
theorem table_pipeline (cmd1 cmd2 : CStr) {rfd wfd : Fd}
    (hpiped : (r.table p).Piped (r1.table p) rfd wfd) {pid1 : ℕ} {r2 r3 : Run σ β}
    (hpid1 : (spawnCmd o cmd1 none (some wfd.val) r1).1 = pid1)
    (hr2 : (spawnCmd o cmd1 none (some wfd.val) r1).2 = r2)
    (hr3 : r3 = if pid1 ≠ 0 then (spawnCmd o cmd2 (some rfd.val) none (r2.close o wfd.val)).2
      else r2.close o wfd.val) :
    (r3.close o rfd.val).table p = r.table p ↔
      (Attempts o cmd1 r1 → (r.table p).Kept 1 11) ∧
        (pid1 ≠ 0 ∧ Attempts o cmd2 (r2.close o wfd.val) →
          (r.table p).Kept 0 10 ∨ r.table p 0 = none ∧ rfd = 11) := by
  have hrfd := hpiped.first.high
  have hlt : rfd.val < wfd.val := hpiped.lt
  have hattempts : pid1 ≠ 0 → Attempts o cmd1 r1 := by
    intro hpid
    by_contra hnot
    rw [← hpid1] at hpid
    exact hpid (spawnCmd_of_not o r1 hnot none (some wfd.val)).1
  have hclose := table_close o r2 (show 3 ≤ wfd.val by omega)
  have h1 : Attempts o cmd1 r1 → (r1.table p).Effect (r2.table p) 1 11 wfd := by
    intro h
    rw [← hr2, table_spawnCmd_out o r1 h]
    exact effect_kernelStage _ _ (by decide)
  have h1' : ¬Attempts o cmd1 r1 → r2.table p = r1.table p := by
    intro h
    rw [← hr2]
    exact (spawnCmd_of_not o r1 h none (some wfd.val)).2
  have hstage : pid1 ≠ 0 ∧ Attempts o cmd2 (r2.close o wfd.val) →
      r3.table p = ((r2.table p).clear wfd).kernelStage 0 10 rfd := by
    intro h
    rw [hr3, if_pos h.1, table_spawnCmd_in o _ h.2, hclose]
  have h2 : pid1 ≠ 0 ∧ Attempts o cmd2 (r2.close o wfd.val) →
      ((r2.table p).clear wfd).Effect (r3.table p) 0 10 rfd := by
    intro h
    rw [hstage h]
    exact effect_kernelStage _ _ (by decide)
  have h2' : ¬(pid1 ≠ 0 ∧ Attempts o cmd2 (r2.close o wfd.val)) → r3.table p = (r2.table p).clear wfd := by
    intro h
    rw [hr3, ← hclose]
    split_ifs with hpid
    · exact (spawnCmd_of_not o _ (fun h' => h ⟨hpid, h'⟩) _ _).2
    · rfl
  rw [table_close o r3 hrfd, pipe_eq_iff hpiped h1 h1' h2 h2']
  refine and_congr_right fun hkept => forall_congr' fun hcmd2 => or_congr_right ?_
  refine and_congr_right fun hzero => ⟨fun h => h.2.1, fun hr => ?_⟩
  -- The read end was lost when place 1 was saved, and there is nothing to redirect place 0 to.
  have hcmd1 := hattempts hcmd2.1
  obtain ⟨h1r, h1w⟩ := hpiped.ne_low (show (1 : Fd).val < 3 by decide)
  obtain ⟨h0r, h0w⟩ := hpiped.ne_low (show (0 : Fd).val < 3 by decide)
  have hused : r1.table p 1 ≠ none := by
    rw [hpiped.rest 1 h1r h1w]
    exact (hkept hcmd1).used
  have hlost : (r2.table p).clear wfd rfd = none := by
    rw [clear_of_ne _ hpiped.lt.ne, (h1 hcmd1).used hused, hr, clear_self]
  have hzero' : (r2.table p).clear wfd 0 = none := by
    rw [clear_of_ne _ h0w, (h1 hcmd1).frame 0 (by decide) (by decide), hpiped.rest 0 h0r h0w, hzero]
  refine ⟨hcmd1, hr, ?_⟩
  rw [hstage hcmd2, kernelStage_none hzero', dup_of_none hlost]

/-- The file of a redirection is open for input or for output, with a descriptor of the kernel. -/
theorem table_openRedirect (resolve_path : CStr → CStr) (redirect : Option Redirect) :
    (openRedirect o resolve_path redirect r).2.table p = r.table p ∧ ∃ fd : Option ℕ, (∀ x ∈ fd, maxFds ≤ x) ∧
      ((openRedirect o resolve_path redirect r).1 = (fd, none) ∨
        (openRedirect o resolve_path redirect r).1 = (none, fd)) := by
  rcases redirect with _ | (name | name | name)
  · exact ⟨rfl, none, fun _ hx => absurd hx (by simp), .inl rfl⟩
  · obtain ⟨htable, hfd⟩ := table_open_kernel o r (resolve_path name) 0x01
    exact ⟨htable, _, hfd, .inl rfl⟩
  · obtain ⟨htable, hfd⟩ := table_open_kernel o r (resolve_path name) 0x32
    exact ⟨htable, _, hfd, .inr rfl⟩
  · obtain ⟨htable, hfd⟩ := table_open_kernel o r (resolve_path name) 0x52
    exact ⟨htable, _, hfd, .inr rfl⟩

/-- The table of the kernel's shell after a command line. -/
theorem tryExec_restores_iff (resolve_path : CStr → CStr) (cmd : CStr) :
    (tryExec o resolve_path cmd r).table p = r.table p ↔ Restores o resolve_path cmd r := by
  rw [tryExec, Restores]
  rcases splitPipe (cmd.take 511) with _ | ⟨cmd1, cmd2⟩
  · dsimp only
    generalize hparsed : splitRedirect (cmd.take 511).length (cmd.take 511) = parsed
    obtain ⟨hsame, fd, hfd, hfds⟩ := table_openRedirect o r resolve_path parsed.2
    obtain ⟨⟨⟨in_fd, out_fd⟩, r1⟩, hopened⟩ : ∃ x, x = openRedirect o resolve_path parsed.2 r := ⟨_, rfl⟩
    rw [← hopened] at hsame hfds ⊢
    have hwait : ∀ (c : Prop) [Decidable c] (r' : Run σ β),
        (if c then r'.wait o else r').table p = r'.table p := by
      intro c _ r'
      split_ifs
      · exact table_wait o r'
      · rfl
    rw [hwait]
    have hclosed : ∀ r' : Run σ β,
        (Asdsh.closeOpened o out_fd (Asdsh.closeOpened o in_fd r')).table p = r'.table p := by
      intro r'
      rcases hfds with hfds | hfds <;> obtain ⟨rfl, rfl⟩ := Prod.mk.inj hfds
      · exact table_closeOpened_kernel o r' hfd
      · exact table_closeOpened_kernel o r' hfd
    rw [hclosed]
    by_cases hattempts : Attempts o parsed.1 r1
    · cases fd with
      | none =>
        obtain ⟨rfl, rfl⟩ : in_fd = none ∧ out_fd = none := by rcases hfds with h | h <;> exact Prod.mk.inj h
        refine iff_of_true ?_ fun _ => ⟨fun h => absurd rfl h, fun h => absurd rfl h⟩
        exact (table_spawnCmd_plain o r1 parsed.1).trans hsame
      | some fd =>
        rw [← hsame]
        rcases hfds with hfds | hfds <;> obtain ⟨rfl, rfl⟩ := Prod.mk.inj hfds
        · rw [table_spawnCmd_kernel_in o r1 hattempts (hfd fd rfl)]
          exact ⟨fun h _ => ⟨fun _ => h, fun h => absurd rfl h⟩, fun h => (h hattempts).1 (some_ne_none fd)⟩
        · rw [table_spawnCmd_kernel_out o r1 hattempts (hfd fd rfl)]
          exact ⟨fun h _ => ⟨fun h => absurd rfl h, fun _ => h⟩, fun h => (h hattempts).2 (some_ne_none fd)⟩
    · refine iff_of_true ?_ fun h => absurd h hattempts
      exact (spawnCmd_of_not o r1 hattempts in_fd out_fd).2.trans hsame
  · have htable := table_piped o r
    rcases hp : r.pipe o with ⟨fds, r1⟩
    rw [hp] at htable
    rcases htable with ⟨rfl, hsame⟩ | ⟨rfd, wfd, rfl, hpiped⟩
    · exact iff_of_true hsame trivial
    · refine Iff.trans ?_ (table_pipeline o r cmd1 cmd2 hpiped rfl rfl rfl)
      dsimp only
      split_ifs <;> simp only [table_wait]

end KernelShell

/-- The table of a shell is the same after a command line exactly under the conditions above, for both
shells. It then refers to the same nodes as before; what other tables refer to is not said. -/
theorem redirections_iff {σ β : Type} {p : Pid} (o : Surroundings σ β p) (r : Run σ β) :
    (∀ g_cwd resolve line r', Asdsh.execLine o g_cwd resolve line r = some r' →
      (r'.table p = r.table p ↔ Asdsh.Restores o resolve line r)) ∧
    ∀ resolve_path cmd, (KernelShell.tryExec o resolve_path cmd r).table p = r.table p ↔
      KernelShell.Restores o resolve_path cmd r :=
  ⟨fun _ _ _ _ h => Asdsh.execLine_restores_iff o r h,
    fun resolve_path cmd => KernelShell.tryExec_restores_iff o r resolve_path cmd⟩

/-- Nothing happens around the shell of process 1. -/
def quiet : Surroundings Unit Unit 1 := .ofCalls (fun _ => []) fun _ _ h => absurd h List.not_mem_nil

/-- A process with places 0 and 1 in use. -/
def redirected : State Unit Unit :=
  [Call.open (cstr "/t") 3 (some 1), .dup2 (some 1) 3 0, .dup2 (some 1) 3 1, .close (some 1) 3].foldl
    State.perform State.oneProcess

/-- Its table is the same after a command with a redirection. -/
theorem redirections_iff_in_use : ∃ r',
    Asdsh.execLine quiet (cstr "/") id (cstr "prog > /a") ⟨0, redirected⟩ = some r' ∧
      r'.table 1 = Run.table 1 ⟨0, redirected⟩ := by
  have hruns : (Asdsh.execLine quiet (cstr "/") id (cstr "prog > /a") ⟨0, redirected⟩).isSome := by
    decide +kernel
  obtain ⟨r', hr'⟩ := isSome_iff_exists.mp hruns
  have hin : (Asdsh.openRedirect quiet id (splitRedirect 511 (cstr "prog > /a")).2 ⟨0, redirected⟩).1.1 = none := by
    decide +kernel
  have hrestores : Asdsh.Restores quiet id (cstr "prog > /a") ⟨0, redirected⟩ := by
    rw [Asdsh.Restores, show splitPipe (cstr "prog > /a") = none by decide]
    exact fun _ _ => ⟨fun h => absurd hin h, fun _ => ⟨by decide +kernel, by decide +kernel⟩⟩
  exact ⟨r', hr', ((redirections_iff quiet ⟨0, redirected⟩).1 _ _ _ r' hr').mpr hrestores⟩

/-- If place 0 is not in use, as is usual, then the user's shell goes on to read from the file, whose node
stays referenced. In the kernel's shell a pipe ends up in place 1. -/
theorem redirection_outlives_command :
    (∃ r', Asdsh.execLine quiet (cstr "/") id (cstr "prog < /a") ⟨0, State.oneProcess⟩ = some r' ∧
      State.oneProcess.fd_table 1 0 = none ∧ r'.table 1 0 = some 1 ∧ (r'.vfs.g_nodes 1).node_id = 1) ∧
    State.oneProcess.fd_table 1 1 = none ∧
      (KernelShell.tryExec quiet id (cstr "a | b") ⟨0, State.oneProcess⟩).table 1 1 = some 2 := by
  have hsome : ∀ {α : Type} {P : α → Prop} [DecidablePred P] (x : Option α),
      (x.any fun a => decide (P a)) = true → ∃ a, x = some a ∧ P a := by
    intro α P _ x hx
    cases x with
    | none => cases hx
    | some a => exact ⟨a, rfl, of_decide_eq_true hx⟩
  exact ⟨hsome _ (by decide +kernel), by decide +kernel⟩

end FreeAsd.Shell
