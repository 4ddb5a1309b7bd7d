import ZkClient.LastErr

/-!
# What the commands report

A command drops the status of the operation that has failed and reports `c->last_err`.  `Command.failed` is the command
up to that point, with the status as its result; `Command.Reports` says that the failure is the same whatever
`last_err` was before the command, and that it is in `last_err` when the command looks there.  This holds exactly when
every request of the command is clear (`Command.reports_iff`).
-/

namespace ZkClient

open Pthread

/-- A command function with its arguments. -/
inductive Command where
  | get (path : Option Bytes)
  | create (path buf : Option Bytes) (len : Int32)
  | mkdir (path : Option Bytes)
  | ls (path : Option Bytes)
  | stat (path : Option Bytes)
  | set (path : Option Bytes) (buf : Bytes) (len : Int32) (version : Int)
  | del (path : Option Bytes) (version : Int)
  deriving DecidableEq, Repr

namespace Command

def path : Command → Option Bytes
  | get path | create path _ _ | mkdir path | ls path | stat path | set path _ _ _ | del path _ => path

variable (H : Heap)

def run : Command → Zk Int
  | get path => getCommand H path
  | create path buf len => createCommand H path buf len
  | mkdir path => mkdirCommand H path
  | ls path => lsCommand H path
  | stat path => statCommand H path
  | set path buf len version => setCommand H path buf len version
  | del path version => delCommand H path version

/-- The failure of an operation whose success is `ZK_OK`. -/
def unlessOk (status : Int) : Option Int := if status = zkOk then none else some status

/-- The failure of `zk_exists`, which answers 1 for a node and 0 for none. -/
def unlessFound (status : Int) : Option Int :=
  if status = 1 then none else some (if status = 0 then zNoNode else status)

/-- A command up to the failure of one of its operations: the status of that operation, if there is one. -/
def failed : Command → Zk (Option Int)
  | get path => do
    let (status, found) ← zkExists H path true
    if status ≠ 1 then return unlessFound status
    else do
      if found.isNone then perform (.undefined (.readUnassigned "stat"))
      if (found.getD (uninitStat H)).dataLength = 0 then return none
      else do
        let (status, _) ← zkGet H path true
        return unlessOk status
  | create path buf len => do
    let status ← zkCreate H path buf len 0
    return unlessOk status
  | mkdir path => do
    let status ← zkMkdir H path
    return unlessOk status
  | ls path => do
    let (status, _) ← zkGetChildren H path
    return unlessOk status
  | stat path => do
    let (status, _) ← zkExists H path true
    return unlessFound status
  | set path buf len _ => do
    let status ← zkSet H path { len, buff := some buf }
    return unlessOk status
  | del path _ => do
    let status ← zkDel H path
    return unlessOk status

/-- What a command prints about the failure `s`; `statCommand` prints nothing. -/
def message (cmd : Command) (s : Int) : List (String × List Arg) :=
  let args := [.str cmd.path, .text (zkErrorText s)]
  match cmd with
  | get _ => [("get %s failed, %s.\n", args)]
  | create .. => [("create %s failed, %s.\n", args)]
  | mkdir _ => [("mkdir %s failed, %s.\n", args)]
  | ls _ => [("ls %s failed, %s.\n", args)]
  | stat _ => []
  | set .. => [("set %s failed, %s.\n", args)]
  | del .. => [("del %s failed, %s.\n", args)]

/-- In the world `w`, the command fails with `result`, reports exactly that, and describes it. -/
structure Report (cmd : Command) (w : World) (result : Option Int) : Prop where
  failed : (exec H (cmd.failed H) w).1 = result
  lastErr : ∀ s, result = some s → (exec H (cmd.failed H) w).2.client.lastErr = s
  status : ∀ s, result = some s → (exec H (cmd.run H) w).1 = s ∧ s ≠ 0
  message : ∀ s, result = some s → zkErrorText s ≠ "null" ∧
    (exec H (cmd.run H) w).2.output = (exec H (cmd.failed H) w).2.output ++ cmd.message s

/-- Whatever `last_err` was before the command, it reports its own failure. -/
def Reports (cmd : Command) (w : World) : Prop := ∃ result, ∀ e, cmd.Report H (w.setErr e) result

/-! ### A failed command -/

variable {H}

private theorem exec_reportError (fmt : String) (path : Option Bytes) (w : World) :
    (reportError fmt path).run (World.handle H) w =
      (w.client.lastErr, { w with output := w.output ++ [(fmt, [.str path, .text (zkErrorText w.client.lastErr)])] }) :=
  rfl

private theorem unlessOk_eq_some {status s : Int} (h : unlessOk status = some s) : status ≠ zkOk := by
  rintro rfl
  simp [unlessOk] at h

private theorem unlessFound_eq_some {status s : Int} (h : unlessFound status = some s) : status ≠ 1 := by
  rintro rfl
  simp [unlessFound] at h

/-- After a failure, a command returns `last_err` and prints its description. -/
theorem run_of_failed {cmd : Command} {w w' : World} {s : Int} (h : exec H (cmd.failed H) w = (some s, w')) :
    exec H (cmd.run H) w =
      (w'.client.lastErr, { w' with output := w'.output ++ cmd.message w'.client.lastErr }) := by
  cases cmd with
  | create path buf len =>
    simp only [exec, failed, run, createCommand, Prog.run_bind, Prog.run_pure] at h ⊢
    generalize (zkCreate H path buf len 0).run (World.handle H) w = r at h ⊢
    obtain ⟨hs, rfl⟩ := Prod.mk.inj h
    rw [if_neg (unlessOk_eq_some hs), exec_reportError]
    rfl
  | mkdir path =>
    simp only [exec, failed, run, mkdirCommand, Prog.run_bind, Prog.run_pure] at h ⊢
    generalize (zkMkdir H path).run (World.handle H) w = r at h ⊢
    obtain ⟨hs, rfl⟩ := Prod.mk.inj h
    rw [if_neg (unlessOk_eq_some hs), exec_reportError]
    rfl
  | ls path =>
    simp only [exec, failed, run, lsCommand, Prog.run_bind, Prog.run_pure] at h ⊢
    generalize (zkGetChildren H path).run (World.handle H) w = r at h ⊢
    obtain ⟨hs, rfl⟩ := Prod.mk.inj h
    rw [if_pos (unlessOk_eq_some hs), exec_reportError]
    rfl
  | stat path =>
    simp only [exec, failed, run, statCommand, Prog.run_bind, Prog.run_pure] at h ⊢
    generalize (zkExists H path true).run (World.handle H) w = r at h ⊢
    obtain ⟨hs, rfl⟩ := Prod.mk.inj h
    rw [if_pos (unlessFound_eq_some hs)]
    simp [message]
  | set path buf len version =>
    simp only [exec, failed, run, setCommand, Prog.run_bind, Prog.run_pure] at h ⊢
    generalize (zkSet H path { len, buff := some buf }).run (World.handle H) w = r at h ⊢
    obtain ⟨hs, rfl⟩ := Prod.mk.inj h
    rw [if_pos (unlessOk_eq_some hs), exec_reportError]
    rfl
  | del path version =>
    simp only [exec, failed, run, delCommand, Prog.run_bind, Prog.run_pure] at h ⊢
    generalize (zkDel H path).run (World.handle H) w = r at h ⊢
    obtain ⟨hs, rfl⟩ := Prod.mk.inj h
    rw [if_pos (unlessOk_eq_some hs), exec_reportError]
    rfl
  | get path =>
    simp only [exec, failed, run, getCommand, Prog.run_bind] at h ⊢
    generalize (zkExists H path true).run (World.handle H) w = r at h ⊢
    obtain ⟨⟨status, found⟩, w₁⟩ := r
    dsimp only at h ⊢
    by_cases hfound : status = 1
    · rw [if_neg (not_not.2 hfound)] at h ⊢
      -- a header whose error is 1 comes without a stat
      cases found
      all_goals
        simp only [Option.isNone_none, Option.isNone_some, if_true, Bool.false_eq_true, if_false, Prog.run_bind] at h ⊢
        split at h
        · cases h
        · rename_i hdata
          rw [if_neg hdata]
          simp only [Prog.run_bind, Prog.run_pure] at h ⊢
          generalize (zkGet H path true).run (World.handle H) _ = q at h ⊢
          obtain ⟨hs, rfl⟩ := Prod.mk.inj h
          rw [if_pos (unlessOk_eq_some hs), exec_reportError]
          rfl
    · rw [if_pos hfound, Prog.run_pure] at h
      rw [if_pos hfound, exec_reportError]
      obtain ⟨-, rfl⟩ := Prod.mk.inj h
      rfl

/-- A report is right when the failure is in `last_err`. -/
private theorem report_iff {cmd : Command} {w : World} {result : Option Int} :
    cmd.Report H w result ↔ (exec H (cmd.failed H) w).1 = result ∧
      ∀ s, result = some s → (exec H (cmd.failed H) w).2.client.lastErr = s ∧ s ≠ 0 := by
  constructor
  · rintro h
    exact ⟨h.failed, fun s hs => ⟨h.lastErr s hs, (h.status s hs).2⟩⟩
  · rintro ⟨hfailed, herr⟩
    have hrun : ∀ s, result = some s → (exec H (cmd.run H) w).1 = s ∧
        (exec H (cmd.run H) w).2.output = (exec H (cmd.failed H) w).2.output ++ cmd.message s := by
      intro s hs
      have hexec : exec H (cmd.failed H) w = (some s, (exec H (cmd.failed H) w).2) := Prod.ext (hfailed.trans hs) rfl
      have h := run_of_failed hexec
      rw [h, (herr s hs).1]
      exact ⟨rfl, rfl⟩
    exact ⟨hfailed, fun s hs => (herr s hs).1, fun s hs => ⟨(hrun s hs).1, (herr s hs).2⟩,
      fun s hs => ⟨zkErrorText_ne_null (herr s hs).2, (hrun s hs).2⟩⟩

/-! ### One operation -/

/-- A command without a path fails before it sends anything. -/
private theorem not_reports_null {cmd : Command} (h : cmd.path = none) (w : World) : ¬ cmd.Reports H w := by
  have hfailed : exec H (cmd.failed H) (w.setErr 0) = (some zkError, w.setErr 0) := by
    cases cmd
    all_goals
      obtain rfl : _ = none := h
      rfl
  rintro ⟨result, hrep⟩
  obtain ⟨hres, herr⟩ := report_iff.1 (hrep 0)
  rw [hfailed] at hres herr
  exact absurd (herr zkError hres.symm).1 (show (0 : Int) ≠ zkError by decide)

/-- A command that is a single operation. -/
private theorem reports_single {cmd : Command} {op : Operation}
    (hfailed : ∀ w, exec H (cmd.failed H) w = (op.failure (exec H (op.run H) w).1.1, (exec H (op.run H) w).2))
    (w : World) : cmd.Reports H w ↔ op.Clear H w := by
  constructor
  · rintro ⟨result, hrep⟩
    by_contra hnot
    have hrep' := fun e => report_iff.1 (hrep e)
    simp only [hfailed] at hrep'
    rcases Operation.not_clear_misreports hnot with ⟨e, s, hs, herr⟩ | ⟨hnone, hanswer⟩
    · exact herr ((hrep' e).2 s ((hrep' e).1.symm.trans hs)).1
    · have hzero := (hrep' 0).1
      have hfive := (hrep' 5).1
      rw [hanswer, hnone] at hzero
      rw [hanswer, op.failure_of_ne (by decide) (by decide), ← hzero] at hfive
      cases hfive
  · intro h
    refine ⟨op.failure (exec H (op.run H) w).1.1, fun e => report_iff.2 ?_⟩
    rw [hfailed, h.run_setErr]
    exact ⟨rfl, fun s hs => h.lastErr_eq hs⟩

/-! ### `getCommand` -/

/-- The world in which `getCommand` sends its second request. -/
def found (r : (Int × Option Stat) × World) : World :=
  if r.1.2.isNone then r.2.fault (.readUnassigned "stat") else r.2

private theorem exec_failed_get (p : Bytes) (w : World) :
    exec H ((get (some p)).failed H) w =
      let r := exec H (zkExists H (some p) true) w
      if r.1.1 ≠ 1 then (unlessFound r.1.1, r.2)
      else if (r.1.2.getD (uninitStat H)).dataLength = 0 then (none, found r)
      else (unlessOk (exec H (zkGet H (some p) true) (found r)).1.1, (exec H (zkGet H (some p) true) (found r)).2) := by
  simp only [exec, failed, Prog.run_bind]
  generalize (zkExists H (some p) true).run (World.handle H) w = r
  obtain ⟨⟨status, stat⟩, w₁⟩ := r
  dsimp only
  by_cases hstatus : status ≠ 1
  · rw [if_pos hstatus, if_pos hstatus]
    rfl
  · rw [if_neg hstatus, if_neg hstatus]
    cases stat
    all_goals
      simp only [Option.isNone_none, Option.isNone_some, if_true, Bool.false_eq_true, if_false, Prog.run_bind, found]
      split
      · rfl
      · simp only [Prog.run_bind, Prog.run_pure, run_undefined, World.handle_undefined]

private theorem failure_exists (p : Bytes) (status : Int) : (Operation.exists p).failure status = unlessFound status :=
  rfl

private theorem failure_get (p : Bytes) (status : Int) : (Operation.get p).failure status = unlessOk status := rfl

private theorem exec_exists (p : Bytes) (w : World) :
    exec H ((Operation.exists p).run H) w =
      (((exec H (zkExists H (some p) true) w).1.1, (exec H (zkExists H (some p) true) w).1.2.map .stat),
        (exec H (zkExists H (some p) true) w).2) := by
  simp only [exec, Operation.run, Prog.run_bind, Prog.run_pure]

private theorem exec_get (p : Bytes) (w : World) :
    exec H ((Operation.get p).run H) w =
      (((exec H (zkGet H (some p) true) w).1.1, (exec H (zkGet H (some p) true) w).1.2.map .data),
        (exec H (zkGet H (some p) true) w).2) := by
  simp only [exec, Operation.run, Prog.run_bind, Prog.run_pure]

private theorem zkExists_setErr {p : Bytes} {w : World} (h : (Operation.exists p).Clear H w) (e : Int) :
    exec H (zkExists H (some p) true) (w.setErr e) = exec H (zkExists H (some p) true) w := by
  have hrun := h.run_setErr e
  rw [exec_exists, exec_exists, Prod.mk.injEq, Prod.mk.injEq] at hrun
  have hinj : Function.Injective Output.stat := fun _ _ h => Output.stat.inj h
  exact Prod.ext (Prod.ext hrun.1.1 (Option.map_injective hinj hrun.1.2)) hrun.2

@[simp] private theorem found_lastErr (r : (Int × Option Stat) × World) :
    (found r).client.lastErr = r.2.client.lastErr := by
  unfold found
  split <;> rfl

/-- The second request of `getCommand` finds a `last_err` that is not an encoding failure. -/
private theorem lastErr_found {p : Bytes} {w : World} (h : (Operation.exists p).Clear H w)
    {r : (Int × Option Stat) × World} (hr : exec H (zkExists H (some p) true) w = r) (hone : r.1.1 = 1) :
    H.ok .archive 0 = true ∧ (found r).client.lastErr ≠ -enomem := by
  have hcases := h.cases
  rw [exec_exists, hr] at hcases
  simp only [hone] at hcases
  rcases hcases with ⟨-, hbad | hbad⟩ | ⟨hstatus, hok⟩
  · exact absurd hbad (by decide)
  · exact absurd hbad (by decide)
  · refine ⟨hok, fun herr => ?_⟩
    rw [found_lastErr] at herr
    rw [herr] at hstatus
    simp [Operation.status] at hstatus

private theorem reports_get (p : Bytes) {w : World} {r : (Int × Option Stat) × World}
    (hr : exec H (zkExists H (some p) true) w = r) :
    (get (some p)).Reports H w ↔ (Operation.exists p).Clear H w ∧
      (r.1.1 = 1 → (r.1.2.getD (uninitStat H)).dataLength ≠ 0 → (Operation.get p).Clear H (found r)) := by
  constructor
  · rintro ⟨result, hrep⟩
    have hrep' := fun e => report_iff.1 (hrep e)
    simp only [exec_failed_get] at hrep'
    have hclear : (Operation.exists p).Clear H w := by
      by_contra hnot
      rcases Operation.not_clear_misreports hnot with ⟨e, s, hs, herr⟩ | ⟨hnone, -⟩
      · have hrep := hrep' e
        rw [exec_exists] at hs herr
        generalize exec H (zkExists H (some p) true) (w.setErr e) = t at hs herr hrep
        rw [if_pos (unlessFound_eq_some hs)] at hrep
        exact herr (hrep.2 s (hrep.1.symm.trans hs)).1
      · cases hnone
    refine ⟨hclear, fun hone hdata => ?_⟩
    by_contra hnot
    obtain ⟨hok, herr⟩ := lastErr_found hclear hr hone
    have hbad := Operation.not_clear_status hnot hok herr
    obtain ⟨hres, hreport⟩ := hrep' 0
    rw [zkExists_setErr hclear 0, hr, if_neg (not_not.2 hone), if_neg hdata] at hres hreport
    rw [exec_get] at hbad
    generalize exec H (zkGet H (some p) true) (found r) = q at hres hreport hbad
    dsimp only at hbad hres hreport
    have hfail : unlessOk q.1.1 = some q.1.1 := by
      rcases hbad.1 with h | h
      all_goals
        rw [h]
        rfl
    exact hbad.2 (hreport q.1.1 (hres.symm.trans hfail)).1
  · rintro ⟨hexists, hget⟩
    refine ⟨(exec H ((get (some p)).failed H) w).1, fun e => report_iff.2 ?_⟩
    rw [exec_failed_get, exec_failed_get, zkExists_setErr hexists e, hr]
    refine ⟨rfl, fun s hs => ?_⟩
    by_cases hone : r.1.1 = 1
    · by_cases hdata : (r.1.2.getD (uninitStat H)).dataLength = 0
      · rw [if_neg (not_not.2 hone), if_pos hdata] at hs
        cases hs
      · rw [if_neg (not_not.2 hone), if_neg hdata] at hs ⊢
        have herr := (hget hone hdata).lastErr_eq (s := s)
        rw [exec_get, failure_get] at herr
        generalize exec H (zkGet H (some p) true) (found r) = q at herr hs ⊢
        exact herr hs
    · rw [if_pos hone] at hs ⊢
      have herr := hexists.lastErr_eq (s := s)
      rw [exec_exists, hr, failure_exists] at herr
      exact herr hs

/-! ### `mkdirCommand` -/

private theorem exec_create (p : Bytes) (data : Option Bytes) (size flags : Int32) (w : World) :
    exec H ((Operation.create p data size flags).run H) w =
      (((exec H (zkCreate H (some p) data size flags) w).1, none),
        (exec H (zkCreate H (some p) data size flags) w).2) := by
  simp only [exec, Operation.run, Prog.run_bind, Prog.run_pure]

variable (H) in
/-- A create request of `zk_mkdir`, noted with the world that it finds. -/
def createRequest (path : Bytes) : StateM (World × List (Operation × World)) Int := fun s =>
  let r := exec H (zkCreate H (some path) none 0 0) s.1
  (r.1, r.2, s.2 ++ [(.create path none 0 0, s.1)])

/-- The null pointer of `zk_mkdir` for a path without a slash. -/
def noSlash : StateM (World × List (Operation × World)) Unit := fun s =>
  ((), s.1.fault (.nullPointer "strrchr"), s.2)

variable (H) in
/-- `zk_mkdir` with notes of its requests. -/
def mkdirRequests (path : Bytes) : StateM (World × List (Operation × World)) Int :=
  zkMkdirWith (createRequest H) noSlash path

private theorem run_zkMkdirWith {σ : Type} (create : Bytes → StateM σ Int) (undefined : StateM σ Unit) (path : Bytes)
    (s : σ) :
    zkMkdirWith create undefined path s =
      let first := create path s
      if first.1 = zNoNode then
        match strrchr path slash with
        | none => (first.1, (undefined first.2).2)
        | some pos =>
          let parent := zkMkdirWith create undefined (path.take pos) first.2
          if parent.1 = zkOk then create path parent.2 else parent
      else first := by
  rw [zkMkdirWith_eq]
  show (fun r : Int × σ => (if r.1 = zNoNode then _ else _ : StateM σ Int) r.2) (create path s) = _
  cases strrchr path slash with
  | none =>
    dsimp only
    split <;> rfl
  | some pos =>
    dsimp only
    split
    · show (fun r : Int × σ => (if r.1 = zkOk then create path else pure r.1 : StateM σ Int) r.2)
        (zkMkdirWith create undefined (path.take pos) (create path s).2) = _
      dsimp only
      split <;> rfl
    · rfl

private theorem exec_zkMkdir (path : Bytes) (w : World) :
    exec H (zkMkdir H (some path)) w =
      let first := exec H (zkCreate H (some path) none 0 0) w
      if first.1 = zNoNode then
        match strrchr path slash with
        | none => (first.1, first.2.fault (.nullPointer "strrchr"))
        | some pos =>
          let parent := exec H (zkMkdir H (some (path.take pos))) first.2
          if parent.1 = zkOk then exec H (zkCreate H (some path) none 0 0) parent.2 else parent
      else first := by
  unfold exec zkMkdir
  dsimp only
  rw [zkMkdirWith_eq, Prog.run_bind]
  generalize (zkCreate H (some path) none 0 0).run (World.handle H) w = first
  cases strrchr path slash with
  | none =>
    dsimp only
    split
    · simp only [Prog.run_bind, Prog.run_pure, run_undefined, World.handle_undefined]
    · rfl
  | some pos =>
    dsimp only
    split
    · rw [Prog.run_bind]
      generalize Prog.run (World.handle H) _ first.2 = parent
      split <;> rfl
    · rfl

private theorem clear_create (path : Bytes) (w : World) (h : (Operation.create path none 0 0).Clear H w) :
    let r := exec H (zkCreate H (some path) none 0 0) w
    r.1 = r.2.client.lastErr ∧ (r.1 = zNoNode → H.ok .archive 0 = true) := by
  have hcases := h.cases
  rw [exec_create] at hcases
  generalize exec H (zkCreate H (some path) none 0 0) w = r at hcases
  rcases hcases with ⟨herr, hlost⟩ | ⟨hstatus, hok⟩
  · refine ⟨herr, fun hnode => ?_⟩
    rw [hnode] at hlost
    exact absurd hlost (by decide)
  · exact ⟨hstatus, fun _ => hok⟩

private theorem not_clear_create (path : Bytes) (w : World) (h : ¬ (Operation.create path none 0 0).Clear H w)
    (hok : H.ok .archive 0 = true) (herr : w.client.lastErr ≠ -enomem) :
    let r := exec H (zkCreate H (some path) none 0 0) w
    r.1 ≠ r.2.client.lastErr ∧ r.1 ≠ 0 ∧ r.1 ≠ zNoNode := by
  obtain ⟨hstatus, hne⟩ := Operation.not_clear_status h hok herr
  rw [exec_create] at hstatus hne
  generalize exec H (zkCreate H (some path) none 0 0) w = r at hstatus hne
  refine ⟨hne.symm, ?_, ?_⟩
  all_goals
    rcases hstatus with hs | hs
    all_goals
      rw [show r.1 = _ from hs]
      decide

variable (H) in
/-- The requests `sent` tell whether the status of the run is in `c->last_err`. -/
private def TellStatus (sent : List (Operation × World)) (r : Int × World) : Prop :=
  (∀ q ∈ sent, q.1.Clear H q.2) ∧ r.1 = r.2.client.lastErr ∨
    (∃ q ∈ sent, ¬ q.1.Clear H q.2) ∧ r.1 ≠ r.2.client.lastErr ∧ r.1 ≠ 0

/-- Clear requests in front change nothing. -/
private theorem TellStatus.after {old sent : List (Operation × World)} {r : Int × World} (h : TellStatus H sent r)
    (hold : ∀ q ∈ old, q.1.Clear H q.2) : TellStatus H (old ++ sent) r := by
  rcases h with ⟨hall, herr⟩ | ⟨⟨q, hq, hbad⟩, hne⟩
  · refine .inl ⟨fun q hq => ?_, herr⟩
    rcases List.mem_append.1 hq with hq | hq
    · exact hold q hq
    · exact hall q hq
  · exact .inr ⟨⟨q, List.mem_append_right _ hq, hbad⟩, hne⟩

private theorem TellStatus.of_ok {sent : List (Operation × World)} {r : Int × World} (h : TellStatus H sent r)
    (hok : r.1 = zkOk) : (∀ q ∈ sent, q.1.Clear H q.2) ∧ r.2.client.lastErr = zkOk := by
  rcases h with ⟨hall, herr⟩ | ⟨-, -, hne⟩
  · exact ⟨hall, herr ▸ hok⟩
  · exact absurd hok hne

private theorem create_tellStatus {path : Bytes} {w : World}
    (h : (Operation.create path none 0 0).Clear H w ∨ H.ok .archive 0 = true ∧ w.client.lastErr ≠ -enomem) :
    TellStatus H [(.create path none 0 0, w)] (exec H (zkCreate H (some path) none 0 0) w) := by
  by_cases hc : (Operation.create path none 0 0).Clear H w
  · exact .inl ⟨by simpa using hc, (clear_create path w hc).1⟩
  · obtain ⟨hok, herr⟩ := h.resolve_left hc
    obtain ⟨hne, hzero, -⟩ := not_clear_create path w hc hok herr
    exact .inr ⟨by simpa using hc, hne, hzero⟩

/-- Only a clear create answers `ZNONODE`. -/
private theorem clear_of_noNode {path : Bytes} {w : World}
    (h : (Operation.create path none 0 0).Clear H w ∨ H.ok .archive 0 = true ∧ w.client.lastErr ≠ -enomem)
    (hnode : (exec H (zkCreate H (some path) none 0 0) w).1 = zNoNode) : (Operation.create path none 0 0).Clear H w := by
  by_contra hc
  obtain ⟨hok, herr⟩ := h.resolve_left hc
  exact (not_clear_create path w hc hok herr).2.2 hnode

/-- The notes are about the run of `zk_mkdir`, and tell whether its status is in `last_err`. -/
private theorem mkdirRequests_spec (path : Bytes) (w : World) (sent : List (Operation × World)) :
    let op := Operation.create path none 0 0
    let r := exec H (zkMkdir H (some path)) w
    ∃ new, mkdirRequests H path (w, sent) = (r.1, r.2, sent ++ new) ∧ (op, w) ∈ new ∧
      (op.Clear H w ∨ H.ok .archive 0 = true ∧ w.client.lastErr ≠ -enomem → TellStatus H new r) := by
  induction hn : path.length using Nat.strong_induction_on generalizing path w sent with
  | _ n ih =>
    subst hn
    intro op r
    have hrun : r = _ := exec_zkMkdir path w
    have hnotes : mkdirRequests H path (w, sent) = _ := run_zkMkdirWith (createRequest H) noSlash path (w, sent)
    have hrequest : ∀ w sent, createRequest H path (w, sent) = ((exec H (zkCreate H (some path) none 0 0) w).1,
      (exec H (zkCreate H (some path) none 0 0) w).2, sent ++ [(op, w)]) := fun _ _ => rfl
    have hfirst := @create_tellStatus H path w
    have hclear := clear_create (H := H) path w
    have hnoNode := @clear_of_noNode H path w
    rw [hrequest] at hnotes
    generalize exec H (zkCreate H (some path) none 0 0) w = first at hrun hnotes hfirst hclear hnoNode
    dsimp only at hrun hnotes hclear
    by_cases hnode : first.1 = zNoNode
    swap
    · rw [if_neg hnode] at hrun hnotes
      rw [hrun]
      exact ⟨[(op, w)], hnotes, List.mem_singleton_self _, hfirst⟩
    rw [if_pos hnode] at hrun hnotes
    cases hpos : strrchr path slash with
    | none =>
      rw [hpos] at hrun hnotes
      rw [hrun]
      exact ⟨[(op, w)], hnotes, List.mem_singleton_self _, hfirst⟩
    | some pos =>
      rw [hpos] at hrun hnotes
      have hlt : (path.take pos).length < path.length := by
        have := strrchr_lt hpos
        rw [List.length_take]
        omega
      obtain ⟨new, hparent, -, htell⟩ := ih _ hlt (path.take pos) first.2 (sent ++ [(op, w)]) rfl
      unfold mkdirRequests at hparent
      dsimp only at hrun hnotes
      rw [hparent] at hnotes
      generalize exec H (zkMkdir H (some (path.take pos))) first.2 = parent at hrun hnotes htell
      -- the parent is created on the memory and with the code that the first create leaves
      have htell' : op.Clear H w → TellStatus H new parent := by
        intro hc
        refine htell (.inr ⟨(hclear hc).2 hnode, ?_⟩)
        rw [← (hclear hc).1, hnode]
        decide
      by_cases hok : parent.1 = zkOk
      · rw [if_pos hok, hrequest] at hnotes
        rw [if_pos hok] at hrun
        rw [hrun]
        refine ⟨[(op, w)] ++ (new ++ [(op, parent.2)]), ?_, List.mem_cons_self, fun hyp => ?_⟩
        · rw [hnotes]
          simp only [List.append_assoc]
        · have hc := hnoNode hyp hnode
          obtain ⟨hall, herr⟩ := (htell' hc).of_ok hok
          have hsecond : TellStatus H [(op, parent.2)] _ := create_tellStatus (.inr ⟨(hclear hc).2 hnode, by
            rw [herr]
            decide⟩)
          exact (hsecond.after hall).after (by simpa using hc)
      · rw [if_neg hok] at hrun hnotes
        rw [hrun]
        refine ⟨[(op, w)] ++ new, ?_, List.mem_cons_self, fun hyp => ?_⟩
        · rw [hnotes, List.append_assoc]
        · have hc := hnoNode hyp hnode
          exact (htell' hc).after (by simpa using hc)

private theorem exec_failed_mkdir (path : Bytes) (w : World) :
    exec H ((mkdir (some path)).failed H) w =
      (unlessOk (exec H (zkMkdir H (some path)) w).1, (exec H (zkMkdir H (some path)) w).2) := by
  simp only [exec, failed, Prog.run_bind, Prog.run_pure]

private theorem reports_mkdir (path : Bytes) (w : World) :
    (mkdir (some path)).Reports H w ↔ ∀ q ∈ (mkdirRequests H path (w, [])).2.2, q.1.Clear H q.2 := by
  obtain ⟨new, hnotes, hmem, hdich⟩ := mkdirRequests_spec (H := H) path w []
  rw [hnotes]
  simp only [List.nil_append]
  have hsame : (Operation.create path none 0 0).Clear H w → ∀ e,
      exec H (zkMkdir H (some path)) (w.setErr e) = exec H (zkMkdir H (some path)) w := by
    intro hc e
    have hrun := hc.run_setErr e
    rw [exec_create, exec_create, Prod.mk.injEq, Prod.mk.injEq] at hrun
    rw [exec_zkMkdir, exec_zkMkdir, Prod.ext hrun.1.1 hrun.2]
  constructor
  · rintro ⟨result, hrep⟩
    have hrep' := fun e => report_iff.1 (hrep e)
    simp only [exec_failed_mkdir] at hrep'
    have hc : (Operation.create path none 0 0).Clear H w := by
      by_contra hnot
      have hstop : ∀ e, (exec H (zkCreate H (some path) none 0 0) (w.setErr e)).1 ≠ zNoNode →
          exec H (zkMkdir H (some path)) (w.setErr e) = exec H (zkCreate H (some path) none 0 0) (w.setErr e) :=
        fun e hne => by rw [exec_zkMkdir, if_neg hne]
      have hcases := Operation.not_clear_cases hnot
      simp only [exec_create, Prod.mk.injEq, and_true] at hcases
      rcases hcases with ⟨w', hrun⟩ | ⟨-, w', hrun⟩ | hrun
      · have hrep := hrep' 0
        rw [hstop 0 (by rw [(hrun 0).1]; decide), (hrun 0).1, (hrun 0).2] at hrep
        exact absurd (hrep.2 (-enomem) hrep.1.symm).1 (show (0 : Int) ≠ -enomem by decide)
      · have hzero := (hrep' 0).1
        have hfive := (hrep' 5).1
        rw [hstop 0 (by rw [(hrun 0).1]; decide), (hrun 0).1] at hzero
        rw [hstop 5 (by rw [(hrun 5).1]; decide), (hrun 5).1, ← hzero] at hfive
        cases hfive
      · have hrep := hrep' 0
        rw [hstop 0 (by rw [(hrun 0).1]; decide), (hrun 0).1, (hrun 0).2] at hrep
        exact absurd (hrep.2 zkError hrep.1.symm).1 (by decide)
    have hrep₀ := hrep' 0
    rw [hsame hc] at hrep₀
    rcases hdich (.inl hc) with ⟨hall, -⟩ | ⟨-, hne, hzero⟩
    · exact hall
    · generalize exec H (zkMkdir H (some path)) w = r at hrep₀ hne hzero
      have hfail : unlessOk r.1 = some r.1 := if_neg hzero
      exact absurd (hrep₀.2 r.1 (hrep₀.1.symm.trans hfail)).1.symm hne
  · intro hall
    have hc := hall _ hmem
    refine ⟨unlessOk (exec H (zkMkdir H (some path)) w).1, fun e => report_iff.2 ?_⟩
    rw [exec_failed_mkdir, hsame hc]
    refine ⟨rfl, fun s hs => ?_⟩
    rcases hdich (.inl hc) with ⟨-, herr⟩ | ⟨⟨q, hq, hbad⟩, -⟩
    · generalize exec H (zkMkdir H (some path)) w = r at hs herr
      have hne := unlessOk_eq_some hs
      have hs' : r.1 = s := by simpa [unlessOk, show r.1 ≠ 0 from hne] using hs
      rw [← hs']
      exact ⟨herr.symm, hne⟩
    · exact absurd (hall q hq) hbad

/-! ### All commands -/

variable (H) in
/-- The requests of a command, each with the world that it finds. -/
def requests : Command → World → List (Operation × World)
  | get path, w => path.elim [] fun p =>
    let r := exec H (zkExists H (some p) true) w
    (.exists p, w) ::
      if r.1.1 = 1 ∧ (r.1.2.getD (uninitStat H)).dataLength ≠ 0 then [(.get p, found r)] else []
  | create path buf len, w => path.elim [] fun p => [(.create p buf len 0, w)]
  | mkdir path, w => path.elim [] fun p => (mkdirRequests H p (w, [])).2.2
  | ls path, w => path.elim [] fun p => [(.getChildren p, w)]
  | stat path, w => path.elim [] fun p => [(.exists p, w)]
  | set path buf len _, w => path.elim [] fun p => [(.set p { len, buff := some buf }, w)]
  | del path _, w => path.elim [] fun p => [(.del p, w)]

/-- **Failures are reported as what they are** exactly when the command has a path and each of its requests is clear. -/
theorem reports_iff (cmd : Command) (w : World) :
    cmd.Reports H w ↔ cmd.path.isSome ∧ ∀ q ∈ cmd.requests H w, q.1.Clear H q.2 := by
  cases hpath : cmd.path with
  | none => simp [not_reports_null hpath]
  | some p =>
    have hsingle : ∀ op : Operation, cmd.requests H w = [(op, w)] →
        (∀ w, exec H (cmd.failed H) w = (op.failure (exec H (op.run H) w).1.1, (exec H (op.run H) w).2)) →
        (cmd.Reports H w ↔ (some p).isSome ∧ ∀ q ∈ cmd.requests H w, q.1.Clear H q.2) := by
      intro op hreq hfailed
      rw [reports_single hfailed, hreq]
      simp
    cases cmd with
    | create path buf len =>
      obtain rfl : path = some p := hpath
      refine hsingle (.create p buf len 0) rfl fun w => ?_
      simp only [exec, failed, Operation.run, Prog.run_bind, Prog.run_pure, Operation.failure, unlessOk]
    | ls path =>
      obtain rfl : path = some p := hpath
      refine hsingle (.getChildren p) rfl fun w => ?_
      simp only [exec, failed, Operation.run, Prog.run_bind, Prog.run_pure, Operation.failure, unlessOk]
    | stat path =>
      obtain rfl : path = some p := hpath
      refine hsingle (.exists p) rfl fun w => ?_
      simp only [exec, failed, Operation.run, Prog.run_bind, Prog.run_pure, Operation.failure, unlessFound]
    | set path buf len version =>
      obtain rfl : path = some p := hpath
      refine hsingle (.set p { len, buff := some buf }) rfl fun w => ?_
      simp only [exec, failed, Operation.run, Prog.run_bind, Prog.run_pure, Operation.failure, unlessOk]
    | del path version =>
      obtain rfl : path = some p := hpath
      refine hsingle (.del p) rfl fun w => ?_
      simp only [exec, failed, Operation.run, Prog.run_bind, Prog.run_pure, Operation.failure, unlessOk]
    | mkdir path =>
      obtain rfl : path = some p := hpath
      rw [reports_mkdir]
      simp [requests]
    | get path =>
      obtain rfl : path = some p := hpath
      rw [reports_get p rfl]
      simp only [requests, Option.elim, Option.isSome_some, true_and]
      generalize exec H (zkExists H (some p) true) w = r
      constructor
      · rintro ⟨hexists, hget⟩ q hq
        rcases List.mem_cons.1 hq with rfl | hq
        · exact hexists
        · split at hq
          · rename_i hfound
            rw [List.mem_singleton.1 hq]
            exact hget hfound.1 hfound.2
          · cases hq
      · intro hall
        refine ⟨hall _ List.mem_cons_self, fun hone hdata => hall (.get p, found r) (List.mem_cons_of_mem _ ?_)⟩
        rw [if_pos ⟨hone, hdata⟩]
        exact List.mem_singleton_self _

/-! ### A reply without a record -/

private def cutCreate : Command := .create (some [47, 97]) none 0

/-- The server answers with a header that reports no error and nothing behind it. -/
private def cutReplyWorld : World :=
  { World.idle (initClient [] 10 3 0 0 0) with
    clock := [1], polls := [(1, 4), (1, 1)], writes := List.replicate 60 (.bytes 2)
    stream := frame (ReplyHeader.wire ⟨1, 5, 0⟩), reads := List.replicate 30 (.bytes 7) }

/-- `createCommand` returns 0 and prints `null` for a create that has failed. -/
theorem create_reports_null : ¬ ∀ (H : Heap) (cmd : Command) (w : World), cmd.Reports H w := by
  intro h
  obtain ⟨result, hrep⟩ := h Heap.plenty cutCreate cutReplyWorld
  have hfailed : (exec Heap.plenty (cutCreate.failed Heap.plenty) (cutReplyWorld.setErr 0)).1 = some zkError := by
    decide +kernel
  have hstatus : (exec Heap.plenty (cutCreate.run Heap.plenty) (cutReplyWorld.setErr 0)).1 = 0 := by decide +kernel
  obtain ⟨hzero, hne⟩ := (hrep 0).status zkError ((hrep 0).failed.symm.trans hfailed)
  rw [hstatus] at hzero
  exact absurd hzero (by decide)

end Command

end ZkClient
