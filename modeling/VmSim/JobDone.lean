import Mathlib.Logic.Function.Basic
import VmSim.Library.Interleaving

/-!
`job_done` of util/app_util.c: the UI thread waits in `wait_job_done` for the
job it has mailed and the worker of the process tells it in `signal_job_done`.
The mutex is a binary lock that any thread may release, whether it is held or
not, and a signal that finds nobody on the condition is forgotten. The agenda of
the UI is the statements it has yet to run; workers run the jobs of a process
one after the other.
-/

namespace VmSim.JobDone
open Interleaving

inductive Command where
  | exit
  | createProcess
  | delProcess
  | read
  | loopRead
  | readToFile
  | loopReadToFile
  | write
  | loopWrite
  | hitRate
  | printMM
  | printMMUTable
  | printRegisters
  | printHAT
  | monitor
  | noMonitor
  | debug
  | batchFile
  | wrongInput
  deriving DecidableEq

/-- Statements of the UI thread: the mailing of a job, the body of a command that
prints, the lines of a batch file, and `signal_job_done` and `wait_job_done`
statement by statement. `sleep` is the call of `cond_wait` after a test that
failed, `blocked` is inside it and `awake` is its way out, back to the mutex. -/
inductive Stmt where
  | post (pid : Nat)
  | print
  | batch
  | setDone
  | condSignal
  | unlock
  | lock
  | test
  | sleep
  | blocked
  | awake
  | clear
  deriving DecidableEq

def signalJobDone : List Stmt := [.setDone, .condSignal, .unlock]

def waitJobDone : List Stmt := [.lock, .test, .clear]

def jobCommand (retCmd : Bool) (pid : Nat) : List Stmt :=
  (if retCmd then [.post pid] else signalJobDone) ++ waitJobDone

def printCommand (retCmd : Bool) : List Stmt :=
  [.print] ++ signalJobDone ++ (if retCmd then [] else signalJobDone) ++ waitJobDone

/-- What `command_handler` has the UI do about `job_done`, for the `ret_cmd` its
`do_` function returns. `do_batch_file` returns into `to_return` and leaves
`ret_cmd` FALSE. -/
def commandHandler (cmd : Command) (retCmd : Bool) (pid : Nat) : List Stmt :=
  match cmd with
  | .exit => []
  | .createProcess => if retCmd then [] else signalJobDone
  | .delProcess => if retCmd then [] else signalJobDone
  | .read => jobCommand retCmd pid
  | .loopRead => jobCommand retCmd pid
  | .readToFile => jobCommand retCmd pid
  | .loopReadToFile => jobCommand retCmd pid
  | .write => jobCommand retCmd pid
  | .loopWrite => jobCommand retCmd pid
  | .hitRate => printCommand retCmd
  | .printMM => printCommand retCmd
  | .printMMUTable => printCommand retCmd
  | .printRegisters => printCommand retCmd
  | .printHAT => printCommand retCmd
  | .monitor => printCommand retCmd
  | .noMonitor => printCommand retCmd
  | .debug => printCommand retCmd
  | .batchFile => [.batch] ++ signalJobDone ++ waitJobDone
  | .wrongInput => signalJobDone ++ waitJobDone

/-- How far a job has come: in the mailbox, in `sim_read`, `sim_write` or
`sim_loop_write`, before the second and the third statement of `signal_job_done`,
and after it. -/
inductive Stage where
  | mailed
  | running
  | signalling
  | unlocking
  | finished
  deriving DecidableEq

structure State where
  jobDone : Bool
  locked : Bool
  agenda : List Stmt
  posted : Nat
  owner : Nat → Nat
  stage : Nat → Stage

/-- `handle` begins a command, of a batch file if one is open; `endBatch` is the
end of its lines. The other events of the UI are the statements of its agenda. -/
inductive Event where
  | handle (cmd : Command) (retCmd : Bool) (pid : Nat)
  | endBatch
  | ui
  | begin (job : Nat)
  | setDone (job : Nat)
  | condSignal (job : Nat)
  | unlock (job : Nat)
  deriving DecidableEq

def start : State := ⟨true, false, [], 0, fun _ => 0, fun _ => .mailed⟩

/-- `pthread_cond_signal` wakes the UI if it is blocked. -/
def wake : List Stmt → List Stmt
  | .blocked :: rest => .awake :: rest
  | agenda => agenda

def runStmt (s : State) : Stmt → List Stmt → State
  | .post pid, rest =>
      { s with
        agenda := rest
        posted := s.posted + 1
        owner := Function.update s.owner s.posted pid
        stage := Function.update s.stage s.posted .mailed }
  | .print, rest => { s with agenda := rest }
  | .batch, rest => { s with agenda := .batch :: rest }
  | .setDone, rest => { s with jobDone := true, agenda := rest }
  | .condSignal, rest => { s with agenda := rest }
  | .unlock, rest => { s with locked := false, agenda := rest }
  | .lock, rest => { s with locked := true, agenda := rest }
  | .test, rest => { s with agenda := if s.jobDone then rest else .sleep :: .test :: rest }
  | .sleep, rest => { s with locked := false, agenda := .blocked :: rest }
  | .blocked, rest => { s with agenda := .blocked :: rest }
  | .awake, rest => { s with locked := true, agenda := rest }
  | .clear, rest => { s with jobDone := false, agenda := rest }

def Runnable (s : State) : Stmt → Prop
  | .batch => False
  | .blocked => False
  | .lock => s.locked = false
  | .awake => s.locked = false
  | _ => True

def Enabled (s : State) : Event → Prop
  | .handle _ _ _ => s.agenda = [] ∨ s.agenda.head? = some .batch
  | .endBatch => s.agenda.head? = some .batch
  | .ui => ∃ stmt, s.agenda.head? = some stmt ∧ Runnable s stmt
  | .begin job => job < s.posted ∧ s.stage job = .mailed ∧
      ∀ other, other < job → s.owner other = s.owner job → s.stage other = .finished
  | .setDone job => job < s.posted ∧ s.stage job = .running
  | .condSignal job => job < s.posted ∧ s.stage job = .signalling
  | .unlock job => job < s.posted ∧ s.stage job = .unlocking

instance (s : State) (stmt : Stmt) : Decidable (Runnable s stmt) := by
  cases stmt <;> unfold Runnable <;> infer_instance

instance (s : State) (event : Event) : Decidable (Enabled s event) := by
  cases event with
  | ui => exact inferInstanceAs (Decidable (∃ stmt, stmt ∈ s.agenda.head? ∧ Runnable s stmt))
  | _ => unfold Enabled; infer_instance

def State.moves (s : State) (job : Nat) (stage : Stage) : State :=
  { s with stage := Function.update s.stage job stage }

def next (s : State) : Event → State
  | .handle cmd retCmd pid => { s with agenda := commandHandler cmd retCmd pid ++ s.agenda }
  | .endBatch => { s with agenda := s.agenda.tail }
  | .ui =>
      match s.agenda with
      | [] => s
      | stmt :: rest => runStmt s stmt rest
  | .begin job => s.moves job .running
  | .setDone job => { s with jobDone := true }.moves job .signalling
  | .condSignal job => { s with agenda := wake s.agenda }.moves job .unlocking
  | .unlock job => { s with locked := false }.moves job .finished

def program : Program State Event := ⟨Enabled, next⟩

instance (s : State) (event : Event) : Decidable (program.enabled s event) :=
  inferInstanceAs (Decidable (Enabled _ _))

/-! The order of the statements on the agenda. -/

/-- What comes after a statement. The prompt goes on like a batch file without an end. -/
def successors : Stmt → List Stmt
  | .post _ => [.lock]
  | .print => [.setDone]
  | .batch => [.setDone]
  | .setDone => [.condSignal]
  | .condSignal => [.unlock]
  | .unlock => [.lock, .setDone, .batch]
  | .lock => [.test]
  | .test => [.clear]
  | .sleep => [.test]
  | .blocked => [.test]
  | .awake => [.test]
  | .clear => [.batch]

def State.current (s : State) : Stmt := s.agenda.headD .batch

def Ordered : List Stmt → Prop
  | [] => True
  | stmt :: rest => rest.headD .batch ∈ successors stmt ∧ Ordered rest

theorem command_ordered (cmd : Command) (retCmd : Bool) (pid : Nat) {agenda : List Stmt}
    (ordered : Ordered agenda) (free : agenda.headD .batch = .batch) :
    Ordered (commandHandler cmd retCmd pid ++ agenda) := by
  cases cmd <;> cases retCmd <;>
    simp [commandHandler, jobCommand, printCommand, signalJobDone, waitJobDone, Ordered, successors,
      ordered, free, -List.headD_eq_head?_getD]

theorem ordered_swap {stmt other : Stmt} {rest : List Stmt} (ordered : Ordered (stmt :: rest))
    (same : successors stmt = successors other) : Ordered (other :: rest) :=
  ⟨same ▸ ordered.1, ordered.2⟩

theorem wake_ordered {agenda : List Stmt} (ordered : Ordered agenda) : Ordered (wake agenda) := by
  cases agenda with
  | nil => exact ordered
  | cons stmt rest =>
      cases stmt with
      | blocked => exact ordered_swap ordered rfl
      | _ => exact ordered

theorem stmt_ordered {s : State} {stmt : Stmt} {rest : List Stmt} (ordered : Ordered (stmt :: rest)) :
    Ordered (runStmt s stmt rest).agenda := by
  cases stmt with
  | test =>
      cases flag : s.jobDone with
      | true => simpa [runStmt, flag] using ordered.2
      | false =>
          have again : Ordered (.sleep :: .test :: rest) := ⟨.head _, ordered⟩
          simpa [runStmt, flag] using again
  | batch => exact ordered
  | blocked => exact ordered
  | sleep => exact ordered_swap ordered rfl
  | _ => exact ordered.2

theorem head_current {s : State} {stmt : Stmt} (head : s.agenda.head? = some stmt) :
    s.current = stmt := by
  obtain ⟨rest, agenda⟩ := List.head?_eq_some_iff.mp head
  simp [State.current, agenda]

theorem ui_enabled {s : State} (enabled : Enabled s .ui) :
    ∃ stmt rest, s.agenda = stmt :: rest ∧ Runnable s stmt ∧ next s .ui = runStmt s stmt rest := by
  obtain ⟨stmt, head, runnable⟩ := enabled
  obtain ⟨rest, agenda⟩ := List.head?_eq_some_iff.mp head
  exact ⟨stmt, rest, agenda, runnable, by simp [next, agenda]⟩

theorem handle_current {s : State} {cmd : Command} {retCmd : Bool} {pid : Nat}
    (enabled : Enabled s (.handle cmd retCmd pid)) : s.current = .batch := by
  rcases enabled with empty | batch
  · simp [State.current, empty]
  · exact head_current batch

theorem end_batch_agenda {s : State} (enabled : Enabled s .endBatch) :
    ∃ rest, s.agenda = .batch :: rest := List.head?_eq_some_iff.mp enabled

theorem step_ordered {s : State} {event : Event} (ordered : Ordered s.agenda)
    (enabled : Enabled s event) : Ordered (next s event).agenda := by
  cases event with
  | handle cmd retCmd pid => exact command_ordered cmd retCmd pid ordered (handle_current enabled)
  | endBatch =>
      obtain ⟨rest, agenda⟩ := end_batch_agenda enabled
      rw [agenda] at ordered
      simpa [next, agenda] using ordered.2
  | ui =>
      obtain ⟨stmt, rest, agenda, -, taken⟩ := ui_enabled enabled
      rw [agenda] at ordered
      rw [taken]
      exact stmt_ordered ordered
  | begin job => exact ordered
  | setDone job => exact ordered
  | condSignal job => exact wake_ordered ordered
  | unlock job => exact ordered

/-! What the waiting UI may count on. -/

def Stage.Early : Stage → Prop
  | .mailed => True
  | .running => True
  | _ => False

instance (stage : Stage) : Decidable stage.Early := by
  cases stage <;> unfold Stage.Early <;> infer_instance

def State.Last (s : State) (stage : Stage → Prop) : Prop :=
  ∃ job, job + 1 = s.posted ∧ stage (s.stage job)

/-- The flag is set, or the job mailed last will set it. -/
def State.Ready (s : State) : Prop := s.jobDone = true ∨ s.Last Stage.Early

/-- The job mailed last has its signal ahead, and the flag is set if it has set it. -/
def State.Told (s : State) : Prop :=
  s.Last Stage.Early ∨ s.jobDone = true ∧ s.Last (· = .signalling)

def Promised (s : State) : Stmt → Prop
  | .lock => s.Ready ∧ (s.locked = false ∨ s.Last (· ≠ .finished))
  | .test => s.Ready
  | .sleep => s.Told
  | .blocked => s.Told ∧ s.locked = false
  | .awake => s.Ready ∧ s.locked = false
  | .condSignal => s.jobDone = true
  | .unlock => s.jobDone = true
  | _ => True

/-- The wake-ups are not lost: nobody signals between the test of the UI and its sleep. -/
def Attended (s : State) : Event → Prop
  | .condSignal _ => s.agenda.head? ≠ some .sleep
  | _ => True

instance (s : State) (event : Event) : Decidable (Attended s event) := by
  cases event <;> unfold Attended <;> infer_instance

section Promises
variable {s : State}

theorem next_promised {t : State} {stmt : Stmt} {rest : List Stmt}
    (ordered : Ordered (stmt :: rest)) (agenda : t.agenda = rest)
    (promises : ∀ second ∈ successors stmt, Promised t second) : Promised t t.current := by
  rw [State.current, agenda]
  exact promises _ ordered.1

theorem only_promised {t : State} {stmt second : Stmt} {rest : List Stmt}
    (ordered : Ordered (stmt :: rest)) (agenda : t.agenda = rest) (only : successors stmt = [second])
    (promise : Promised t second) : Promised t t.current := by
  refine next_promised ordered agenda fun other among => ?_
  rw [only, List.mem_singleton] at among
  exact among ▸ promise

theorem stmt_promised {stmt : Stmt} {rest : List Stmt} (ordered : Ordered (stmt :: rest))
    (promised : Promised s stmt) (runnable : Runnable s stmt) :
    Promised (runStmt s stmt rest) (runStmt s stmt rest).current := by
  cases stmt with
  | post pid =>
      -- the job just mailed is the last one and has everything ahead
      have mailed : (runStmt s (.post pid) rest).stage s.posted = .mailed := by simp [runStmt]
      exact only_promised ordered rfl rfl ⟨.inr ⟨s.posted, rfl, by simp [mailed, Stage.Early]⟩,
        .inr ⟨s.posted, rfl, by simp [mailed]⟩⟩
  | setDone => exact only_promised ordered rfl rfl (rfl : (runStmt s .setDone rest).jobDone = true)
  | condSignal => exact only_promised ordered rfl rfl promised
  | unlock =>
      -- after its own signal the UI ends its command, after that of a worker it waits again
      have ready : (runStmt s .unlock rest).Ready := .inl promised
      refine next_promised ordered rfl fun second among => ?_
      have among : second = .lock ∨ second = .setDone ∨ second = .batch := by
        simpa [successors] using among
      rcases among with rfl | rfl | rfl
      · exact ⟨ready, .inl rfl⟩
      · trivial
      · trivial
  | lock => exact only_promised ordered rfl rfl promised.1
  | awake => exact only_promised ordered rfl rfl promised.1
  | test =>
      cases flag : s.jobDone with
      | false =>
          -- the flag is still to be set by the job mailed last
          have told : s.Told := .inl (promised.resolve_left (by simp [flag]))
          simpa [runStmt, State.current, flag, Promised, State.Told, State.Last] using told
      | true =>
          have passes : (runStmt s .test rest).agenda = rest := by simp [runStmt, flag]
          exact only_promised ordered passes rfl trivial
  | sleep => exact ⟨promised, rfl⟩
  | blocked => exact absurd runnable id
  | batch => exact absurd runnable id
  | print => exact only_promised ordered rfl rfl trivial
  | clear => exact only_promised ordered rfl rfl trivial

theorem command_promised (cmd : Command) (retCmd : Bool) (pid : Nat) (free : s.current = .batch) :
    Promised { s with agenda := commandHandler cmd retCmd pid ++ s.agenda }
      ((commandHandler cmd retCmd pid ++ s.agenda).headD .batch) := by
  have waits : s.agenda.headD .batch = .batch := free
  cases cmd <;> cases retCmd <;>
    simp [commandHandler, jobCommand, printCommand, signalJobDone, waits, Promised,
      -List.headD_eq_head?_getD]

theorem moves_stage (job other : Nat) (stage : Stage) :
    (s.moves job stage).stage other = if other = job then stage else s.stage other := by
  simp [State.moves, Function.update_apply]

/-- A property of the last job survives the moves of others, and its own move if
that leads to a stage with the property. -/
theorem moved_last {t : State} {job : Nat} {stage : Stage} {before after : Stage → Prop}
    (last : s.Last before) (posted : t.posted = s.posted)
    (moved : t.stage = Function.update s.stage job stage) (own : before (s.stage job) → after stage)
    (kept : ∀ other, before other → after other) : t.Last after := by
  obtain ⟨latest, number, holds⟩ := last
  refine ⟨latest, posted ▸ number, ?_⟩
  rw [moved, Function.update_apply]
  split
  · rename_i same
    exact own (same ▸ holds)
  · exact kept _ holds

theorem promised_kept {t : State} {stmt : Stmt} (flag : s.jobDone = true → t.jobDone = true)
    (free : s.locked = false → t.locked = false) (early : s.Last Stage.Early → t.Ready)
    (unlocks : s.Last (· ≠ .finished) → t.locked = false ∨ t.Last (· ≠ .finished))
    (told : stmt = .sleep ∨ stmt = .blocked → s.Told → t.Told) (promised : Promised s stmt) :
    Promised t stmt := by
  have ready : s.Ready → t.Ready := fun either => either.elim (fun set => .inl (flag set)) early
  cases stmt with
  | lock => exact ⟨ready promised.1, promised.2.elim (fun open' => .inl (free open')) unlocks⟩
  | test => exact ready promised
  | sleep => exact told (.inl rfl) promised
  | blocked => exact ⟨told (.inr rfl) promised.1, free promised.2⟩
  | awake => exact ⟨ready promised.1, free promised.2⟩
  | condSignal => exact flag promised
  | unlock => exact flag promised
  | _ => trivial

theorem begin_promised {job : Nat} (mailed : s.stage job = .mailed)
    (promised : Promised s s.current) :
    Promised (s.moves job .running) s.current := by
  refine promised_kept (s := s) id id (fun last => .inr ?_) (fun last => .inr ?_)
    (fun _ told => ?_) promised
  · exact moved_last last rfl rfl (fun _ => trivial) fun _ => id
  · exact moved_last last rfl rfl (fun _ => by simp) fun _ => id
  · refine told.imp (fun last => ?_) fun ⟨set, last⟩ => ⟨set, ?_⟩
    · exact moved_last last rfl rfl (fun _ => trivial) fun _ => id
    · exact moved_last last rfl rfl (fun own => by simp [mailed] at own) fun _ => id

theorem set_done_promised {job : Nat} (promised : Promised s s.current) :
    Promised (({ s with jobDone := true } : State).moves job .signalling) s.current := by
  refine promised_kept (s := s) (fun _ => rfl) id (fun _ => .inl rfl) (fun last => .inr ?_)
    (fun _ told => ?_) promised
  · exact moved_last last rfl rfl (fun _ => by simp) fun _ => id
  · rcases told with ⟨latest, number, early⟩ | ⟨-, last⟩
    · by_cases own : latest = job
      · exact .inr ⟨rfl, latest, number, by simp [moves_stage, own]⟩
      · exact .inl ⟨latest, number, by simpa [moves_stage, own] using early⟩
    · exact .inr ⟨rfl, moved_last last rfl rfl (fun _ => rfl) fun _ => id⟩

theorem unlock_promised {job : Nat} (unlocking : s.stage job = .unlocking)
    (promised : Promised s s.current) :
    Promised (({ s with locked := false } : State).moves job .finished) s.current := by
  refine promised_kept (s := s) id (fun _ => rfl) (fun last => .inr ?_) (fun _ => .inl rfl)
    (fun _ told => ?_) promised
  · exact moved_last last rfl rfl
      (fun own => by simp [unlocking, Stage.Early] at own) fun _ => id
  · refine told.imp (fun last => ?_) fun ⟨set, last⟩ => ⟨set, ?_⟩
    · exact moved_last last rfl rfl
        (fun own => by simp [unlocking, Stage.Early] at own) fun _ => id
    · exact moved_last last rfl rfl
        (fun own => by simp [unlocking] at own) fun _ => id

/-- A signal finds the UI on the condition or leaves what it waits for alone. -/
theorem cond_signal_promised {job : Nat} (signalling : s.stage job = .signalling)
    (attended : s.agenda.head? ≠ some .sleep) (promised : Promised s s.current) :
    Promised (({ s with agenda := wake s.agenda } : State).moves job .unlocking)
      ((wake s.agenda).headD .batch) := by
  have early : s.Last Stage.Early → (s.moves job .unlocking).Last Stage.Early := fun last =>
    moved_last last rfl rfl (fun own => by simp [signalling, Stage.Early] at own) fun _ => id
  rcases agenda : s.agenda with _ | ⟨stmt, rest⟩
  · trivial
  · have here : s.current = stmt := by simp [State.current, agenda]
    rw [here] at promised
    -- Only a sleeper is woken; every other statement of the interface stays as it is.
    by_cases sleeping : stmt = .blocked
    · subst sleeping
      obtain ⟨told, free⟩ := promised
      have ready : (s.moves job .unlocking).Ready :=
        told.elim (fun last => .inr (early last)) fun both => .inl both.1
      exact ⟨ready, free⟩
    · have same : wake (stmt :: rest) = stmt :: rest := by
        cases stmt <;> first | rfl | exact absurd rfl sleeping
      rw [same]
      refine promised_kept (s := s) id id (fun last => .inr (early last)) (fun last => .inr ?_) ?_
        promised
      · exact moved_last last rfl rfl (fun _ => by simp) fun _ => id
      · rintro (asleep | asleep)
        · have asleep : stmt = .sleep := asleep
          exact absurd (by rw [agenda, asleep, List.head?_cons]) attended
        · exact absurd asleep sleeping

theorem step_promised {event : Event} (ordered : Ordered s.agenda) (promised : Promised s s.current)
    (enabled : Enabled s event) (attended : Attended s event) :
    Promised (next s event) (next s event).current := by
  cases event with
  | handle cmd retCmd pid => exact command_promised cmd retCmd pid (handle_current enabled)
  | endBatch =>
      obtain ⟨rest, agenda⟩ := end_batch_agenda enabled
      rw [agenda] at ordered
      have sets : rest.headD .batch = .setDone := by simpa [successors] using ordered.1
      have leaves : (next s .endBatch).current = rest.headD .batch := by
        simp [next, State.current, agenda]
      rw [leaves, sets]
      trivial
  | ui =>
      obtain ⟨stmt, rest, agenda, runnable, taken⟩ := ui_enabled enabled
      have here : s.current = stmt := by simp [State.current, agenda]
      rw [agenda] at ordered
      rw [here] at promised
      rw [taken]
      exact stmt_promised ordered promised runnable
  | begin job => exact begin_promised enabled.2.1 promised
  | setDone job => exact set_done_promised promised
  | condSignal job => exact cond_signal_promised enabled.2 attended promised
  | unlock job => exact unlock_promised enabled.2 promised

def Kept (s : State) : Prop := Ordered s.agenda ∧ Promised s s.current

theorem run_kept {past : List Event} (run : Run (program.only Attended) start past s) : Kept s := by
  have begins : Kept start := ⟨trivial, trivial⟩
  refine run_invariant run begins fun _ event before enabled => ⟨?_, ?_⟩
  · exact step_ordered before.1 enabled.1
  · exact step_promised before.1 before.2 enabled.1 enabled.2

end Promises

def Blocked (s : State) : Prop :=
  s.agenda.head? = some .blocked ∨
    (s.agenda.head? = some .lock ∨ s.agenda.head? = some .awake) ∧ s.locked = true

instance (s : State) : Decidable (Blocked s) := inferInstanceAs (Decidable (_ ∨ _))

def Idle (s : State) : Prop := ∀ job, job < s.posted → s.stage job = .finished

instance (s : State) : Decidable (Idle s) :=
  inferInstanceAs (Decidable (∀ job, job < s.posted → s.stage job = .finished))

theorem idle_last {s : State} {stage : Stage → Prop} (idle : Idle s) (last : s.Last stage) :
    stage .finished := by
  obtain ⟨job, number, holds⟩ := last
  rwa [idle job (by omega)] at holds

/-- As long as no signal falls between a failed test and the sleep that follows it,
the UI never sleeps on jobs that are all finished. -/
theorem ui_wakes {past : List Event} {s : State} (run : Run (program.only Attended) start past s)
    (idle : Idle s) : ¬ Blocked s := by
  obtain ⟨-, promised⟩ := run_kept run
  rintro (blocked | ⟨lock | awake, taken⟩)
  · rw [head_current blocked] at promised
    rcases promised.1 with early | ⟨-, last⟩
    · exact (idle_last idle early).elim
    · cases idle_last idle last
  · rw [head_current lock] at promised
    rcases promised.2 with free | last
    · simp [taken] at free
    · exact idle_last idle last rfl
  · rw [head_current awake] at promised
    rw [promised.2] at taken
    cases taken

/-- A command that prints, and then a job that signals before the UI comes to its lock. -/
theorem ui_wakes_read :
    ∃ (past : List Event) (s : State), Run (program.only Attended) start past s ∧ Idle s ∧
      s.posted = 1 ∧ ¬ Blocked s := by
  have found : (replay (program.only Attended) start
      [.handle .createProcess true 0, .handle .hitRate true 0, .ui, .ui, .ui, .ui, .ui, .ui, .ui,
       .handle .read true 0, .ui, .begin 0, .setDone 0, .condSignal 0, .unlock 0]).any
      (fun s => decide (Idle s ∧ s.posted = 1)) = true := by decide
  obtain ⟨past, s, run, idle, one⟩ := replay_finds found
  exact ⟨past, s, run, idle, one, ui_wakes run idle⟩

/-- The signal of the second job falls between the test and the sleep of the UI,
which has found the mutex free because the first job has released it. -/
theorem ui_sleeps_on :
    ¬ ∀ (past : List Event) (s : State), Run program start past s → Idle s → ¬ Blocked s := by
  intro wakes
  have found : (replay program start
      [.handle .createProcess true 0, .handle .read true 0, .ui, .ui, .ui, .ui, .begin 0,
       .setDone 0, .condSignal 0, .handle .hitRate true 0, .ui, .ui, .ui, .ui, .ui, .ui, .ui, .unlock 0,
       .handle .read true 0, .ui, .ui, .ui, .begin 1, .setDone 1, .condSignal 1, .unlock 1,
       .ui]).any (fun s => decide (Idle s ∧ Blocked s)) = true := by decide
  obtain ⟨past, s, run, idle, blocked⟩ := replay_finds found
  exact wakes past s run idle blocked

/-! Whose completion a wait finds. -/

def Stmt.Waits : Stmt → Prop
  | .lock => True
  | .test => True
  | .sleep => True
  | .blocked => True
  | .awake => True
  | _ => False

/-- A job that has not signalled is the one mailed last, the flag is down and the
UI is waiting. -/
def Matched (s : State) : Prop :=
  ∀ job, job < s.posted → (s.stage job).Early →
    job + 1 = s.posted ∧ s.jobDone = false ∧ s.current.Waits

def Stmt.posts : Stmt → Bool
  | .post _ => true
  | _ => false

def Lowered (s : State) : Event → Prop
  | .ui => s.current.posts = true → s.jobDone = false
  | _ => True

instance (s : State) (event : Event) : Decidable (Lowered s event) := by
  cases event <;> unfold Lowered <;> infer_instance

section Matching
variable {s : State}

theorem matched_settled {t : State} (matched : Matched s) (outside : ¬ s.current.Waits)
    (posted : t.posted = s.posted) (stages : t.stage = s.stage) : Matched t := by
  intro job mailed early
  rw [posted] at mailed
  rw [stages] at early
  exact absurd (matched job mailed early).2.2 outside

/-- Inside of it the UI keeps to the wait while the flag is down. -/
theorem matched_waiting {t : State} (matched : Matched s) (posted : t.posted = s.posted)
    (stages : t.stage = s.stage) (flag : t.jobDone = s.jobDone)
    (waits : s.jobDone = false → t.current.Waits) : Matched t := by
  intro job mailed early
  rw [posted] at mailed ⊢
  rw [stages] at early
  obtain ⟨last, down, -⟩ := matched job mailed early
  exact ⟨last, flag ▸ down, waits down⟩

theorem next_waits {t : State} {stmt second : Stmt} {rest : List Stmt}
    (ordered : Ordered (stmt :: rest)) (agenda : t.agenda = rest) (only : successors stmt = [second])
    (waits : second.Waits) : t.current.Waits := by
  have next := ordered.1
  rw [only, List.mem_singleton] at next
  rw [State.current, agenda, next]
  exact waits

theorem post_matched {pid : Nat} {rest : List Stmt} (matched : Matched s)
    (outside : ¬ s.current.Waits) (ordered : Ordered (.post pid :: rest))
    (down : s.jobDone = false) : Matched (runStmt s (.post pid) rest) := by
  intro job mailed early
  have waits : (runStmt s (.post pid) rest).current.Waits := next_waits ordered rfl rfl trivial
  by_cases latest : job = s.posted
  · subst latest
    exact ⟨rfl, down, waits⟩
  · have earlier : job < s.posted := by
      have : job < s.posted + 1 := mailed
      omega
    have same : (runStmt s (.post pid) rest).stage job = s.stage job :=
      Function.update_of_ne latest _ _
    rw [same] at early
    exact absurd (matched job earlier early).2.2 outside

theorem stmt_matched {stmt : Stmt} {rest : List Stmt} (matched : Matched s)
    (agenda : s.agenda = stmt :: rest) (ordered : Ordered (stmt :: rest))
    (lowered : Lowered s .ui) : Matched (runStmt s stmt rest) := by
  have here : s.current = stmt := by simp [State.current, agenda]
  cases stmt with
  | post pid =>
      exact post_matched matched (by simp [here, Stmt.Waits]) ordered
        (lowered (by rw [here, Stmt.posts]))
  | lock => exact matched_waiting matched rfl rfl rfl fun _ => next_waits ordered rfl rfl trivial
  | awake => exact matched_waiting matched rfl rfl rfl fun _ => next_waits ordered rfl rfl trivial
  | test =>
      refine matched_waiting matched rfl rfl rfl fun down => ?_
      have sleeps : (runStmt s .test rest).current = .sleep := by
        simp [runStmt, State.current, down]
      rw [sleeps]
      trivial
  | sleep => exact matched_waiting matched rfl rfl rfl fun _ => trivial
  | blocked => exact matched_waiting matched rfl rfl rfl fun _ => trivial
  | _ => exact matched_settled matched (by simp [here, Stmt.Waits]) rfl rfl

theorem moves_matched {t : State} {job : Nat} {stage : Stage} (matched : Matched s)
    (present : job < s.posted) (posted : t.posted = s.posted)
    (moved : t.stage = Function.update s.stage job stage)
    (own : stage.Early → (s.stage job).Early ∧ t.jobDone = s.jobDone)
    (others : t.jobDone = s.jobDone ∨ (s.stage job).Early) (waits : s.current.Waits → t.current.Waits) :
    Matched t := by
  intro other mailed early
  rw [posted] at mailed ⊢
  rw [moved, Function.update_apply] at early
  split at early
  · rename_i same
    subst same
    obtain ⟨before, flag⟩ := own early
    obtain ⟨last, down, waiting⟩ := matched other mailed before
    exact ⟨last, flag ▸ down, waits waiting⟩
  · rename_i distinct
    obtain ⟨last, down, waiting⟩ := matched other mailed early
    rcases others with flag | before
    · exact ⟨last, flag ▸ down, waits waiting⟩
    · -- two jobs cannot both be the last
      obtain ⟨also, -, -⟩ := matched job present before
      omega

theorem wake_waits {agenda : List Stmt} (waits : (agenda.headD .batch).Waits) :
    ((wake agenda).headD .batch).Waits := by
  cases agenda with
  | nil => exact waits
  | cons stmt rest =>
      cases stmt with
      | blocked => trivial
      | _ => exact waits

theorem step_matched {event : Event} (ordered : Ordered s.agenda) (matched : Matched s)
    (enabled : Enabled s event) (lowered : Lowered s event) : Matched (next s event) := by
  cases event with
  | handle cmd retCmd pid =>
      exact matched_settled matched (by simp [handle_current enabled, Stmt.Waits]) rfl rfl
  | endBatch =>
      have here : s.current = .batch := head_current enabled
      exact matched_settled matched (by simp [here, Stmt.Waits]) rfl rfl
  | ui =>
      obtain ⟨stmt, rest, agenda, -, taken⟩ := ui_enabled enabled
      rw [agenda] at ordered
      rw [taken]
      exact stmt_matched matched agenda ordered lowered
  | begin job =>
      obtain ⟨present, mailed, -⟩ := enabled
      refine moves_matched matched present rfl rfl (fun _ => ⟨?_, rfl⟩) (.inl rfl) id
      simp [mailed, Stage.Early]
  | setDone job =>
      obtain ⟨present, running⟩ := enabled
      refine moves_matched matched present rfl rfl (fun early => early.elim) (.inr ?_) id
      simp [running, Stage.Early]
  | condSignal job =>
      exact moves_matched matched enabled.1 rfl rfl (fun early => early.elim) (.inl rfl) wake_waits
  | unlock job =>
      exact moves_matched matched enabled.1 rfl rfl (fun early => early.elim) (.inl rfl) id

def Paired (s : State) : Prop := Ordered s.agenda ∧ Matched s

theorem run_paired {past : List Event} (run : Run (program.only Lowered) start past s) : Paired s := by
  have begins : Paired start := ⟨trivial, fun job mailed => absurd mailed (Nat.not_lt_zero job)⟩
  refine run_invariant run begins fun _ event before enabled => ⟨?_, ?_⟩
  · exact step_ordered before.1 enabled.1
  · exact step_matched before.1 before.2 enabled.1 enabled.2

end Matching

/-- What a wait is for: when it returns the job of its command has come to its
signal, one job at a time is executed, and none while a command prints. -/
structure Awaited (s : State) : Prop where
  returns : s.agenda.head? = some .clear → ∀ job, job < s.posted → ¬ (s.stage job).Early
  alone : ∀ first second, first < s.posted → second < s.posted → (s.stage first).Early →
    (s.stage second).Early → first = second
  prints : s.agenda.head? = some .print → ∀ job, job < s.posted → ¬ (s.stage job).Early

/-- As long as no mail is accepted while the flag is up, every wait is for the job
of its own command. -/
theorem own_job_awaited {past : List Event} {s : State}
    (run : Run (program.only Lowered) start past s) : Awaited s := by
  obtain ⟨-, matched⟩ := run_paired run
  refine ⟨fun clear job mailed early => ?_, fun first second here there early also => ?_,
    fun print job mailed early => ?_⟩
  · have waits := (matched job mailed early).2.2
    rw [head_current clear] at waits
    exact waits
  · have last := (matched first here early).1
    have latest := (matched second there also).1
    omega
  · have waits := (matched job mailed early).2.2
    rw [head_current print] at waits
    exact waits

/-- A command that prints lowers the flag, and the job after it is waited for. -/
theorem own_job_awaited_read :
    ∃ (past : List Event) (s : State), Run (program.only Lowered) start past s ∧ s.posted = 1 ∧
      s.agenda.head? = some .clear ∧ Awaited s := by
  have found : (replay (program.only Lowered) start
      [.handle .createProcess true 0, .handle .hitRate true 0, .ui, .ui, .ui, .ui, .ui, .ui, .ui,
       .handle .read true 0, .ui, .begin 0, .setDone 0, .condSignal 0, .unlock 0, .ui, .ui]).any
      (fun s => decide (s.posted = 1 ∧ s.agenda.head? = some .clear)) = true := by decide
  obtain ⟨past, s, run, one, clear⟩ := replay_finds found
  exact ⟨past, s, run, one, clear, own_job_awaited run⟩

/-- The flag is up from the start: the wait of the first read returns at once. -/
theorem first_read_unawaited :
    ¬ ∀ (past : List Event) (s : State), Run program start past s → Awaited s := by
  intro awaited
  have found : (replay program start
      [.handle .createProcess true 0, .handle .read true 0, .ui, .ui, .ui]).any
      (fun s => decide (s.agenda.head? = some .clear ∧ 0 < s.posted ∧ (s.stage 0).Early)) =
      true := by decide
  obtain ⟨past, s, run, clear, mailed, early⟩ := replay_finds found
  exact (awaited past s run).returns clear 0 mailed early

end VmSim.JobDone
