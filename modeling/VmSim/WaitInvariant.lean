import VmSim.HandOffs

/-!
The invariant of all runs: whoever waits has what it relies on, and a thread that
sleeps before its mailbox is told of its mail. Each thread has its own part of
the step lemma, and the UI deletes only processes that have been started.
-/

namespace VmSim.ThreadCode
open LockedThreads Interleaving MemoryUnit PagingRuns

def procs (s : Threads) (n : Nat) : ProcessPc := s.place (.process n)

structure HandsOver (s : Threads) : Prop where
  orderly : Orderly lockOrder s
  relies : ∀ n, (procs s n).Relies s.shared.control (PrmPc.command (s.place .prm))
  residents : Residents (procs s) s.shared.control
  fits : s.nap .ui ≠ .signalled → UiPc.Fits (procs s) s.shared.control (s.place .ui)
  told : ∀ n, s.nap (.process n) = .asleep → (procs s n).pc = .waiting →
    ¬ (s.shared.control.slot (procs s n).pid).HasMail ∨
      ∃ mail, s.place .ui = .composing (procs s n).pid mail .signalling

def Started (s : Threads) (pid : Nat) : Prop := Alive (procs s) pid

/-- The UI calls `process_destroy` for a process that has been started. -/
def DestroysStarted (s : Threads) : Event Thread Place → Prop
  | .picks .ui (.destroying pid) => Started s pid
  | _ => True

/-- Runs of the program, by its users' rule. -/
abbrev running : Program Threads (Event Thread Place) := (program code).only DestroysStarted

/-! Where the threads do not go on by themselves. -/

section Acting
variable {t : Thread}

theorem section_acts {lock : Lock} {mode : Mode} {does : Mmu → Outcome Mmu} {pc : Phase → Place t}
    {next : Place t} (phase : Phase) : (mmuSection lock mode does pc next phase).Acts := by
  cases phase <;> trivial

/-- The waits of `mmu_read` and `mmu_write`: for a page, and for an update of the ages. -/
def AccessPc.Waits (pc : AccessPc) : Prop := (∃ cmd, pc = .completing cmd .inside) ∨ pc = .awaitingUpdate

theorem access_acts {a : Access} {here : AccessPc → Place t} {next : Place t} (pc : AccessPc) :
    (accessCode a here next pc).Acts ∨ pc.Waits := by
  cases pc with
  | completing cmd phase =>
      cases phase with
      | inside => exact .inr (.inl ⟨cmd, rfl⟩)
      | _ => exact .inl trivial
  | awaitingUpdate => exact .inr (.inr rfl)
  | counting hit phase =>
      rw [accessCode]
      exact .inl (section_acts phase)
  | referencing phase =>
      rw [accessCode]
      exact .inl (section_acts phase)
  | zeroing phase =>
      rw [accessCode]
      exact .inl (section_acts phase)
  | pushing cmd phase => cases phase <;> exact .inl trivial
  | reading due phase => cases phase <;> exact .inl trivial
  | asking phase => cases phase <;> exact .inl trivial
  | _ => exact .inl trivial

theorem dealloc_acts {pid : Nat} {here : DeallocPc → Place t} {next : Place t} (pc : DeallocPc) :
    (deallocCode pid here next pc).Acts := by
  cases pc with
  | freeingPage page phase =>
      rw [deallocCode]
      exact section_acts phase
  | emptying phase => cases phase <;> trivial
  | freeingBlock phase => cases phase <;> trivial
  | _ => trivial

theorem process_acts (n : Nat) (place : ProcessPc) : (processCode n place).Acts ∨
    place.pc = .waiting ∨ place.pc = .gone ∨ ∃ a rest pc, place.pc = .access a rest pc ∧ pc.Waits := by
  obtain ⟨pid, pc⟩ := place
  cases pc with
  | waiting => exact .inr (.inl rfl)
  | gone => exact .inr (.inr (.inl rfl))
  | access a rest pc =>
      rw [processCode]
      exact (access_acts pc).imp_right fun waits => .inr (.inr ⟨a, rest, pc, rfl, waits⟩)
  | dealloc pc =>
      rw [processCode]
      exact .inl (dealloc_acts pc)
  | unlocking mail => cases mail <;> exact .inl trivial
  | working rest => cases rest <;> exact .inl trivial
  | _ => exact .inl trivial

theorem service_acts {addr : VirtAddr} {here : ServicePc → Place t} {next : Place t}
    (pc : ServicePc) : (serviceCode addr here next pc).Acts := by
  cases pc with
  | syncing victim phase =>
      rw [serviceCode]
      exact section_acts phase
  | loading phase =>
      rw [serviceCode]
      exact section_acts phase
  | _ => trivial

theorem prm_acts (place : PrmPc) : (prmCode place).Acts ∨ place = .waiting := by
  cases place with
  | waiting => exact .inr rfl
  | serving cmd addr pc =>
      rw [prmCode]
      exact .inl (service_acts pc)
  | reporting cmd phase => cases phase <;> exact .inl trivial
  | _ => exact .inl trivial

theorem daemon_acts (place : DaemonPc) : (daemonCode place).Acts ∨ place = .waiting := by
  cases place with
  | waiting => exact .inr rfl
  | _ => exact .inl trivial

theorem ui_acts (place : UiPc) : (uiCode place).Acts ∨ place = .idle ∨
    (∃ past i, place = .creating past (.spinning i)) ∨ ∃ pid, place = .waiting pid := by
  cases place with
  | idle => exact .inr (.inl rfl)
  | waiting pid => exact .inr (.inr (.inr ⟨pid, rfl⟩))
  | creating past pc =>
      cases pc with
      | spinning i => exact .inr (.inr (.inl ⟨past, i, rfl⟩))
      | mappingPage i page k phase =>
          rw [uiCode, createCode]
          exact .inl (section_acts phase)
      | allocating i page phase =>
          cases phase with
          | leave => cases page <;> exact .inl trivial
          | _ => exact .inl trivial
      | _ => exact .inl trivial
  | composing pid mail pc => cases pc <;> exact .inl trivial
  | _ => exact .inl trivial

end Acting

section Reading
variable {s : Threads}

theorem has_mail {pid : Nat} {sh : Shared} : hasMail pid sh = true ↔ (sh.control.slot pid).HasMail := by
  unfold hasMail Slot.HasMail
  cases (sh.control.slot pid).mailBox with
  | none => simp
  | some mails => cases mails <;> simp

theorem signalling_place {place : ProcessPc} (stage : place.stage = .signalling) :
    place.pc = .dealloc .signalling := by
  obtain ⟨pid, pc⟩ := place
  cases pc with
  | unlocking mail => cases mail <;> cases stage
  | dealloc pc => cases pc <;> first | rfl | cases stage
  | _ => cases stage

theorem ui_sleeps (orderly : Orderly lockOrder s) (sleeps : s.nap .ui ≠ .awake) :
    ∃ pid, s.place .ui = .waiting pid := by
  have waits : (uiCode (s.place .ui)).IsWait := ((orderly.keeps .ui).asleep sleeps).2
  rcases ui_acts (s.place .ui) with acts | idle | ⟨past, i, spins⟩ | waiting
  · exact absurd waits (acts_no_wait acts)
  · rw [idle] at waits
    cases waits
  · rw [spins] at waits
    cases waits
  · exact waiting

/-- Before a process signals its deletion the UI has slept, or has let it go. -/
theorem calm_processes (orderly : Orderly lockOrder s) (awake : s.nap .ui = .awake)
    (has : (Lock.cont, Mode.write) ∈ UiPc.claims (s.place .ui)) (n : Nat) :
    (procs s n).stage ≠ .signalling := by
  intro stage
  have pc := signalling_place stage
  have claims : (Lock.cont, Mode.write) ∈ ProcessPc.claims (procs s n) := by
    simp [ProcessPc.claims, pc, DeallocPc.claims]
  have upright : s.nap (.process n) = .awake := by
    by_contra sleeps
    have waits : (processCode n (procs s n)).IsWait := ((orderly.keeps (.process n)).asleep sleeps).2
    simp only [processCode, pc] at waits
    cases waits
  have mine := (orderly.keeps .ui).awake awake
  have yours := (orderly.keeps (.process n)).awake upright
  have same : Thread.ui = .process n := by
    refine orderly.exclusive .ui (.process n) .cont .write ?_ ?_
    · rw [mine]
      exact has
    · rw [yours]
      exact claims
  cases same

end Reading

/-! The steps of the PRM and of the daemon. -/

section Bystanders
variable {s after : Threads} {t : Thread} {post : Place t → Shared → Prop}

theorem local_keeps (keeps : HandsOver s) (orderly : Orderly lockOrder after)
    (goes : Local t post s after) (prm : t = .prm ∨ t = .daemon)
    (processes : SameProcesses s.shared.control after.shared.control)
    (passes : Passes s.shared.control (PrmPc.command (s.place .prm)) after.shared.control
      (PrmPc.command (after.place .prm))) : HandsOver after := by
  have others : ∀ n, procs after n = procs s n := fun n =>
    goes.others (.process n) (by rcases prm with same | same <;> simp [same])
  have ui : Thread.ui ≠ t := by rcases prm with same | same <;> simp [same]
  have place := goes.others .ui ui
  have same : procs after = procs s := funext others
  refine ⟨orderly, fun n => ?_, ?_, fun deaf => ?_, fun n asleep waits => ?_⟩
  · rw [same]
    exact passes_process_relies passes (keeps.relies n)
  · rw [same]
    exact residents_same processes keeps.residents
  · rw [same, place]
    exact fits_same processes (keeps.fits (goes.signalled .ui ui deaf))
  · have slept : s.nap (.process n) = .asleep :=
      goes.asleep (.process n) (by rcases prm with same | same <;> simp [same]) asleep
    rw [same] at waits ⊢
    rw [place]
    refine (keeps.told n slept waits).imp_left fun none has => none ?_
    exact (same_mail_has (processes.slots _)).mp has

theorem prm_keeps (keeps : HandsOver s) {event : Event Thread Place} (whose : event.thread = .prm)
    (enabled : Enabled code s event) : HandsOver (next code s event) := by
  have here : PrmStep s.shared (s.place .prm) (s.place .prm) s.shared := prm_quiet rfl rfl
  have goes := step_local whose enabled here (prm_leads (s.place .prm))
  exact local_keeps keeps (step_orderly keeps.orderly enabled) goes (.inl rfl) goes.post.processes
    goes.post.passes

theorem daemon_keeps (keeps : HandsOver s) {event : Event Thread Place}
    (whose : event.thread = .daemon) (enabled : Enabled code s event) :
    HandsOver (next code s event) := by
  have leads := daemon_leads s.shared (PrmPc.command (s.place .prm)) (s.place .daemon)
  have goes := step_local whose enabled (asks_quiet rfl) leads
  have prm : (next code s event).place .prm = s.place .prm := goes.others .prm (by simp)
  refine local_keeps keeps (step_orderly keeps.orderly enabled) goes (.inr rfl) goes.post.processes ?_
  rw [prm]
  exact goes.post.passes

end Bystanders

/-! The steps of a process. -/

section Process
variable {s : Threads} {n : Nat} {event : Event Thread Place}

/-- The UI that sleeps hears of a deletion. -/
theorem deletion_heard (keeps : HandsOver s) (whose : event.thread = .process n)
    (enabled : Enabled code s event) (stage : (procs s n).stage = .signalling)
    (asleep : s.nap .ui = .asleep) : (next code s event).nap .ui = .signalled := by
  have sleeps : s.nap .ui ≠ .awake := by simp [asleep]
  obtain ⟨pid, waits⟩ := ui_sleeps keeps.orderly sleeps
  have signals : code (.process n) (s.place (.process n)) =
      .signal .del ⟨(procs s n).pid, .dealloc .unlocking⟩ := by
    change processCode n (procs s n) = _
    simp only [processCode, signalling_place stage]
    rfl
  refine signal_wakes whose enabled signals asleep ?_
  rw [waits]
  rfl

theorem process_keeps (keeps : HandsOver s) (whose : event.thread = .process n)
    (enabled : Enabled code s event) : HandsOver (next code s event) := by
  have orderly := step_orderly keeps.orderly enabled
  have here : ProcessStep (PrmPc.command (s.place .prm)) s.shared (procs s n) (procs s n) s.shared :=
    asks_step rfl rfl (asks_quiet rfl) (keeps.relies n)
  have goes := step_local whose enabled here (process_leads (keeps.relies n))
  have stepped : Stepped n (procs s) s.shared.control (procs (next code s event))
      (next code s event).shared.control :=
    ⟨fun m other => goes.others (.process m) (by simp [other]), goes.post.pid, goes.post.follows⟩
  have prm := goes.others .prm (by simp)
  have ui := goes.others .ui (by simp)
  refine ⟨orderly, fun m => ?_, residents_stepped keeps.residents stepped, fun deaf => ?_,
    fun m asleep waits => ?_⟩
  · rw [prm]
    by_cases mine : m = n
    · subst mine
      exact goes.post.relies
    · rw [stepped.others m mine]
      exact passes_process_relies goes.post.passes (keeps.relies m)
  · have heard := goes.signalled .ui (by simp) deaf
    rw [ui]
    refine fits_stepped keeps.residents stepped (fun has => ?_) (fun has awaits => ?_) (keeps.fits heard)
    -- A sleeping interface left unsignalled means that the process was not at its signal.
    · cases nap : s.nap .ui with
      | awake => exact calm_processes keeps.orderly nap has n
      | asleep => exact fun stage => deaf (deletion_heard keeps whose enabled stage nap)
      | signalled => exact absurd nap heard
    · have awake : (next code s event).nap .ui = .awake := by
        by_contra sleeps
        obtain ⟨pid, waits⟩ := ui_sleeps orderly sleeps
        exact awaits pid (ui.symm.trans waits)
      rw [← ui] at has
      exact calm_processes orderly awake has n
  · by_cases mine : m = n
    · subst mine
      have falls := step_asleep whose enabled asleep
      have same : procs (next code s event) m = procs s m := falls.place
      rw [same] at waits ⊢
      -- A process falls asleep only on finding its mail box empty.
      refine .inl fun has => ?_
      have unready : Unready s (processCode m (procs s m)) := falls.unready
      simp only [processCode, waits] at unready
      rw [falls.shared, ← has_mail, unready rfl] at has
      cases has
    · have same : procs (next code s event) m = procs s m := stepped.others m mine
      rw [same] at waits ⊢
      rw [ui]
      have slept := goes.asleep (.process m) (by simp [mine]) asleep
      exact (keeps.told m slept waits).imp_left fun none has => none (stepped_mail stepped _ has)

end Process

/-! The steps of the UI. -/

section Ui
variable {s : Threads} {event : Event Thread Place}

theorem command_fits {place : UiPc} (command : place.Command)
    (started : ∀ pid, place = .destroying pid → Started s pid) :
    place.Fits (procs s) s.shared.control := by
  cases place with
  | creating past pc =>
      cases pc with
      | locking =>
          intro i slot
          cases slot
      | _ => cases command
  | composing pid mail pc =>
      cases mail with
      | job accesses => trivial
      | del => cases command
  | destroying pid => exact .inl (started pid rfl)
  | _ => cases command

theorem ui_idle {place chosen : UiPc} (picks : Picks (t := Thread.ui) chosen (uiCode place)) :
    place = .idle ∧ chosen.Command := by
  rcases ui_acts place with acts | idle | ⟨past, i, spins⟩ | ⟨pid, waits⟩
  · exact absurd picks (acts_no_choice acts)
  · subst idle
    exact ⟨rfl, picks⟩
  · subst spins
    cases picks
  · subst waits
    cases picks

theorem ui_goes {after : Threads} (keeps : HandsOver s) (orderly : Orderly lockOrder after)
    (goes : Local .ui (UiStep (procs s) s.shared) s after)
    (heard : ∀ n mail, s.place .ui = .composing (procs s n).pid mail .signalling →
      (procs s n).pc = .waiting → after.nap (.process n) ≠ .asleep) : HandsOver after := by
  have same : procs after = procs s := funext fun n => goes.others (.process n) (by simp)
  have prm := goes.others .prm (by simp)
  refine ⟨orderly, fun n => ?_, ?_, fun _ => ?_, fun n asleep waits => ?_⟩
  · rw [same, prm]
    exact passes_process_relies (same_passes goes.post.requests) (keeps.relies n)
  · rw [same]
    exact goes.post.residents
  · rw [same]
    exact goes.post.fits
  · rw [same] at waits ⊢
    rcases keeps.told n (goes.asleep (.process n) (by simp) asleep) waits with none | ⟨mail, composing⟩
    · by_cases has : (after.shared.control.slot (procs s n).pid).HasMail
      · exact .inr ((goes.post.tells _ has).resolve_left none)
      · exact .inl has
    · exact absurd asleep (heard n mail composing waits)

theorem ui_picks (keeps : HandsOver s) {place : UiPc} (enabled : Enabled code s (.picks .ui place))
    (started : ∀ pid, place = .destroying pid → Started s pid) :
    HandsOver (next code s (.picks .ui place)) := by
  obtain ⟨idle, command⟩ := ui_idle enabled.2.2
  have fits := command_fits command started
  have goes : Local .ui (UiStep (procs s) s.shared) s (s.moves .ui place) :=
    moves_local (ui_quiet keeps.residents rfl fits)
  refine ui_goes keeps (step_orderly keeps.orderly enabled) goes fun n mail composing => ?_
  rw [idle] at composing
  cases composing

theorem ui_rouses (keeps : HandsOver s) (enabled : Enabled code s (.wakes .ui)) :
    HandsOver (next code s (.wakes .ui)) := by
  obtain ⟨pid, waits⟩ := ui_sleeps keeps.orderly enabled.2.1
  have orderly := step_orderly keeps.orderly enabled
  have wakes : next code s (.wakes .ui) =
      ((s.holds .ui ((.cont, .write) :: s.held .ui)).moves .ui .returning).naps .ui .awake := by
    simp only [next, waits]
    rfl
  rw [wakes] at orderly ⊢
  refine ui_goes keeps orderly ⟨?_, fun u other => ?_, fun u other => ?_, fun u other => ?_⟩
    fun n mail composing => ?_
  · refine ui_quiet keeps.residents rfl ?_
    rw [naps_place, moves_self]
    trivial
  · rw [naps_place, moves_other _ _ other, holds_place]
  · rw [naps_other _ _ other]
    exact id
  · rw [naps_other _ _ other]
    exact id
  · rw [waits] at composing
    cases composing

theorem ui_spawns (keeps : HandsOver s) {past : Nat → PackedBitmap.Block} {i : Nat}
    (spawns : s.place .ui = .creating past (.spawning i)) (enabled : Enabled code s (.runs .ui)) :
    HandsOver (next code s (.runs .ui)) := by
  have orderly := step_orderly keeps.orderly enabled
  have awake := enabled.2.1
  have vacant : Vacant (procs s) s.shared.control i := by
    have fits := keeps.fits (by simp [awake])
    rw [spawns] at fits
    exact fits i rfl
  let born := s.shared.control.spawned
  let shared := s.shared.onControl { s.shared.control with spawned := born + 1 }
  have runs : next code s (.runs .ui) =
      ((({ s with shared := shared }.moves .ui (.creating past (.spinning i))).moves (.process born)
        ⟨i, .raising⟩).holds (.process born) []).naps (.process born) .awake := by
    simp only [next, spawns]
    rfl
  rw [runs] at orderly ⊢
  generalize made : ((({ s with shared := shared }.moves .ui (.creating past (.spinning i))).moves
    (.process born) ⟨i, .raising⟩).holds (.process born) []).naps (.process born) .awake = after
    at orderly ⊢
  have control : after.shared.control = { s.shared.control with spawned := born + 1 } := by
    rw [← made]
    rfl
  have ui : after.place .ui = .creating past (.spinning i) := by simp [← made]
  have prm : after.place .prm = s.place .prm := by simp [← made]
  have processes : procs after = Function.update (procs s) born ⟨i, .raising⟩ := by
    funext n
    by_cases new : n = born
    · subst new
      rw [Function.update_self, procs, ← made, naps_place, holds_place, moves_self]
    · rw [Function.update_of_ne new]
      simp [procs, ← made, new]
  have naps : ∀ n, n ≠ born → after.nap (.process n) = s.nap (.process n) := fun n old => by
    simp [← made, old]
  have passes : Passes s.shared.control (PrmPc.command (s.place .prm)) after.shared.control
      (PrmPc.command (s.place .prm)) := by
    rw [control]
    exact same_passes ⟨rfl, rfl, rfl, rfl, rfl⟩
  refine ⟨orderly, fun n => ?_, ?_, fun _ => ?_, fun n asleep waits => ?_⟩
  · rw [prm, processes]
    by_cases new : n = born
    · rw [new, Function.update_self]
      trivial
    · rw [Function.update_of_ne new]
      exact passes_process_relies passes (keeps.relies n)
  · rw [processes, control]
    exact residents_spawned keeps.residents vacant
  · rw [ui]
    intro j slot
    cases slot
  -- The process born is awake, so a sleeper is an older one.
  · have old : n ≠ born := by
      rintro rfl
      simp [← made] at asleep
    rw [naps n old] at asleep
    rw [processes, Function.update_of_ne old] at waits ⊢
    rcases keeps.told n asleep waits with none | ⟨mail, composing⟩
    · rw [control]
      exact .inl none
    · rw [spawns] at composing
      cases composing

theorem ui_runs (keeps : HandsOver s) (enabled : Enabled code s (.runs .ui)) :
    HandsOver (next code s (.runs .ui)) := by
  have awake := enabled.2.1
  have orderly := step_orderly keeps.orderly enabled
  have fits := keeps.fits (by simp [awake])
  by_cases spawns : ∃ past i, s.place .ui = .creating past (.spawning i)
  · obtain ⟨past, i, spawns⟩ := spawns
    exact ui_spawns keeps spawns enabled
  -- Idle, the interface chooses and does not run.
  · have chosen : s.place .ui ≠ .idle := by
      intro idle
      have runs := enabled.2.2
      rw [idle] at runs
      exact runs
    have leads := ui_leads keeps.residents fits (calm_processes keeps.orderly awake) chosen
      fun past i there => spawns ⟨past, i, there⟩
    have goes : Local .ui (UiStep (procs s) s.shared) s (next code s (.runs .ui)) :=
      step_local rfl enabled (ui_quiet keeps.residents rfl fits) leads
    refine ui_goes keeps orderly goes fun n mail composing waits asleep => ?_
    -- The step that leaves the composing of a mail is the one that signals its process.
    have signals : code .ui (s.place .ui) =
        .signal (.mail (procs s n).pid) (.composing (procs s n).pid mail .unlocking) := by
      rw [composing]
      rfl
    have slept := goes.asleep (.process n) (by simp) asleep
    have hears : (next code s (.runs .ui)).nap (.process n) = .signalled :=
      signal_wakes rfl enabled signals slept ?_
    · rw [asleep] at hears
      cases hears
    · change (processCode n (procs s n)).waitsOn _ = true
      simp [processCode, waits, Instr.waitsOn]

theorem ui_keeps (keeps : HandsOver s) (whose : event.thread = .ui) (enabled : Enabled code s event)
    (users : DestroysStarted s event) : HandsOver (next code s event) := by
  cases event with
  | runs t =>
      cases whose
      exact ui_runs keeps enabled
  | picks t place =>
      cases whose
      refine ui_picks keeps enabled fun pid destroys => ?_
      rw [destroys] at users
      exact users
  | wakes t =>
      cases whose
      exact ui_rouses keeps enabled

end Ui

theorem step_keeps {s : Threads} {event : Event Thread Place} (keeps : HandsOver s)
    (step : running.enabled s event) : HandsOver (running.next s event) := by
  obtain ⟨enabled, users⟩ := step
  cases whose : event.thread with
  | ui => exact ui_keeps keeps whose enabled users
  | prm => exact prm_keeps keeps whose enabled
  | daemon => exact daemon_keeps keeps whose enabled
  | process n => exact process_keeps keeps whose enabled

section Runs
variable (maxNumOfProc prcBlkSize : Nat) (machine : Machine)

theorem start_orderly : Orderly lockOrder (start maxNumOfProc prcBlkSize machine) where
  keeps t := by
    refine ⟨fun _ => ?_, fun sleeps => absurd rfl sleeps⟩
    cases t <;> rfl
  exclusive t u lock mode writes := by cases writes

theorem start_hands_over : HandsOver (start maxNumOfProc prcBlkSize machine) where
  orderly := start_orderly ..
  relies _ := trivial
  residents := ⟨fun _ _ => rfl, fun _ _ live => live.elim, fun _ live => live.elim,
    fun _ live => live.elim, fun _ live => live.elim⟩
  fits _ := trivial
  told _ asleep := by cases asleep

theorem running_hands_over {past : List (Event Thread Place)} {s : Threads}
    (run : Run running (start maxNumOfProc prcBlkSize machine) past s) : HandsOver s :=
  run_invariant run (start_hands_over ..) fun _ _ => step_keeps

end Runs

end VmSim.ThreadCode
