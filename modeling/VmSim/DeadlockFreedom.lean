import VmSim.WaitInvariant

/-!
No deadlock: while a thread is in the middle of its work, some thread of the
program can go on. A thread that is awake goes on or stands behind the holder of
a lock, and every wait ends once another thread has done what it owes.
-/

namespace VmSim.ThreadCode
open LockedThreads Interleaving
open PagingRuns (Machine smallMachine)

/-- The thread has something to finish: the UI a command, the PRM a fault, the daemon an
update, and a process a job or its deletion. -/
def AtWork : ∀ t, Place t → Prop
  | .ui, place => place ≠ UiPc.idle
  | .prm, place => place ≠ PrmPc.waiting
  | .daemon, place => place ≠ DaemonPc.waiting
  | .process _, place => ProcessPc.pc place ≠ .waiting ∧ ProcessPc.pc place ≠ .gone

def Busy (s : Threads) (t : Thread) : Prop := s.stopped = none ∧ AtWork t (s.place t)

/-! Who a waiting thread waits for can go on. -/

section Waiting
variable {s : Threads}

theorem prm_sleeps (orderly : Orderly lockOrder s) (sleeps : s.nap .prm ≠ .awake) :
    s.place .prm = .waiting := by
  have waits : (prmCode (s.place .prm)).IsWait := ((orderly.keeps .prm).asleep sleeps).2
  exact (prm_acts (s.place .prm)).resolve_left fun acts => acts_no_wait acts waits

theorem daemon_sleeps (orderly : Orderly lockOrder s) (sleeps : s.nap .daemon ≠ .awake) :
    s.place .daemon = .waiting := by
  have waits : (daemonCode (s.place .daemon)).IsWait := ((orderly.keeps .daemon).asleep sleeps).2
  exact (daemon_acts (s.place .daemon)).resolve_left fun acts => acts_no_wait acts waits

theorem process_sleeps (orderly : Orderly lockOrder s) {n : Nat}
    (sleeps : s.nap (.process n) ≠ .awake) : (procs s n).pc = .waiting ∨
      ∃ a rest pc, (procs s n).pc = .access a rest pc ∧ pc.Waits := by
  have waits : (processCode n (procs s n)).IsWait := ((orderly.keeps (.process n)).asleep sleeps).2
  rcases process_acts n (procs s n) with acts | waiting | gone | access
  · exact absurd waits (acts_no_wait acts)
  · exact .inl waiting
  · simp only [processCode, gone] at waits
    cases waits
  · exact .inr access

theorem prm_advances (orderly : Orderly lockOrder s) (going : s.stopped = none)
    (awake : s.nap .prm = .awake) : Advancing code s := by
  refine awake_advances orderly going awake ?_
  change ¬ Rests s (prmCode (s.place .prm))
  rcases prm_acts (s.place .prm) with acts | waits
  · exact acts_no_rest acts
  · rw [waits]
    exact id

theorem daemon_advances (orderly : Orderly lockOrder s) (going : s.stopped = none)
    (awake : s.nap .daemon = .awake) : Advancing code s := by
  refine awake_advances orderly going awake ?_
  change ¬ Rests s (daemonCode (s.place .daemon))
  rcases daemon_acts (s.place .daemon) with acts | waits
  · exact acts_no_rest acts
  · rw [waits]
    exact id

theorem process_advances (orderly : Orderly lockOrder s) (going : s.stopped = none) {n : Nat}
    (awake : s.nap (.process n) = .awake) (lives : (procs s n).pc ≠ .gone) : Advancing code s := by
  refine awake_advances orderly going awake ?_
  change ¬ Rests s (processCode n (procs s n))
  rcases process_acts n (procs s n) with acts | waits | gone | ⟨a, rest, pc, access, ⟨cmd, there⟩ | there⟩
  · exact acts_no_rest acts
  · simp only [processCode, waits]
    exact id
  · exact absurd gone lives
  · simp only [processCode, access, there]
    exact id
  · simp only [processCode, access, there]
    exact id

/-- Commands in the queue wake the PRM, and the one it serves keeps it awake. -/
theorem request_advances (orderly : Orderly lockOrder s) (going : s.stopped = none)
    (requested : s.shared.control.queue ≠ [] ∨ PrmPc.command (s.place .prm) ≠ none) :
    Advancing code s := by
  by_cases awake : s.nap .prm = .awake
  · exact prm_advances orderly going awake
  · have waits := prm_sleeps orderly awake
    have queued := requested.resolve_right fun serves => serves (by rw [waits]; rfl)
    refine sleeper_advances orderly going awake ?_
    rw [waits]
    refine ⟨.inl rfl, ?_⟩
    simpa using queued

theorem update_advances (orderly : Orderly lockOrder s) (going : s.stopped = none)
    (should : s.shared.control.shouldUpdate = true) : Advancing code s := by
  by_cases awake : s.nap .daemon = .awake
  · exact daemon_advances orderly going awake
  · refine sleeper_advances orderly going awake ?_
    rw [daemon_sleeps orderly awake]
    exact ⟨.inl rfl, should⟩

/-- A process that waits inside `mmu_read` or `mmu_write` finds what it waits for, or
whoever has to bring it goes on. -/
theorem access_advances (keeps : HandsOver s) (going : s.stopped = none) {n : Nat}
    (sleeps : s.nap (.process n) ≠ .awake) {a : Access} {rest : List Access} {pc : AccessPc}
    (access : (procs s n).pc = .access a rest pc) (waits : pc.Waits) : Advancing code s := by
  have relies := keeps.relies n
  simp only [ProcessPc.Relies, access] at relies
  have ends : ∀ cond mutex ready next, processCode n (procs s n) = .wait cond mutex true true ready next →
      ready s.shared = true → Advancing code s := by
    intro cond mutex ready next here found
    refine sleeper_advances keeps.orderly going sleeps ?_
    change EndsWait s (.process n) (processCode n (procs s n))
    rw [here]
    exact ⟨.inl rfl, found⟩
  rcases waits with ⟨cmd, there⟩ | there
  · subst there
    obtain ⟨-, done | queued | serves⟩ := relies
    · exact ends _ _ _ _ (by simp only [processCode, access]; rfl) done
    · exact request_advances keeps.orderly going (.inl (List.ne_nil_of_mem queued))
    · exact request_advances keeps.orderly going (.inr (by simp [serves]))
  · subst there
    rcases relies with done | should
    · exact ends _ _ _ _ (by simp only [processCode, access]; rfl) done
    · exact update_advances keeps.orderly going should

theorem deletion_advances (keeps : HandsOver s) (going : s.stopped = none) {pid : Nat}
    (waits : s.place .ui = .waiting pid) (owes : Owes (procs s) s.shared.control pid) :
    Advancing code s := by
  obtain ⟨n, own, owed⟩ := owes
  have lives : (procs s n).pc ≠ .gone := by
    intro gone
    have ended : (procs s n).stage = .ended := by simp [ProcessPc.stage, gone]
    rw [ended] at owed
    rcases owed with doomed | signalling
    · exact doomed_live doomed
    · cases signalling
  by_cases awake : s.nap (.process n) = .awake
  · exact process_advances keeps.orderly going awake lives
  · rcases process_sleeps keeps.orderly awake with waiting | ⟨a, rest, pc, access, inside⟩
    · have serving : (procs s n).stage = .serving := by simp [ProcessPc.stage, waiting]
      have has : (s.shared.control.slot (procs s n).pid).HasMail := by
        rw [serving] at owed
        rcases owed with (deleting | ⟨-, mails, box, member⟩) | signalling
        · cases deleting
        · obtain ⟨mail, others, made⟩ := List.exists_cons_of_ne_nil (List.ne_nil_of_mem member)
          exact ⟨mail, others, by rw [own, box, made]⟩
        · cases signalling
      -- A mail posted and not yet signalled would leave the interface composing, but it waits.
      have signalled : s.nap (.process n) = .signalled := by
        cases nap : s.nap (.process n) with
        | awake => exact absurd nap awake
        | signalled => rfl
        | asleep =>
            rcases keeps.told n nap waiting with none | ⟨mail, composing⟩
            · exact absurd has none
            · rw [waits] at composing
              cases composing
      refine sleeper_advances keeps.orderly going awake ?_
      change EndsWait s (.process n) (processCode n (procs s n))
      simp only [processCode, waiting]
      exact ⟨.inr signalled, has_mail.mpr has⟩
    · exact access_advances keeps going awake access inside

end Waiting

/-! Progress in every run. -/

section Progress
variable {s : Threads}

theorem prm_at_work (keeps : HandsOver s) (busy : Busy s .prm) : Advancing code s := by
  refine prm_advances keeps.orderly busy.1 ?_
  by_contra sleeps
  exact busy.2 (prm_sleeps keeps.orderly sleeps)

theorem daemon_at_work (keeps : HandsOver s) (busy : Busy s .daemon) : Advancing code s := by
  refine daemon_advances keeps.orderly busy.1 ?_
  by_contra sleeps
  exact busy.2 (daemon_sleeps keeps.orderly sleeps)

theorem process_at_work (keeps : HandsOver s) {n : Nat} (busy : Busy s (.process n)) :
    Advancing code s := by
  obtain ⟨going, works, lives⟩ := busy
  by_cases awake : s.nap (.process n) = .awake
  · exact process_advances keeps.orderly going awake lives
  · rcases process_sleeps keeps.orderly awake with waiting | ⟨a, rest, pc, access, inside⟩
    · exact absurd waiting works
    · exact access_advances keeps going awake access inside

theorem ui_at_work (keeps : HandsOver s) (busy : Busy s .ui) :
    Advancing code s ∨ ∃ past i, s.place .ui = .creating past (.spinning i) ∧ s.nap .ui = .awake := by
  obtain ⟨going, works⟩ := busy
  by_cases awake : s.nap .ui = .awake
  · rcases ui_acts (s.place .ui) with acts | idle | ⟨past, i, spins⟩ | ⟨pid, waits⟩
    · exact .inl (awake_advances keeps.orderly going awake (acts_no_rest acts))
    · exact absurd idle works
    · exact .inr ⟨past, i, spins, awake⟩
    · refine .inl (awake_advances keeps.orderly going awake ?_)
      rw [waits]
      exact id
  · left
    obtain ⟨pid, waits⟩ := ui_sleeps keeps.orderly awake
    by_cases signalled : s.nap .ui = .signalled
    · refine sleeper_advances keeps.orderly going awake ?_
      rw [waits]
      exact ⟨.inr signalled, rfl⟩
    · have owes := keeps.fits signalled
      rw [waits] at owes
      exact deletion_advances keeps going waits owes

/-- While a thread is at work some thread can take a step that is more than a wait waking
up and going back to sleep. Only the UI may be left to look again whether its new thread
runs: the thread of a deleted process may lower `running` after the new one has raised it. -/
theorem no_deadlock {maxNumOfProc prcBlkSize : Nat} {machine : Machine}
    {past : List (Event Thread Place)}
    (run : Run running (start maxNumOfProc prcBlkSize machine) past s) {t : Thread} (busy : Busy s t) :
    ∃ event, running.enabled s event ∧ Advances code s event ∧ (Spins code s event → t = .ui) := by
  have keeps := running_hands_over maxNumOfProc prcBlkSize machine run
  have users : ∀ event, Advances code s event → DestroysStarted s event := by
    intro event advances
    cases event with
    | picks t place => exact advances.elim
    | _ => trivial
  have others : Advancing code s → ∃ event, running.enabled s event ∧ Advances code s event ∧
      (Spins code s event → t = .ui) := by
    rintro ⟨event, enabled, advances, steady⟩
    exact ⟨event, ⟨enabled, users event advances⟩, advances, fun spins => absurd spins steady⟩
  cases t with
  | prm => exact others (prm_at_work keeps busy)
  | daemon => exact others (daemon_at_work keeps busy)
  | process n => exact others (process_at_work keeps busy)
  | ui =>
      rcases ui_at_work keeps busy with advances | ⟨past, i, spins, awake⟩
      · exact others advances
      · refine ⟨.runs .ui, ⟨⟨busy.1, awake, ?_⟩, trivial⟩, trivial, fun _ => rfl⟩
        rw [spins]
        trivial

/-- The PRM sleeps, and the UI begins to create a process. -/
theorem no_deadlock_creating : ∃ s : Threads, s.nap .prm = .asleep ∧
    ∃ event, running.enabled s event ∧ Advances code s event ∧
      (Spins code s event → Thread.ui = .ui) := by
  have free : (start 1 1 smallMachine).Free .prmQueue .write := fun _ _ => List.not_mem_nil
  have locks := @Run.step Threads _ running (start 1 1 smallMachine) _ _ (.runs .prm) .nil
    ⟨⟨rfl, rfl, free⟩, trivial⟩
  have sleeps := @Run.step Threads _ running _ _ _ (.runs .prm) locks ⟨⟨rfl, rfl, trivial⟩, trivial⟩
  have begun := @Run.step Threads _ running _ _ _ (.picks .ui (.creating (fun _ => 0) .locking)) sleeps
    ⟨⟨rfl, rfl, trivial⟩, trivial⟩
  refine ⟨_, ?_, no_deadlock begun (t := .ui) ⟨rfl, ?_⟩⟩
  · rfl
  · exact UiPc.noConfusion

end Progress

end VmSim.ThreadCode
