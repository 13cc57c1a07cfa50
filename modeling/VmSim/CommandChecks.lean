import VmSim.CommandLine
import VmSim.ProcessLife

/-!
What is checked of a typed command. `compose_mail` and `process_destroy` compare
the process id with the number of slots, each in its own way; nobody looks at
the numbers before the assertions of the job do.
-/

namespace VmSim.CommandLine
open ProcessTable MailDispatch CallTree

/-! The process id. -/

/-- `compose_mail` turns the id down whatever the slots hold, so it looks at none. -/
def ComposeRejects (cont : ProcCont) (pid : Nat) : Prop :=
  ∀ processes post, composeMail { cont with processes := processes } pid post =
    .ok (.ecNotFound, { cont with processes := processes })

def DestroyRejects (cont : ProcCont) (pid : Nat) : Prop :=
  ∀ processes, processDestroy { cont with processes := processes } pid =
    .ok (.ecFail, { cont with processes := processes })

structure PidGuarded (cont : ProcCont) (pid : Nat) : Prop where
  rejects : cont.maxNumOfProc ≤ pid → ComposeRejects cont pid
  agree : ComposeRejects cont pid ↔ DestroyRejects cont pid
  compose : ∀ post, composeMail cont pid post ≠ .error .outOfBounds
  destroy : processDestroy cont pid ≠ .error .outOfBounds

section Pids
variable {cont : ProcCont} {pid : Nat}

theorem compose_rejects (beyond : cont.maxNumOfProc < pid) : ComposeRejects cont pid :=
  fun _ _ => if_pos beyond

theorem destroy_rejects (outside : cont.maxNumOfProc ≤ pid) : DestroyRejects cont pid :=
  fun _ => if_pos outside

theorem compose_looks (inside : pid ≤ cont.maxNumOfProc) : ¬ ComposeRejects cont pid := by
  intro rejects
  have empty := rejects [] ⟨.fcDel, 0⟩
  rw [composeMail, if_neg (Nat.not_lt.mpr inside)] at empty
  cases empty

theorem destroy_looks (inside : pid < cont.maxNumOfProc) : ¬ DestroyRejects cont pid := by
  intro rejects
  have empty := rejects []
  rw [processDestroy, if_neg (Nat.not_le.mpr inside)] at empty
  cases empty

theorem compose_mail_last (slots : cont.processes.length = cont.maxNumOfProc)
    (post : ProcessTable.Post) : composeMail cont cont.maxNumOfProc post = .error .outOfBounds := by
  have behind : cont.processes[cont.maxNumOfProc]? = none := List.getElem?_eq_none (by omega)
  rw [composeMail, if_neg (Nat.lt_irrefl _), load, behind]
  rfl

theorem compose_mail_inside (slots : cont.processes.length = cont.maxNumOfProc)
    (inside : pid < cont.maxNumOfProc) (post : ProcessTable.Post) :
    composeMail cont pid post = .error .nullPointer ∨ ∃ errcode after,
      composeMail cont pid post = .ok (errcode, after) ∧
        after.processes.length = cont.processes.length := by
  have bound : pid < cont.processes.length := by omega
  rw [composeMail, if_neg (by omega), load_of_get (List.getElem?_eq_getElem bound), bind_ok]
  generalize cont.processes[pid] = prc
  cases prc.junk with
  | true => exact .inr ⟨_, _, rfl, rfl⟩
  | false =>
      cases prc.del with
      | true => exact .inr ⟨_, _, rfl, rfl⟩
      | false =>
          cases box : prc.mailBox with
          | none => exact .inl rfl
          | some mail =>
              simp only [store_of_lt bound, bind_ok]
              exact .inr ⟨_, _, rfl, List.length_set⟩

theorem process_destroy_inside (slots : cont.processes.length = cont.maxNumOfProc)
    (inside : pid < cont.maxNumOfProc) : processDestroy cont pid ≠ .error .outOfBounds := by
  have bound : pid < cont.processes.length := by omega
  rw [processDestroy, if_neg (by omega), load_of_get (List.getElem?_eq_getElem bound), bind_ok]
  generalize cont.processes[pid] = prc
  cases prc.junk with
  | true => exact fun failed => by cases failed
  | false =>
      rcases compose_mail_inside slots inside (ProcessTable.createPost .fcDel 0) with
        composed | ⟨errcode, after, composed, length⟩
      · rw [composed]
        exact fun failed => by cases failed
      · have bound' : pid < after.processes.length := by omega
        simp only [composed, Bool.false_eq_true, if_false, bind_ok,
          load_of_get (List.getElem?_eq_getElem bound'), store_of_lt bound']
        exact fun failed => by cases failed

theorem pid_guarded_iff (slots : cont.processes.length = cont.maxNumOfProc) :
    PidGuarded cont pid ↔ pid ≠ cont.maxNumOfProc := by
  constructor
  · rintro guarded rfl
    exact guarded.compose ⟨.fcDel, 0⟩ (compose_mail_last slots _)
  · intro other
    rcases Nat.lt_or_gt_of_ne other with inside | beyond
    · refine ⟨fun outside => absurd inside (Nat.not_lt.mpr outside),
        iff_of_false (compose_looks (Nat.le_of_lt inside)) (destroy_looks inside),
        fun post failed => ?_, process_destroy_inside slots inside⟩
      rcases compose_mail_inside slots inside post with composed | ⟨errcode, after, composed, -⟩
      · rw [composed] at failed
        cases failed
      · rw [composed] at failed
        cases failed
    · have rejects := compose_rejects beyond
      have rejects' := destroy_rejects (Nat.le_of_lt beyond)
      refine ⟨fun _ => rejects, iff_of_true rejects rejects', fun post failed => ?_, fun failed => ?_⟩
      · rw [rejects cont.processes post] at failed
        cases failed
      · rw [rejects' cont.processes] at failed
        cases failed

theorem run_inside {request : Request} (guarded : PidGuarded cont request.id.toNat) :
    request.run cont ≠ .error .outOfBounds := by
  have mails : (composeMail cont request.id.toNat
      ⟨(request.post cont.mmu.mem.pageSize).func, (request.post cont.mmu.mem.pageSize).nArgs⟩ >>=
      fun r => pure (r.1 = .ecSuccess, r.2) : Outcome (Bool × ProcCont)) ≠ .error .outOfBounds := by
    intro failed
    cases composed : composeMail cont request.id.toNat _ with
    | ok result =>
        rw [composed] at failed
        cases failed
    | error fault =>
        rw [composed] at failed
        cases failed
        exact guarded.compose _ composed
  -- Every request but the deletion goes through the one path that composes a mail.
  rw [← procid_of_typed] at mails
  cases request with
  | delProcess id =>
      intro failed
      cases destroyed : processDestroy cont id.toNat with
      | ok result =>
          rw [Request.run, destroyed] at failed
          cases failed
      | error fault =>
          rw [Request.run, destroyed] at failed
          cases failed
          exact guarded.destroy destroyed
  | _ => exact mails

end Pids

/-- Both functions keep to the slots for every id that can be typed, except for the
number of slots itself. -/
theorem typed_pids_guarded {cont : ProcCont} (slots : cont.processes.length = cont.maxNumOfProc)
    (name : CommandName) (param : Param) :
    ∀ request ∈ commandHandler name param,
      (PidGuarded cont request.id.toNat ∧ request.run cont ≠ .error .outOfBounds) ↔
        request.id.toNat ≠ cont.maxNumOfProc := by
  intro request _
  rw [← pid_guarded_iff slots]
  exact ⟨And.left, fun guarded => ⟨guarded, run_inside guarded⟩⟩

def nineSlots : ProcCont :=
  initProcCont 9 1 (MemoryUnit.mmuInit (MemoryUnit.mmInit 1 8) (DiskBlocks.diskInit 1 8 1) 1)

def readTen : Param := ⟨[48, 32, 49, 48, 32, 49], by decide⟩

def readNine : Param := ⟨[48, 32, 57, 32, 49], by decide⟩

theorem typed_pids_guarded_ten : PidGuarded nineSlots 10 :=
  ((@typed_pids_guarded nineSlots rfl .read readTen (.read 0 10 1) (by decide)).mpr
    (by decide)).1

/-- The id behind the last slot passes the check of `compose_mail`. -/
theorem pid_behind_last :
    ¬ ∀ cont : ProcCont, cont.processes.length = cont.maxNumOfProc → ∀ name param,
      ∀ request ∈ commandHandler name param,
        PidGuarded cont request.id.toNat ∧ request.run cont ≠ .error .outOfBounds := by
  intro guarded
  exact (guarded nineSlots rfl .read readNine (.read 0 9 1) (by decide)).2 (by decide)

/-! The numbers. -/

/-- What has to be typed for the assertions: amounts, and the steps of the loops, that
are positive as an `int`. -/
def Request.InRange : Request → Prop
  | .read _ _ amount => 0 < amount.toNat ∧ amount.toNat < 2 ^ 31
  | .loopRead _ _ off amount =>
      (0 < off.toNat ∧ off.toNat < 2 ^ 31) ∧ 0 < amount.toNat ∧ amount.toNat < 2 ^ 31
  | .readToFile _ _ amount _ => 0 < amount.toNat ∧ amount.toNat < 2 ^ 31
  | .loopReadToFile _ _ off amount _ =>
      (0 < off.toNat ∧ off.toNat < 2 ^ 31) ∧ 0 < amount.toNat ∧ amount.toNat < 2 ^ 31
  | .write _ _ _ => True
  | .loopWrite _ _ _ off amount => off.toNat < 2 ^ 31 ∧ 0 < amount.toNat ∧ amount.toNat < 2 ^ 31
  | .delProcess _ => True

def IsAssertion : Fault → Prop
  | .assertion _ => True
  | _ => False

def JobAsserts (job : Job α) : Prop := Avoids IsAssertion MmuCall.Gives (fun _ => True) job

def AssertsHold (pageSize : Nat) : MailDispatch.Call → Prop
  | .simRead vAddr off amount fileName =>
      JobAsserts (simReadWrapped pageSize vAddr off amount fileName)
  | .simWrite vAddr s amount => JobAsserts (simWrite pageSize vAddr s amount)
  | .simLoopWrite vAddr c offset amount => JobAsserts (simLoopWrite pageSize vAddr c offset amount)
  | .processDealloc => True

section Asserts
variable {pageSize : Nat} {access : Nat → VirtAddr → σ → Job (Errcode × σ)}

theorem carry_pages_silent {site : Site} (addr : VirtAddr) (turns : Nat) :
    carryPages pageSize addr turns ≠ .error (.assertion site) := by
  induction turns generalizing addr with
  | zero => exact fun failed => by cases failed
  | succ turns ih =>
      unfold carryPages
      split
      · exact ih _
      · exact fun failed => by cases failed

theorem walk_asserts (accesses : ∀ turn vAddr s, JobAsserts (access turn vAddr s)) {step : Int}
    (left multiplier : Nat) (vAddr : VirtAddr) (err : Errcode) (s : σ) :
    JobAsserts (walk pageSize step access left multiplier vAddr err s) := by
  induction left generalizing multiplier vAddr err s with
  | zero => trivial
  | succ left ih =>
      unfold walk
      split
      · refine (avoids_bind _ _).mpr (avoids_mono ?_ (accesses multiplier vAddr s))
        rintro ⟨err, s⟩ -
        cases advanced : advanceVirtAddr vAddr step pageSize with
        | ok after => exact ih _ _ _ _
        | error fault =>
            cases fault with
            | assertion site => exact absurd advanced (carry_pages_silent _ _)
            | _ => exact id
      · trivial

theorem job_asserts_then {job : Job α} {rest : α → Job β} (first : JobAsserts job)
    (others : ∀ result, JobAsserts (rest result)) : JobAsserts (job >>= rest) :=
  (avoids_bind _ _).mpr (avoids_mono (fun result _ => others result) first)

theorem job_asserts_assert {site : Site} {condition : Bool} {rest : Job α} :
    JobAsserts (compute (assert site condition) >>= fun _ => rest) ↔
      condition = true ∧ JobAsserts rest := by
  cases condition with
  | true => simp
  | false => exact iff_of_false (fun passed => passed trivial) (fun both => by cases both.1)

theorem sim_read_asserts (vAddr : VirtAddr) (off amount : Int) (fileName : Option String) :
    JobAsserts (simReadWrapped pageSize vAddr off amount fileName) ↔ 0 < off ∧ 0 < amount := by
  simp only [simReadWrapped, simReadInto, job_asserts_assert, decide_eq_true_eq]
  refine and_congr_right fun _ => and_iff_left ?_
  apply job_asserts_then
  · apply walk_asserts
    rintro turn vAddr buf ⟨err, byte⟩ -
    cases malloc (mallocArgument off amount) with
    | none => exact id
    | some capacity =>
        simp only
        split
        · trivial
        · exact id
  · rintro ⟨err, buf⟩
    simp only
    split <;> trivial

theorem sim_write_asserts (vAddr : VirtAddr) (s : List BYTE) (amount : Int) :
    JobAsserts (simWrite pageSize vAddr s amount) ↔ 0 < amount := by
  simp only [simWrite, job_asserts_assert, decide_eq_true_eq]
  refine and_iff_left ?_
  apply job_asserts_then
  · apply walk_asserts
    intro turn vAddr u
    unfold writeByte load
    cases s[turn]? with
    | none => exact id
    | some byte => exact fun err _ => trivial
  · exact fun _ => trivial

theorem sim_loop_write_asserts (vAddr : VirtAddr) (c : BYTE) (offset amount : Int) :
    JobAsserts (simLoopWrite pageSize vAddr c offset amount) ↔ 0 ≤ offset ∧ 0 < amount := by
  simp only [simLoopWrite, job_asserts_assert, decide_eq_true_eq]
  refine and_congr_right fun _ => and_iff_left ?_
  apply job_asserts_then
  · apply walk_asserts
    exact fun turn vAddr u err _ => trivial
  · exact fun _ => trivial

end Asserts

theorem typed_positive (x : BitVec 32) : 0 < x.toInt ↔ 0 < x.toNat ∧ x.toNat < 2 ^ 31 := by
  have bound := x.isLt
  rw [BitVec.toInt_eq_toNat_cond]
  split <;> omega

theorem typed_nonnegative (x : BitVec 32) : 0 ≤ x.toInt ↔ x.toNat < 2 ^ 31 := by
  have bound := x.isLt
  rw [BitVec.toInt_eq_toNat_cond]
  split <;> omega

theorem strlen_positive {s : List BYTE} (some : s ≠ []) (short : s.length < filenameMax) :
    0 < intOfStrlen s := by
  have length := List.length_pos_iff.mpr some
  unfold filenameMax at short
  rw [intOfStrlen, typed_positive, BitVec.toNat_ofNat, Nat.mod_eq_of_lt (by omega)]
  omega

structure Receives (cont : ProcCont) (pid : Nat) : Prop where
  inside : pid < cont.maxNumOfProc
  mailBox : ∃ p box, Live cont pid p ∧ p.del = false ∧ p.mailBox = some box

theorem receives_mail {cont : ProcCont} {pid : Nat} (receives : Receives cont pid)
    (post : ProcessTable.Post) : ∃ after, composeMail cont pid post = .ok (.ecSuccess, after) := by
  obtain ⟨inside, p, box, ⟨here, junk⟩, del, mail⟩ := receives
  have bound := (List.getElem?_eq_some_iff.mp here).1
  rw [composeMail, if_neg (by omega), load_of_get here]
  simp only [junk, del, mail, bind_ok, Bool.false_eq_true, if_false, store_of_lt bound]
  exact ⟨_, rfl⟩

theorem run_accepts {cont : ProcCont} {request : Request} (receives : Receives cont request.id.toNat)
    (mails : ∀ id, request ≠ .delProcess id) : ∃ after, request.run cont = .ok (true, after) := by
  obtain ⟨after, sent⟩ := receives_mail receives
    ⟨(request.post cont.mmu.mem.pageSize).func, (request.post cont.mmu.mem.pageSize).nArgs⟩
  rw [← procid_of_typed] at sent
  refine ⟨after, ?_⟩
  cases request with
  | delProcess id => exact absurd rfl (mails id)
  | _ => simp only [Request.run, sent, bind_ok, pure_eq_ok, decide_true]

theorem handler_write {name : CommandName} {param : Param} {vaddr id : BitVec 32} {s : List BYTE}
    (parsed : commandHandler name param = some (.write vaddr id s)) :
    doWrite param = some (.write vaddr id s) := by
  cases name with
  | write => exact parsed
  | loopWrite =>
      simp only [commandHandler, doLoopWrite, Option.bind_eq_bind, Option.bind_eq_some_iff] at parsed
      obtain ⟨_, -, _, -, rest⟩ := parsed
      split at rest
      · simp [Option.bind_eq_some_iff] at rest
      · cases rest
  | _ =>
      simp [commandHandler, doRead, doLoopRead, doReadToFile, doLoopReadToFile, doDelProcess,
        Option.bind_eq_some_iff] at parsed

theorem typed_asserts_iff {name : CommandName} {param : Param} {request : Request}
    (parsed : commandHandler name param = some request) (pageSize : Nat) :
    (∃ call, dispatch (request.post pageSize) = .ok call ∧ AssertsHold pageSize call) ↔
      request.InRange := by
  rw [Request.post, dispatch_post]
  simp only [Except.ok.injEq, exists_eq_left']
  cases request with
  | read vaddr id amount =>
      exact (sim_read_asserts _ _ _ _).trans ((and_iff_right (by decide)).trans (typed_positive amount))
  | loopRead vaddr id off amount =>
      exact (sim_read_asserts _ _ _ _).trans (and_congr (typed_positive off) (typed_positive amount))
  | readToFile vaddr id amount fileName =>
      exact (sim_read_asserts _ _ _ _).trans ((and_iff_right (by decide)).trans (typed_positive amount))
  | loopReadToFile vaddr id off amount fileName =>
      exact (sim_read_asserts _ _ _ _).trans (and_congr (typed_positive off) (typed_positive amount))
  | write vaddr id s =>
      obtain ⟨some, short⟩ := do_write_token (handler_write parsed)
      exact (sim_write_asserts _ _ _).trans (iff_of_true (strlen_positive some short) trivial)
  | loopWrite vaddr id c off amount =>
      exact (sim_loop_write_asserts _ _ _ _).trans
        (and_congr (typed_nonnegative off) (typed_positive amount))
  | delProcess id => exact Iff.rfl

/-- The mail of a command passes the assertions of the decoder and of the job exactly
when its numbers are positive as an `int`; all other numbers are mailed as well. -/
theorem typed_numbers_assert {cont : ProcCont} {name : CommandName} {param : Param}
    {request : Request} (parsed : commandHandler name param = some request)
    (receives : Receives cont request.id.toNat) :
    (∀ after, request.run cont = .ok (true, after) →
      ∃ call, dispatch (request.post cont.mmu.mem.pageSize) = .ok call ∧
        AssertsHold cont.mmu.mem.pageSize call) ↔ request.InRange := by
  rw [← typed_asserts_iff parsed cont.mmu.mem.pageSize]
  constructor
  · intro accepted
    cases request with
    | delProcess id => exact ⟨_, rfl, trivial⟩
    | _ =>
        obtain ⟨after, sent⟩ := run_accepts receives fun id same => by cases same
        exact accepted after sent
  · exact fun holds _ _ => holds

theorem one_process_receives :
    ∃ s, Run Step.Allowed (initialSystem 1 1 8 1 1 1) [.start 0, .create fun _ => 0] s ∧
      Receives s.cont 0 := by
  have replayed : (replaySteps Step.Allowed (initialSystem 1 1 8 1 1 1)
      [.create fun _ => 0, .start 0]).any (fun s => decide (0 < s.cont.maxNumOfProc) &&
        (s.cont.processes[0]?).any fun p => !p.junk && (!p.del && p.mailBox.isSome)) = true := by decide
  obtain ⟨s, ran, found⟩ := (Option.any_eq_true _ _).mp replayed
  obtain ⟨inside, slot⟩ := Bool.and_eq_true_iff.mp found
  obtain ⟨p, here, fields⟩ := (Option.any_eq_true _ _).mp slot
  simp only [Bool.and_eq_true, Bool.not_eq_true'] at fields
  obtain ⟨box, mail⟩ := Option.isSome_iff_exists.mp fields.2.2
  exact ⟨s, replay_steps_run .nil ran, of_decide_eq_true inside, p, box, ⟨here, fields.1⟩, fields.2.1, mail⟩

def readOne : Param := ⟨[48, 32, 48, 32, 49], by decide⟩

def readNothing : Param := ⟨[48, 32, 48, 32, 48], by decide⟩

theorem typed_numbers_assert_one :
    ∃ s, Run Step.Allowed (initialSystem 1 1 8 1 1 1) [.start 0, .create fun _ => 0] s ∧
      ∀ after, (Request.read 0 0 1).run s.cont = .ok (true, after) →
        ∃ call, dispatch ((Request.read 0 0 1).post s.cont.mmu.mem.pageSize) = .ok call ∧
          AssertsHold s.cont.mmu.mem.pageSize call := by
  obtain ⟨s, run, receives⟩ := one_process_receives
  have parsed : commandHandler .read readOne = some (.read 0 0 1) := by decide
  exact ⟨s, run, (typed_numbers_assert parsed receives).mpr ⟨by decide, by decide⟩⟩

/-- An amount of zero is mailed, and `sim_read` fails on it. -/
theorem zero_amount_mailed :
    ¬ ∀ past s, Run Step.Allowed (initialSystem 1 1 8 1 1 1) past s → ∀ name param request,
      commandHandler name param = some request → Receives s.cont request.id.toNat →
      ∀ after, request.run s.cont = .ok (true, after) →
        ∃ call, dispatch (request.post s.cont.mmu.mem.pageSize) = .ok call ∧
          AssertsHold s.cont.mmu.mem.pageSize call := by
  intro holds
  obtain ⟨s, run, receives⟩ := one_process_receives
  have parsed : commandHandler .read readNothing = some (.read 0 0 0) := by decide
  obtain ⟨after, sent⟩ := @run_accepts s.cont (.read 0 0 0) receives fun id same => by cases same
  have executed := holds _ s run .read readNothing _ parsed receives after sent
  have typed := (typed_asserts_iff parsed _).mp executed
  exact absurd typed.1 (by decide)

end VmSim.CommandLine
