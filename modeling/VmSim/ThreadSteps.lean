import VmSim.ThreadLocks

/-!
What one step of a thread does to the control data: a fault that waits keeps its
command done, queued or served, a request to the aging daemon stands until it is
served, and the thread of a process goes from serving its mail to its deletion,
where it clears the mailbox, marks the slot as junk and signals.
-/

namespace VmSim.ThreadCode
open LockedThreads

/-! Page faults and aging. -/

def Pending (c : Control) (serving : Option Nat) (cmd : Nat) : Prop :=
  (c.command cmd).done = true ∨ cmd ∈ c.queue ∨ serving = some cmd

def Updating (c : Control) : Prop := c.doneUpdating = true ∨ c.shouldUpdate = true

/-- What a thread relies on where it stands in `mmu_read` or `mmu_write`. -/
def AccessPc.Relies (c : Control) (serving : Option Nat) : AccessPc → Prop
  | .pushing cmd .leave => cmd < c.fresh ∧ Pending c serving cmd
  | .pushing cmd _ => cmd < c.fresh
  | .signallingPush cmd => cmd < c.fresh ∧ Pending c serving cmd
  | .completing _ .leave => True
  | .completing cmd _ => cmd < c.fresh ∧ Pending c serving cmd
  | .signallingUpdate => Updating c
  | .awaitingUpdate => Updating c
  | _ => True

def ProcessPc.Relies (c : Control) (serving : Option Nat) (place : ProcessPc) : Prop :=
  match place.pc with
  | .access _ _ pc => pc.Relies c serving
  | _ => True

/-- The command the PRM has popped and not reported. -/
def PrmPc.command : PrmPc → Option Nat
  | .unlocking cmd => some cmd
  | .fetching cmd => some cmd
  | .serving cmd _ _ => some cmd
  | .reporting cmd .want => some cmd
  | .reporting cmd .inside => some cmd
  | _ => none

/-- Nothing is lost that a thread may rely on. -/
structure Passes (c : Control) (serving : Option Nat) (c' : Control) (serving' : Option Nat) :
    Prop where
  fresh : c.fresh ≤ c'.fresh
  pending : ∀ cmd, cmd < c.fresh → Pending c serving cmd → Pending c' serving' cmd
  updating : Updating c → Updating c'

structure SameRequests (c c' : Control) : Prop where
  queue : c'.queue = c.queue
  command : c'.command = c.command
  fresh : c'.fresh = c.fresh
  should : c'.shouldUpdate = c.shouldUpdate
  done : c'.doneUpdating = c.doneUpdating

section Passing
variable {c c' : Control} {serving serving' : Option Nat}

theorem passes_refl (c : Control) (serving : Option Nat) : Passes c serving c serving :=
  ⟨Nat.le_refl _, fun _ _ => id, id⟩

theorem same_requests_refl (c : Control) : SameRequests c c := ⟨rfl, rfl, rfl, rfl, rfl⟩

theorem same_passes (same : SameRequests c c') : Passes c serving c' serving where
  fresh := Nat.le_of_eq same.fresh.symm
  pending cmd _ pending := by rwa [Pending, same.command, same.queue]
  updating updating := by rwa [Updating, same.done, same.should]

theorem passes_relies (passes : Passes c serving c' serving') {pc : AccessPc}
    (relies : pc.Relies c serving) : pc.Relies c' serving' := by
  have both : ∀ cmd, cmd < c.fresh ∧ Pending c serving cmd →
      cmd < c'.fresh ∧ Pending c' serving' cmd := fun cmd before =>
    ⟨Nat.lt_of_lt_of_le before.1 passes.fresh, passes.pending cmd before.1 before.2⟩
  cases pc with
  | pushing cmd phase =>
      cases phase with
      | leave => exact both cmd relies
      | _ => exact Nat.lt_of_lt_of_le relies passes.fresh
  | signallingPush cmd => exact both cmd relies
  | completing cmd phase =>
      cases phase with
      | leave => trivial
      | _ => exact both cmd relies
  | signallingUpdate => exact passes.updating relies
  | awaitingUpdate => exact passes.updating relies
  | _ => trivial

theorem passes_process_relies (passes : Passes c serving c' serving') {place : ProcessPc}
    (relies : place.Relies c serving) : place.Relies c' serving' := by
  obtain ⟨pid, pc⟩ := place
  cases pc with
  | access a rest pc => exact passes_relies passes relies
  | _ => trivial

theorem new_command_passes (addr : VirtAddr) : Passes c serving
    { c with command := Function.update c.command c.fresh ⟨addr, false⟩, fresh := c.fresh + 1 }
    serving where
  fresh := Nat.le_succ _
  pending cmd low pending := by
    simpa only [Pending, Function.update_of_ne (Nat.ne_of_lt low)] using pending
  updating := id

theorem push_passes (cmd : Nat) : Passes c serving { c with queue := c.queue ++ [cmd] } serving where
  fresh := Nat.le_refl _
  pending _ _ pending :=
    pending.imp_right fun waits => waits.imp_left fun queued => List.mem_append_left _ queued
  updating := id

theorem pop_passes {cmd : Nat} {rest : List Nat} (queue : c.queue = cmd :: rest) :
    Passes c none { c with queue := rest } (some cmd) where
  fresh := Nat.le_refl _
  pending other _ pending := by
    rcases pending with done | queued | served
    · exact .inl done
    · rw [queue, List.mem_cons] at queued
      rcases queued with same | waits
      · exact .inr (.inr (congrArg some same.symm))
      · exact .inr (.inl waits)
    · cases served
  updating := id

theorem report_passes (cmd : Nat) : Passes c (some cmd)
    { c with command := Function.update c.command cmd { c.command cmd with done := true } } none where
  fresh := Nat.le_refl _
  pending other _ pending := by
    by_cases same : other = cmd
    · subst same
      exact .inl (by simp)
    · rcases pending with done | queued | served
      · exact .inl (by simpa [same] using done)
      · exact .inr (.inl queued)
      · exact absurd (Option.some.inj served).symm same
  updating := id

end Passing

/-! The life of a process. -/

inductive Stage where
  | serving
  | deleting
  | signalling
  | ended
  deriving DecidableEq, Repr

def Stage.Live : Stage → Prop
  | .serving => True
  | .deleting => True
  | _ => False

def DeallocPc.stage : DeallocPc → Stage
  | .signalling => .signalling
  | .unlocking => .ended
  | _ => .deleting

def ProcessPc.stage (place : ProcessPc) : Stage :=
  match place.pc with
  | .unlocking .del => .deleting
  | .dealloc pc => pc.stage
  | .lowering => .ended
  | .gone => .ended
  | _ => .serving

structure SameMail (slot slot' : Slot) : Prop where
  junk : slot'.junk = slot.junk
  del : slot'.del = slot.del
  mailBox : slot'.mailBox = slot.mailBox

def Slot.HasMail (slot : Slot) : Prop := ∃ mail rest, slot.mailBox = some (mail :: rest)

def Slot.Doomed (slot : Slot) (stage : Stage) : Prop :=
  stage = .deleting ∨ stage = .serving ∧ ∃ mails, slot.mailBox = some mails ∧ Mail.del ∈ mails

structure SameProcesses (c c' : Control) : Prop where
  size : c'.maxNumOfProc = c.maxNumOfProc
  spawned : c'.spawned = c.spawned
  slots : ∀ i, SameMail (c.slot i) (c'.slot i)

/-- What the thread of a process does to its own slot, and to no other. -/
structure Follows (pid : Nat) (c : Control) (stage : Stage) (c' : Control) (stage' : Stage) :
    Prop where
  size : c'.maxNumOfProc = c.maxNumOfProc
  spawned : c'.spawned = c.spawned
  others : ∀ i, i ≠ pid ∨ ¬ stage.Live → SameMail (c.slot i) (c'.slot i)
  mail : (c'.slot pid).HasMail → (c.slot pid).HasMail
  live : stage'.Live → stage.Live
  ended : stage = .ended → stage' = .ended
  junk : stage'.Live → (c'.slot pid).junk = (c.slot pid).junk
  del : stage'.Live → (c'.slot pid).del = (c.slot pid).del
  doomed : stage'.Live → (c.slot pid).Doomed stage → (c'.slot pid).Doomed stage'
  ends : stage.Live → ¬ stage'.Live → stage' = .signalling ∧ (c'.slot pid).junk = true

theorem same_mail_refl (slot : Slot) : SameMail slot slot := ⟨rfl, rfl, rfl⟩

theorem same_mail_has {slot slot' : Slot} (same : SameMail slot slot') :
    slot'.HasMail ↔ slot.HasMail := by
  rw [Slot.HasMail, Slot.HasMail, same.mailBox]

theorem same_mail_doomed {slot slot' : Slot} (same : SameMail slot slot') {stage : Stage} :
    slot'.Doomed stage ↔ slot.Doomed stage := by
  rw [Slot.Doomed, Slot.Doomed, same.mailBox]

theorem same_processes {c c' : Control} (size : c'.maxNumOfProc = c.maxNumOfProc)
    (spawned : c'.spawned = c.spawned) (slots : c'.slot = c.slot) : SameProcesses c c' := by
  refine ⟨size, spawned, fun i => ?_⟩
  rw [slots]
  exact same_mail_refl (c.slot i)

section Following
variable {pid : Nat} {c c' : Control} {sh : Shared} {slot : Slot} {stage stage' : Stage}

theorem same_follows (same : SameProcesses c c') : Follows pid c stage c' stage where
  size := same.size
  spawned := same.spawned
  others i _ := same.slots i
  mail := (same_mail_has (same.slots pid)).mp
  live := id
  ended := id
  junk _ := (same.slots pid).junk
  del _ := (same.slots pid).del
  doomed _ := (same_mail_doomed (same.slots pid)).mpr
  ends live dead := absurd live dead

theorem over_follows (dead : ¬ stage.Live) : Follows pid c stage c .ended where
  size := rfl
  spawned := rfl
  others i _ := same_mail_refl (c.slot i)
  mail := id
  live := False.elim
  ended _ := rfl
  junk := False.elim
  del := False.elim
  doomed := False.elim
  ends live := absurd live dead

theorem set_slot_self : (sh.setSlot pid slot).control.slot pid = slot := Function.update_self ..

theorem set_slot_other {i : Nat} (other : i ≠ pid) :
    (sh.setSlot pid slot).control.slot i = sh.control.slot i := Function.update_of_ne other ..

theorem set_slot_same (same : SameMail (sh.control.slot pid) slot) :
    SameProcesses sh.control (sh.setSlot pid slot).control := by
  refine ⟨rfl, rfl, fun i => ?_⟩
  by_cases own : i = pid
  · subst own
    rw [set_slot_self]
    exact same
  · rw [set_slot_other own]
    exact same_mail_refl _

theorem set_slot_requests : SameRequests sh.control (sh.setSlot pid slot).control :=
  ⟨rfl, rfl, rfl, rfl, rfl⟩

theorem own_follows (live : stage.Live) (back : stage'.Live → stage.Live)
    (mail : slot.HasMail → (sh.control.slot pid).HasMail)
    (junk : stage'.Live → slot.junk = (sh.control.slot pid).junk)
    (del : stage'.Live → slot.del = (sh.control.slot pid).del)
    (doomed : stage'.Live → (sh.control.slot pid).Doomed stage → slot.Doomed stage')
    (ends : ¬ stage'.Live → stage' = .signalling ∧ slot.junk = true) :
    Follows pid sh.control stage (sh.setSlot pid slot).control stage' where
  size := rfl
  spawned := rfl
  others i other := by
    rw [set_slot_other (other.resolve_right (fun dead => dead live))]
    exact same_mail_refl _
  mail := by rwa [set_slot_self]
  live := back
  ended ended := by
    rw [ended] at live
    exact live.elim
  junk := by rwa [set_slot_self]
  del := by rwa [set_slot_self]
  doomed := by rwa [set_slot_self]
  ends _ := by rwa [set_slot_self]

/-- With the mail of its deletion a process has what dooms it in hand. -/
theorem pop_follows {mail : Mail} {rest : List Mail}
    (mails : (sh.control.slot pid).mailBox = some (mail :: rest)) :
    Follows pid sh.control .serving
      (sh.setSlot pid { sh.control.slot pid with mailBox := some rest }).control
      (ProcessPc.stage ⟨pid, .unlocking mail⟩) := by
  refine own_follows trivial (fun _ => trivial) (fun _ => ⟨mail, rest, mails⟩) (fun _ => rfl)
    (fun _ => rfl) ?_ ?_
  · intro _ doomed
    cases mail with
    | del => exact .inl rfl
    | job accesses =>
        rcases doomed with deleting | ⟨-, all, box, member⟩
        · cases deleting
        · rw [mails] at box
          cases box
          have behind : Mail.del ∈ rest := by simpa using member
          exact .inr ⟨rfl, rest, rfl, behind⟩
  · intro dead
    cases mail <;> exact absurd trivial dead

end Following

/-! The steps. -/

section Statements
variable {t : Thread} {sh : Shared} {post : Place t → Shared → Prop} {next : Place t}

theorem on_mmu_leads {does : MemoryUnit.Mmu → Outcome MemoryUnit.Mmu}
    (goes : ∀ mmu, post next (sh.onMmu mmu)) : Leads sh post (onMmu does next) := by
  intro after reached done
  obtain ⟨mmu, -, made⟩ := bind_eq_ok.mp done
  cases made
  exact goes mmu

theorem test_mmu_leads {test : MemoryUnit.Mmu → Outcome Bool} {yes no : Place t}
    (left : post yes sh) (right : post no sh) : Leads sh post (testMmu test yes no) := by
  intro after reached done
  obtain ⟨found, -, made⟩ := bind_eq_ok.mp done
  cases made
  cases found with
  | true => exact left
  | false => exact right

theorem section_leads {lock : Lock} {mode : Mode} {does : MemoryUnit.Mmu → Outcome MemoryUnit.Mmu}
    {pc : Phase → Place t}
    (inside : ∀ phase sh', sh'.control = sh.control → post (pc phase) sh')
    (ends : ∀ sh', sh'.control = sh.control → post next sh') (phase : Phase) :
    Leads sh post (mmuSection lock mode does pc next phase) := by
  cases phase with
  | want => exact inside .inside sh rfl
  | inside => exact on_mmu_leads fun mmu => inside .leave (sh.onMmu mmu) rfl
  | leave => exact ends sh rfl

/-- The requests of a thread leave the processes alone and nobody else's requests out. -/
structure Asks (serving : Option Nat) (c c' : Control) : Prop where
  passes : Passes c serving c' serving
  processes : SameProcesses c c'

variable {serving : Option Nat}

theorem asks_quiet {c c' : Control} (quiet : c' = c) : Asks serving c c' := by
  subst quiet
  exact ⟨passes_refl .., same_processes rfl rfl rfl⟩

/-- Through `mmu_read` and `mmu_write` a thread relies only on what it has set up itself. -/
theorem access_leads {a : Access} (here : AccessPc → Place t) (next : Place t)
    (inside : ∀ pc sh', Asks serving sh.control sh'.control → pc.Relies sh'.control serving →
      post (here pc) sh')
    (ends : ∀ sh', Asks serving sh.control sh'.control → post next sh') {pc : AccessPc}
    (relies : pc.Relies sh.control serving) : Leads sh post (accessCode a here next pc) := by
  have still : ∀ pc, pc.Relies sh.control serving → post (here pc) sh := fun pc =>
    inside pc sh (asks_quiet rfl)
  have quiet : ∀ pc sh', sh'.control = sh.control → pc.Relies sh.control serving →
      post (here pc) sh' := fun pc sh' same relies => by
    rw [← same] at relies
    exact inside pc sh' (asks_quiet same) relies
  cases pc with
  | checking => exact on_mmu_leads fun mmu => quiet .acquiring _ rfl trivial
  | acquiring => exact still .testing trivial
  | testing =>
      rw [accessCode]
      exact test_mmu_leads (still (.counting true .want) trivial) (still (.counting false .want) trivial)
  | counting hit phase =>
      refine section_leads (fun phase sh' same => quiet (.counting hit phase) sh' same trivial)
        (fun sh' same => ?_) phase
      cases hit with
      | true => exact quiet (.referencing .want) sh' same trivial
      | false => exact quiet .faulting sh' same trivial
  | faulting => exact still .requesting trivial
  | requesting =>
      intro after reached done
      cases done
      exact inside (.pushing _ .want) _ ⟨new_command_passes a.addr, same_processes rfl rfl rfl⟩
        (Nat.lt_succ_self _)
  | pushing cmd phase =>
      cases phase with
      | want => exact still (.pushing cmd .inside) relies
      | inside =>
          intro after reached done
          cases done
          -- From here to the reply the command counts as known to the replacement thread.
          have queued : cmd ∈ sh.control.queue ++ [cmd] := by simp
          have asks : Asks serving sh.control
              { sh.control with queue := sh.control.queue ++ [cmd] } :=
            ⟨push_passes cmd, same_processes rfl rfl rfl⟩
          split
          · exact inside (.signallingPush cmd) _ asks ⟨relies, .inr (.inl queued)⟩
          · exact inside (.pushing cmd .leave) _ asks ⟨relies, .inr (.inl queued)⟩
      | leave => exact still (.completing cmd .want) relies
  | signallingPush cmd => exact still (.pushing cmd .leave) relies
  | completing cmd phase =>
      cases phase with
      | want => exact still (.completing cmd .inside) relies
      | inside => exact still (.completing cmd .leave) trivial
      | leave => exact still .reacquiring trivial
  | reacquiring => exact still .retesting trivial
  | retesting =>
      rw [accessCode]
      exact test_mmu_leads (still (.referencing .want) trivial) (still .faulting trivial)
  | referencing phase =>
      exact section_leads (fun phase sh' same => quiet (.referencing phase) sh' same trivial)
        (fun sh' same => quiet .copying sh' same trivial) phase
  | copying => exact on_mmu_leads fun mmu => quiet .releasing _ rfl trivial
  | releasing => exact still (.reading false .want) trivial
  | reading due phase =>
      cases phase with
      | want => exact still (.reading false .inside) trivial
      | inside =>
          rw [accessCode]
          exact test_mmu_leads (still (.reading true .leave) trivial)
            (still (.reading false .leave) trivial)
      | leave =>
          cases due with
          | true => exact still (.zeroing .want) trivial
          | false => exact ends sh (asks_quiet rfl)
  | zeroing phase =>
      exact section_leads (fun phase sh' same => quiet (.zeroing phase) sh' same trivial)
        (fun sh' same => quiet (.asking .want) sh' same trivial) phase
  | asking phase =>
      cases phase with
      | want => exact still (.asking .inside) trivial
      | inside =>
          intro after reached done
          cases done
          -- The flag lowered is raised again by the daemon, which the request keeps busy.
          refine inside .signallingUpdate _ ⟨?_, same_processes rfl rfl rfl⟩ (.inr rfl)
          exact ⟨Nat.le_refl _, fun _ _ => id, fun _ => .inr rfl⟩
      | leave => exact ends sh (asks_quiet rfl)
  | signallingUpdate => exact still .awaitingUpdate relies
  | awaitingUpdate => exact still (.asking .leave) trivial

/-- Before its mark a deletion clears the mailbox, and the process stays deleting. -/
theorem dealloc_leads {pid : Nat} (here : DeallocPc → Place t) (next : Place t) {pc : DeallocPc}
    (inside : ∀ pc' sh', SameRequests sh.control sh'.control →
      Follows pid sh.control pc.stage sh'.control pc'.stage → post (here pc') sh')
    (ends : Follows pid sh.control pc.stage sh.control .ended → post next sh) :
    Leads sh post (deallocCode pid here next pc) := by
  have quiet : ∀ pc' sh', sh'.control = sh.control → pc'.stage = pc.stage → post (here pc') sh' := by
    intro pc' sh' same stage
    refine inside pc' sh' ?_ ?_
    · rw [same]
      exact same_requests_refl _
    · rw [same, stage]
      exact same_follows (same_processes rfl rfl rfl)
  cases pc with
  | locking => exact quiet .checking sh rfl rfl
  | checking =>
      intro after reached done
      simp only [bind_eq_ok] at done
      obtain ⟨-, -, -, -, made⟩ := done
      cases made
      exact quiet (.emptying .want) sh rfl rfl
  | emptying phase =>
      cases phase with
      | want => exact quiet (.emptying .inside) sh rfl rfl
      | inside =>
          intro after reached done
          dsimp only at done
          split at done
          · cases done
          · cases done
            refine inside (.emptying .leave) _ set_slot_requests ?_
            refine own_follows trivial (fun _ => trivial) ?_ (fun _ => rfl) (fun _ => rfl)
              (fun _ _ => .inl rfl) (fun dead => absurd trivial dead)
            rintro ⟨mail, rest, mails⟩
            cases mails
      | leave => exact quiet (.freeing 0) sh rfl rfl
  | freeing page =>
      intro after reached done
      cases done
      refine quiet _ sh rfl ?_
      split <;> rfl
  | freeingPage page phase =>
      exact section_leads (fun phase sh' same => quiet (.freeingPage page phase) sh' same rfl)
        (fun sh' same => quiet (.freeing (page + 1)) sh' same rfl) phase
  | freeingBlock phase =>
      cases phase with
      | want => exact quiet (.freeingBlock .inside) sh rfl rfl
      | inside =>
          intro after reached done
          obtain ⟨disk, -, made⟩ := bind_eq_ok.mp done
          cases made
          exact quiet (.freeingBlock .leave) _ rfl rfl
      | leave => exact quiet .marking sh rfl rfl
  | marking =>
      intro after reached done
      cases done
      refine inside .signalling _ set_slot_requests ?_
      exact own_follows trivial False.elim id False.elim False.elim False.elim
        (fun _ => ⟨rfl, rfl⟩)
  | signalling => exact inside .unlocking sh (same_requests_refl _) (over_follows id)
  | unlocking => exact ends (over_follows id)

structure ProcessStep (serving : Option Nat) (sh : Shared) (place place' : ProcessPc) (sh' : Shared) :
    Prop where
  pid : place'.pid = place.pid
  relies : place'.Relies sh'.control serving
  passes : Passes sh.control serving sh'.control serving
  follows : Follows place.pid sh.control place.stage sh'.control place'.stage

theorem asks_step {place place' : ProcessPc} {sh' : Shared} (pid : place'.pid = place.pid)
    (stage : place'.stage = place.stage) (asks : Asks serving sh.control sh'.control)
    (relies : place'.Relies sh'.control serving) : ProcessStep serving sh place place' sh' := by
  refine ⟨pid, relies, asks.passes, ?_⟩
  rw [stage]
  exact same_follows asks.processes

theorem process_leads {n : Nat} {place : ProcessPc} (relies : place.Relies sh.control serving) :
    Leads sh (ProcessStep serving sh place) (processCode n place) := by
  obtain ⟨pid, pc⟩ := place
  have running : ∀ running, Asks serving sh.control
      (sh.setSlot pid { sh.control.slot pid with running := running }).control := fun running =>
    ⟨same_passes set_slot_requests, set_slot_same ⟨rfl, rfl, rfl⟩⟩
  have still : Asks serving sh.control sh.control := asks_quiet rfl
  cases pc with
  | raising =>
      intro after reached done
      cases done
      exact asks_step rfl rfl (running true) trivial
  | locking => exact asks_step rfl rfl still trivial
  | waiting => exact asks_step rfl rfl still trivial
  | popping =>
      intro after reached done
      dsimp only at done
      split at done
      · rename_i mails
        cases done
        exact ⟨rfl, trivial, same_passes set_slot_requests, pop_follows mails⟩
      · cases done
  | unlocking mail =>
      cases mail with
      | job accesses => exact asks_step rfl rfl still trivial
      | del => exact asks_step rfl rfl still trivial
  | working rest =>
      cases rest with
      | nil =>
          intro after reached done
          cases done
          exact asks_step rfl rfl still trivial
      | cons a rest =>
          intro after reached done
          cases done
          exact asks_step rfl rfl still trivial
  | access a rest pc =>
      refine access_leads (t := .process n) (fun pc => ⟨pid, .access a rest pc⟩) ⟨pid, .working rest⟩
        (fun pc sh' asks relies => ?_) (fun sh' asks => ?_) relies
      · exact asks_step rfl rfl asks relies
      · exact asks_step rfl rfl asks trivial
  | dealloc pc =>
      refine dealloc_leads (t := .process n) (fun pc => ⟨pid, .dealloc pc⟩) ⟨pid, .lowering⟩
        (fun pc' sh' same follows => ?_) fun follows => ?_
      · exact ⟨rfl, trivial, same_passes same, follows⟩
      · exact ⟨rfl, trivial, passes_refl .., follows⟩
  | lowering =>
      intro after reached done
      cases done
      exact asks_step rfl rfl (running false) trivial
  | gone => trivial

end Statements

/-- What one step of the PRM does: the command it serves is not lost to who waits for it. -/
structure PrmStep (sh : Shared) (place place' : PrmPc) (sh' : Shared) : Prop where
  passes : Passes sh.control place.command sh'.control place'.command
  processes : SameProcesses sh.control sh'.control

section Prm
variable {sh sh' : Shared} {place place' : PrmPc}

theorem prm_quiet (quiet : sh'.control = sh.control) (command : place'.command = place.command) :
    PrmStep sh place place' sh' := by
  have asks : Asks place.command sh.control sh'.control := asks_quiet quiet
  refine ⟨?_, asks.processes⟩
  rw [command]
  exact asks.passes

theorem map_page_leads {t : Thread} {post : Place t → Shared → Prop} {mapped full : Place t}
    {addr : VirtAddr} {again : Bool} (left : ∀ mmu, post mapped (sh.onMmu mmu))
    (right : ∀ mmu, post full (sh.onMmu mmu)) : Leads sh post (mapPage addr again mapped full) := by
  have both : ∀ (errcode : Errcode) mmu,
      post (if errcode = .ecSuccess then mapped else full) (sh.onMmu mmu) := by
    intro errcode mmu
    split
    · exact left mmu
    · exact right mmu
  intro after reached done
  obtain ⟨⟨errcode, mmu⟩, -, made⟩ := bind_eq_ok.mp done
  dsimp only at made
  split at made
  · obtain ⟨-, -, made⟩ := bind_eq_ok.mp made
    cases made
    exact both errcode mmu
  · cases made
    exact both errcode mmu

theorem service_leads {t : Thread} {post : Place t → Shared → Prop} {addr : VirtAddr}
    (here : ServicePc → Place t) (next : Place t)
    (inside : ∀ pc sh', sh'.control = sh.control → post (here pc) sh')
    (ends : post next sh) (pc : ServicePc) : Leads sh post (serviceCode addr here next pc) := by
  cases pc with
  | acquiring => exact inside .mapping sh rfl
  | mapping =>
      exact map_page_leads (fun mmu => inside (.loading .want) _ rfl) fun mmu => inside .choosing _ rfl
  -- The search writes the replacement thread's own statics and no control data.
  | choosing =>
      intro after reached done
      obtain ⟨⟨victim, prm, mmu⟩, -, made⟩ := bind_eq_ok.mp done
      cases made
      exact inside (.testing victim) _ rfl
  | testing victim =>
      rw [serviceCode]
      exact test_mmu_leads (inside (.syncing victim .want) sh rfl) (inside (.unmapping victim) sh rfl)
  | syncing victim phase =>
      exact section_leads (fun phase sh' => inside (.syncing victim phase) sh')
        (fun sh' => inside (.unmapping victim) sh') phase
  | unmapping victim => exact on_mmu_leads fun mmu => inside .remapping _ rfl
  | remapping =>
      exact map_page_leads (fun mmu => inside (.loading .want) _ rfl) fun mmu => inside .choosing _ rfl
  | loading phase =>
      exact section_leads (fun phase sh' => inside (.loading phase) sh')
        (fun sh' => inside .releasing sh') phase
  | releasing => exact ends

theorem prm_leads (place : PrmPc) : Leads (t := Thread.prm) sh (PrmStep sh place) (prmCode place) := by
  cases place with
  | locking => exact prm_quiet rfl rfl
  | waiting => exact prm_quiet rfl rfl
  | popping =>
      intro after reached done
      dsimp only at done
      split at done
      · rename_i queue
        cases done
        exact ⟨pop_passes queue, same_processes rfl rfl rfl⟩
      · cases done
  | unlocking cmd => exact prm_quiet rfl rfl
  | fetching cmd =>
      intro after reached done
      cases done
      exact prm_quiet rfl rfl
  | serving cmd addr pc =>
      refine service_leads (t := .prm) (fun pc => .serving cmd addr pc) (.reporting cmd .want)
        (fun pc sh' same => ?_) ?_ pc
      · exact prm_quiet same rfl
      · exact prm_quiet rfl rfl
  | reporting cmd phase =>
      cases phase with
      | want => exact prm_quiet rfl rfl
      | inside =>
          intro after reached done
          cases done
          exact ⟨report_passes cmd, same_processes rfl rfl rfl⟩
      | leave => exact prm_quiet rfl rfl
  | signalling cmd => exact prm_quiet rfl rfl

end Prm

theorem daemon_leads (sh : Shared) (serving : Option Nat) (place : DaemonPc) :
    Leads (t := Thread.daemon) sh (fun _ sh' => Asks serving sh.control sh'.control)
      (daemonCode place) := by
  have still : Asks serving sh.control sh.control := asks_quiet rfl
  cases place with
  | aging =>
      rw [daemonCode]
      exact on_mmu_leads fun _ => still
  | reporting =>
      intro after reached done
      cases done
      refine ⟨?_, same_processes rfl rfl rfl⟩
      exact ⟨Nat.le_refl _, fun _ _ => id, fun _ => .inl rfl⟩
  | _ => exact still

end VmSim.ThreadCode
