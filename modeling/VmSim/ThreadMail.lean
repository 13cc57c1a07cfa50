import VmSim.ThreadRequests

/-!
The mailboxes in every run: a process finds its mailbox until it destroys it, and
mail in it when it takes one out, a process that deletes itself has been marked
before it looks, and the UI finds either the mark or the mailbox. What the users
mail is a parameter: whatever they keep to, the accesses of every process keep to.
-/

namespace VmSim.ThreadCode
open LockedThreads Interleaving PageTable MemoryUnit PagingRuns

/-! Where the mailbox of a process is still there, and where its jobs are. -/

def DeallocPc.Open : DeallocPc → Prop
  | .locking => True
  | .checking => True
  | .emptying .want => True
  | .emptying .inside => True
  | _ => False

def WorkerPc.Open : WorkerPc → Prop
  | .dealloc pc => pc.Open
  | .lowering => False
  | .gone => False
  | _ => True

section Fitting
variable (Fit : Nat → Access → Prop)

def Mail.Fits (pid : Nat) : Mail → Prop
  | .job accesses => ∀ a ∈ accesses, Fit pid a
  | .del => True

def WorkerPc.Fits (pid : Nat) : WorkerPc → Prop
  | .unlocking mail => mail.Fits Fit pid
  | .working rest => ∀ a ∈ rest, Fit pid a
  | .access a rest _ => Fit pid a ∧ ∀ a ∈ rest, Fit pid a
  | _ => True

def Slot.Fits (slot : Slot) (pid : Nat) : Prop :=
  ∀ mails, slot.mailBox = some mails → ∀ mail ∈ mails, mail.Fits Fit pid

def UiPc.Marks (pid : Nat) : UiPc → Prop
  | .composing recipient .del .signalling => recipient = pid
  | .composing recipient .del .unlocking => recipient = pid
  | .marking recipient => recipient = pid
  | _ => False

def ComposePc.Finds (procs : Nat → ProcessPc) (c : Control) (pid : Nat) : ComposePc → Prop
  | .testing => Alive procs pid ∨ (c.slot pid).junk = true
  | .locking => (c.slot pid).del = true ∨ (c.slot pid).mailBox ≠ none
  | .pushing => (c.slot pid).del = true ∨ (c.slot pid).mailBox ≠ none
  | _ => True

def UiPc.Finds (procs : Nat → ProcessPc) (c : Control) : UiPc → Prop
  | .composing pid mail pc => pid < c.maxNumOfProc ∧ mail.Fits Fit pid ∧ pc.Finds procs c pid
  | .creating _ (.unlocking i) => (c.slot i).mailBox = some []
  | .creating _ (.spawning i) => (c.slot i).mailBox = some []
  | _ => True

structure Mailed (procs : Nat → ProcessPc) (ui : UiPc) (c : Control) : Prop where
  boxes : ∀ n, (procs n).pc.Open → (c.slot (procs n).pid).mailBox ≠ none
  popping : ∀ n, (procs n).pc = .popping → (c.slot (procs n).pid).HasMail
  marked : ∀ n, (procs n).stage.Live → (c.slot (procs n).pid).Doomed (procs n).stage →
    (c.slot (procs n).pid).del = true ∨ ui.Marks (procs n).pid
  jobs : ∀ n, (procs n).pc.Fits Fit (procs n).pid
  mails : ∀ i, (c.slot i).Fits Fit i
  finds : ui.Finds Fit procs c

/-- The UI deletes processes that have been started, and gives them jobs that fit. -/
def Obedient (s : Threads) : Event Thread Place → Prop
  | .picks .ui (.destroying pid) => Started s pid
  | .picks .ui (.composing pid mail .testing) => Started s pid ∧ mail.Fits Fit pid
  | _ => True

/-- Runs of the program by users who give jobs of this kind. -/
abbrev tended : Program Threads (Event Thread Place) := (program code).only (Obedient Fit)

end Fitting

section Mails
variable {Fit : Nat → Access → Prop} {procs : Nat → ProcessPc} {ui ui' : UiPc} {c c' : Control}
variable {sh sh' : Shared} {n pid : Nat} {place : ProcessPc}

theorem open_live (pc : WorkerPc) (opens : pc.Open) : (ProcessPc.stage ⟨pid, pc⟩).Live := by
  cases pc with
  | unlocking mail => cases mail <;> trivial
  | dealloc pc =>
      cases pc with
      | emptying phase => trivial
      | _ => trivial
  | lowering => exact opens.elim
  | gone => exact opens.elim
  | _ => trivial

theorem closed_doomed {slot : Slot} (live : place.stage.Live) (closed : ¬ place.pc.Open) :
    slot.Doomed place.stage := by
  obtain ⟨pid, pc⟩ := place
  cases pc with
  | dealloc pc =>
      cases pc with
      | signalling => exact live.elim
      | unlocking => exact live.elim
      | _ => exact .inl rfl
  | unlocking mail => cases mail <;> exact absurd trivial closed
  | lowering => exact live.elim
  | gone => exact live.elim
  | _ => exact absurd trivial closed

theorem same_mail_fits {slot slot' : Slot} (same : SameMail slot slot') (fits : slot.Fits Fit pid) :
    slot'.Fits Fit pid := by
  intro mails box
  rw [same.mailBox] at box
  exact fits mails box

theorem finds_same {procs' : Nat → ProcessPc} (same : SameProcesses c c')
    (alive : ∀ pid, Alive procs pid → Alive procs' pid ∨ (c.slot pid).junk = true)
    (finds : ui.Finds Fit procs c) : ui.Finds Fit procs' c' := by
  have slots := same.slots
  cases ui with
  | creating past pc =>
      cases pc with
      | unlocking i => exact (slots i).mailBox.trans finds
      | spawning i => exact (slots i).mailBox.trans finds
      | _ => trivial
  | composing pid mail pc =>
      obtain ⟨inside, fits, there⟩ := finds
      refine ⟨by rwa [same.size], fits, ?_⟩
      cases pc with
      | testing =>
          simp only [ComposePc.Finds, (slots pid).junk]
          rcases there with live | junk
          · exact alive pid live
          · exact .inr junk
      | locking => simpa only [ComposePc.Finds, (slots pid).del, (slots pid).mailBox] using there
      | pushing => simpa only [ComposePc.Finds, (slots pid).del, (slots pid).mailBox] using there
      | _ => trivial
  | _ => trivial

theorem mailed_same (mailed : Mailed Fit procs ui c) (same : SameProcesses c c') :
    Mailed Fit procs ui c' where
  boxes n opens := by
    rw [(same.slots _).mailBox]
    exact mailed.boxes n opens
  popping n pops := (same_mail_has (same.slots _)).mpr (mailed.popping n pops)
  marked n live doomed := by
    rw [(same.slots _).del]
    exact mailed.marked n live ((same_mail_doomed (same.slots _)).mp doomed)
  jobs := mailed.jobs
  mails i := same_mail_fits (same.slots i) (mailed.mails i)
  finds := finds_same same (fun _ live => .inl live) mailed.finds

/-! The steps of a process. -/

section Process
variable {place' : ProcessPc} {slot : Slot}

theorem mailed_goes (mailed : Mailed Fit procs ui c) (own : place'.pid = (procs n).pid)
    (same : SameProcesses c c') (opens : place'.pc.Open → (procs n).pc.Open)
    (pops : place'.pc = .popping → (c.slot (procs n).pid).HasMail)
    (stage : place'.stage = (procs n).stage ∨
      ¬ place'.stage.Live ∧ ((procs n).stage.Live → (c.slot (procs n).pid).junk = true))
    (fits : place'.pc.Fits Fit (procs n).pid) : Mailed Fit (Function.update procs n place') ui c' := by
  have new : Function.update procs n place' n = place' := Function.update_self ..
  have old : ∀ m, m ≠ n → Function.update procs n place' m = procs m := fun m other =>
    Function.update_of_ne other ..
  refine mailed_same (c := c) ⟨fun m => ?_, fun m => ?_, fun m => ?_, fun m => ?_, mailed.mails, ?_⟩ same
  · by_cases mine : m = n
    · subst mine
      rw [new, own]
      exact fun there => mailed.boxes m (opens there)
    · rw [old m mine]
      exact mailed.boxes m
  · by_cases mine : m = n
    · subst mine
      rwa [new, own]
    · rw [old m mine]
      exact mailed.popping m
  · by_cases mine : m = n
    · subst mine
      rw [new, own]
      rcases stage with still | ⟨dead, -⟩
      · rw [still]
        exact mailed.marked m
      · exact fun live => absurd live dead
    · rw [old m mine]
      exact mailed.marked m
  · by_cases mine : m = n
    · subst mine
      rwa [new, own]
    · rw [old m mine]
      exact mailed.jobs m
  · refine finds_same (same_processes rfl rfl rfl) ?_ mailed.finds
    rintro pid ⟨m, there, live⟩
    by_cases mine : m = n
    · subst mine
      rcases stage with still | ⟨-, junk⟩
      · exact .inl ⟨m, by rw [new, own]; exact there, by rw [new, still]; exact live⟩
      · rw [← there]
        exact .inr (junk live)
    · exact .inl ⟨m, by rw [old m mine]; exact there, by rw [old m mine]; exact live⟩

theorem finds_own (finds : ui.Finds Fit procs sh.control) (live : (procs n).stage.Live)
    (vacant : ∀ past pc i, ui = .creating past pc → pc.slot = some i → ¬ Alive procs i)
    (own : place'.pid = (procs n).pid) (ends : place'.stage.Live ∨ slot.junk = true)
    (junk : (sh.control.slot (procs n).pid).junk = true → slot.junk = true)
    (box : ¬ ui.Marks (procs n).pid → slot.del = true ∨ slot.mailBox ≠ none) :
    ui.Finds Fit (Function.update procs n place') (sh.setSlot (procs n).pid slot).control := by
  cases ui with
  | creating past pc =>
      have apart : ∀ i, pc.slot = some i → i ≠ (procs n).pid := by
        rintro i there rfl
        exact vacant past pc _ rfl there ⟨n, rfl, live⟩
      cases pc with
      | unlocking i => exact (congrArg Slot.mailBox (set_slot_other (apart i rfl))).trans finds
      | spawning i => exact (congrArg Slot.mailBox (set_slot_other (apart i rfl))).trans finds
      | _ => trivial
  | composing pid mail pc =>
      obtain ⟨inside, fits, there⟩ := finds
      refine ⟨inside, fits, ?_⟩
      by_cases mine : pid = (procs n).pid
      · subst mine
        cases pc with
        | testing =>
            simp only [ComposePc.Finds, set_slot_self]
            rcases ends with still | gone
            · exact .inl ⟨n, by rw [Function.update_self, own], by rwa [Function.update_self]⟩
            · exact .inr gone
        | locking =>
            simp only [ComposePc.Finds, set_slot_self]
            exact box (by cases mail <;> exact id)
        | pushing =>
            simp only [ComposePc.Finds, set_slot_self]
            exact box (by cases mail <;> exact id)
        | _ => trivial
      · cases pc with
        | testing =>
            simp only [ComposePc.Finds, set_slot_other mine]
            refine there.imp_left ?_
            rintro ⟨m, at_pid, alive⟩
            have other : m ≠ n := by
              rintro rfl
              exact mine at_pid.symm
            exact ⟨m, by rw [Function.update_of_ne other]; exact at_pid,
              by rw [Function.update_of_ne other]; exact alive⟩
        | locking => simpa only [ComposePc.Finds, set_slot_other mine] using there
        | pushing => simpa only [ComposePc.Finds, set_slot_other mine] using there
        | _ => trivial
  | _ => trivial

/-- A live process changes its own slot, in which nobody else lives. -/
theorem mailed_own (place' : ProcessPc) (mailed : Mailed Fit procs ui sh.control)
    (residents : Residents procs sh.control)
    (live : (procs n).stage.Live) (own : place'.pid = (procs n).pid)
    (opens : place'.pc.Open → slot.mailBox ≠ none) (pops : place'.pc = .popping → slot.HasMail)
    (marks : place'.stage.Live → slot.Doomed place'.stage → slot.del = true ∨ ui.Marks (procs n).pid)
    (fits : place'.pc.Fits Fit (procs n).pid) (mails : slot.Fits Fit (procs n).pid)
    (finds : ui.Finds Fit (Function.update procs n place') (sh.setSlot (procs n).pid slot).control) :
    Mailed Fit (Function.update procs n place') ui (sh.setSlot (procs n).pid slot).control := by
  have new : Function.update procs n place' n = place' := Function.update_self ..
  have old : ∀ m, m ≠ n → Function.update procs n place' m = procs m := fun m other =>
    Function.update_of_ne other ..
  have apart : ∀ m, m ≠ n → (procs m).stage.Live → (procs m).pid ≠ (procs n).pid :=
    fun m other alive same => other (residents.alone m n alive live same)
  refine ⟨fun m => ?_, fun m => ?_, fun m => ?_, fun m => ?_, fun i => ?_, finds⟩
  · by_cases mine : m = n
    · subst mine
      rw [new, own, set_slot_self]
      exact opens
    · rw [old m mine]
      intro there
      rw [set_slot_other (apart m mine (open_live (procs m).pc there))]
      exact mailed.boxes m there
  · by_cases mine : m = n
    · subst mine
      rw [new, own, set_slot_self]
      exact pops
    · rw [old m mine]
      intro there
      have alive : (procs m).stage.Live := open_live (procs m).pc (by rw [there]; trivial)
      rw [set_slot_other (apart m mine alive)]
      exact mailed.popping m there
  · by_cases mine : m = n
    · subst mine
      rw [new, own, set_slot_self]
      exact marks
    · rw [old m mine]
      intro alive
      rw [set_slot_other (apart m mine alive)]
      exact mailed.marked m alive
  · by_cases mine : m = n
    · subst mine
      rw [new, own]
      exact fits
    · rw [old m mine]
      exact mailed.jobs m
  · by_cases mine : i = (procs n).pid
    · rw [mine, set_slot_self]
      exact mails
    · rw [set_slot_other mine]
      exact mailed.mails i

end Process

/-! The steps of each thread. -/

abbrev StillMailed (Fit : Nat → Access → Prop) (procs : Nat → ProcessPc) (ui : UiPc) (n : Nat)
    (place' : ProcessPc) (sh' : Shared) : Prop :=
  Mailed Fit (Function.update procs n place') ui sh'.control

section Statements
variable {serving : Option Nat}

theorem dealloc_still (mailed : Mailed Fit procs ui sh.control) {pc : DeallocPc}
    (place : procs n = ⟨pid, .dealloc pc⟩) (pc' : DeallocPc) (sh' : Shared) (same : sh'.control = sh.control)
    (opens : pc'.Open → pc.Open) (stage : pc'.stage = pc.stage) :
    StillMailed Fit procs ui n ⟨pid, .dealloc pc'⟩ sh' := by
  have here : (procs n).pid = pid := by rw [place]
  refine mailed_goes mailed here.symm (same_processes (by rw [same]) (by rw [same]) (by rw [same]))
    ?_ (fun pops => by cases pops) (.inl ?_) trivial
  · rw [place]
    exact opens
  · rw [place]
    exact stage

theorem dealloc_ends (mailed : Mailed Fit procs ui sh.control) {pc : DeallocPc}
    (place : procs n = ⟨pid, .dealloc pc⟩) (past : ¬ pc.stage.Live) {place' : ProcessPc} (own : place'.pid = pid)
    (closed : ¬ place'.pc.Open) (apart : place'.pc ≠ .popping) (dead : ¬ place'.stage.Live)
    (fits : place'.pc.Fits Fit pid) : StillMailed Fit procs ui n place' sh := by
  have here : (procs n).pid = pid := by rw [place]
  refine mailed_goes mailed (own.trans here.symm) (same_processes rfl rfl rfl)
    (fun opens => absurd opens closed) (fun pops => absurd pops apart) (.inr ⟨dead, fun live => ?_⟩)
    (by rwa [here])
  rw [place] at live
  exact absurd live past

/-- A process that deletes itself has been marked, unless the UI is about to. -/
theorem deletion_marked (mailed : Mailed Fit procs ui sh.control) {pc : DeallocPc}
    (place : procs n = ⟨pid, .dealloc pc⟩) (deleting : pc.stage = .deleting) (unmarked : ¬ ui.Marks pid) :
    (sh.control.slot pid).del = true := by
  have doomed := mailed.marked n
  rw [place] at doomed
  have stage : ProcessPc.stage ⟨pid, .dealloc pc⟩ = .deleting := deleting
  have live : (ProcessPc.stage ⟨pid, .dealloc pc⟩).Live := by
    rw [stage]
    trivial
  exact (doomed live (.inl deleting)).resolve_right unmarked

/-- The mailbox goes: whoever looks for it finds the mark. -/
theorem emptying_mail (mailed : Mailed Fit procs ui sh.control) (residents : Residents procs sh.control)
    (vacant : ∀ past pc i, ui = .creating past pc → pc.slot = some i → ¬ Alive procs i)
    (place : procs n = ⟨pid, .dealloc (.emptying .inside)⟩) :
    StillMailed Fit procs ui n ⟨pid, .dealloc (.emptying .leave)⟩
      (sh.setSlot pid { sh.control.slot pid with mailBox := none }) := by
  have here : (procs n).pid = pid := by rw [place]
  have marked := deletion_marked mailed place rfl
  have live : (procs n).stage.Live := by
    rw [place]
    trivial
  have finds : ui.Finds Fit (Function.update procs n ⟨pid, .dealloc (.emptying .leave)⟩)
      (sh.setSlot (procs n).pid { sh.control.slot pid with mailBox := none }).control := by
    refine finds_own mailed.finds live vacant here.symm (.inl trivial) ?_ ?_
    · rw [here]
      exact id
    · rw [here]
      exact fun unmarked => .inl (marked unmarked)
  have own := mailed_own ⟨pid, .dealloc (.emptying .leave)⟩ mailed residents live
    here.symm False.elim (fun pops => by cases pops) ?_ trivial ?_ finds
  · rwa [here] at own
  · intro _ _
    rw [here]
    by_cases marks : ui.Marks pid
    · exact .inr marks
    · exact .inl (marked marks)
  · rintro mails box
    cases box

theorem marking_mail (mailed : Mailed Fit procs ui sh.control) (residents : Residents procs sh.control)
    (vacant : ∀ past pc i, ui = .creating past pc → pc.slot = some i → ¬ Alive procs i)
    (place : procs n = ⟨pid, .dealloc .marking⟩) :
    StillMailed Fit procs ui n ⟨pid, .dealloc .signalling⟩
      (sh.setSlot pid { sh.control.slot pid with junk := true }) := by
  have here : (procs n).pid = pid := by rw [place]
  have live : (procs n).stage.Live := by
    rw [place]
    trivial
  have finds : ui.Finds Fit (Function.update procs n ⟨pid, .dealloc .signalling⟩)
      (sh.setSlot (procs n).pid { sh.control.slot pid with junk := true }).control := by
    refine finds_own mailed.finds live vacant here.symm (.inr rfl) (fun _ => rfl) ?_
    rw [here]
    exact fun unmarked => .inl (deletion_marked mailed place rfl unmarked)
  have own := mailed_own ⟨pid, .dealloc .signalling⟩ mailed residents live here.symm
    False.elim (fun pops => by cases pops) False.elim trivial ?_ finds
  · rwa [here] at own
  · rw [here]
    exact mailed.mails pid

theorem dealloc_mail (mailed : Mailed Fit procs ui sh.control) (residents : Residents procs sh.control)
    (vacant : ∀ past pc i, ui = .creating past pc → pc.slot = some i → ¬ Alive procs i)
    {pc : DeallocPc} (place : procs n = ⟨pid, .dealloc pc⟩) :
    (deallocCode (t := .process n) pid (fun pc => (⟨pid, .dealloc pc⟩ : ProcessPc))
      (⟨pid, .lowering⟩ : ProcessPc) pc).Yields sh (StillMailed Fit procs ui n) := by
  have still := dealloc_still mailed place
  cases pc with
  | locking => exact still .checking sh rfl (fun _ => trivial) rfl
  | checking =>
      intro after reached done
      simp only [bind_eq_ok] at done
      obtain ⟨-, -, -, -, made⟩ := done
      cases made
      exact still (.emptying .want) sh rfl (fun _ => trivial) rfl
  | emptying phase =>
      cases phase with
      | want => exact still (.emptying .inside) sh rfl (fun _ => trivial) rfl
      | inside =>
          intro after reached done
          dsimp only at done
          split at done
          · cases done
          · cases done
            exact emptying_mail mailed residents vacant place
      | leave => exact still (.freeing 0) sh rfl id rfl
  | freeing page =>
      intro after reached done
      cases done
      refine still _ sh rfl ?_ ?_
      · split <;> exact id
      · split <;> rfl
  | freeingPage page phase =>
      rw [deallocCode]
      exact leads_yields (section_leads
        (fun phase sh' same => still (.freeingPage page phase) sh' same id rfl)
        (fun sh' same => still (.freeing (page + 1)) sh' same id rfl) phase)
  | freeingBlock phase =>
      cases phase with
      | want => exact still (.freeingBlock .inside) sh rfl id rfl
      | inside =>
          intro after reached done
          obtain ⟨disk, -, made⟩ := bind_eq_ok.mp done
          cases made
          exact still (.freeingBlock .leave) _ rfl id rfl
      | leave => exact still .marking sh rfl id rfl
  | marking =>
      intro after reached done
      cases done
      exact marking_mail mailed residents vacant place
  | signalling => exact dealloc_ends mailed place id rfl id (fun same => by cases same) id trivial
  | unlocking => exact dealloc_ends mailed place id rfl id (fun same => by cases same) id trivial

theorem worker_still (mailed : Mailed Fit procs ui sh.control) {pc : WorkerPc} (place : procs n = ⟨pid, pc⟩)
    (pc' : WorkerPc) (sh' : Shared) (same : SameProcesses sh.control sh'.control) (opens : pc'.Open → pc.Open)
    (pops : pc' = .popping → (sh.control.slot pid).HasMail)
    (stage : ProcessPc.stage ⟨pid, pc'⟩ = ProcessPc.stage ⟨pid, pc⟩) (fits : pc'.Fits Fit pid) :
    StillMailed Fit procs ui n ⟨pid, pc'⟩ sh' := by
  have here : (procs n).pid = pid := by rw [place]
  refine mailed_goes mailed here.symm same ?_ ?_ (.inl ?_) ?_
  · rw [place]
    exact opens
  · rwa [here]
  · rw [place]
    exact stage
  · rwa [here]

/-- What is left in the box, or has been taken out of it, was there before. -/
theorem popping_mail (mailed : Mailed Fit procs ui sh.control) (residents : Residents procs sh.control)
    (vacant : ∀ past pc i, ui = .creating past pc → pc.slot = some i → ¬ Alive procs i)
    (place : procs n = ⟨pid, .popping⟩) {mail : Mail} {rest : List Mail}
    (box : (sh.control.slot pid).mailBox = some (mail :: rest)) :
    StillMailed Fit procs ui n ⟨pid, .unlocking mail⟩
      (sh.setSlot pid { sh.control.slot pid with mailBox := some rest }) := by
  have here : (procs n).pid = pid := by rw [place]
  have live : (procs n).stage.Live := by
    rw [place]
    trivial
  have stage : (ProcessPc.stage ⟨pid, .unlocking mail⟩).Live := by cases mail <;> trivial
  have finds : ui.Finds Fit (Function.update procs n ⟨pid, .unlocking mail⟩)
      (sh.setSlot (procs n).pid { sh.control.slot pid with mailBox := some rest }).control := by
    refine finds_own mailed.finds live vacant here.symm (.inl stage) ?_ fun _ => .inr (by simp)
    rw [here]
    exact id
  have letters := mailed.mails pid _ box
  have own := mailed_own ⟨pid, .unlocking mail⟩ mailed residents live here.symm
    (fun _ => by simp) (fun pops => by cases pops) (fun _ doomed => ?_) ?_ ?_ finds
  · rwa [here] at own
  · have marked := mailed.marked n live
    rw [place] at marked
    rw [here]
    refine marked (.inr ⟨rfl, _, box, ?_⟩)
    cases mail with
    | del => exact List.mem_cons_self
    | job accesses =>
        rcases doomed with deleting | ⟨-, mails, same, member⟩
        · cases deleting
        · cases same
          exact List.mem_cons_of_mem _ member
  · rw [here]
    exact letters mail List.mem_cons_self
  · rw [here]
    intro mails same other member
    cases same
    exact letters other (List.mem_cons_of_mem _ member)

theorem process_mail (mailed : Mailed Fit procs ui sh.control) (residents : Residents procs sh.control)
    (vacant : ∀ past pc i, ui = .creating past pc → pc.slot = some i → ¬ Alive procs i)
    (relies : (procs n).Relies sh.control serving) :
    (processCode n (procs n)).Yields sh (StillMailed Fit procs ui n) := by
  cases place : procs n with
  | mk pid pc =>
      have still := worker_still mailed place
      have same : SameProcesses sh.control sh.control := same_processes rfl rfl rfl
      have fits := mailed.jobs n
      rw [place] at fits relies
      cases pc with
      | raising =>
          intro after reached done
          cases done
          exact still .locking _ (set_slot_same ⟨rfl, rfl, rfl⟩) (fun _ => trivial)
            (fun pops => by cases pops) rfl trivial
      | locking => exact still .waiting sh same (fun _ => trivial) (fun pops => by cases pops) rfl trivial
      | waiting =>
          intro ready
          exact still .popping sh same (fun _ => trivial) (fun _ => has_mail.mp ready) rfl trivial
      | popping =>
          intro after reached done
          dsimp only at done
          split at done
          · rename_i mail rest box
            cases done
            exact popping_mail mailed residents vacant place box
          · cases done
      | unlocking mail =>
          cases mail with
          | job accesses =>
              exact still (.working accesses) sh same (fun _ => trivial) (fun pops => by cases pops) rfl fits
          | del =>
              exact still (.dealloc .locking) sh same (fun _ => trivial) (fun pops => by cases pops) rfl
                trivial
      | working rest =>
          cases rest with
          | nil =>
              intro after reached done
              cases done
              exact still .locking sh same (fun _ => trivial) (fun pops => by cases pops) rfl trivial
          | cons a rest =>
              intro after reached done
              cases done
              exact still (.access a rest .checking) sh same (fun _ => trivial) (fun pops => by cases pops)
                rfl ⟨fits a List.mem_cons_self, fun other member =>
                  fits other (List.mem_cons_of_mem _ member)⟩
      | access a rest pc =>
          rw [processCode]
          refine leads_yields (access_leads (t := .process n)
            (fun pc => (⟨pid, .access a rest pc⟩ : ProcessPc)) (⟨pid, .working rest⟩ : ProcessPc)
            (fun pc' sh' asks _ => ?_) (fun sh' asks => ?_) relies)
          · exact still (.access a rest pc') sh' asks.processes (fun _ => trivial)
              (fun pops => by cases pops) rfl fits
          · exact still (.working rest) sh' asks.processes (fun _ => trivial)
              (fun pops => by cases pops) rfl fits.2
      | dealloc pc =>
          rw [processCode]
          exact dealloc_mail mailed residents vacant place
      | lowering =>
          intro after reached done
          cases done
          exact still .gone _ (set_slot_same ⟨rfl, rfl, rfl⟩) id (fun pops => by cases pops) rfl trivial
      | gone => trivial

/-! The UI. -/

theorem mailed_ui (mailed : Mailed Fit procs ui c) (marks : ∀ pid, ui.Marks pid → ui'.Marks pid)
    (finds : ui'.Finds Fit procs c) : Mailed Fit procs ui' c :=
  ⟨mailed.boxes, mailed.popping, fun n live doomed => (mailed.marked n live doomed).imp_right (marks _),
    mailed.jobs, mailed.mails, finds⟩

theorem mailed_slot (mailed : Mailed Fit procs ui sh.control) {i : Nat} {slot : Slot}
    (boxes : ∀ n, (procs n).pid = i → (procs n).pc.Open → slot.mailBox ≠ none)
    (popping : ∀ n, (procs n).pid = i → (procs n).pc = .popping → slot.HasMail)
    (marked : ∀ n, (procs n).pid = i → (procs n).stage.Live → slot.Doomed (procs n).stage →
      slot.del = true ∨ ui'.Marks i)
    (others : ∀ pid, pid ≠ i → ui.Marks pid → ui'.Marks pid) (mails : slot.Fits Fit i)
    (finds : ui'.Finds Fit procs (sh.setSlot i slot).control) :
    Mailed Fit procs ui' (sh.setSlot i slot).control := by
  refine ⟨fun n opens => ?_, fun n pops => ?_, fun n live => ?_, mailed.jobs, fun j => ?_, finds⟩
  · by_cases mine : (procs n).pid = i
    · rw [mine, set_slot_self]
      exact boxes n mine opens
    · rw [set_slot_other mine]
      exact mailed.boxes n opens
  · by_cases mine : (procs n).pid = i
    · rw [mine, set_slot_self]
      exact popping n mine pops
    · rw [set_slot_other mine]
      exact mailed.popping n pops
  · by_cases mine : (procs n).pid = i
    · rw [mine, set_slot_self]
      exact marked n mine live
    · rw [set_slot_other mine]
      exact fun doomed => (mailed.marked n live doomed).imp_right (others _ mine)
  · by_cases mine : j = i
    · rw [mine, set_slot_self]
      exact mails
    · rw [set_slot_other mine]
      exact mailed.mails j

theorem mailed_vacant (mailed : Mailed Fit procs ui sh.control) {i : Nat} {slot : Slot}
    (empty : ¬ Alive procs i) (marks : ∀ pid, ui.Marks pid → ui'.Marks pid) (mails : slot.Fits Fit i)
    (finds : ui'.Finds Fit procs (sh.setSlot i slot).control) :
    Mailed Fit procs ui' (sh.setSlot i slot).control := by
  refine mailed_slot mailed (fun n here opens => ?_) (fun n here pops => ?_) (fun n here live => ?_)
    (fun pid _ => marks pid) mails finds
  · exact absurd ⟨n, here, open_live (procs n).pc opens⟩ empty
  · exact absurd ⟨n, here, open_live (procs n).pc (by rw [pops]; trivial)⟩ empty
  · exact absurd ⟨n, here, live⟩ empty

abbrev MailedUi (Fit : Nat → Access → Prop) (procs : Nat → ProcessPc) (ui' : UiPc) (sh' : Shared) :
    Prop := Mailed Fit procs ui' sh'.control

theorem create_mail {past : Nat → PackedBitmap.Block} {pc : CreatePc}
    (mailed : Mailed Fit procs (.creating past pc) sh.control) (residents : Residents procs sh.control)
    (vacant : ∀ i, pc.slot = some i → Vacant procs sh.control i) (waits : ∀ i, pc ≠ .spawning i) :
    (createCode past pc).Yields sh (MailedUi Fit procs) := by
  have still : ∀ (ui' : UiPc) (sh' : Shared), sh'.control = sh.control →
      ui'.Finds Fit procs sh.control → MailedUi Fit procs ui' sh' := by
    intro ui' sh' same finds
    rw [MailedUi, same]
    exact mailed_ui mailed (fun _ => False.elim) finds
  cases pc with
  | locking => exact still (.creating past .selecting) sh rfl trivial
  | selecting =>
      intro after reached done
      dsimp only at done
      split at done
      · cases done
        exact still .returning sh rfl trivial
      · rename_i i found
        cases done
        have junk : (sh.control.slot i).junk = true := by simpa using List.find?_some found
        have empty : ¬ Alive procs i := by
          rintro ⟨n, own, live⟩
          have used := residents.junk n live
          rw [own, junk] at used
          cases used
        refine mailed_vacant mailed empty (fun _ => False.elim) ?_ trivial
        intro mails box
        cases box
  | allocating i page phase =>
      cases phase with
      | want => exact still (.creating past (.allocating i page .inside)) sh rfl trivial
      | inside =>
          intro after reached done
          obtain ⟨⟨page, disk⟩, -, made⟩ := bind_eq_ok.mp done
          cases made
          exact still (.creating past (.allocating i page .leave)) _ rfl trivial
      | leave =>
          cases page with
          | none => exact still (.creating past (.refusing i)) sh rfl trivial
          | some page => exact still (.creating past (.mapping i page 0)) sh rfl trivial
  | mapping i page k =>
      intro after reached done
      cases done
      refine still _ sh rfl ?_
      split <;> trivial
  | mappingPage i page k phase =>
      rw [createCode]
      exact leads_yields (section_leads (t := .ui)
        (fun phase sh' same => still (.creating past (.mappingPage i page k phase)) sh' same trivial)
        (fun sh' same => still (.creating past (.mapping i page (k + 1))) sh' same trivial) phase)
  | filling i page =>
      intro after reached done
      cases done
      refine mailed_vacant mailed (vacant i rfl).empty (fun _ => False.elim) ?_ ?_
      · intro mails box
        cases box
        exact fun mail member => by cases member
      · exact congrArg Slot.mailBox set_slot_self
  | unlocking i => exact still (.creating past (.spawning i)) sh rfl mailed.finds
  | spawning i => exact absurd rfl (waits i)
  | spinning i => exact fun _ => still .idle sh rfl trivial
  | refusing i => exact still (.creating past (.freeing i)) sh rfl trivial
  | freeing i =>
      intro after reached done
      cases done

/-- The process is alive, and if its mailbox is gone it has been marked before. -/
theorem testing_mail {mail : Mail} (mailed : Mailed Fit procs (.composing pid mail .testing) sh.control) :
    (composeCode pid mail .testing).Yields sh (MailedUi Fit procs) := by
  obtain ⟨inside, fits, there⟩ := mailed.finds
  have after_finds : (mail.after pid).Finds Fit procs sh.control := by cases mail <;> trivial
  intro after reached done
  dsimp only at done
  have unmarked : ∀ other, ¬ (UiPc.composing pid mail .testing).Marks other := by
    intro other
    cases mail <;> exact id
  split at done
  · cases done
    exact mailed_ui mailed (fun other marks => absurd marks (unmarked other)) after_finds
  · split at done
    · cases done
    · split at done
      · cases done
        exact mailed_ui mailed (fun other marks => absurd marks (unmarked other)) after_finds
      · rename_i used
        cases done
        refine mailed_ui mailed (fun other marks => absurd marks (unmarked other))
          ⟨inside, fits, ?_⟩
        obtain ⟨n, own, live⟩ := there.resolve_right used
        by_cases opens : (procs n).pc.Open
        · rw [← own]
          exact .inr (mailed.boxes n opens)
        · have marked := mailed.marked n live (closed_doomed live opens)
          rw [own] at marked
          exact .inl (marked.resolve_right (unmarked pid))

theorem pushing_mail {mail : Mail} (mailed : Mailed Fit procs (.composing pid mail .pushing) sh.control) :
    (composeCode pid mail .pushing).Yields sh (MailedUi Fit procs) := by
  obtain ⟨inside, fits, -⟩ := mailed.finds
  have unmarked : ∀ other, ¬ (UiPc.composing pid mail .pushing).Marks other := by
    intro other
    cases mail <;> exact id
  intro after reached done
  dsimp only at done
  split at done
  · cases done
    exact mailed_ui mailed (fun other marks => absurd marks (unmarked other))
      ⟨inside, fits, trivial⟩
  · rename_i flag
    split at done
    · cases done
    · rename_i mails box
      cases done
      refine mailed_slot mailed (fun n _ _ => by simp) (fun n here pops => ?_)
        (fun n here live doomed => ?_) (fun other _ marks => absurd marks (unmarked other)) ?_
        ⟨inside, fits, trivial⟩
      · obtain ⟨first, rest, same⟩ := mailed.popping n pops
        rw [here, box] at same
        cases same
        exact ⟨first, rest ++ [mail], rfl⟩
      · cases mail with
        | del => exact .inr rfl
        | job accesses =>
            have before : (sh.control.slot pid).Doomed (procs n).stage := by
              rcases doomed with deleting | ⟨serving, all, same, member⟩
              · exact .inl deleting
              · cases same
                exact .inr ⟨serving, mails, box, by simpa using member⟩
            rw [← here] at before flag
            exact absurd ((mailed.marked n live before).resolve_right (unmarked _)) flag
      · intro all same other member
        cases same
        rcases List.mem_append.mp member with earlier | last
        · exact mailed.mails pid mails box other earlier
        · rw [List.mem_singleton] at last
          rw [last]
          exact fits

theorem compose_mail {mail : Mail} {pc : ComposePc}
    (mailed : Mailed Fit procs (.composing pid mail pc) sh.control) :
    (composeCode pid mail pc).Yields sh (MailedUi Fit procs) := by
  obtain ⟨inside, fits, there⟩ := mailed.finds
  have after_finds : (mail.after pid).Finds Fit procs sh.control := by cases mail <;> trivial
  cases pc with
  | testing => exact testing_mail mailed
  | locking =>
      change Mailed Fit procs (.composing pid mail .pushing) sh.control
      refine mailed_ui mailed ?_ ⟨inside, fits, there⟩
      intro other
      cases mail <;> exact id
  | pushing => exact pushing_mail mailed
  | signalling =>
      change Mailed Fit procs (.composing pid mail .unlocking) sh.control
      refine mailed_ui mailed ?_ ⟨inside, fits, trivial⟩
      intro other
      cases mail <;> exact id
  | unlocking =>
      change Mailed Fit procs (mail.after pid) sh.control
      refine mailed_ui mailed ?_ after_finds
      intro other
      cases mail <;> exact id

theorem ui_mail (mailed : Mailed Fit procs ui sh.control) (residents : Residents procs sh.control)
    (fits : (∀ pid, ui ≠ .waiting pid) → ui.Fits procs sh.control) (chosen : ui ≠ .idle)
    (waits : ∀ past i, ui ≠ .creating past (.spawning i)) :
    (uiCode ui).Yields sh (MailedUi Fit procs) := by
  have still : ∀ ui' : UiPc, (∀ pid, ui.Marks pid → ui'.Marks pid) → ui'.Finds Fit procs sh.control →
      MailedUi Fit procs ui' sh := fun ui' => mailed_ui mailed
  cases ui with
  | idle => exact absurd rfl chosen
  | creating past pc =>
      exact create_mail mailed residents (fits (by simp)) fun i same => waits past i (by rw [same])
  | destroying pid => exact still (.testing pid) (fun _ => False.elim) trivial
  | testing pid =>
      intro after reached done
      cases done
      refine still _ (fun _ => False.elim) ?_
      split
      · trivial
      · rename_i stays
        rw [not_or] at stays
        exact ⟨Nat.lt_of_not_le stays.1, trivial, .inl ((fits (by simp)).resolve_right stays.2)⟩
  | composing pid mail pc => exact compose_mail mailed
  | marking pid =>
      intro after reached done
      cases done
      refine mailed_slot mailed (fun n here opens => ?_) (fun n here pops => ?_) (fun _ _ _ _ => .inl rfl)
        (fun other apart marks => absurd marks.symm apart) ?_ trivial
      · rw [← here]
        exact mailed.boxes n opens
      · rw [← here]
        exact mailed.popping n pops
      · exact mailed.mails pid
  | waiting pid => exact fun _ => still .returning (fun _ => False.elim) trivial
  | returning => exact still .idle (fun _ => False.elim) trivial

end Statements

end Mails

/-! Runs. -/

section Runs
variable {Fit : Nat → Access → Prop} {s : Threads} {event : Event Thread Place}

theorem ui_fits (hands : HandsOver s) (wakes : ∀ pid, s.place .ui ≠ .waiting pid) :
    UiPc.Fits (procs s) s.shared.control (s.place .ui) := by
  refine hands.fits fun signalled => ?_
  obtain ⟨pid, waits⟩ := ui_sleeps hands.orderly (by simp [signalled])
  exact wakes pid waits

theorem ui_vacant (hands : HandsOver s) {past : Nat → PackedBitmap.Block} {pc : CreatePc} {i : Nat}
    (creates : s.place .ui = .creating past pc) (slot : pc.slot = some i) :
    Vacant (procs s) s.shared.control i := by
  have fits := ui_fits hands fun pid waits => by
    rw [creates] at waits
    cases waits
  rw [creates] at fits
  exact fits i slot

structure Spawned (s after : Threads) (past : Nat → PackedBitmap.Block) (i : Nat) : Prop where
  shared : after.shared = s.shared.onControl
    { s.shared.control with spawned := s.shared.control.spawned + 1 }
  procs : procs after = Function.update (procs s) s.shared.control.spawned ⟨i, .raising⟩
  ui : after.place .ui = .creating past (.spinning i)
  prm : after.place .prm = s.place .prm
  stopped : after.stopped = s.stopped

theorem spawn_step {past : Nat → PackedBitmap.Block} {i : Nat}
    (spawns : s.place .ui = .creating past (.spawning i)) :
    Spawned s (next code s (.runs .ui)) past i := by
  let born := s.shared.control.spawned
  let shared := s.shared.onControl { s.shared.control with spawned := born + 1 }
  have runs : next code s (.runs .ui) =
      ((({ s with shared := shared }.moves .ui (.creating past (.spinning i))).moves (.process born)
        ⟨i, .raising⟩).holds (.process born) []).naps (.process born) .awake := by
    simp only [next, spawns]
    rfl
  rw [runs]
  refine ⟨rfl, ?_, by simp, by simp, rfl⟩
  funext n
  by_cases new : n = born
  · subst new
    rw [Function.update_self, procs, naps_place, holds_place, moves_self]
  · rw [Function.update_of_ne new]
    simp [procs, new]

theorem obedient_started (obedient : Obedient Fit s event) : DestroysStarted s event := by
  cases event with
  | picks t place =>
      cases t with
      | ui =>
          cases place with
          | destroying pid => exact obedient
          | _ => trivial
      | _ => trivial
  | _ => trivial

theorem mailed_spawned
    (mailed : Mailed Fit (procs s) (s.place .ui) s.shared.control) {after : Threads}
    {past : Nat → PackedBitmap.Block} {i : Nat} (spawns : s.place .ui = .creating past (.spawning i))
    (spawned : Spawned s after past i) :
    Mailed Fit (procs after) (after.place .ui) after.shared.control := by
  have empty : (s.shared.control.slot i).mailBox = some [] := by
    have finds := mailed.finds
    rwa [spawns] at finds
  rw [spawned.procs, spawned.ui, spawned.shared]
  generalize born : s.shared.control.spawned = child
  have new : Function.update (procs s) child ⟨i, .raising⟩ child = ⟨i, .raising⟩ :=
    Function.update_self ..
  have old : ∀ n, n ≠ child → Function.update (procs s) child ⟨i, .raising⟩ n = procs s n :=
    fun n other => Function.update_of_ne other ..
  refine ⟨fun n => ?_, fun n => ?_, fun n => ?_, fun n => ?_, mailed.mails, trivial⟩
  · by_cases mine : n = child
    · rw [mine, new]
      intro _ none
      rw [Shared.onControl, empty] at none
      cases none
    · rw [old n mine]
      exact mailed.boxes n
  · by_cases mine : n = child
    · rw [mine, new]
      intro pops
      cases pops
    · rw [old n mine]
      exact mailed.popping n
  · by_cases mine : n = child
    · rw [mine, new]
      rintro - (deleting | ⟨-, mails, box, member⟩)
      · cases deleting
      · rw [Shared.onControl, empty] at box
        cases box
        cases member
    · rw [old n mine]
      intro live doomed
      refine (mailed.marked n live doomed).imp_right fun marks => ?_
      rw [spawns] at marks
      exact marks.elim
  · by_cases mine : n = child
    · rw [mine, new]
      trivial
    · rw [old n mine]
      exact mailed.jobs n

theorem mailed_picked (hands : HandsOver s)
    (mailed : Mailed Fit (procs s) (s.place .ui) s.shared.control) {place : UiPc}
    (enabled : Enabled code s (.picks .ui place)) (obedient : Obedient Fit s (.picks .ui place)) :
    Mailed Fit (procs (next code s (.picks .ui place))) ((next code s (.picks .ui place)).place .ui)
      (next code s (.picks .ui place)).shared.control := by
  obtain ⟨idle, command⟩ := ui_idle enabled.2.2
  have same : procs (next code s (.picks .ui place)) = procs s :=
    funext fun n => moves_other (t := .ui) (u := .process n) s place (by simp)
  have there : (next code s (.picks .ui place)).place .ui = place :=
    moves_self (t := .ui) s place
  rw [same, there]
  refine mailed_ui mailed (fun pid marks => ?_) ?_
  · rw [idle] at marks
    exact marks.elim
  · cases place with
    | composing pid mail pc =>
        cases mail with
        | del => cases command
        | job accesses =>
            cases pc with
            | testing =>
                obtain ⟨⟨n, own, live⟩, fits⟩ := obedient
                have inside := hands.residents.inside n live
                rw [own] at inside
                exact ⟨inside, fits, .inl ⟨n, own, live⟩⟩
            | _ => cases command
    | creating past pc =>
        cases pc with
        | locking => trivial
        | _ => cases command
    | _ => trivial

theorem mailed_bystander (mailed : Mailed Fit (procs s) (s.place .ui) s.shared.control)
    {after : Threads} {t : Thread} {post : Place t → Shared → Prop} (goes : Local t post s after)
    (bystander : t = .prm ∨ t = .daemon)
    (processes : SameProcesses s.shared.control after.shared.control) :
    Mailed Fit (procs after) (after.place .ui) after.shared.control := by
  have same : procs after = procs s := funext fun n =>
    goes.others (.process n) (by rcases bystander with same | same <;> simp [same])
  have ui : after.place .ui = s.place .ui :=
    goes.others .ui (by rcases bystander with same | same <;> simp [same])
  rw [same, ui]
  exact mailed_same mailed processes

theorem mailed_step (hands : HandsOver s)
    (mailed : Mailed Fit (procs s) (s.place .ui) s.shared.control) (enabled : Enabled code s event)
    (obedient : Obedient Fit s event) :
    Mailed Fit (procs (next code s event)) ((next code s event).place .ui)
      (next code s event).shared.control := by
  cases whose : event.thread with
  | prm =>
      have here : PrmStep s.shared (s.place .prm) (s.place .prm) s.shared := prm_quiet rfl rfl
      have goes := step_local whose enabled here (prm_leads (s.place .prm))
      exact mailed_bystander mailed goes (.inl rfl) goes.post.processes
  | daemon =>
      have leads := daemon_leads s.shared (PrmPc.command (s.place .prm)) (s.place .daemon)
      have goes := step_local whose enabled (asks_quiet rfl) leads
      exact mailed_bystander mailed goes (.inr rfl) goes.post.processes
  | process n =>
      have here : StillMailed Fit (procs s) (s.place .ui) n (procs s n) s.shared := by
        rw [StillMailed, Function.update_eq_self]
        exact mailed
      have moved : Moved code event s (.process n) (StillMailed Fit (procs s) (s.place .ui) n) :=
        step_yields whose enabled here
        (process_mail mailed hands.residents
          (fun past pc i creates slot => (ui_vacant hands creates slot).empty) (hands.relies n))
      rw [procs_moved moved, moved.others .ui (by simp)]
      exact moved.post
  | ui =>
      by_cases picks : ∃ place, event = .picks .ui place
      · obtain ⟨place, rfl⟩ := picks
        exact mailed_picked hands mailed enabled obedient
      by_cases spawns : ∃ past i, s.place .ui = .creating past (.spawning i)
      · obtain ⟨past, i, spawns⟩ := spawns
        cases event with
        | runs t =>
            cases whose
            exact mailed_spawned mailed spawns (spawn_step spawns)
        | picks t place =>
            cases whose
            exact absurd ⟨place, rfl⟩ picks
        | wakes t =>
            cases whose
            have wakes := enabled.2.2
            rw [spawns] at wakes
            exact wakes.elim
      · have chosen : s.place .ui ≠ .idle := by
          intro idle
          have ready := enabled.2
          cases event with
          | runs t =>
              cases whose
              simp only [Ready, idle] at ready
              exact ready.2.elim
          | picks t place =>
              cases whose
              exact picks ⟨place, rfl⟩
          | wakes t =>
              cases whose
              simp only [Ready, idle] at ready
              exact ready.2.elim
        have moved : Moved code event s .ui (MailedUi Fit (procs s)) := step_yields whose enabled mailed
          (ui_mail mailed hands.residents (ui_fits hands) chosen fun past i there =>
            spawns ⟨past, i, there⟩)
        have same : procs (next code s event) = procs s :=
          funext fun n => moved.others (.process n) (by simp)
        rw [same]
        exact moved.post

theorem start_mailed (maxNumOfProc prcBlkSize : Nat) (machine : Machine) :
    Mailed Fit (procs (start maxNumOfProc prcBlkSize machine)) .idle
      (start maxNumOfProc prcBlkSize machine).shared.control where
  boxes _ := False.elim
  popping n pops := by cases pops
  marked _ := False.elim
  jobs _ := trivial
  mails i mails box := by cases box
  finds := trivial

end Runs

end VmSim.ThreadCode
