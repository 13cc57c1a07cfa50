import VmSim.ThreadSteps

/-!
What the waits of the program rely on in every run: each slot has at most one
thread that serves it, a process that is to be deleted has its mail, the UI that
waits for a deletion waits for a process that will delete itself, and a process
that sleeps before its mailbox is told of the mail it gets.
-/

namespace VmSim.ThreadCode
open LockedThreads Interleaving

/-! The processes and their slots. -/

structure Residents (procs : Nat → ProcessPc) (c : Control) : Prop where
  unborn : ∀ n, c.spawned ≤ n → (procs n).stage = .ended
  alone : ∀ m n, (procs m).stage.Live → (procs n).stage.Live → (procs m).pid = (procs n).pid → m = n
  inside : ∀ n, (procs n).stage.Live → (procs n).pid < c.maxNumOfProc
  junk : ∀ n, (procs n).stage.Live → (c.slot (procs n).pid).junk = false
  doomed : ∀ n, (procs n).stage.Live → (c.slot (procs n).pid).del = true →
    (c.slot (procs n).pid).Doomed (procs n).stage

def Alive (procs : Nat → ProcessPc) (pid : Nat) : Prop :=
  ∃ n, (procs n).pid = pid ∧ (procs n).stage.Live

def Owes (procs : Nat → ProcessPc) (c : Control) (pid : Nat) : Prop :=
  ∃ n, (procs n).pid = pid ∧ ((c.slot pid).Doomed (procs n).stage ∨ (procs n).stage = .signalling)

structure Vacant (procs : Nat → ProcessPc) (c : Control) (i : Nat) : Prop where
  inside : i < c.maxNumOfProc
  junk : (c.slot i).junk = false
  del : (c.slot i).del = false
  empty : ¬ Alive procs i

def CreatePc.slot : CreatePc → Option Nat
  | .allocating i _ _ => some i
  | .mapping i _ _ => some i
  | .mappingPage i _ _ _ => some i
  | .filling i _ => some i
  | .unlocking i => some i
  | .spawning i => some i
  | _ => none

/-- What the deletion of a process finds on its way, and what it leads to. -/
def ComposePc.Fits (procs : Nat → ProcessPc) (c : Control) (pid : Nat) : ComposePc → Prop
  | .signalling => Owes procs c pid
  | .unlocking => Owes procs c pid
  | _ => Alive procs pid

def UiPc.Fits (procs : Nat → ProcessPc) (c : Control) : UiPc → Prop
  | .creating _ pc => ∀ i, pc.slot = some i → Vacant procs c i
  | .destroying pid => Alive procs pid ∨ (c.slot pid).junk = true
  | .testing pid => Alive procs pid ∨ (c.slot pid).junk = true
  | .composing pid .del pc => pc.Fits procs c pid
  | .marking pid => Owes procs c pid
  | .waiting pid => Owes procs c pid
  | _ => True

section Slots
variable {procs : Nat → ProcessPc} {sh : Shared} {i : Nat} {slot : Slot}

theorem residents_vacant (residents : Residents procs sh.control) (empty : ¬ Alive procs i) :
    Residents procs (sh.setSlot i slot).control := by
  have other : ∀ n, (procs n).stage.Live → (procs n).pid ≠ i := fun n live same =>
    empty ⟨n, same, live⟩
  refine ⟨residents.unborn, residents.alone, residents.inside, fun n live => ?_, fun n live => ?_⟩
  · rw [set_slot_other (other n live)]
    exact residents.junk n live
  · rw [set_slot_other (other n live)]
    exact residents.doomed n live

theorem residents_own (residents : Residents procs sh.control)
    (junk : slot.junk = (sh.control.slot i).junk)
    (doomed : ∀ n, (procs n).stage.Live → (procs n).pid = i → slot.del = true →
      slot.Doomed (procs n).stage) : Residents procs (sh.setSlot i slot).control := by
  refine ⟨residents.unborn, residents.alone, residents.inside, fun n live => ?_, fun n live => ?_⟩
  · by_cases own : (procs n).pid = i
    · rw [own, set_slot_self, junk, ← own]
      exact residents.junk n live
    · rw [set_slot_other own]
      exact residents.junk n live
  · by_cases own : (procs n).pid = i
    · rw [own, set_slot_self]
      exact doomed n live own
    · rw [set_slot_other own]
      exact residents.doomed n live

theorem doomed_live {stage : Stage} (doomed : slot.Doomed stage) : stage.Live := by
  rcases doomed with deleting | ⟨serving, -⟩
  · rw [deleting]
    trivial
  · rw [serving]
    trivial

theorem owes_dooms (residents : Residents procs sh.control) (owes : Owes procs sh.control i)
    (calm : ∀ n, (procs n).stage ≠ .signalling) {n : Nat} (live : (procs n).stage.Live)
    (own : (procs n).pid = i) : (sh.control.slot i).Doomed (procs n).stage := by
  obtain ⟨m, there, doomed | signalling⟩ := owes
  · have same : m = n := residents.alone m n (doomed_live doomed) live (there.trans own.symm)
    rwa [← same]
  · exact absurd signalling (calm m)

end Slots

/-! The steps of the UI. -/

structure UiStep (procs : Nat → ProcessPc) (sh : Shared) (place' : UiPc) (sh' : Shared) : Prop where
  requests : SameRequests sh.control sh'.control
  residents : Residents procs sh'.control
  fits : place'.Fits procs sh'.control
  tells : ∀ pid, (sh'.control.slot pid).HasMail → (sh.control.slot pid).HasMail ∨
    ∃ mail, place' = .composing pid mail .signalling

section Ui
variable {procs : Nat → ProcessPc} {sh sh' : Shared} {place place' : UiPc} {i pid : Nat} {slot : Slot}

theorem ui_quiet (residents : Residents procs sh.control) (quiet : sh'.control = sh.control)
    (fits : place'.Fits procs sh.control) : UiStep procs sh place' sh' where
  requests := by
    rw [quiet]
    exact same_requests_refl _
  residents := by rwa [quiet]
  fits := by rwa [quiet]
  tells pid mail := by
    rw [quiet] at mail
    exact .inl mail

theorem ui_sets (residents : Residents procs (sh.setSlot i slot).control)
    (fits : place'.Fits procs (sh.setSlot i slot).control)
    (mail : slot.HasMail → (sh.control.slot i).HasMail) : UiStep procs sh place' (sh.setSlot i slot) where
  requests := set_slot_requests
  residents := residents
  fits := fits
  tells pid has := by
    by_cases own : pid = i
    · subst own
      rw [set_slot_self] at has
      exact .inl (mail has)
    · rw [set_slot_other own] at has
      exact .inl has

theorem create_leads {past : Nat → PackedBitmap.Block} {pc : CreatePc}
    (residents : Residents procs sh.control)
    (vacant : ∀ i, pc.slot = some i → Vacant procs sh.control i) (waits : ∀ i, pc ≠ .spawning i) :
    Leads (t := Thread.ui) sh (UiStep procs sh) (createCode past pc) := by
  have along : ∀ pc' sh', sh'.control = sh.control → (∀ i, pc'.slot = some i → pc.slot = some i) →
      UiStep procs sh (.creating past pc') sh' := fun pc' sh' quiet same =>
    ui_quiet residents quiet fun i slot => vacant i (same i slot)
  cases pc with
  | locking => exact along .selecting sh rfl fun _ slot => slot
  | selecting =>
      intro after reached done
      dsimp only at done
      split at done
      · cases done
        exact ui_quiet residents rfl trivial
      · rename_i i found
        cases done
        have junk : (sh.control.slot i).junk = true := by simpa using List.find?_some found
        have inside : i < sh.control.maxNumOfProc := List.mem_range.mp (List.mem_of_find?_eq_some found)
        -- A live process keeps its slot in use, and this one is junk.
        have empty : ¬ Alive procs i := by
          rintro ⟨n, own, live⟩
          have used := residents.junk n live
          rw [own, junk] at used
          cases used
        refine ui_sets (residents_vacant residents empty) ?_ ?_
        · intro j same
          cases same
          exact ⟨inside, by rw [set_slot_self]; rfl, by rw [set_slot_self]; rfl, empty⟩
        · rintro ⟨mail, rest, mails⟩
          cases mails
  | allocating i page phase =>
      cases phase with
      | want => exact along (.allocating i page .inside) sh rfl fun _ slot => slot
      | inside =>
          intro after reached done
          obtain ⟨⟨page, disk⟩, -, made⟩ := bind_eq_ok.mp done
          cases made
          exact along (.allocating i page .leave) _ rfl fun _ slot => slot
      | leave =>
          cases page with
          | none => exact along (.refusing i) sh rfl fun _ slot => by cases slot
          | some page => exact along (.mapping i page 0) sh rfl fun _ slot => slot
  | mapping i page k =>
      intro after reached done
      cases done
      refine along _ sh rfl ?_
      split <;> exact fun _ slot => slot
  | mappingPage i page k phase =>
      rw [createCode]
      refine section_leads (t := .ui) (fun phase sh' same => ?_) (fun sh' same => ?_) phase
      · exact along (.mappingPage i page k phase) sh' same fun _ slot => slot
      · exact along (.mapping i page (k + 1)) sh' same fun _ slot => slot
  | filling i page =>
      intro after reached done
      cases done
      have before : Vacant procs sh.control i := vacant i rfl
      refine ui_sets (residents_vacant residents before.empty) ?_ ?_
      · intro j same
        cases same
        refine ⟨before.inside, by rw [set_slot_self], ?_, before.empty⟩
        rw [set_slot_self]
        exact before.del
      · rintro ⟨mail, rest, mails⟩
        cases mails
  | unlocking i => exact along (.spawning i) sh rfl fun _ slot => slot
  | spawning i => exact absurd rfl (waits i)
  | spinning i => exact ui_quiet residents rfl trivial
  | refusing i => exact along (.freeing i) sh rfl fun _ slot => slot
  | freeing i =>
      intro after reached done
      cases done

theorem pushing_leads {mail : Mail} (residents : Residents procs sh.control)
    (fits : UiPc.Fits procs sh.control (.composing pid mail .pushing)) :
    Leads (t := Thread.ui) sh (UiStep procs sh) (composeCode pid mail .pushing) := by
  have still : ∀ place', place'.Fits procs sh.control → UiStep procs sh place' sh := fun place' =>
    ui_quiet residents rfl
  intro after reached done
  dsimp only at done
  split at done
  · rename_i flag
    cases done
    cases mail with
    | job accesses => exact still (.composing pid (.job accesses) .unlocking) trivial
    | del =>
        obtain ⟨n, own, live⟩ := fits
        have doomed := residents.doomed n live
        rw [own] at doomed
        exact still (.composing pid .del .unlocking) ⟨n, own, .inl (doomed flag)⟩
  · rename_i flag
    split at done
    · cases done
    · rename_i mails box
      cases done
      refine ⟨set_slot_requests, residents_own residents rfl ?_, ?_, ?_⟩
      · exact fun _ _ _ marked => absurd marked flag
      · cases mail with
        | job accesses => trivial
        | del =>
            obtain ⟨n, own, live⟩ := fits
            refine ⟨n, own, .inl ?_⟩
            rw [set_slot_self]
            cases stage : (procs n).stage with
            | serving => exact .inr ⟨rfl, mails ++ [.del], rfl, by simp⟩
            | deleting => exact .inl rfl
            | signalling =>
                rw [stage] at live
                exact live.elim
            | ended =>
                rw [stage] at live
                exact live.elim
      · intro other has
        by_cases same : other = pid
        · exact .inr ⟨mail, by rw [same]⟩
        · rw [set_slot_other same] at has
          exact .inl has

theorem compose_leads {mail : Mail} {pc : ComposePc} (residents : Residents procs sh.control)
    (fits : UiPc.Fits procs sh.control (.composing pid mail pc)) :
    Leads (t := Thread.ui) sh (UiStep procs sh) (composeCode pid mail pc) := by
  have still : ∀ place', place'.Fits procs sh.control → UiStep procs sh place' sh := fun place' =>
    ui_quiet residents rfl
  cases pc with
  | testing =>
      intro after reached done
      dsimp only at done
      -- A deletion is composed for a live process, so neither refusal can happen to it.
      have after_fits : (sh.control.maxNumOfProc < pid ∨ (sh.control.slot pid).junk = true) →
          (mail.after pid).Fits procs sh.control := by
        intro gone
        cases mail with
        | job accesses => trivial
        | del =>
            obtain ⟨n, own, live⟩ := fits
            have inside := residents.inside n live
            have used := residents.junk n live
            rw [own] at inside used
            rcases gone with beyond | junk
            · omega
            · rw [used] at junk
              cases junk
      split at done
      · rename_i beyond
        cases done
        exact still _ (after_fits (.inl beyond))
      · split at done
        · cases done
        · split at done
          · rename_i junk
            cases done
            exact still _ (after_fits (.inr junk))
          · cases done
            cases mail with
            | job accesses => exact still (.composing pid (.job accesses) .locking) trivial
            | del => exact still (.composing pid .del .locking) fits
  | locking =>
      cases mail with
      | job accesses => exact still (.composing pid (.job accesses) .pushing) trivial
      | del => exact still (.composing pid .del .pushing) fits
  | pushing => exact pushing_leads residents fits
  | signalling =>
      cases mail with
      | job accesses => exact still (.composing pid (.job accesses) .unlocking) trivial
      | del => exact still (.composing pid .del .unlocking) fits
  | unlocking =>
      cases mail with
      | job accesses => exact still .idle trivial
      | del => exact still (.marking pid) fits

/-- The UI but for the choice of its command and the start of a thread; while it has the
mutex of the container, no process signals its deletion. -/
theorem ui_leads (residents : Residents procs sh.control) (fits : place.Fits procs sh.control)
    (calm : (Lock.cont, Mode.write) ∈ UiPc.claims place → ∀ n, (procs n).stage ≠ .signalling)
    (chosen : place ≠ .idle) (waits : ∀ past i, place ≠ .creating past (.spawning i)) :
    Leads (t := Thread.ui) sh (UiStep procs sh) (uiCode place) := by
  cases place with
  | idle => exact absurd rfl chosen
  | creating past pc =>
      exact create_leads residents fits fun i same => waits past i (by rw [same])
  | destroying pid => exact ui_quiet residents rfl fits
  | testing pid =>
      intro after reached done
      cases done
      split
      · exact ui_quiet residents rfl trivial
      · rename_i stays
        rw [not_or] at stays
        exact ui_quiet residents rfl (fits.resolve_right stays.2)
  | composing pid mail pc => exact compose_leads residents fits
  | marking pid =>
      intro after reached done
      cases done
      -- The mark says that the process goes: it already carries the deletion.
      have doomed : ∀ n, (procs n).stage.Live → (procs n).pid = pid →
          (sh.control.slot pid).Doomed (procs n).stage := fun n =>
        owes_dooms residents fits (calm (by simp [UiPc.claims]))
      refine ui_sets (residents_own residents rfl fun n live own _ => doomed n live own) ?_ ?_
      · obtain ⟨n, own, owed⟩ := fits
        refine ⟨n, own, ?_⟩
        rw [set_slot_self]
        exact owed
      · exact id
  | waiting pid => exact ui_quiet residents rfl trivial
  | returning => exact ui_quiet residents rfl trivial

theorem residents_spawned {c : Control} (residents : Residents procs c) (vacant : Vacant procs c i) :
    Residents (Function.update procs c.spawned ⟨i, .raising⟩) { c with spawned := c.spawned + 1 } := by
  have new : Function.update procs c.spawned ⟨i, .raising⟩ c.spawned = ⟨i, .raising⟩ :=
    Function.update_self ..
  have old : ∀ n, n ≠ c.spawned → Function.update procs c.spawned ⟨i, .raising⟩ n = procs n :=
    fun n other => Function.update_of_ne other ..
  have apart : ∀ n, (procs n).stage.Live → (procs n).pid ≠ i := fun n live own =>
    vacant.empty ⟨n, own, live⟩
  constructor
  · intro n born
    dsimp only at born
    rw [old n (by omega)]
    exact residents.unborn n (by omega)
  · intro m n first second same
    by_cases mine : m = c.spawned
    -- The newcomer's slot had no live process.
    · by_cases yours : n = c.spawned
      · exact mine.trans yours.symm
      · rw [mine, new, old n yours] at same
        rw [old n yours] at second
        exact absurd same.symm (apart n second)
    · rw [old m mine] at first same
      by_cases yours : n = c.spawned
      · rw [yours, new] at same
        exact absurd same (apart m first)
      · rw [old n yours] at second same
        exact residents.alone m n first second same
  · intro n live
    by_cases mine : n = c.spawned
    · rw [mine, new]
      exact vacant.inside
    · rw [old n mine] at live ⊢
      exact residents.inside n live
  · intro n live
    by_cases mine : n = c.spawned
    · rw [mine, new]
      exact vacant.junk
    · rw [old n mine] at live ⊢
      exact residents.junk n live
  · intro n live marked
    by_cases mine : n = c.spawned
    · rw [mine, new] at marked
      dsimp only at marked
      rw [vacant.del] at marked
      cases marked
    · rw [old n mine] at live marked ⊢
      exact residents.doomed n live marked

end Ui

/-! What the steps of the others leave to a process and to the UI. -/

section Others
variable {procs procs' : Nat → ProcessPc} {c c' : Control} {place : UiPc}

theorem residents_same (same : SameProcesses c c') (residents : Residents procs c) :
    Residents procs c' where
  unborn n born := residents.unborn n (by rwa [← same.spawned])
  alone := residents.alone
  inside n live := by
    rw [same.size]
    exact residents.inside n live
  junk n live := (same.slots _).junk.trans (residents.junk n live)
  doomed n live marked := by
    rw [(same.slots _).del] at marked
    exact (same_mail_doomed (same.slots _)).mpr (residents.doomed n live marked)

theorem owes_same (same : SameProcesses c c') {pid : Nat} (owes : Owes procs c pid) :
    Owes procs c' pid := by
  obtain ⟨n, own, owed⟩ := owes
  exact ⟨n, own, owed.imp_left (same_mail_doomed (same.slots pid)).mpr⟩

theorem fits_same (same : SameProcesses c c') (fits : place.Fits procs c) : place.Fits procs c' := by
  have gone : ∀ pid, Alive procs pid ∨ (c.slot pid).junk = true →
      Alive procs pid ∨ (c'.slot pid).junk = true := fun pid before =>
    before.imp_right fun junk => (same.slots pid).junk.trans junk
  cases place with
  | creating past pc =>
      intro i slot
      have before : Vacant procs c i := fits i slot
      refine ⟨?_, (same.slots i).junk.trans before.junk, (same.slots i).del.trans before.del,
        before.empty⟩
      rw [same.size]
      exact before.inside
  | destroying pid => exact gone pid fits
  | testing pid => exact gone pid fits
  | composing pid mail pc =>
      cases mail with
      | job accesses => trivial
      | del =>
          cases pc with
          | signalling => exact owes_same same fits
          | unlocking => exact owes_same same fits
          | _ => exact fits
  | marking pid => exact owes_same same fits
  | waiting pid => exact owes_same same fits
  | _ => trivial

structure Stepped (n : Nat) (procs : Nat → ProcessPc) (c : Control) (procs' : Nat → ProcessPc)
    (c' : Control) : Prop where
  others : ∀ m, m ≠ n → procs' m = procs m
  pid : (procs' n).pid = (procs n).pid
  follows : Follows (procs n).pid c (procs n).stage c' (procs' n).stage

variable {n : Nat}

theorem stepped_pid (stepped : Stepped n procs c procs' c') (m : Nat) :
    (procs' m).pid = (procs m).pid := by
  by_cases own : m = n
  · rw [own]
    exact stepped.pid
  · rw [stepped.others m own]

theorem stepped_live (stepped : Stepped n procs c procs' c') {m : Nat}
    (live : (procs' m).stage.Live) : (procs m).stage.Live := by
  by_cases own : m = n
  · rw [own] at live ⊢
    exact stepped.follows.live live
  · rwa [← stepped.others m own]

theorem stepped_slot (residents : Residents procs c) (stepped : Stepped n procs c procs' c') {m : Nat}
    (other : m ≠ n) (live : (procs m).stage.Live) :
    SameMail (c.slot (procs m).pid) (c'.slot (procs m).pid) := by
  refine stepped.follows.others _ ?_
  by_contra both
  obtain ⟨same, alive⟩ := not_or.mp both
  exact other (residents.alone m n live (not_not.mp alive) (not_not.mp same))

theorem residents_stepped (residents : Residents procs c) (stepped : Stepped n procs c procs' c') :
    Residents procs' c' where
  unborn m born := by
    rw [stepped.follows.spawned] at born
    by_cases own : m = n
    · subst own
      exact stepped.follows.ended (residents.unborn m born)
    · rw [stepped.others m own]
      exact residents.unborn m born
  alone k m first second same := by
    rw [stepped_pid stepped, stepped_pid stepped] at same
    exact residents.alone k m (stepped_live stepped first) (stepped_live stepped second) same
  inside m live := by
    rw [stepped_pid stepped, stepped.follows.size]
    exact residents.inside m (stepped_live stepped live)
  junk m live := by
    have before := residents.junk m (stepped_live stepped live)
    rw [stepped_pid stepped]
    -- The process that stepped may change its own slot, the others find theirs unchanged.
    by_cases own : m = n
    · subst own
      exact (stepped.follows.junk live).trans before
    · exact (stepped_slot residents stepped own (stepped_live stepped live)).junk.trans before
  doomed m live marked := by
    have alive := stepped_live stepped live
    rw [stepped_pid stepped] at marked ⊢
    by_cases own : m = n
    · subst own
      rw [stepped.follows.del live] at marked
      exact stepped.follows.doomed live (residents.doomed m alive marked)
    · have same := stepped_slot residents stepped own alive
      rw [same.del] at marked
      rw [stepped.others m own]
      exact (same_mail_doomed same).mpr (residents.doomed m alive marked)

theorem owes_stepped (residents : Residents procs c) (stepped : Stepped n procs c procs' c')
    (quiet : (procs n).stage ≠ .signalling) {pid : Nat} (owes : Owes procs c pid) :
    Owes procs' c' pid := by
  obtain ⟨m, own, owed⟩ := owes
  refine ⟨m, (stepped_pid stepped m).trans own, ?_⟩
  by_cases mine : m = n
  · subst mine own
    rcases owed with doomed | signalling
    · by_cases live : (procs' m).stage.Live
      · exact .inl (stepped.follows.doomed live doomed)
      · exact .inr (stepped.follows.ends (doomed_live doomed) live).1
    · exact absurd signalling quiet
  · rw [stepped.others m mine]
    subst own
    exact owed.imp_left fun doomed =>
      (same_mail_doomed (stepped_slot residents stepped mine (doomed_live doomed))).mpr doomed

theorem fits_stepped (residents : Residents procs c) (stepped : Stepped n procs c procs' c')
    (before : (Lock.cont, Mode.write) ∈ UiPc.claims place → (procs n).stage ≠ .signalling)
    (after : (Lock.cont, Mode.write) ∈ UiPc.claims place → (∀ pid, place ≠ .waiting pid) →
      (procs' n).stage ≠ .signalling)
    (fits : place.Fits procs c) : place.Fits procs' c' := by
  have gone : ∀ pid, Alive procs pid ∨ (c.slot pid).junk = true →
      Alive procs' pid ∨ (c'.slot pid).junk = true := by
    rintro pid (⟨m, own, live⟩ | junk)
    · by_cases alive : (procs' m).stage.Live
      · exact .inl ⟨m, (stepped_pid stepped m).trans own, alive⟩
      · by_cases mine : m = n
        · subst mine own
          exact .inr (stepped.follows.ends live alive).2
        · rw [stepped.others m mine] at alive
          exact absurd live alive
    · refine .inr ?_
      rw [(stepped.follows.others pid ?_).junk, junk]
      by_contra both
      obtain ⟨same, alive⟩ := not_or.mp both
      have used := residents.junk n (not_not.mp alive)
      rw [← not_not.mp same, junk] at used
      cases used
  have stays : ∀ pid, (procs' n).stage ≠ .signalling → Alive procs pid → Alive procs' pid := by
    rintro pid quiet ⟨m, own, live⟩
    refine ⟨m, (stepped_pid stepped m).trans own, ?_⟩
    by_cases mine : m = n
    · subst mine
      by_contra dead
      exact quiet (stepped.follows.ends live dead).1
    · rwa [stepped.others m mine]
  cases place with
  | creating past pc =>
      intro i slot
      have vacant : Vacant procs c i := fits i slot
      have same : SameMail (c.slot i) (c'.slot i) := by
        refine stepped.follows.others i ?_
        by_contra both
        obtain ⟨own, alive⟩ := not_or.mp both
        exact vacant.empty ⟨n, (not_not.mp own).symm, not_not.mp alive⟩
      refine ⟨?_, same.junk.trans vacant.junk, same.del.trans vacant.del, ?_⟩
      · rw [stepped.follows.size]
        exact vacant.inside
      · rintro ⟨m, own, live⟩
        exact vacant.empty ⟨m, (stepped_pid stepped m).symm.trans own, stepped_live stepped live⟩
  | destroying pid => exact gone pid fits
  | testing pid => exact gone pid fits
  | composing pid mail pc =>
      cases mail with
      | job accesses => trivial
      | del =>
          -- Composing a deletion the interface holds the table's lock for writing.
          have has : (Lock.cont, Mode.write) ∈ UiPc.claims (.composing pid .del pc) := by
            cases pc <;> simp [UiPc.claims, ComposePc.claims, Mail.claims]
          have calm := after has (fun _ => by simp)
          cases pc with
          | signalling => exact owes_stepped residents stepped (before has) fits
          | unlocking => exact owes_stepped residents stepped (before has) fits
          | _ => exact stays pid calm fits
  | marking pid => exact owes_stepped residents stepped (before (by simp [UiPc.claims])) fits
  | waiting pid => exact owes_stepped residents stepped (before (by simp [UiPc.claims])) fits
  | _ => trivial

theorem stepped_mail (stepped : Stepped n procs c procs' c') (i : Nat)
    (mail : (c'.slot i).HasMail) : (c.slot i).HasMail := by
  by_cases own : i = (procs n).pid
  · rw [own] at mail ⊢
    exact stepped.follows.mail mail
  · exact (same_mail_has (stepped.follows.others i (.inl own))).mp mail

end Others

end VmSim.ThreadCode
