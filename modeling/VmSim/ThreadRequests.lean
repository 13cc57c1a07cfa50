import VmSim.ThreadGuards

/-!
The requests for pages in every run: a fault writes its command, hands it in and
waits for the reply. No command is queued or served twice, each one waits for one
process, and that process is still there and asks for the page the PRM serves.
-/

namespace VmSim.ThreadCode
open LockedThreads Interleaving PageTable MemoryUnit PagingRuns

/-- The command a fault has written and not handed in. -/
def AccessPc.drafted : AccessPc → Option Nat
  | .pushing cmd .want => some cmd
  | .pushing cmd .inside => some cmd
  | _ => none

/-- The command a fault has handed in, before the reply is read. -/
def AccessPc.asked : AccessPc → Option Nat
  | .pushing cmd .leave => some cmd
  | .signallingPush cmd => some cmd
  | .completing cmd .want => some cmd
  | .completing cmd .inside => some cmd
  | _ => none

def ProcessPc.drafted (place : ProcessPc) : Option (Nat × VirtAddr) :=
  match place.pc with
  | .access a _ pc => pc.drafted.map (·, a.addr)
  | _ => none

def ProcessPc.asked (place : ProcessPc) : Option (Nat × VirtAddr) :=
  match place.pc with
  | .access a _ pc => pc.asked.map (·, a.addr)
  | _ => none

/-- The process is at a command for this address. -/
def ProcessPc.Has (place : ProcessPc) (cmd : Nat) (addr : VirtAddr) : Prop :=
  place.drafted = some (cmd, addr) ∨ place.asked = some (cmd, addr)

def outstanding (prm : PrmPc) (c : Control) : List Nat := prm.command.toList ++ c.queue

structure Requested (procs : Nat → ProcessPc) (prm : PrmPc) (c : Control) : Prop where
  numbered : ∀ n cmd addr, (procs n).Has cmd addr → cmd < c.fresh ∧ (c.command cmd).addr = addr
  own : ∀ m n cmd addr addr', (procs m).Has cmd addr → (procs n).Has cmd addr' → m = n
  draft : ∀ n cmd addr, (procs n).drafted = some (cmd, addr) → (c.command cmd).done = false
  once : (outstanding prm c).Nodup
  awaited : ∀ cmd ∈ outstanding prm c,
    (c.command cmd).done = false ∧ ∃ n addr, (procs n).asked = some (cmd, addr)
  serves : ∀ cmd addr pc, prm = .serving cmd addr pc → (c.command cmd).addr = addr
  popping : prm = .popping → c.queue ≠ []

structure SameCommands (c c' : Control) : Prop where
  queue : c'.queue = c.queue
  command : c'.command = c.command
  fresh : c'.fresh = c.fresh

structure SameAsking (place place' : ProcessPc) : Prop where
  drafted : place'.drafted = place.drafted
  asked : place'.asked = place.asked

section Requests
variable {procs procs' : Nat → ProcessPc} {prm prm' : PrmPc} {c c' : Control} {n cmd : Nat}
variable {place place' : ProcessPc} {addr : VirtAddr}

theorem same_commands_refl (c : Control) : SameCommands c c := ⟨rfl, rfl, rfl⟩

theorem same_asking_refl (place : ProcessPc) : SameAsking place place := ⟨rfl, rfl⟩

theorem same_asking_has (same : SameAsking place place') :
    place'.Has cmd addr ↔ place.Has cmd addr := by
  rw [ProcessPc.Has, ProcessPc.Has, same.drafted, same.asked]

theorem drafted_unasked (drafted : place.drafted = some (cmd, addr)) : place.asked = none := by
  obtain ⟨pid, pc⟩ := place
  cases pc with
  | access a rest pc =>
      cases pc with
      | pushing cmd phase => cases phase <;> first | rfl | cases drafted
      | _ => cases drafted
  | _ => cases drafted

theorem has_one {cmd' : Nat} {addr' : VirtAddr} (first : place.Has cmd addr)
    (second : place.Has cmd' addr') : cmd = cmd' ∧ addr = addr' := by
  rcases first with mine | mine
  · rcases second with yours | yours
    · rw [mine] at yours
      cases yours
      exact ⟨rfl, rfl⟩
    · rw [drafted_unasked mine] at yours
      cases yours
  · rcases second with yours | yours
    · rw [drafted_unasked yours] at mine
      cases mine
    · rw [mine] at yours
      cases yours
      exact ⟨rfl, rfl⟩

theorem requested_quiet (requested : Requested procs prm c) (commands : SameCommands c c')
    (asking : ∀ n, SameAsking (procs n) (procs' n)) : Requested procs' prm c' where
  numbered n cmd addr has := by
    rw [commands.fresh, commands.command]
    exact requested.numbered n cmd addr ((same_asking_has (asking n)).mp has)
  own m n cmd addr addr' first second :=
    requested.own m n cmd addr addr' ((same_asking_has (asking m)).mp first)
      ((same_asking_has (asking n)).mp second)
  draft n cmd addr drafted := by
    rw [commands.command]
    exact requested.draft n cmd addr ((asking n).drafted.symm.trans drafted)
  once := by
    rw [outstanding, commands.queue]
    exact requested.once
  awaited cmd member := by
    rw [outstanding, commands.queue] at member
    obtain ⟨undone, n, addr, asked⟩ := requested.awaited cmd member
    rw [commands.command]
    exact ⟨undone, n, addr, (asking n).asked.trans asked⟩
  serves := by
    rw [commands.command]
    exact requested.serves
  popping := by
    rw [commands.queue]
    exact requested.popping

theorem requested_served (requested : Requested procs prm c) (command : prm'.command = prm.command)
    (serves : ∀ cmd addr pc, prm' = .serving cmd addr pc → (c.command cmd).addr = addr)
    (popping : prm' = .popping → c.queue ≠ []) : Requested procs prm' c where
  numbered := requested.numbered
  own := requested.own
  draft := requested.draft
  once := by
    rw [outstanding, command]
    exact requested.once
  awaited := by
    rw [outstanding, command]
    exact requested.awaited
  serves := serves
  popping := popping

theorem requested_drafted (requested : Requested procs prm c) (free : ∀ cmd addr, ¬ (procs n).Has cmd addr)
    (drafts : place.drafted = some (c.fresh, addr)) (asks : place.asked = none) :
    Requested (Function.update procs n place) prm
      { c with command := Function.update c.command c.fresh ⟨addr, false⟩, fresh := c.fresh + 1 } := by
  have new : Function.update procs n place n = place := Function.update_self ..
  have old : ∀ m, m ≠ n → Function.update procs n place m = procs m := fun m other =>
    Function.update_of_ne other ..
  have mine : ∀ cmd addr', place.Has cmd addr' → cmd = c.fresh ∧ addr' = addr := by
    rintro cmd addr' (drafted | asked)
    · rw [drafts] at drafted
      cases drafted
      exact ⟨rfl, rfl⟩
    · rw [asks] at asked
      cases asked
  have earlier : ∀ cmd, cmd < c.fresh →
      Function.update c.command c.fresh ⟨addr, false⟩ cmd = c.command cmd := fun cmd low =>
    Function.update_of_ne (Nat.ne_of_lt low) ..
  have low : ∀ cmd ∈ outstanding prm c, cmd < c.fresh := fun cmd member => by
    obtain ⟨-, m, addr', asked⟩ := requested.awaited cmd member
    exact (requested.numbered m cmd addr' (.inr asked)).1
  constructor
  · intro m cmd addr' has
    by_cases same : m = n
    · rw [same, new] at has
      obtain ⟨rfl, rfl⟩ := mine cmd addr' has
      exact ⟨Nat.lt_succ_self _, by simp⟩
    · rw [old m same] at has
      obtain ⟨before, at_addr⟩ := requested.numbered m cmd addr' has
      exact ⟨Nat.lt_succ_of_lt before, by dsimp only; rwa [earlier cmd before]⟩
  · intro l m cmd addr₁ addr₂ first second
    by_cases left : l = n
    · by_cases right : m = n
      · exact left.trans right.symm
      · rw [left, new] at first
        rw [old m right] at second
        have before := (requested.numbered m cmd addr₂ second).1
        rw [(mine cmd addr₁ first).1] at before
        exact absurd before (Nat.lt_irrefl _)
    · rw [old l left] at first
      by_cases right : m = n
      · rw [right, new] at second
        have before := (requested.numbered l cmd addr₁ first).1
        rw [(mine cmd addr₂ second).1] at before
        exact absurd before (Nat.lt_irrefl _)
      · rw [old m right] at second
        exact requested.own l m cmd addr₁ addr₂ first second
  · intro m cmd addr' drafted
    by_cases same : m = n
    · rw [same, new, drafts] at drafted
      cases drafted
      simp
    · rw [old m same] at drafted
      dsimp only
      rw [earlier cmd (requested.numbered m cmd addr' (.inl drafted)).1]
      exact requested.draft m cmd addr' drafted
  · exact requested.once
  · intro cmd member
    obtain ⟨undone, m, addr', asked⟩ := requested.awaited cmd member
    refine ⟨by dsimp only; rwa [earlier cmd (low cmd member)], m, addr', ?_⟩
    have other : m ≠ n := by
      rintro rfl
      exact free cmd addr' (.inr asked)
    rwa [old m other]
  · intro cmd addr' pc serving
    have served : cmd ∈ outstanding prm c := by simp [outstanding, serving, PrmPc.command]
    dsimp only
    rw [earlier cmd (low cmd served)]
    exact requested.serves cmd addr' pc serving
  · exact requested.popping

theorem requested_pushed (requested : Requested procs prm c)
    (drafted : (procs n).drafted = some (cmd, addr)) (drafts : place.drafted = none)
    (asks : place.asked = some (cmd, addr)) :
    Requested (Function.update procs n place) prm { c with queue := c.queue ++ [cmd] } := by
  have new : Function.update procs n place n = place := Function.update_self ..
  have old : ∀ m, m ≠ n → Function.update procs n place m = procs m := fun m other =>
    Function.update_of_ne other ..
  have before : ∀ m cmd' addr', (Function.update procs n place m).Has cmd' addr' →
      (procs m).Has cmd' addr' := by
    intro m cmd' addr' has
    by_cases same : m = n
    · subst same
      rw [new] at has
      rcases has with drafted' | asked
      · rw [drafts] at drafted'
        cases drafted'
      · rw [asks] at asked
        cases asked
        exact .inl drafted
    · rwa [old m same] at has
  have others : ∀ cmd' ∈ outstanding prm c, ∃ m addr', m ≠ n ∧ (procs m).asked = some (cmd', addr') := by
    intro cmd' member
    obtain ⟨-, m, addr', asked⟩ := requested.awaited cmd' member
    refine ⟨m, addr', ?_, asked⟩
    rintro rfl
    obtain ⟨rfl, rfl⟩ := has_one (.inl drafted) (.inr asked)
    rw [drafted_unasked drafted] at asked
    cases asked
  have all : outstanding prm { c with queue := c.queue ++ [cmd] } = outstanding prm c ++ [cmd] := by
    simp [outstanding]
  constructor
  · exact fun m cmd' addr' has => requested.numbered m cmd' addr' (before m cmd' addr' has)
  · exact fun l m cmd' addr₁ addr₂ first second =>
      requested.own l m cmd' addr₁ addr₂ (before l cmd' addr₁ first) (before m cmd' addr₂ second)
  · intro m cmd' addr' drafted'
    by_cases same : m = n
    · rw [same, new, drafts] at drafted'
      cases drafted'
    · rw [old m same] at drafted'
      exact requested.draft m cmd' addr' drafted'
  · rw [all, List.nodup_append]
    refine ⟨requested.once, List.nodup_singleton cmd, ?_⟩
    intro other member last single
    rw [List.mem_singleton] at single
    rintro rfl
    rw [single] at member
    obtain ⟨m, addr', apart, asked⟩ := others cmd member
    exact apart (requested.own m n cmd addr' addr (.inr asked) (.inl drafted))
  · intro cmd' member
    rw [all, List.mem_append, List.mem_singleton] at member
    rcases member with earlier | rfl
    · obtain ⟨m, addr', apart, asked⟩ := others cmd' earlier
      exact ⟨(requested.awaited cmd' earlier).1, m, addr', by rwa [old m apart]⟩
    · exact ⟨requested.draft n cmd' addr drafted, n, addr, by rwa [new]⟩
  · exact requested.serves
  · exact fun _ => by simp

theorem requested_answered (requested : Requested procs prm c)
    (asked : (procs n).asked = some (cmd, addr)) (done : (c.command cmd).done = true)
    (drafts : place.drafted = none) (asks : place.asked = none) :
    Requested (Function.update procs n place) prm c := by
  have new : Function.update procs n place n = place := Function.update_self ..
  have old : ∀ m, m ≠ n → Function.update procs n place m = procs m := fun m other =>
    Function.update_of_ne other ..
  have nothing : ∀ cmd' addr', ¬ place.Has cmd' addr' := by
    rintro cmd' addr' (drafted | asked')
    · rw [drafts] at drafted
      cases drafted
    · rw [asks] at asked'
      cases asked'
  have before : ∀ m cmd' addr', (Function.update procs n place m).Has cmd' addr' →
      (procs m).Has cmd' addr' := by
    intro m cmd' addr' has
    by_cases same : m = n
    · rw [same, new] at has
      exact absurd has (nothing cmd' addr')
    · rwa [old m same] at has
  refine ⟨fun m cmd' addr' has => requested.numbered m cmd' addr' (before m cmd' addr' has),
    fun l m cmd' addr₁ addr₂ first second =>
      requested.own l m cmd' addr₁ addr₂ (before l cmd' addr₁ first) (before m cmd' addr₂ second),
    fun m cmd' addr' drafted => ?_, requested.once, fun cmd' member => ?_, requested.serves,
    requested.popping⟩
  · by_cases same : m = n
    · rw [same, new] at drafted
      exact absurd (.inl drafted) (nothing cmd' addr')
    · rw [old m same] at drafted
      exact requested.draft m cmd' addr' drafted
  · obtain ⟨undone, m, addr', waits⟩ := requested.awaited cmd' member
    refine ⟨undone, m, addr', ?_⟩
    by_cases same : m = n
    · subst same
      obtain ⟨rfl, rfl⟩ := has_one (.inr asked) (.inr waits)
      rw [undone] at done
      cases done
    · rwa [old m same]

theorem requested_popped (requested : Requested procs .popping c) {rest : List Nat}
    (queue : c.queue = cmd :: rest) : Requested procs (.unlocking cmd) { c with queue := rest } where
  numbered := requested.numbered
  own := requested.own
  draft := requested.draft
  once := by
    have once := requested.once
    rwa [outstanding, queue] at once
  awaited cmd' member := by
    refine requested.awaited cmd' ?_
    rwa [outstanding, queue]
  serves _ _ _ there := by cases there
  popping there := by cases there

theorem requested_reported (requested : Requested procs (.reporting cmd .inside) c) :
    Requested procs (.signalling cmd)
      { c with command := Function.update c.command cmd { c.command cmd with done := true } } := by
  have addrs : ∀ other, (Function.update c.command cmd { c.command cmd with done := true } other).addr =
      (c.command other).addr := by
    intro other
    by_cases same : other = cmd
    · simp [same]
    · simp [same]
  have served : cmd ∈ outstanding (.reporting cmd .inside) c := List.mem_cons_self
  obtain ⟨-, m, addr, asked⟩ := requested.awaited cmd served
  have once := requested.once
  obtain ⟨unqueued, others⟩ : cmd ∉ c.queue ∧ c.queue.Nodup := List.nodup_cons.mp once
  refine ⟨fun n cmd' addr' has => ?_, requested.own, fun n cmd' addr' drafted => ?_, others,
    fun cmd' member => ?_, fun _ _ _ there => ?_, fun there => ?_⟩
  · obtain ⟨low, at_addr⟩ := requested.numbered n cmd' addr' has
    exact ⟨low, (addrs cmd').trans at_addr⟩
  · have apart : cmd' ≠ cmd := by
      rintro rfl
      obtain rfl := requested.own m n cmd' addr addr' (.inr asked) (.inl drafted)
      rw [drafted_unasked drafted] at asked
      cases asked
    simpa [apart] using requested.draft n cmd' addr' drafted
  · have queued : cmd' ∈ c.queue := member
    have apart : cmd' ≠ cmd := by
      rintro rfl
      exact unqueued queued
    obtain ⟨undone, n, addr', waits⟩ := requested.awaited cmd' (.tail _ queued)
    exact ⟨by simpa [apart] using undone, n, addr', waits⟩
  · cases there
  · cases there

end Requests

/-! The steps of each thread. -/

section Statements
variable {procs : Nat → ProcessPc} {prm : PrmPc} {sh : Shared} {n pid : Nat}

abbrev StillRequested (procs : Nat → ProcessPc) (n : Nat) (prm : PrmPc) (place' : ProcessPc)
    (sh' : Shared) : Prop := Requested (Function.update procs n place') prm sh'.control

theorem still_requested (requested : Requested procs prm sh.control) {place' : ProcessPc} {sh' : Shared}
    (commands : SameCommands sh.control sh'.control) (asking : SameAsking (procs n) place') :
    StillRequested procs n prm place' sh' := by
  refine requested_quiet requested commands fun m => ?_
  by_cases same : m = n
  · subst same
    rwa [Function.update_self]
  · rw [Function.update_of_ne same]
    exact same_asking_refl _

section Accesses
variable {a : Access} {rest : List Access} {pc : AccessPc} {sh' : Shared}

theorem requests_inside (requested : Requested procs prm sh.control) (place : procs n = ⟨pid, .access a rest pc⟩)
    (pc' : AccessPc) (same : sh'.control = sh.control) (drafted : pc'.drafted = pc.drafted)
    (asked : pc'.asked = pc.asked) : StillRequested procs n prm ⟨pid, .access a rest pc'⟩ sh' := by
  refine still_requested requested ?_ ?_
  · rw [same]
    exact same_commands_refl _
  · rw [place]
    exact ⟨by simp only [ProcessPc.drafted, drafted], by simp only [ProcessPc.asked, asked]⟩

theorem requests_end (requested : Requested procs prm sh.control) (place : procs n = ⟨pid, .access a rest pc⟩)
    (drafted : pc.drafted = none) (asked : pc.asked = none) :
    StillRequested procs n prm ⟨pid, .working rest⟩ sh := by
  refine still_requested requested (same_commands_refl _) ?_
  rw [place]
  exact ⟨by simp [ProcessPc.drafted, drafted], by simp [ProcessPc.asked, asked]⟩

theorem pushing_requests (requested : Requested procs prm sh.control) {cmd : Nat} {phase : Phase}
    (place : procs n = ⟨pid, .access a rest (.pushing cmd phase)⟩) :
    (accessCode (t := .process n) a (fun pc => (⟨pid, .access a rest pc⟩ : ProcessPc))
      (⟨pid, .working rest⟩ : ProcessPc) (.pushing cmd phase)).Yields sh (StillRequested procs n prm) := by
  cases phase with
  | want => exact requests_inside requested place (.pushing cmd .inside) rfl rfl rfl
  | inside =>
      intro after reached done
      cases done
      have drafted : (procs n).drafted = some (cmd, a.addr) := by
        rw [place]
        rfl
      split
      · exact requested_pushed requested drafted rfl rfl
      · exact requested_pushed requested drafted rfl rfl
  | leave => exact requests_inside requested place (.completing cmd .want) rfl rfl rfl

theorem completing_requests (requested : Requested procs prm sh.control) {cmd : Nat} {phase : Phase}
    (place : procs n = ⟨pid, .access a rest (.completing cmd phase)⟩) :
    (accessCode (t := .process n) a (fun pc => (⟨pid, .access a rest pc⟩ : ProcessPc))
      (⟨pid, .working rest⟩ : ProcessPc) (.completing cmd phase)).Yields sh (StillRequested procs n prm) := by
  cases phase with
  | want => exact requests_inside requested place (.completing cmd .inside) rfl rfl rfl
  | inside =>
      intro done
      have asked : (procs n).asked = some (cmd, a.addr) := by
        rw [place]
        rfl
      exact requested_answered requested asked done rfl rfl
  | leave => exact requests_inside requested place .reacquiring rfl rfl rfl

theorem reading_requests (requested : Requested procs prm sh.control) {due : Bool} {phase : Phase}
    (place : procs n = ⟨pid, .access a rest (.reading due phase)⟩) :
    (accessCode (t := .process n) a (fun pc => (⟨pid, .access a rest pc⟩ : ProcessPc))
      (⟨pid, .working rest⟩ : ProcessPc) (.reading due phase)).Yields sh (StillRequested procs n prm) := by
  cases phase with
  | want => exact requests_inside requested place (.reading false .inside) rfl rfl rfl
  | inside =>
      rw [accessCode]
      exact leads_yields (test_mmu_leads (requests_inside requested place (.reading true .leave) rfl rfl rfl)
        (requests_inside requested place (.reading false .leave) rfl rfl rfl))
  | leave =>
      cases due with
      | true => exact requests_inside requested place (.zeroing .want) rfl rfl rfl
      | false => exact requests_end requested place rfl rfl

theorem access_requests (requested : Requested procs prm sh.control)
    (place : procs n = ⟨pid, .access a rest pc⟩) :
    (accessCode (t := .process n) a (fun pc => (⟨pid, .access a rest pc⟩ : ProcessPc))
      (⟨pid, .working rest⟩ : ProcessPc) pc).Yields sh (StillRequested procs n prm) := by
  have inside : ∀ pc' sh', sh'.control = sh.control → pc'.drafted = pc.drafted → pc'.asked = pc.asked →
      StillRequested procs n prm ⟨pid, .access a rest pc'⟩ sh' :=
    fun pc' _ => requests_inside requested place pc'
  cases pc with
  | checking => exact leads_yields (on_mmu_leads fun mmu => inside .acquiring _ rfl rfl rfl)
  | acquiring => exact inside .testing sh rfl rfl rfl
  | testing =>
      rw [accessCode]
      exact leads_yields (test_mmu_leads (inside (.counting true .want) sh rfl rfl rfl)
        (inside (.counting false .want) sh rfl rfl rfl))
  | counting hit phase =>
      rw [accessCode]
      refine leads_yields (section_leads (fun phase sh' same => inside (.counting hit phase) sh' same rfl rfl)
        (fun sh' same => ?_) phase)
      cases hit with
      | true => exact inside (.referencing .want) sh' same rfl rfl
      | false => exact inside .faulting sh' same rfl rfl
  | faulting => exact inside .requesting sh rfl rfl rfl
  | requesting =>
      intro after reached done
      cases done
      refine requested_drafted requested ?_ rfl rfl
      rintro cmd addr (drafted | asked)
      · rw [place] at drafted
        cases drafted
      · rw [place] at asked
        cases asked
  | pushing cmd phase => exact pushing_requests requested place
  | signallingPush cmd => exact inside (.pushing cmd .leave) sh rfl rfl rfl
  | completing cmd phase => exact completing_requests requested place
  | reacquiring => exact inside .retesting sh rfl rfl rfl
  | retesting =>
      rw [accessCode]
      exact leads_yields (test_mmu_leads (inside (.referencing .want) sh rfl rfl rfl)
        (inside .faulting sh rfl rfl rfl))
  | referencing phase =>
      rw [accessCode]
      exact leads_yields (section_leads
        (fun phase sh' same => inside (.referencing phase) sh' same rfl rfl)
        (fun sh' same => inside .copying sh' same rfl rfl) phase)
  | copying => exact leads_yields (on_mmu_leads fun mmu => inside .releasing _ rfl rfl rfl)
  | releasing => exact inside (.reading false .want) sh rfl rfl rfl
  | reading due phase => exact reading_requests requested place
  | zeroing phase =>
      rw [accessCode]
      exact leads_yields (section_leads (fun phase sh' same => inside (.zeroing phase) sh' same rfl rfl)
        (fun sh' same => inside (.asking .want) sh' same rfl rfl) phase)
  | asking phase =>
      cases phase with
      | want => exact inside (.asking .inside) sh rfl rfl rfl
      | inside =>
          intro after reached done
          cases done
          refine still_requested requested ⟨rfl, rfl, rfl⟩ ?_
          rw [place]
          exact ⟨rfl, rfl⟩
      | leave => exact requests_end requested place rfl rfl
  | signallingUpdate => exact inside .awaitingUpdate sh rfl rfl rfl
  | awaitingUpdate => exact fun _ => inside (.asking .leave) sh rfl rfl rfl

end Accesses

theorem set_slot_commands {i : Nat} {slot : Slot} :
    SameCommands sh.control (sh.setSlot i slot).control := ⟨rfl, rfl, rfl⟩

theorem process_requests (requested : Requested procs prm sh.control) (n : Nat) :
    (processCode n (procs n)).Yields sh (StillRequested procs n prm) := by
  cases place : procs n with
  | mk pid pc =>
      have idle : ∀ pc' sh', SameCommands sh.control sh'.control →
          SameAsking ⟨pid, pc⟩ ⟨pid, pc'⟩ → StillRequested procs n prm ⟨pid, pc'⟩ sh' :=
        fun pc' sh' commands asking => still_requested requested commands (by rwa [place])
      have same := same_commands_refl sh.control
      cases pc with
      | raising =>
          intro after reached done
          cases done
          exact idle .locking _ set_slot_commands ⟨rfl, rfl⟩
      | locking => exact idle .waiting sh same ⟨rfl, rfl⟩
      | waiting => exact fun _ => idle .popping sh same ⟨rfl, rfl⟩
      | popping =>
          intro after reached done
          dsimp only at done
          split at done
          · cases done
            exact idle _ _ set_slot_commands ⟨rfl, rfl⟩
          · cases done
      | unlocking mail =>
          cases mail with
          | job accesses => exact idle (.working accesses) sh same ⟨rfl, rfl⟩
          | del => exact idle (.dealloc .locking) sh same ⟨rfl, rfl⟩
      | working rest =>
          cases rest with
          | nil =>
              intro after reached done
              cases done
              exact idle .locking sh same ⟨rfl, rfl⟩
          | cons a rest =>
              intro after reached done
              cases done
              exact idle (.access a rest .checking) sh same ⟨rfl, rfl⟩
      | access a rest pc =>
          rw [processCode]
          exact access_requests requested place
      | dealloc pc =>
          rw [processCode]
          refine leads_yields (dealloc_leads (t := .process n) (fun pc => (⟨pid, .dealloc pc⟩ : ProcessPc))
            (⟨pid, .lowering⟩ : ProcessPc) (fun pc' sh' requests _ => ?_) fun _ => ?_)
          · exact idle (.dealloc pc') sh' ⟨requests.queue, requests.command, requests.fresh⟩ ⟨rfl, rfl⟩
          · exact idle .lowering sh same ⟨rfl, rfl⟩
      | lowering =>
          intro after reached done
          cases done
          exact idle .gone _ set_slot_commands ⟨rfl, rfl⟩
      | gone => trivial

theorem prm_requests (requested : Requested procs prm sh.control) :
    (prmCode prm).Yields sh fun (prm' : PrmPc) (sh' : Shared) => Requested procs prm' sh'.control := by
  have other : ∀ (prm' : PrmPc) (sh' : Shared), sh'.control = sh.control → prm'.command = prm.command →
      (∀ cmd addr pc, prm' = .serving cmd addr pc → (sh.control.command cmd).addr = addr) →
      prm' ≠ .popping → Requested procs prm' sh'.control := by
    intro prm' sh' same command serves popping
    rw [same]
    exact requested_served requested command serves fun there => absurd there popping
  have quiet : ∀ (prm' : PrmPc) (sh' : Shared), sh'.control = sh.control → prm'.command = prm.command →
      (∀ cmd addr pc, prm' ≠ .serving cmd addr pc) → prm' ≠ .popping →
      Requested procs prm' sh'.control := fun prm' sh' same command serves =>
    other prm' sh' same command fun cmd addr pc there => absurd there (serves cmd addr pc)
  cases prm with
  | locking => exact quiet .waiting sh rfl rfl (by simp) (by simp)
  | waiting =>
      intro ready
      refine requested_served requested rfl (fun _ _ _ there => by cases there) fun _ empty => ?_
      simp [empty] at ready
  | popping =>
      intro after reached done
      dsimp only at done
      split at done
      · rename_i queue
        cases done
        exact requested_popped requested queue
      · cases done
  | unlocking cmd => exact quiet (.fetching cmd) sh rfl rfl (by simp) (by simp)
  | fetching cmd =>
      intro after reached done
      cases done
      refine other _ sh rfl rfl (fun _ _ _ there => ?_) (by simp)
      cases there
      rfl
  | serving cmd addr pc =>
      have stays : ∀ (pc' : ServicePc) (sh' : Shared), sh'.control = sh.control →
          Requested procs (.serving cmd addr pc') sh'.control := fun pc' sh' same => by
        refine other _ sh' same rfl (fun _ _ _ there => ?_) (by simp)
        cases there
        exact requested.serves cmd addr pc rfl
      rw [prmCode]
      refine leads_yields (service_leads (t := .prm) (fun pc => .serving cmd addr pc)
        (.reporting cmd .want) stays ?_ pc)
      exact quiet (.reporting cmd .want) sh rfl rfl (by simp) (by simp)
  | reporting cmd phase =>
      cases phase with
      | want => exact quiet (.reporting cmd .inside) sh rfl rfl (by simp) (by simp)
      | inside =>
          intro after reached done
          cases done
          exact requested_reported requested
      | leave => exact quiet .locking sh rfl rfl (by simp) (by simp)
  | signalling cmd => exact quiet (.reporting cmd .leave) sh rfl rfl (by simp) (by simp)

theorem ui_commands (place : UiPc) :
    (uiCode place).Spares fun sh sh' => SameCommands sh.control sh'.control := by
  have same : ∀ sh : Shared, SameCommands sh.control sh.control := fun sh => same_commands_refl _
  cases place with
  | creating past pc =>
      cases pc with
      | selecting =>
          intro before after reached done
          dsimp only at done
          split at done <;> cases done
          · exact same _
          · exact set_slot_commands
      | allocating i page phase =>
          cases phase with
          | inside =>
              intro before after reached done
              obtain ⟨_, -, made⟩ := bind_eq_ok.mp done
              cases made
              exact same _
          | leave => cases page <;> trivial
          | want => trivial
      | mapping i page k =>
          intro before after reached done
          cases done
          exact same _
      | mappingPage i page k phase =>
          cases phase with
          | inside =>
              intro before after reached done
              obtain ⟨_, -, made⟩ := bind_eq_ok.mp done
              cases made
              exact same _
          | _ => trivial
      | filling i page =>
          intro before after reached done
          cases done
          exact set_slot_commands
      | spawning i => exact fun before => ⟨rfl, rfl, rfl⟩
      | freeing i =>
          intro before after reached done
          cases done
      | _ => trivial
  | testing pid =>
      intro before after reached done
      cases done
      exact same _
  | composing pid mail pc =>
      cases pc with
      | testing =>
          intro before after reached done
          dsimp only at done
          split at done
          · cases done
            exact same _
          · split at done
            · cases done
            · split at done <;> cases done <;> exact same _
      | pushing =>
          intro before after reached done
          dsimp only at done
          split at done
          · cases done
            exact same _
          · split at done <;> cases done
            exact set_slot_commands
      | _ => trivial
  | marking pid =>
      intro before after reached done
      cases done
      exact set_slot_commands
  | _ => trivial

theorem daemon_commands (place : DaemonPc) :
    (daemonCode place).Spares fun sh sh' => SameCommands sh.control sh'.control := by
  cases place with
  | aging =>
      intro before after reached done
      cases done
      exact ⟨rfl, rfl, rfl⟩
  | reporting =>
      intro before after reached done
      cases done
      exact ⟨rfl, rfl, rfl⟩
  | _ => trivial

end Statements

/-! Runs. -/

section Runs
variable {s : Threads} {event : Event Thread Place}

theorem procs_moved {n : Nat} {post : Place (.process n) → Shared → Prop}
    (moved : Moved code event s (.process n) post) :
    procs (next code s event) =
      Function.update (procs s) n ((next code s event).place (.process n)) := by
  funext m
  by_cases same : m = n
  · subst same
    rw [Function.update_self]
    rfl
  · rw [Function.update_of_ne same]
    exact moved.others (.process m) (by simpa using same)

theorem others_asking (unborn : Unborn s) (enabled : Enabled code s event)
    (whose : event.thread = .ui ∨ event.thread = .daemon) (n : Nat) :
    SameAsking (procs s n) (procs (next code s event) n) := by
  have apart : event.thread ≠ .process n := by rcases whose with same | same <;> simp [same]
  by_cases spawns : ∃ u does place, event = .runs u ∧ code u (s.place u) = .spawn does place ∧
      (does s.shared).2.1 = .process n
  · obtain ⟨u, does, place, rfl, there, child⟩ := spawns
    have born : n = s.shared.control.spawned := by
      have second := (spawn_next there s.shared).2
      rw [child] at second
      injection second
    subst born
    have gone : procs s s.shared.control.spawned = ⟨0, .gone⟩ := unborn _ (Nat.le_refl _)
    have started : ∃ i, procs (next code s (.runs u)) s.shared.control.spawned = ⟨i, .raising⟩ := by
      by_cases spawning : Spawning u (s.place u)
      · obtain ⟨i, after, code_eq⟩ := spawning_spawns spawning
        refine ⟨i, ?_⟩
        simp only [procs, next, code_eq, run, naps_place, holds_place, moves_self]
      · have within := code_within spawning
        rw [there] at within
        exact within.elim
    obtain ⟨i, started⟩ := started
    rw [gone, started]
    exact ⟨rfl, rfl⟩
  · have still : procs (next code s event) n = procs s n :=
      place_step apart fun u does place runs there child =>
        spawns ⟨u, does, place, runs, there, child⟩
    rw [still]
    exact same_asking_refl _

theorem requested_step (unborn : Unborn s) (enabled : Enabled code s event)
    (requested : Requested (procs s) (s.place .prm) s.shared.control) :
    Requested (procs (next code s event)) ((next code s event).place .prm)
      (next code s event).shared.control := by
  have bystanders : event.thread = .ui ∨ event.thread = .daemon →
      (code event.thread (s.place event.thread)).Spares
        (fun sh sh' => SameCommands sh.control sh'.control) →
      Requested (procs (next code s event)) ((next code s event).place .prm)
        (next code s event).shared.control := by
    intro whose spares
    have commands := step_spares (fun sh => same_commands_refl sh.control) fun _ => spares
    have prm : (next code s event).place .prm = s.place .prm := by
      refine place_step (by rcases whose with same | same <;> simp [same]) ?_
      intro u does place runs spawns child
      rw [(spawn_next spawns s.shared).2] at child
      cases child
    rw [prm]
    exact requested_quiet requested commands (others_asking unborn enabled whose)
  cases whose : event.thread with
  | ui =>
      refine bystanders (.inl whose) ?_
      rw [whose]
      exact ui_commands _
  | daemon =>
      refine bystanders (.inr whose) ?_
      rw [whose]
      exact daemon_commands _
  | prm =>
      have moved := step_yields whose enabled requested (prm_requests requested)
      have same : procs (next code s event) = procs s :=
        funext fun n => moved.others (.process n) (by simp)
      rw [same]
      exact moved.post
  | process n =>
      have here : StillRequested (procs s) n (s.place .prm) (procs s n) s.shared := by
        rw [StillRequested, Function.update_eq_self]
        exact requested
      have moved : Moved code event s (.process n) (StillRequested (procs s) n (s.place .prm)) :=
        step_yields whose enabled here
        (process_requests requested n)
      rw [procs_moved moved, moved.others .prm (by simp)]
      exact moved.post

theorem start_requested (maxNumOfProc prcBlkSize : Nat) (machine : Machine) :
    Requested (procs (start maxNumOfProc prcBlkSize machine)) .locking
      (start maxNumOfProc prcBlkSize machine).shared.control where
  numbered n cmd addr has := by rcases has with there | there <;> cases there
  own m n cmd addr addr' first := by rcases first with there | there <;> cases there
  draft n cmd addr there := by cases there
  once := List.nodup_nil
  awaited cmd member := by cases member
  serves _ _ _ there := by cases there
  popping there := by cases there

theorem run_requested {maxNumOfProc prcBlkSize : Nat} {machine : Machine}
    {past : List (Event Thread Place)}
    (reached : Run (program code) (start maxNumOfProc prcBlkSize machine) past s) :
    Unborn s ∧ Requested (procs s) (s.place .prm) s.shared.control := by
  induction reached with
  | nil => exact ⟨fun n _ => rfl, start_requested ..⟩
  | step event _ enabled ih => exact ⟨unborn_step ih.1 enabled, requested_step ih.1 enabled ih.2⟩

end Runs

end VmSim.ThreadCode
