import VmSim.ThreadCode

/-!
The order of the locks: each place of the code claims the locks its thread has
there, and a thread takes a lock only above those. First come the mutexes of the
container and of the daemon, then the MMU, then all others.
-/

namespace VmSim.ThreadCode
open LockedThreads

/-! Which locks a thread has where it stands. -/

def Phase.claims (lock : Lock) (mode : Mode) (outer : List (Lock × Mode)) : Phase → List (Lock × Mode)
  | .want => outer
  | .inside => (lock, mode) :: outer
  | .leave => (lock, mode) :: outer

def AccessPc.claims : AccessPc → List (Lock × Mode)
  | .checking => []
  | .acquiring => []
  | .testing => [(.mmu, .read)]
  | .counting _ phase => phase.claims .stats .write [(.mmu, .read)]
  | .faulting => [(.mmu, .read)]
  | .requesting => []
  | .pushing _ phase => phase.claims .prmQueue .write []
  | .signallingPush _ => [(.prmQueue, .write)]
  | .completing _ phase => phase.claims .prm .write []
  | .reacquiring => []
  | .retesting => [(.mmu, .read)]
  | .referencing phase => phase.claims .refcnt .write [(.mmu, .read)]
  | .copying => [(.mmu, .read)]
  | .releasing => [(.mmu, .read)]
  | .reading _ phase => phase.claims .refcnt .read []
  | .zeroing phase => phase.claims .refcnt .write []
  | .asking phase => phase.claims .daemon .write []
  | .signallingUpdate => [(.daemon, .write)]
  | .awaitingUpdate => [(.daemon, .write)]

def DeallocPc.claims (pid : Nat) : DeallocPc → List (Lock × Mode)
  | .locking => []
  | .emptying phase => phase.claims (.mail pid) .write [(.cont, .write)]
  | .freeingPage _ phase => phase.claims .mmu .write [(.cont, .write)]
  | .freeingBlock phase => phase.claims .disk .write [(.cont, .write)]
  | _ => [(.cont, .write)]

def ProcessPc.claims (place : ProcessPc) : List (Lock × Mode) :=
  match place.pc with
  | .waiting => [(.mail place.pid, .write)]
  | .popping => [(.mail place.pid, .write)]
  | .unlocking _ => [(.mail place.pid, .write)]
  | .access _ _ pc => pc.claims
  | .dealloc pc => pc.claims place.pid
  | _ => []

def ServicePc.claims : ServicePc → List (Lock × Mode)
  | .acquiring => []
  | .syncing _ phase => phase.claims .disk .write [(.mmu, .write)]
  | .loading phase => phase.claims .disk .read [(.mmu, .write)]
  | _ => [(.mmu, .write)]

def PrmPc.claims : PrmPc → List (Lock × Mode)
  | .locking => []
  | .waiting => [(.prmQueue, .write)]
  | .popping => [(.prmQueue, .write)]
  | .unlocking _ => [(.prmQueue, .write)]
  | .fetching _ => []
  | .serving _ _ pc => pc.claims
  | .reporting _ phase => phase.claims .prm .write []
  | .signalling _ => [(.prm, .write)]

def DaemonPc.claims : DaemonPc → List (Lock × Mode)
  | .locking => []
  | .aging => [(.mmu, .read), (.daemon, .write)]
  | .releasing => [(.mmu, .read), (.daemon, .write)]
  | _ => [(.daemon, .write)]

def CreatePc.claims : CreatePc → List (Lock × Mode)
  | .locking => []
  | .selecting => [(.cont, .write)]
  | .allocating _ _ phase => phase.claims .disk .write [(.cont, .write)]
  | .mapping _ _ _ => [(.cont, .write)]
  | .mappingPage _ _ _ phase => phase.claims .mmu .write [(.cont, .write)]
  | .filling _ _ => [(.cont, .write)]
  | .unlocking _ => [(.cont, .write)]
  | .spawning _ => []
  | .spinning _ => []
  | .refusing _ => [(.cont, .write)]
  | .freeing _ => []

/-- `process_destroy` mails under the container's mutex, the other commands do not. -/
def Mail.claims : Mail → List (Lock × Mode)
  | .job _ => []
  | .del => [(.cont, .write)]

def ComposePc.claims (pid : Nat) (outer : List (Lock × Mode)) : ComposePc → List (Lock × Mode)
  | .testing => outer
  | .locking => outer
  | _ => (.mail pid, .write) :: outer

def UiPc.claims : UiPc → List (Lock × Mode)
  | .idle => []
  | .creating _ pc => pc.claims
  | .destroying _ => []
  | .composing pid mail pc => pc.claims pid mail.claims
  | _ => [(.cont, .write)]

def claims : ∀ t, Place t → List (Lock × Mode)
  | .ui, place => UiPc.claims place
  | .prm, place => PrmPc.claims place
  | .daemon, place => DaemonPc.claims place
  | .process _, place => ProcessPc.claims place

def rank : Lock → Nat
  | .cont => 0
  | .daemon => 0
  | .mmu => 1
  | _ => 2

/-! Each kind of statement keeps to the claims. -/

section Obedience
variable {own : ∀ t, Place t → List (Lock × Mode)} {t : Thread} {place next : Place t}

theorem go_on_obeys (same : own t next = own t place) : Obeys own place (goOn next) := by
  intro sh after reached done
  cases done
  exact same

theorem on_mmu_obeys {does : MemoryUnit.Mmu → Outcome MemoryUnit.Mmu}
    (same : own t next = own t place) : Obeys own place (onMmu does next) := by
  intro sh after reached done
  obtain ⟨mmu, -, made⟩ := bind_eq_ok.mp done
  cases made
  exact same

theorem on_control_obeys {does : Control → Control} (same : own t next = own t place) :
    Obeys own place (onControl does next) := by
  intro sh after reached done
  cases done
  exact same

theorem test_mmu_obeys {test : MemoryUnit.Mmu → Outcome Bool} {yes no : Place t}
    (left : own t yes = own t place) (right : own t no = own t place) :
    Obeys own place (testMmu test yes no) := by
  intro sh after reached done
  obtain ⟨found, -, made⟩ := bind_eq_ok.mp done
  cases made
  cases found with
  | true => exact left
  | false => exact right

theorem section_obeys {lock : Lock} {mode : Mode} {does : MemoryUnit.Mmu → Outcome MemoryUnit.Mmu}
    {pc : Phase → Place t} {outer : List (Lock × Mode)}
    (places : ∀ phase, own t (pc phase) = phase.claims lock mode outer) (ends : own t next = outer)
    (phase : Phase) : Obeys own (pc phase) (mmuSection lock mode does pc next phase) := by
  cases phase with
  | want =>
      show own t (pc .inside) = (lock, mode) :: own t (pc .want)
      rw [places, places]
      rfl
  | inside => exact on_mmu_obeys (by rw [places, places]; rfl)
  | leave => exact ⟨mode, by rw [places, ends]; rfl⟩

theorem set_running_obeys {pid : Nat} {running : Bool} (same : own t next = own t place) :
    Obeys own place (setRunning pid running next) := by
  intro sh after reached done
  cases done
  exact same

variable {a : Access} {here : AccessPc → Place t}

theorem access_obeys (places : ∀ pc, own t (here pc) = pc.claims) (ends : own t next = [])
    (pc : AccessPc) : Obeys own (here pc) (accessCode a here next pc) := by
  cases pc with
  | checking => exact on_mmu_obeys (by simp [places, AccessPc.claims])
  | acquiring => simp [accessCode, Obeys, places, AccessPc.claims]
  | testing =>
      rw [accessCode]
      apply test_mmu_obeys <;> simp [places, AccessPc.claims, Phase.claims]
  | counting hit phase =>
      exact section_obeys (fun phase => places (.counting hit phase))
        (by cases hit <;> simp [places, AccessPc.claims, Phase.claims]) phase
  | faulting => exact ⟨.read, by simp [places, AccessPc.claims]⟩
  | requesting =>
      intro sh after reached done
      cases done
      simp [places, AccessPc.claims, Phase.claims]
  | pushing cmd phase =>
      cases phase with
      | want => simp [accessCode, Obeys, places, AccessPc.claims, Phase.claims]
      | inside =>
          intro sh after reached done
          cases done
          split <;> simp [places, AccessPc.claims, Phase.claims]
      | leave => exact ⟨.write, by simp [places, AccessPc.claims, Phase.claims]⟩
  | signallingPush cmd => simp [accessCode, Obeys, places, AccessPc.claims, Phase.claims]
  | completing cmd phase =>
      cases phase with
      | want => simp [accessCode, Obeys, places, AccessPc.claims, Phase.claims]
      | inside => simp [accessCode, Obeys, places, AccessPc.claims, Phase.claims]
      | leave => exact ⟨.write, by simp [places, AccessPc.claims, Phase.claims]⟩
  | reacquiring => simp [accessCode, Obeys, places, AccessPc.claims]
  | retesting =>
      rw [accessCode]
      apply test_mmu_obeys <;> simp [places, AccessPc.claims, Phase.claims]
  | referencing phase =>
      exact section_obeys (fun phase => places (.referencing phase))
        (by simp [places, AccessPc.claims]) phase
  | copying => exact on_mmu_obeys (by simp [places, AccessPc.claims])
  | releasing => exact ⟨.read, by simp [places, AccessPc.claims, Phase.claims]⟩
  | reading due phase =>
      cases phase with
      | want => simp [accessCode, Obeys, places, AccessPc.claims, Phase.claims]
      | inside =>
          rw [accessCode]
          apply test_mmu_obeys <;> simp [places, AccessPc.claims, Phase.claims]
      | leave =>
          exact ⟨.read, by cases due <;> simp [places, ends, AccessPc.claims, Phase.claims]⟩
  | zeroing phase =>
      exact section_obeys (fun phase => places (.zeroing phase))
        (by simp [places, AccessPc.claims, Phase.claims]) phase
  | asking phase =>
      cases phase with
      | want => simp [accessCode, Obeys, places, AccessPc.claims, Phase.claims]
      | inside =>
          rw [accessCode]
          apply on_control_obeys
          simp [places, AccessPc.claims, Phase.claims]
      | leave => exact ⟨.write, by simp [places, ends, AccessPc.claims, Phase.claims]⟩
  | signallingUpdate => simp [accessCode, Obeys, places, AccessPc.claims]
  | awaitingUpdate => simp [accessCode, Obeys, places, AccessPc.claims, Phase.claims]

theorem dealloc_obeys {pid : Nat} {here : DeallocPc → Place t}
    (places : ∀ pc, own t (here pc) = pc.claims pid) (ends : own t next = []) (pc : DeallocPc) :
    Obeys own (here pc) (deallocCode pid here next pc) := by
  cases pc with
  | locking => simp [deallocCode, Obeys, places, DeallocPc.claims]
  | checking =>
      intro sh after reached done
      simp only [bind_eq_ok] at done
      obtain ⟨-, -, -, -, made⟩ := done
      cases made
      simp [places, DeallocPc.claims, Phase.claims]
  | emptying phase =>
      cases phase with
      | want => simp [deallocCode, Obeys, places, DeallocPc.claims, Phase.claims]
      | inside =>
          intro sh after reached done
          dsimp only at done
          split at done
          · cases done
          · cases done
            simp [places, DeallocPc.claims, Phase.claims]
      | leave => exact ⟨.write, by simp [places, DeallocPc.claims, Phase.claims]⟩
  | freeing page =>
      intro sh after reached done
      cases done
      split <;> simp [places, DeallocPc.claims, Phase.claims]
  | freeingPage page phase =>
      exact section_obeys (fun phase => places (.freeingPage page phase))
        (by simp [places, DeallocPc.claims]) phase
  | freeingBlock phase =>
      cases phase with
      | want => simp [deallocCode, Obeys, places, DeallocPc.claims, Phase.claims]
      | inside =>
          intro sh after reached done
          obtain ⟨disk, -, made⟩ := bind_eq_ok.mp done
          cases made
          simp [places, DeallocPc.claims, Phase.claims]
      | leave => exact ⟨.write, by simp [places, DeallocPc.claims, Phase.claims]⟩
  | marking =>
      intro sh after reached done
      cases done
      simp [places, DeallocPc.claims]
  | signalling => simp [deallocCode, Obeys, places, DeallocPc.claims]
  | unlocking => exact ⟨.write, by simp [places, ends, DeallocPc.claims]⟩

theorem map_page_obeys {addr : VirtAddr} {again : Bool} {mapped full : Place t}
    (left : own t mapped = own t place) (right : own t full = own t place) :
    Obeys own place (mapPage addr again mapped full) := by
  have both : ∀ errcode : Errcode,
      own t (if errcode = .ecSuccess then mapped else full) = own t place := by
    intro errcode
    split
    · exact left
    · exact right
  intro sh after reached done
  obtain ⟨⟨errcode, mmu⟩, -, made⟩ := bind_eq_ok.mp done
  dsimp only at made
  split at made
  · obtain ⟨-, -, made⟩ := bind_eq_ok.mp made
    cases made
    exact both errcode
  · cases made
    exact both errcode

theorem service_obeys {addr : VirtAddr} {here : ServicePc → Place t}
    (places : ∀ pc, own t (here pc) = pc.claims) (ends : own t next = []) (pc : ServicePc) :
    Obeys own (here pc) (serviceCode addr here next pc) := by
  cases pc with
  | acquiring => simp [serviceCode, Obeys, places, ServicePc.claims]
  | mapping =>
      rw [serviceCode]
      apply map_page_obeys <;> simp [places, ServicePc.claims, Phase.claims]
  | choosing =>
      intro sh after reached done
      obtain ⟨⟨victim, prm, mmu⟩, -, made⟩ := bind_eq_ok.mp done
      cases made
      simp [places, ServicePc.claims]
  | testing victim =>
      rw [serviceCode]
      apply test_mmu_obeys <;> simp [places, ServicePc.claims, Phase.claims]
  | syncing victim phase =>
      exact section_obeys (fun phase => places (.syncing victim phase))
        (by simp [places, ServicePc.claims]) phase
  | unmapping victim => exact on_mmu_obeys (by simp [places, ServicePc.claims])
  | remapping =>
      rw [serviceCode]
      apply map_page_obeys <;> simp [places, ServicePc.claims, Phase.claims]
  | loading phase =>
      exact section_obeys (fun phase => places (.loading phase)) (by simp [places, ServicePc.claims])
        phase
  | releasing => exact ⟨.write, by simp [places, ends, ServicePc.claims]⟩

end Obedience

theorem process_obeys (n : Nat) (place : ProcessPc) :
    Obeys claims (t := .process n) place (processCode n place) := by
  obtain ⟨pid, pc⟩ := place
  cases pc with
  | raising => exact set_running_obeys rfl
  | locking => rfl
  | waiting => exact ⟨rfl, rfl⟩
  | popping =>
      intro sh after reached done
      dsimp only at done
      split at done
      · cases done
        rfl
      · cases done
  | unlocking mail =>
      cases mail with
      | job accesses => exact ⟨.write, rfl⟩
      | del => exact ⟨.write, rfl⟩
  | working rest =>
      cases rest with
      | nil => exact go_on_obeys rfl
      | cons a rest => exact go_on_obeys rfl
  | access a rest pc =>
      have places : ∀ pc, claims (.process n) ⟨pid, .access a rest pc⟩ = pc.claims := fun _ => rfl
      refine access_obeys (t := .process n) places ?_ pc
      rfl
  | dealloc pc =>
      have places : ∀ pc, claims (.process n) ⟨pid, .dealloc pc⟩ = pc.claims pid := fun _ => rfl
      refine dealloc_obeys (t := .process n) places ?_ pc
      rfl
  | lowering => exact set_running_obeys rfl
  | gone => rfl

theorem prm_obeys (place : PrmPc) : Obeys claims (t := .prm) place (prmCode place) := by
  cases place with
  | locking => rfl
  | waiting => exact ⟨rfl, rfl⟩
  | popping =>
      intro sh after reached done
      dsimp only at done
      split at done
      · cases done
        rfl
      · cases done
  | unlocking cmd => exact ⟨.write, rfl⟩
  | fetching cmd =>
      intro sh after reached done
      cases done
      rfl
  | serving cmd addr pc =>
      have places : ∀ pc, claims .prm (.serving cmd addr pc) = pc.claims := fun _ => rfl
      exact service_obeys places rfl pc
  | reporting cmd phase =>
      cases phase with
      | want => rfl
      | inside =>
          intro sh after reached done
          cases done
          rfl
      | leave => exact ⟨.write, rfl⟩
  | signalling cmd => rfl

theorem daemon_obeys (place : DaemonPc) : Obeys claims (t := .daemon) place (daemonCode place) := by
  cases place with
  | locking => rfl
  | waiting => exact ⟨rfl, rfl⟩
  | acquiring => rfl
  | aging =>
      rw [daemonCode]
      exact on_mmu_obeys rfl
  | releasing => exact ⟨.read, rfl⟩
  | reporting =>
      rw [daemonCode]
      exact on_control_obeys rfl
  | signalling => rfl
  | unlocking => exact ⟨.write, rfl⟩

theorem create_obeys (past : Nat → PackedBitmap.Block) (pc : CreatePc) :
    Obeys claims (t := .ui) (.creating past pc) (createCode past pc) := by
  cases pc with
  | locking => rfl
  | selecting =>
      intro sh after reached done
      dsimp only at done
      split at done <;> cases done <;> rfl
  | allocating i page phase =>
      cases phase with
      | want => rfl
      | inside =>
          intro sh after reached done
          obtain ⟨⟨page, disk⟩, -, made⟩ := bind_eq_ok.mp done
          cases made
          rfl
      | leave =>
          cases page with
          | none => exact ⟨.write, rfl⟩
          | some page => exact ⟨.write, rfl⟩
  | mapping i page k =>
      intro sh after reached done
      cases done
      split <;> rfl
  | mappingPage i page k phase =>
      have places : ∀ phase, claims .ui (.creating past (.mappingPage i page k phase)) =
          phase.claims .mmu .write [(.cont, .write)] := fun _ => rfl
      refine section_obeys (t := .ui) places ?_ phase
      rfl
  | filling i page =>
      intro sh after reached done
      cases done
      rfl
  | unlocking i => exact ⟨.write, rfl⟩
  | spawning i => exact ⟨rfl, fun _ => rfl⟩
  | spinning i => exact ⟨rfl, rfl⟩
  | refusing i => exact ⟨.write, rfl⟩
  | freeing i =>
      intro sh after reached done
      cases done

theorem mail_after_claims (pid : Nat) (mail : Mail) : (mail.after pid).claims = mail.claims := by
  cases mail <;> rfl

theorem compose_obeys (pid : Nat) (mail : Mail) (pc : ComposePc) :
    Obeys claims (t := .ui) (.composing pid mail pc) (composeCode pid mail pc) := by
  cases pc with
  | testing =>
      intro sh after reached done
      dsimp only at done
      split at done
      · cases done
        exact mail_after_claims pid mail
      · split at done
        · cases done
        · split at done
          · cases done
            exact mail_after_claims pid mail
          · cases done
            rfl
  | locking => rfl
  | pushing =>
      intro sh after reached done
      dsimp only at done
      split at done
      · cases done
        rfl
      · split at done
        · cases done
        · cases done
          rfl
  | signalling => rfl
  | unlocking =>
      refine ⟨.write, ?_⟩
      change (Lock.mail pid, Mode.write) :: mail.claims = (Lock.mail pid, Mode.write) :: _
      exact congrArg _ (mail_after_claims pid mail).symm

theorem ui_obeys (place : UiPc) : Obeys claims (t := .ui) place (uiCode place) := by
  cases place with
  | idle =>
      refine ⟨rfl, fun next command => ?_⟩
      cases next with
      | creating past pc =>
          cases pc with
          | locking => rfl
          | _ => exact command.elim
      | composing pid mail pc =>
          cases mail with
          | job accesses =>
              cases pc with
              | testing => rfl
              | _ => exact command.elim
          | del => exact command.elim
      | destroying pid => rfl
      | _ => exact command.elim
  | creating past pc => exact create_obeys past pc
  | destroying pid => rfl
  | testing pid =>
      intro sh after reached done
      cases done
      split <;> rfl
  | composing pid mail pc => exact compose_obeys pid mail pc
  | marking pid =>
      intro sh after reached done
      cases done
      rfl
  | waiting pid => exact ⟨rfl, rfl⟩
  | returning => exact ⟨.write, rfl⟩

theorem rank_bounded (lock : Lock) : rank lock ≤ 2 := by cases lock <;> simp [rank]

def Ordered (held : List (Lock × Mode)) : Prop :=
  held.Pairwise fun inner outer => rank outer.1 < rank inner.1

theorem nothing_ordered : Ordered [] := .nil

theorem single_ordered (claim : Lock × Mode) : Ordered [claim] := List.pairwise_singleton ..

theorem phase_ordered {lock : Lock} {mode : Mode} {outer : List (Lock × Mode)} (ordered : Ordered outer)
    (above : ∀ claim ∈ outer, rank claim.1 < rank lock) (phase : Phase) :
    Ordered (phase.claims lock mode outer) := by
  cases phase with
  | want => exact ordered
  | inside => exact List.pairwise_cons.mpr ⟨above, ordered⟩
  | leave => exact List.pairwise_cons.mpr ⟨above, ordered⟩

theorem access_ordered (pc : AccessPc) : Ordered pc.claims := by
  cases pc with
  | counting hit phase => exact phase_ordered (single_ordered _) (by simp [rank]) phase
  | pushing cmd phase => exact phase_ordered nothing_ordered (by simp) phase
  | completing cmd phase => exact phase_ordered nothing_ordered (by simp) phase
  | referencing phase => exact phase_ordered (single_ordered _) (by simp [rank]) phase
  | reading due phase => exact phase_ordered nothing_ordered (by simp) phase
  | zeroing phase => exact phase_ordered nothing_ordered (by simp) phase
  | asking phase => exact phase_ordered nothing_ordered (by simp) phase
  | _ => simp [AccessPc.claims, Ordered]

theorem dealloc_ordered (pid : Nat) (pc : DeallocPc) : Ordered (pc.claims pid) := by
  cases pc with
  | emptying phase => exact phase_ordered (single_ordered _) (by simp [rank]) phase
  | freeingPage page phase => exact phase_ordered (single_ordered _) (by simp [rank]) phase
  | freeingBlock phase => exact phase_ordered (single_ordered _) (by simp [rank]) phase
  | _ => simp [DeallocPc.claims, Ordered]

theorem process_ordered (place : ProcessPc) : Ordered place.claims := by
  obtain ⟨pid, pc⟩ := place
  cases pc with
  | access a rest pc => exact access_ordered pc
  | dealloc pc => exact dealloc_ordered pid pc
  | _ => simp [ProcessPc.claims, Ordered]

theorem prm_ordered (place : PrmPc) : Ordered place.claims := by
  cases place with
  | serving cmd addr pc =>
      cases pc with
      | syncing victim phase => exact phase_ordered (single_ordered _) (by simp [rank]) phase
      | loading phase => exact phase_ordered (single_ordered _) (by simp [rank]) phase
      | _ => simp [PrmPc.claims, ServicePc.claims, Ordered]
  | reporting cmd phase => exact phase_ordered nothing_ordered (by simp) phase
  | _ => simp [PrmPc.claims, Ordered]

theorem daemon_ordered (place : DaemonPc) : Ordered place.claims := by
  cases place <;> simp [DaemonPc.claims, Ordered, rank]

theorem compose_ordered (pid : Nat) (mail : Mail) (pc : ComposePc) :
    Ordered (pc.claims pid mail.claims) := by
  cases mail <;> cases pc <;> simp [ComposePc.claims, Mail.claims, Ordered, rank]

theorem ui_ordered (place : UiPc) : Ordered place.claims := by
  cases place with
  | creating past pc =>
      cases pc with
      | allocating i page phase => exact phase_ordered (single_ordered _) (by simp [rank]) phase
      | mappingPage i page k phase => exact phase_ordered (single_ordered _) (by simp [rank]) phase
      | _ => simp [UiPc.claims, CreatePc.claims, Ordered]
  | composing pid mail pc => exact compose_ordered pid mail pc
  | _ => simp [UiPc.claims, Ordered]

def lockOrder : LockOrder code where
  rank := rank
  top := 2
  bounded := rank_bounded
  claims := claims
  obeys
    | .ui, place => ui_obeys place
    | .prm, place => prm_obeys place
    | .daemon, place => daemon_obeys place
    | .process n, place => process_obeys n place
  ordered
    | .ui, place => ui_ordered place
    | .prm, place => prm_ordered place
    | .daemon, place => daemon_ordered place
    | .process _, place => process_ordered place

end VmSim.ThreadCode
