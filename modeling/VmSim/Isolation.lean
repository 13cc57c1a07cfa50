import VmSim.CleanPages
import VmSim.Library.StoreAgreement

/-!
Two runs that take the same steps and write different bytes. Bytes move no
page, so both runs pin, evict and load alike and their stores can be compared
action by action. Nothing clears a frame or a disk page, and so what a deleted
process wrote is handed on; what a process wrote that is still there when `p`
is created, or that writes afterwards, never reaches a page of `p`.
-/

namespace VmSim.ProcessTable
open PageTable DiskBlocks KeyedMap FramePool DemandPaging MemoryUnit BlockAllocator AlignedBlocks
open PageReplacement PagingRuns PagedBytes

/-- Steps that differ at most in the bytes of a write. -/
inductive Similar : Step → Step → Prop where
  | same (next : Step) : Similar next next
  | write {addr : VirtAddr} {buf buf' : List BYTE} : buf.length = buf'.length →
      Similar (.memory (.write addr buf)) (.memory (.write addr buf'))

/-- Past steps that differ in writes of the processes in `secret`, none of which
has been deleted since. -/
inductive Undeleted : (Nat → Prop) → List Step → List Step → Prop where
  | nil : Undeleted (fun _ => False) [] []
  | same {secret : Nat → Prop} {past past' : List Step} (next : Step) :
      Undeleted secret past past' → (∀ pid, next = .dealloc pid → ¬ secret pid) →
      Undeleted secret (next :: past) (next :: past')
  | write {secret : Nat → Prop} {past past' : List Step} {addr : VirtAddr} {buf buf' : List BYTE} :
      Undeleted secret past past' → buf.length = buf'.length →
      Undeleted (fun pid => pid = addr.pid ∨ secret pid) (.memory (.write addr buf) :: past)
        (.memory (.write addr buf') :: past')

/-- Steps since the creation of `p` that differ in the writes of other processes. -/
inductive Foreign (p : Nat) : List Step → List Step → Prop where
  | nil : Foreign p [] []
  | same {past past' : List Step} (next : Step) : Foreign p past past' → next ≠ .dealloc p →
      Foreign p (next :: past) (next :: past')
  | write {past past' : List Step} {addr : VirtAddr} {buf buf' : List BYTE} :
      Foreign p past past' → addr.pid ≠ p → buf.length = buf'.length →
      Foreign p (.memory (.write addr buf) :: past) (.memory (.write addr buf') :: past')

def CheckedStep (s : System) (next : Step) : Prop := next.Allowed s ∧ next.InPage s

instance (s : System) (next : Step) : Decidable (CheckedStep s next) :=
  inferInstanceAs (Decidable (_ ∧ _))

def sectionsOf (steps : List Step) : List Section :=
  steps.filterMap fun
    | .memory next => some next
    | _ => none

theorem undeleted_similar {secret : Nat → Prop} {past past' : List Step}
    (undeleted : Undeleted secret past past') : List.Forall₂ Similar past past' := by
  induction undeleted with
  | nil => exact .nil
  | same next _ _ ih => exact .cons (.same next) ih
  | write _ length ih => exact .cons (.write length) ih

theorem foreign_similar {p : Nat} {past past' : List Step} (foreign : Foreign p past past') :
    List.Forall₂ Similar past past' := by
  induction foreign with
  | nil => exact .nil
  | same next _ _ ih => exact .cons (.same next) ih
  | write _ _ length ih => exact .cons (.write length) ih

/-! Both runs keep the same books. -/

theorem similar_control {next next' : Step} (similar : Similar next next') (s : System) :
    next.control s = next'.control s := by
  cases similar <;> rfl

theorem similar_books {s s' after after' : System} {next next' : Step} {reply reply' : Reply}
    (similar : Similar next next') (same : sysBooks s = sysBooks s') (allowed : next.Allowed s)
    (allowed' : next'.Allowed s') (ran : next.run s = .ok (reply, after))
    (ran' : next'.run s' = .ok (reply', after')) :
    reply.code = reply'.code ∧ sysBooks after = sysBooks after' := by
  have controlled := (step_control allowed).1 reply after ran
  rw [same, similar_control similar, (step_control allowed').1 reply' after' ran'] at controlled
  injection controlled with results
  exact ⟨(congrArg Prod.fst results).symm, (congrArg Prod.snd results).symm⟩

theorem run_similar_books {begin begin' s s' : System} {past past' : List Step}
    (same : sysBooks begin = sysBooks begin') (run : Run CheckedStep begin past s)
    (run' : Run CheckedStep begin' past' s') (similar : List.Forall₂ Similar past past') :
    sysBooks s = sysBooks s' := by
  induction similar generalizing s s' with
  | nil =>
      cases run
      cases run'
      exact same
  | cons one _ ih =>
      cases run with
      | step next before guarded ran _ =>
          cases run' with
          | step next' before' guarded' ran' _ =>
              exact (similar_books one (ih before before') guarded.1 guarded'.1 ran ran').2

section Books
variable {s s' : System} (same : sysBooks s = sysBooks s')
include same

theorem books_table : s.cont.mmu.memIpt = s'.cont.mmu.memIpt := by
  change (sysBooks s).cont.mmu.memIpt = (sysBooks s').cont.mmu.memIpt
  rw [same]

theorem books_bitmap : s.cont.mmu.disk.allocBitmap = s'.cont.mmu.disk.allocBitmap := by
  change (sysBooks s).cont.mmu.disk.allocBitmap = (sysBooks s').cont.mmu.disk.allocBitmap
  rw [same]

theorem books_block : s.cont.prcBlkSize = s'.cont.prcBlkSize := by
  change (sysBooks s).cont.prcBlkSize = (sysBooks s').cont.prcBlkSize
  rw [same]

theorem books_pool : (storeOf s.cont.mmu).pool = (storeOf s'.cont.mmu).pool :=
  congrArg poolOf (books_table same)

end Books

structure Kept (begin s : System) : Prop where
  sound : ContSound s.cont
  prcBlkSize : s.cont.prcBlkSize = begin.cont.prcBlkSize
  pageSize : s.cont.mmu.mem.pageSize = begin.cont.mmu.mem.pageSize

theorem checked_run {begin s : System} {past : List Step} (sound : ContSound begin.cont)
    (run : Run CheckedStep begin past s) : Kept begin s := by
  induction run with
  | nil => exact ⟨sound, rfl, rfl⟩
  | step next _ guarded ran code ih =>
      have advanced := step_advances ih.sound guarded.1 guarded.2 ran code
      exact ⟨advanced.sound, advanced.prcBlkSize.trans ih.prcBlkSize,
        advanced.pageSize.trans ih.pageSize⟩

theorem checked_last {begin after : System} {next : Step} {past : List Step}
    (sound : ContSound begin.cont) (run : Run CheckedStep begin (next :: past) after) :
    ∃ s reply, Run CheckedStep begin past s ∧ ContSound s.cont ∧ CheckedStep s next ∧
      next.run s = .ok (reply, after) ∧ Advanced s next reply.code after := by
  cases run with
  | step _ before guarded ran code =>
      have sound₁ := (checked_run sound before).sound
      exact ⟨_, _, before, sound₁, guarded, ran, step_advances sound₁ guarded.1 guarded.2 ran code⟩

/-! Both runs perform the same actions. -/

theorem path_one {store last : ByteStore} {action : ByteAction} (path : Path store [action] last) :
    action.Enabled store ∧ last = action.apply store := by
  cases path with
  | step before enabled =>
      cases before
      exact ⟨enabled, rfl⟩

theorem path_two {store last : ByteStore} {first second : ByteAction}
    (path : Path store [second, first] last) :
    first.Enabled store ∧ second.Enabled (first.apply store) ∧
      last = second.apply (first.apply store) := by
  cases path with
  | step before enabled =>
      cases before with
      | step start first =>
          cases start
          exact ⟨first, enabled, rfl⟩

theorem swap_frame {store last : ByteStore} {key victim other : Key} (full : store.pool.free = [])
    (path : Path store [.load key, .evict victim] last) (distinct : other ≠ key) :
    last.pool.frame other = if other = victim then none else store.pool.frame other := by
  obtain ⟨evicts, -, rfl⟩ := path_two path
  obtain ⟨own, held⟩ := Option.ne_none_iff_exists'.mp evicts
  by_cases same : other = victim
  · subst same
    simp [Action.apply, giveBack, held, lend, full, distinct]
  · simp [Action.apply, giveBack, held, lend, full, distinct, same]

section Pairs
variable {s s' after after' : System} {next : Step} {code : Int}

/-- The books determine the actions: what was evicted is what is missing. -/
theorem performs_same (same : sysBooks s = sysBooks s') (kept : sysBooks after = sysBooks after')
    {actions actions' : List ByteAction} (left : Performs s next code actions)
    (right : Performs s' next code actions')
    (path : Path (storeOf s.cont.mmu) actions (storeOf after.cont.mmu))
    (path' : Path (storeOf s'.cont.mmu) actions' (storeOf after'.cont.mmu)) :
    actions = actions' := by
  have pool := books_pool same
  have free : s.cont.mmu.memIpt.freePages = s'.cont.mmu.memIpt.freePages :=
    congrArg Ipt.freePages (books_table same)
  cases left with
  | @create past page code slot returned first =>
      cases right with
      | @create _ page' _ slot' returned' first' =>
          have slots : slot = slot' := by omega
          rw [books_bitmap same, first'] at first
          injection first with pages
          rw [slots, pages, books_block same]
      | quiet still => exact absurd still id
  | dealloc =>
      cases right with
      | dealloc => rw [books_block same]
      | quiet still => exact absurd still id
  | @load addr =>
      cases right with
      | load => rfl
      | swap distinct full => exact absurd (free.trans full) (path_one path).1.2.2
      | quiet still => exact absurd still id
  | @swap addr victim distinct full =>
      cases right with
      | load => exact absurd (free.symm.trans full) (path_one path').1.2.2
      | @swap _ victim' distinct' full' =>
          have gone := swap_frame full path distinct
          have stays := swap_frame full' path' distinct
          rw [books_pool kept, stays, if_pos rfl] at gone
          -- Both runs end with the same resident pages, so they evicted the same one.
          by_cases one : victim = victim'
          · rw [one]
          · rw [if_neg one, ← pool] at gone
            exact absurd gone (path_two path).1
      | quiet still => exact absurd still id
  | read =>
      cases right with
      | read => rfl
      | quiet still => exact absurd still id
  | write =>
      cases right with
      | write => rfl
      | quiet still => exact absurd still id
  | quiet still =>
      cases right with
      | quiet still' => rfl
      | _ => exact absurd still id

theorem same_actions (same : sysBooks s = sysBooks s') {reply reply' : Reply} (guarded : next.Allowed s)
    (guarded' : next.Allowed s') (ran : next.run s = .ok (reply, after))
    (ran' : next.run s' = .ok (reply', after')) (advanced : Advanced s next reply.code after)
    (advanced' : Advanced s' next reply'.code after') :
    ∃ actions, Performs s next reply.code actions ∧
      Path (storeOf s.cont.mmu) actions (storeOf after.cont.mmu) ∧
      storeOf after'.cont.mmu = applyAll (storeOf s'.cont.mmu) actions := by
  obtain ⟨codes, kept⟩ := similar_books (.same next) same guarded guarded' ran ran'
  obtain ⟨actions, performs, path⟩ := advanced.performs
  obtain ⟨actions', performs', path'⟩ := advanced'.performs
  rw [← codes] at performs'
  have one := performs_same same kept performs performs' path path'
  exact ⟨actions, performs, path, one ▸ path_apply_all path'⟩

theorem write_applies {addr : VirtAddr} {buf : List BYTE}
    (advanced : Advanced s (.memory (.write addr buf)) code after) :
    (Action.write addr.key (changeOf addr buf)).Enabled (storeOf s.cont.mmu) ∧
      storeOf after.cont.mmu =
        (Action.write addr.key (changeOf addr buf)).apply (storeOf s.cont.mmu) := by
  obtain ⟨actions, performs, path⟩ := advanced.performs
  cases performs with
  | write => exact path_one path
  | quiet still => exact absurd still id

end Pairs

/-! Before `p`: the frames and disk pages that no writer of different bytes holds. -/

theorem alloc_discreet (secret : Key → Prop) (pid page backing npages : Nat) :
    ∀ action ∈ allocActions pid page backing npages, action.Discreet secret := by
  intro action member
  obtain ⟨number, slot, rfl⟩ := mem_alloc_actions member
  trivial

theorem free_discreet {secret : Key → Prop} {pid : Nat} (open' : ∀ page, ¬ secret (pid, page))
    (page npages : Nat) : ∀ action ∈ freeActions pid page npages, action.Discreet secret := by
  intro action member
  obtain ⟨number, rfl⟩ := mem_free_actions member
  exact open' number

theorem performs_alike {s : System} {next : Step} {code : Int} {actions : List ByteAction}
    {last right : ByteStore} {secret : Nat → Prop} (sound : ContSound s.cont)
    (spared : ∀ pid, next = .dealloc pid → ¬ secret pid) (performs : Performs s next code actions)
    (path : Path (storeOf s.cont.mmu) actions last)
    (alike : Alike (fun key : Key => secret key.1) (storeOf s.cont.mmu) right) :
    Alike (fun key : Key => secret key.1) last (applyAll right actions) := by
  have layout := sound.mmu.layout
  cases performs with
  | create returned first => exact path_alike alike layout path (alloc_discreet _ _ _ _ _)
  | @dealloc pid =>
      exact path_alike alike layout path (free_discreet (fun _ => spared pid rfl) _ _)
  | load => exact path_alike alike layout path (by simp [Action.Discreet])
  | @swap addr victim distinct full =>
      obtain ⟨evicts, loads, rfl⟩ := path_two path
      obtain ⟨absent, allocated, -⟩ := loads
      have absent' : (storeOf s.cont.mmu).pool.frame addr.key = none := by
        simpa [Action.apply, given_back_frame, distinct.symm] using absent
      exact swap_alike alike layout full evicts absent' allocated distinct
  | read => exact path_alike alike layout path (by simp [Action.Discreet])
  | write => exact path_alike alike layout path (by simp [Action.Discreet])
  | quiet still => exact path_alike alike layout path (by simp)

theorem undeleted_alike {begin s s' : System} {secret : Nat → Prop} {past past' : List Step}
    (sound : ContSound begin.cont) (run : Run CheckedStep begin past s)
    (run' : Run CheckedStep begin past' s') (undeleted : Undeleted secret past past') :
    Alike (fun key : Key => secret key.1) (storeOf s.cont.mmu) (storeOf s'.cont.mmu) := by
  induction undeleted generalizing s s' with
  | nil =>
      cases run
      cases run'
      exact alike_refl _ _
  | @same secret past past' next earlier spared ih =>
      obtain ⟨l, reply, before, sound₁, guarded, ran, advanced⟩ := checked_last sound run
      obtain ⟨l', reply', before', -, guarded', ran', advanced'⟩ := checked_last sound run'
      have same := run_similar_books rfl before before' (undeleted_similar earlier)
      obtain ⟨actions, performs, path, view⟩ :=
        same_actions same guarded.1 guarded'.1 ran ran' advanced advanced'
      rw [view]
      exact performs_alike sound₁ spared performs path (ih before before')
  | write earlier length ih =>
      -- The writer joins the secret processes, and may write what it likes.
      obtain ⟨l, reply, before, -, -, -, advanced⟩ := checked_last sound run
      obtain ⟨l', reply', before', -, -, -, advanced'⟩ := checked_last sound run'
      rw [(write_applies advanced).2, (write_applies advanced').2]
      exact secret_write_alike (alike_mono (ih before before') fun _ => .inr) (.inl rfl) _ _

/-! From the creation of `p` on: the frames and disk pages of `p`. -/

section Creation
variable {s after : System} {past : Nat → PackedBitmap.Block} {p : Nat}

theorem create_cases (sound : ContSound s.cont)
    (ran : (Step.create past).run s = .ok (⟨p, []⟩, after)) :
    (∀ page, backingOf s.cont.mmu (p, page) = none) ∧ ∃ new, Live after.cont p new := by
  simp only [Step.run, bind_eq_ok, pure_eq_ok] at ran
  obtain ⟨⟨code, freed, cont⟩, called, codes⟩ := ran
  cases codes
  rcases init_process_cases sound past with ⟨full, -⟩ | ⟨slot, old, here, junk, cases⟩
  · rw [full] at called
    cases called
  · rcases cases with ⟨refused, -⟩ | ⟨wrapped, -⟩ | ⟨page, cont', made, created, -⟩
    · rw [refused] at called
      cases called
    · rw [wrapped] at called
      cases called
    · rw [made] at called
      cases called
      constructor
      · intro page'
        cases stored : backingOf s.cont.mmu (p, page') with
        | none => rfl
        | some backing =>
            -- Only a live slot backs pages, and the slot filled was junk.
            obtain ⟨q, ⟨there, used⟩, -⟩ := (sound.backing _ _).mp stored
            rw [here] at there
            cases there
            rw [junk] at used
            cases used
      · obtain ⟨bound, -⟩ := List.getElem?_eq_some_iff.mp here
        refine ⟨newProcess p page, ?_, rfl⟩
        simp [created.processes, bound]

theorem create_advances (sound : ContSound s.cont)
    (ran : (Step.create past).run s = .ok (⟨p, []⟩, after)) : Advanced s (.create past) p after := by
  have allowed : (Step.create past).Allowed s := trivial
  exact step_advances sound allowed trivial ran (Int.natCast_nonneg p)

theorem live_backed {cont : ProcCont} (sound : ContSound cont) {q : Process}
    (live : Live cont p q) (key : Key) (mine : InRange p 0 cont.prcBlkSize key) :
    backingOf cont.mmu key ≠ none := by
  obtain ⟨owner, -, inside⟩ := mine
  have stored := (sound.backing key _).mpr ⟨q, owner ▸ live, by omega, rfl⟩
  simp [stored]

end Creation

theorem alloc_spares (mine : Key → Prop) (pid page backing npages : Nat) :
    ∀ action ∈ allocActions pid page backing npages, action.Spares mine := by
  intro action member
  obtain ⟨number, slot, rfl⟩ := mem_alloc_actions member
  trivial

theorem free_spares {mine : Key → Prop} {pid : Nat} (other : ∀ page, ¬ mine (pid, page))
    (page npages : Nat) : ∀ action ∈ freeActions pid page npages, action.Spares mine := by
  intro action member
  obtain ⟨number, rfl⟩ := mem_free_actions member
  exact other number

theorem alloc_silent (pid page backing npages : Nat) (key : Key) (change : Nat → Option BYTE) :
    Action.write key change ∉ allocActions pid page backing npages := by
  intro member
  obtain ⟨number, slot, same⟩ := mem_alloc_actions member
  cases same

theorem free_silent (pid page npages : Nat) (key : Key) (change : Nat → Option BYTE) :
    Action.write key change ∉ freeActions pid page npages := by
  intro member
  obtain ⟨number, same⟩ := mem_free_actions member
  cases same

def ownWritten (p block : Nat) (past : List Step) (key : Key) (offset : Nat) : Option BYTE :=
  if InRange p 0 block key then lastWritten (sectionsOf past) key offset else none

section Own
variable {s : System} {next : Step} {code : Int} {actions : List ByteAction} {last : ByteStore}
  {p block : Nat}

theorem performs_spares (stays : next ≠ .dealloc p) (performs : Performs s next code actions) :
    ∀ action ∈ actions, action.Spares (InRange p 0 block) := by
  cases performs with
  | create returned first => exact alloc_spares _ _ _ _ _
  | @dealloc pid =>
      apply free_spares
      intro page mine
      exact stays (congrArg Step.dealloc mine.1)
  | _ => simp [Action.Spares]

theorem performs_preserves (sound : ContSound s.cont) (stays : next ≠ .dealloc p)
    (used : ∀ key, InRange p 0 block key → backingOf s.cont.mmu key ≠ none)
    (performs : Performs s next code actions) (path : Path (storeOf s.cont.mmu) actions last)
    {past : List Step} (preserves : Preserves (ownWritten p block past) (storeOf s.cont.mmu)) :
    Preserves (ownWritten p block (next :: past)) last := by
  have recorded := path_preserves sound.mmu.layout preserves path
  have spares : ∀ action ∈ actions, action.Spares (InRange p 0 block) :=
    performs_spares stays performs
  -- A step that writes nothing leaves the record of the process's pages as it was.
  have silent : (∀ key change, Action.write key change ∉ actions) →
      (∀ key, lastWritten (sectionsOf (next :: past)) key = lastWritten (sectionsOf past) key) →
      Preserves (ownWritten p block (next :: past)) last := by
    intro none unchanged
    apply preserves_mono recorded
    intro key offset value here
    unfold ownWritten at here
    split at here
    · rename_i mine
      have kept : recordAll (ownWritten p block past) actions key = ownWritten p block past key :=
        path_record (used key mine) path
          (fun action member => spares_mono (spares action member) fun _ one => one ▸ mine) (none key)
      rw [kept, ownWritten, if_pos mine, ← unchanged key]
      exact here
    · cases here
  cases performs with
  | create returned first =>
      exact silent (fun key change => alloc_silent _ _ _ _ key change) fun _ => rfl
  | dealloc => exact silent (fun key change => free_silent _ _ _ key change) fun _ => rfl
  | load => exact silent (by simp) fun _ => rfl
  | swap distinct full => exact silent (by simp) fun _ => rfl
  | read => exact silent (by simp) fun _ => rfl
  | @write addr buf =>
      apply preserves_mono recorded
      intro key offset value here
      unfold ownWritten at here
      split at here
      · rename_i mine
        change (if key = addr.key then
          (changeOf addr buf offset).or (lastWritten (sectionsOf past) key offset)
          else lastWritten (sectionsOf past) key offset) = some value at here
        -- A write by the process itself is recorded byte by byte.
        by_cases same : key = addr.key
        · subst same
          simpa [recordAll, Action.record, ownWritten, mine] using here
        · simpa [recordAll, Action.record, ownWritten, mine, same] using here
      · cases here
  | quiet still =>
      refine silent (by simp) fun key => ?_
      cases next with
      | start pid => rfl
      | destroy id => rfl
      | create past => exact absurd still id
      | dealloc pid => exact absurd still id
      | memory next =>
          cases next with
          | pin addr => rfl
          | age => rfl
          | _ => exact absurd still id

end Own

section Tails
variable {begin begin' s s' : System} {p block : Nat} {past past' : List Step}

theorem own_preserved (sound : ContSound begin.cont)
    (used : ∀ key, InRange p 0 block key → backingOf begin.cont.mmu key ≠ none)
    (run : Run CheckedStep begin past s) (stays : Step.dealloc p ∉ past) :
    (∀ key, InRange p 0 block key → backingOf s.cont.mmu key ≠ none) ∧
      Preserves (ownWritten p block past) (storeOf s.cont.mmu) := by
  induction run with
  | nil => exact ⟨used, ⟨by simp [ownWritten, sectionsOf, lastWritten],
      by simp [ownWritten, sectionsOf, lastWritten]⟩⟩
  | step next before guarded ran code ih =>
      -- No step so far has deleted `p`, so its pages keep their backing and their bytes.
      obtain ⟨kept, preserves⟩ := ih fun member => stays (List.mem_cons_of_mem _ member)
      have notNow : next ≠ .dealloc p := by
        rintro rfl
        exact stays (by simp)
      have sound₁ := (checked_run sound before).sound
      have advanced := step_advances sound₁ guarded.1 guarded.2 ran code
      obtain ⟨actions, performs, path⟩ := advanced.performs
      exact ⟨path_spares kept path (performs_spares notNow performs),
        performs_preserves sound₁ notNow kept performs path preserves⟩

theorem foreign_stays (foreign : Foreign p past past') :
    Step.dealloc p ∉ past ∧ Step.dealloc p ∉ past' := by
  induction foreign with
  | nil => simp
  | same next _ other ih => simp [ih, Ne.symm other]
  | write _ _ _ ih => simp [ih]

theorem last_written_congr (next : Section) {earlier earlier' : List Section} {key : Key}
    (same : lastWritten earlier key = lastWritten earlier' key) :
    lastWritten (next :: earlier) key = lastWritten (next :: earlier') key := by
  funext offset
  cases next <;> simp [lastWritten, same]

theorem foreign_written (foreign : Foreign p past past') {key : Key} (mine : key.1 = p) :
    lastWritten (sectionsOf past) key = lastWritten (sectionsOf past') key := by
  induction foreign with
  | nil => rfl
  | same next _ _ ih =>
      cases next with
      | memory next => exact last_written_congr next ih
      | _ => exact ih
  | @write past past' addr buf buf' _ other _ ih =>
      have distinct : key ≠ addr.key := by
        rintro rfl
        exact other mine
      funext offset
      change (if key = addr.key then _ else lastWritten (sectionsOf past) key offset) =
        (if key = addr.key then _ else lastWritten (sectionsOf past') key offset)
      rw [if_neg distinct, if_neg distinct, ih]

theorem foreign_alike_on (sound : ContSound begin.cont) (sound' : ContSound begin'.cont)
    (same : sysBooks begin = sysBooks begin')
    (used : ∀ key, InRange p 0 block key → backingOf begin.cont.mmu key ≠ none)
    (alike : AlikeOn (InRange p 0 block) (storeOf begin.cont.mmu) (storeOf begin'.cont.mmu))
    (run : Run CheckedStep begin past s) (run' : Run CheckedStep begin' past' s')
    (foreign : Foreign p past past') :
    AlikeOn (InRange p 0 block) (storeOf s.cont.mmu) (storeOf s'.cont.mmu) := by
  induction foreign generalizing s s' with
  | nil =>
      cases run
      cases run'
      exact alike
  | same next earlier other ih =>
      obtain ⟨l, reply, before, sound₁, guarded, ran, advanced⟩ := checked_last sound run
      obtain ⟨l', reply', before', -, guarded', ran', advanced'⟩ := checked_last sound' run'
      have books := run_similar_books same before before' (foreign_similar earlier)
      obtain ⟨actions, performs, path, view⟩ :=
        same_actions books guarded.1 guarded'.1 ran ran' advanced advanced'
      have inUse := (own_preserved sound used before (foreign_stays earlier).1).1
      rw [view]
      exact path_alike_on (ih before before') sound₁.mmu.layout inUse path
        (performs_spares other performs)
  | write earlier other length ih =>
      -- The writer is another process, and reaches no frame of `p`.
      obtain ⟨l, reply, before, sound₁, -, -, advanced⟩ := checked_last sound run
      obtain ⟨l', reply', before', -, -, -, advanced'⟩ := checked_last sound' run'
      rw [(write_applies advanced).2, (write_applies advanced').2]
      exact other_write_alike_on (ih before before') sound₁.mmu.layout
        (fun mine => other mine.1) _ _

end Tails

section Reads
variable {l l' m m' : System} {past : Nat → PackedBitmap.Block} {p : Nat}

/-- The pages of a new process hold the same bytes in both runs, unless a frame
or a disk page comes from a process that wrote different ones. -/
theorem created_alike {secret : Nat → Prop} (sound : ContSound l.cont) (sound' : ContSound l'.cont)
    (same : sysBooks l = sysBooks l')
    (alike : Alike (fun key : Key => secret key.1) (storeOf l.cont.mmu) (storeOf l'.cont.mmu))
    (created : (Step.create past).run l = .ok (⟨p, []⟩, m))
    (created' : (Step.create past).run l' = .ok (⟨p, []⟩, m')) (block : Nat) :
    AlikeOn (InRange p 0 block) (storeOf m.cont.mmu) (storeOf m'.cont.mmu) := by
  have advanced := create_advances sound created
  have advanced' := create_advances sound' created'
  have allowed : ∀ s, (Step.create past).Allowed s := fun _ => trivial
  obtain ⟨actions, performs, path, view⟩ :=
    same_actions same (allowed l) (allowed l') created created' advanced advanced'
  have unused : ∀ key : Key, key.1 = p → (storeOf l.cont.mmu).backing key = none := by
    rintro ⟨owner, page⟩ rfl
    exact (create_cases sound created).1 page
  have cleared := alike_without alike sound.mmu.layout unused
  have layout := path_layout sound.mmu.layout path
  rw [view]
  refine alike_on (path_alike cleared sound.mmu.layout path ?_) layout ?_
  · cases performs with
    | create returned first => exact alloc_discreet _ _ _ _ _
    | quiet still => exact absurd still id
  · rintro key ⟨owner, -⟩ ⟨-, other⟩
    exact other owner

theorem read_cells (sound : ContSound m.cont) {addr : VirtAddr} {nbytes : Nat}
    (guarded : CheckedStep m (.memory (.read addr nbytes))) :
    ∃ frame bytes after, (storeOf m.cont.mmu).pool.frame addr.key = some frame ∧
      (Step.memory (.read addr nbytes)).run m = .ok (⟨0, bytes⟩, after) ∧ bytes.length = nbytes ∧
      ∀ i, i < nbytes → bytes[i]? = (storeOf m.cont.mmu).memory frame (addr.offset + i) := by
  obtain ⟨frame, held⟩ := Option.ne_none_iff_exists'.mp guarded.1.2
  obtain ⟨bytes, machine, ran, length, cells⟩ :=
    read_bytes (m := m.machine) sound.mmu held guarded.2
  exact ⟨frame, bytes, m.withMachine machine, held, by simp [Step.run, ran], length, cells⟩

theorem read_checked (same : sysBooks m = sysBooks m')
    (pageSize : m'.cont.mmu.mem.pageSize = m.cont.mmu.mem.pageSize) {addr : VirtAddr} {nbytes : Nat}
    (guarded : CheckedStep m (.memory (.read addr nbytes))) :
    CheckedStep m' (.memory (.read addr nbytes)) := by
  have allowed : (Step.memory (.read addr nbytes)).Allowed (sysBooks m) := guarded.1
  have inside : addr.offset + nbytes ≤ m.cont.mmu.mem.pageSize := guarded.2
  rw [same] at allowed
  rw [← pageSize] at inside
  exact ⟨allowed, inside⟩

end Reads

/-- Two runs that differ in the bytes that processes write, before the creation of
`p` and after it: a read of `p` succeeds in both, with the bytes `p` has written
itself and, unless a process that wrote different bytes was deleted before `p`
was created, with the same bytes throughout. -/
theorem reads_isolated {frames pages size block : Nat} (oneFrame : 0 < frames)
    (onePage : 0 < pages) (positive : 0 < block) (memSmall : frames * size < 2 ^ 31)
    (diskSmall : pages * size < 2 ^ 31) (nprocs freq : Nat)
    {before before' tail tail' : List Step} {past : Nat → PackedBitmap.Block} {p p' : Nat}
    {l l' m m' s s' : System}
    (left : Run CheckedStep (initialSystem frames pages size block nprocs freq) before l)
    (right : Run CheckedStep (initialSystem frames pages size block nprocs freq) before' l')
    (similar : List.Forall₂ Similar before before')
    (created : (Step.create past).run l = .ok (⟨p, []⟩, m))
    (created' : (Step.create past).run l' = .ok (⟨p', []⟩, m'))
    (leftTail : Run CheckedStep m tail s) (rightTail : Run CheckedStep m' tail' s')
    (foreign : Foreign p tail tail') :
    p' = p ∧ ∀ (addr : VirtAddr) (nbytes : Nat), addr.pid = p →
      CheckedStep s (.memory (.read addr nbytes)) →
      ∃ bytes bytes' after after',
        (Step.memory (.read addr nbytes)).run s = .ok (⟨0, bytes⟩, after) ∧
        (Step.memory (.read addr nbytes)).run s' = .ok (⟨0, bytes'⟩, after') ∧
        ((∃ secret, Undeleted secret before before') → bytes = bytes') ∧
        ∀ i value, i < nbytes →
          lastWritten (sectionsOf tail) addr.key (addr.offset + i) = some value →
          bytes[i]? = some value ∧ bytes'[i]? = some value := by
  have opening := initial_system_sound oneFrame onePage positive memSmall diskSmall nprocs freq
  have keptLeft := checked_run opening left
  have keptRight := checked_run opening right
  have booksBefore := run_similar_books rfl left right similar
  obtain ⟨codes, booksCreated⟩ :=
    similar_books (.same (.create past)) booksBefore trivial trivial created created'
  have samePid : p' = p := by
    have equal : (p : Int) = p' := codes
    omega
  subst samePid
  refine ⟨rfl, ?_⟩
  intro addr nbytes mine guarded
  have advanced := create_advances keptLeft.sound created
  have advanced' := create_advances keptRight.sound created'
  have keptTail := checked_run advanced.sound leftTail
  have keptTail' := checked_run advanced'.sound rightTail
  have books := run_similar_books booksCreated leftTail rightTail (foreign_similar foreign)
  obtain ⟨q, live⟩ := (create_cases keptLeft.sound created).2
  obtain ⟨q', live'⟩ := (create_cases keptRight.sound created').2
  have used := live_backed advanced.sound live
  have used' := live_backed advanced'.sound live'
  have inRange : InRange p' 0 m.cont.prcBlkSize addr.key := by
    have inside := guarded.1.1.2
    rw [keptTail.prcBlkSize] at inside
    exact ⟨mine, Nat.zero_le _, (Nat.zero_add _).symm ▸ inside⟩
  have guarded' : CheckedStep s' (.memory (.read addr nbytes)) := by
    apply read_checked books _ guarded
    rw [keptTail'.pageSize, keptTail.pageSize, advanced'.pageSize, advanced.pageSize,
      keptRight.pageSize, keptLeft.pageSize]
  -- Both runs read the same frame, and it is the frame that the next facts are about.
  obtain ⟨frame, bytes, after, held, ran, length, cells⟩ := read_cells keptTail.sound guarded
  obtain ⟨frame', bytes', after', held', ran', length', cells'⟩ := read_cells keptTail'.sound guarded'
  have oneFrame' : frame' = frame := by
    rw [← books_pool books, held] at held'
    exact (Option.some.inj held').symm
  refine ⟨bytes, bytes', after, after', ran, ran', ?_, ?_⟩
  · rintro ⟨secret, undeleted⟩
    have alike := undeleted_alike opening left right undeleted
    have alikeCreated := created_alike keptLeft.sound keptRight.sound booksBefore alike created
      created' m.cont.prcBlkSize
    have alikeTail := foreign_alike_on advanced.sound advanced'.sound booksCreated used alikeCreated
      leftTail rightTail foreign
    apply List.ext_getElem?
    intro i
    by_cases bound : i < nbytes
    · rw [cells i bound, cells' i bound, oneFrame',
        alikeTail.memory addr.key frame inRange held]
    · rw [List.getElem?_eq_none (by omega), List.getElem?_eq_none (by omega)]
  · intro i value bound written
    obtain ⟨stays, stays'⟩ := foreign_stays foreign
    have preserves := (own_preserved advanced.sound used leftTail stays).2
    have preserves' := (own_preserved advanced'.sound used' rightTail stays').2
    rw [cells i bound, cells' i bound]
    constructor
    · exact preserves.resident addr.key frame held _ value (by rw [ownWritten, if_pos inRange, written])
    · have inRange' : InRange p' 0 m'.cont.prcBlkSize addr.key := by
        rw [← books_block booksCreated]
        exact inRange
      rw [foreign_written foreign mine] at written
      exact preserves'.resident addr.key frame' held' _ value
        (by rw [ownWritten, if_pos inRange', written])

/-- The reply and the states of a creation that has steps before and after it. -/
def replayCreation (guard : System → Step → Prop) [∀ s next, Decidable (guard s next)] (begin : System)
    (before : List Step) (past : Nat → PackedBitmap.Block) (tail : List Step) :
    Option (Reply × System × System × System) := do
  let l ← replaySteps guard begin before
  let (reply, m) ← ((Step.create past).run l).toOption
  let s ← replaySteps guard m tail
  pure (reply, l, m, s)

theorem replay_creation_runs {guard : System → Step → Prop} [∀ s next, Decidable (guard s next)]
    {begin l m s : System} {before tail : List Step} {past : Nat → PackedBitmap.Block} {reply : Reply}
    (replayed : replayCreation guard begin before past tail = some (reply, l, m, s)) :
    Run guard begin before.reverse l ∧ (Step.create past).run l = .ok (reply, m) ∧
      Run guard m tail.reverse s := by
  simp only [replayCreation, Option.bind_eq_bind, Option.bind_eq_some_iff, Option.pure_def,
    Option.some.injEq, Prod.mk.injEq, Prod.exists] at replayed
  obtain ⟨l', earlier, reply', m', created, s', later, rfl, rfl, rfl, rfl⟩ := replayed
  refine ⟨by simpa using replay_steps_run .nil earlier, ?_,
    by simpa using replay_steps_run .nil later⟩
  cases ran : (Step.create past).run l' with
  | error fault => simp [ran, Except.toOption] at created
  | ok result =>
      simp only [ran, Except.toOption, Option.some.injEq] at created
      rw [created]

theorem run_append {guard : System → Step → Prop} {begin middle s : System} {past later : List Step}
    (first : Run guard begin past middle) (second : Run guard middle later s) :
    Run guard begin (later ++ past) s := by
  induction second with
  | nil => exact first
  | step next _ guarded ran code ih => exact ih.step next guarded ran code

/-- Two processes on one frame: process 0 writes other bytes before and after the
creation of process 1, which reads what it has written itself. -/
theorem reads_isolated_swapped :
    ∃ s s' bytes after after', Run CheckedStep (initialSystem 1 2 2 1 2 1)
        [.memory (.service ⟨1, 0, 0⟩), .memory (.write ⟨0, 0, 1⟩ [3]), .memory (.service ⟨0, 0, 0⟩),
          .memory (.write ⟨1, 0, 0⟩ [5]), .memory (.service ⟨1, 0, 0⟩), .create fun _ => 0,
          .memory (.write ⟨0, 0, 0⟩ [7]), .create fun _ => 0] s ∧
      Run CheckedStep (initialSystem 1 2 2 1 2 1)
        [.memory (.service ⟨1, 0, 0⟩), .memory (.write ⟨0, 0, 1⟩ [4]), .memory (.service ⟨0, 0, 0⟩),
          .memory (.write ⟨1, 0, 0⟩ [5]), .memory (.service ⟨1, 0, 0⟩), .create fun _ => 0,
          .memory (.write ⟨0, 0, 0⟩ [8]), .create fun _ => 0] s' ∧
      (Step.memory (.read ⟨1, 0, 0⟩ 2)).run s = .ok (⟨0, bytes⟩, after) ∧
      (Step.memory (.read ⟨1, 0, 0⟩ 2)).run s' = .ok (⟨0, bytes⟩, after') ∧
      bytes[0]? = some 5 := by
  have replayed : ((replayCreation CheckedStep (initialSystem 1 2 2 1 2 1)
      [.create fun _ => 0, .memory (.write ⟨0, 0, 0⟩ [7])] (fun _ => 0)
      [.memory (.service ⟨1, 0, 0⟩), .memory (.write ⟨1, 0, 0⟩ [5]), .memory (.service ⟨0, 0, 0⟩),
        .memory (.write ⟨0, 0, 1⟩ [3]), .memory (.service ⟨1, 0, 0⟩)]).any fun r =>
      decide (r.1 = ⟨1, []⟩ ∧ CheckedStep r.2.2.2 (.memory (.read ⟨1, 0, 0⟩ 2)))) = true := by
    decide
  have replayed' : ((replayCreation CheckedStep (initialSystem 1 2 2 1 2 1)
      [.create fun _ => 0, .memory (.write ⟨0, 0, 0⟩ [8])] (fun _ => 0)
      [.memory (.service ⟨1, 0, 0⟩), .memory (.write ⟨1, 0, 0⟩ [5]), .memory (.service ⟨0, 0, 0⟩),
        .memory (.write ⟨0, 0, 1⟩ [4]), .memory (.service ⟨1, 0, 0⟩)]).any fun r =>
      decide (r.1 = ⟨1, []⟩)) = true := by decide
  obtain ⟨⟨reply, l, m, s⟩, found, facts⟩ := (Option.any_eq_true _ _).mp replayed
  obtain ⟨⟨reply', l', m', s'⟩, found', facts'⟩ := (Option.any_eq_true _ _).mp replayed'
  obtain ⟨rfl, guarded⟩ := of_decide_eq_true facts
  obtain rfl := of_decide_eq_true facts'
  obtain ⟨left, created, leftTail⟩ := replay_creation_runs found
  obtain ⟨right, created', rightTail⟩ := replay_creation_runs found'
  have undeleted : Undeleted _ [.memory (.write ⟨0, 0, 0⟩ [7]), .create fun _ => 0]
      [.memory (.write ⟨0, 0, 0⟩ [8]), .create fun _ => 0] :=
    .write (.same _ .nil (by simp)) rfl
  have foreign : Foreign 1
      [.memory (.service ⟨1, 0, 0⟩), .memory (.write ⟨0, 0, 1⟩ [3]), .memory (.service ⟨0, 0, 0⟩),
        .memory (.write ⟨1, 0, 0⟩ [5]), .memory (.service ⟨1, 0, 0⟩)]
      [.memory (.service ⟨1, 0, 0⟩), .memory (.write ⟨0, 0, 1⟩ [4]), .memory (.service ⟨0, 0, 0⟩),
        .memory (.write ⟨1, 0, 0⟩ [5]), .memory (.service ⟨1, 0, 0⟩)] :=
    .same _ (.write (.same _ (.same _ (.same _ .nil (by simp)) (by simp)) (by simp)) (by decide) rfl)
      (by simp)
  obtain ⟨-, reads⟩ := reads_isolated (by decide) (by decide) (by decide) (by decide) (by decide) 2 1
    left right (undeleted_similar undeleted) created created' leftTail rightTail foreign
  obtain ⟨bytes, bytes', after, after', ran, ran', same, own⟩ := reads ⟨1, 0, 0⟩ 2 rfl guarded
  have one := same ⟨_, undeleted⟩
  subst one
  exact ⟨s, s', bytes, after, after',
    run_append (left.step (.create fun _ => 0) ⟨trivial, trivial⟩ created (by decide)) leftTail,
    run_append (right.step (.create fun _ => 0) ⟨trivial, trivial⟩ created' (by decide)) rightTail,
    ran, ran', (own 0 5 (by decide) (by decide)).1⟩

/-- Isolation for all runs from `begin` whose steps satisfy `guard` and whose pasts
are `related`. -/
def Isolated (guard : System → Step → Prop) (related : List Step → List Step → Prop)
    (begin : System) : Prop :=
  ∀ (before before' tail tail' : List Step) (past : Nat → PackedBitmap.Block) (p : Nat)
    (l l' m m' s s' : System) (addr : VirtAddr) (nbytes : Nat) (reply reply' : Reply)
    (after after' : System), Run guard begin before l → Run guard begin before' l' →
    related before before' → (Step.create past).run l = .ok (⟨p, []⟩, m) →
    (Step.create past).run l' = .ok (⟨p, []⟩, m') → Run guard m tail s → Run guard m' tail' s' →
    Foreign p tail tail' → addr.pid = p → guard s (.memory (.read addr nbytes)) →
    guard s' (.memory (.read addr nbytes)) →
    (Step.memory (.read addr nbytes)).run s = .ok (reply, after) →
    (Step.memory (.read addr nbytes)).run s' = .ok (reply', after') → reply = reply'

theorem read_replies {guard : System → Step → Prop} [∀ s next, Decidable (guard s next)]
    {begin : System} {before tail : List Step} {past : Nat → PackedBitmap.Block} {p nbytes : Nat}
    {addr : VirtAddr} {reply : Reply}
    (replayed : ((replayCreation guard begin before past tail).any fun r =>
      decide (r.1 = ⟨p, []⟩ ∧ guard r.2.2.2 (.memory (.read addr nbytes)) ∧
        ((Step.memory (.read addr nbytes)).run r.2.2.2).map (·.1) = .ok reply)) = true) :
    ∃ l m s after, Run guard begin before.reverse l ∧ (Step.create past).run l = .ok (⟨p, []⟩, m) ∧
      Run guard m tail.reverse s ∧ guard s (.memory (.read addr nbytes)) ∧
      (Step.memory (.read addr nbytes)).run s = .ok (reply, after) := by
  obtain ⟨⟨first, l, m, s⟩, found, facts⟩ := (Option.any_eq_true _ _).mp replayed
  obtain ⟨rfl, guarded, replied⟩ := of_decide_eq_true facts
  obtain ⟨earlier, created, later⟩ := replay_creation_runs found
  cases ran : (Step.memory (.read addr nbytes)).run s with
  | error fault => simp [ran, Except.map] at replied
  | ok result =>
      simp only [ran, Except.map, Except.ok.injEq] at replied
      exact ⟨l, m, s, result.2, earlier, created, later, guarded, by rw [ran, ← replied]⟩

/-- A process created on the frame of a deleted one reads what that one wrote; and
a write whose offset wraps the `unsigned` comparison of `mmu_write` lands in the
frame of another process. -/
theorem reads_not_isolated :
    ¬ Isolated CheckedStep (List.Forall₂ Similar) (initialSystem 1 1 1 1 1 1) ∧
      ¬ Isolated Step.Allowed (fun before before' => ∃ secret, Undeleted secret before before')
        (initialSystem 2 2 1 1 2 1) := by
  constructor
  · intro isolated
    obtain ⟨l, m, s, after, earlier, created, later, guarded, ran⟩ := read_replies
      (by decide : ((replayCreation CheckedStep (initialSystem 1 1 1 1 1 1)
        [.create fun _ => 0, .start 0, .memory (.write ⟨0, 0, 0⟩ [7]), .destroy 0, .dealloc 0]
        (fun _ => 0) []).any fun r => decide (r.1 = ⟨(0 : Nat), []⟩ ∧
          CheckedStep r.2.2.2 (.memory (.read ⟨0, 0, 0⟩ 1)) ∧
          ((Step.memory (.read ⟨0, 0, 0⟩ 1)).run r.2.2.2).map (·.1) = .ok ⟨0, [7]⟩)) = true)
    obtain ⟨l', m', s', after', earlier', created', later', guarded', ran'⟩ := read_replies
      (by decide : ((replayCreation CheckedStep (initialSystem 1 1 1 1 1 1)
        [.create fun _ => 0, .start 0, .memory (.write ⟨0, 0, 0⟩ [8]), .destroy 0, .dealloc 0]
        (fun _ => 0) []).any fun r => decide (r.1 = ⟨(0 : Nat), []⟩ ∧
          CheckedStep r.2.2.2 (.memory (.read ⟨0, 0, 0⟩ 1)) ∧
          ((Step.memory (.read ⟨0, 0, 0⟩ 1)).run r.2.2.2).map (·.1) = .ok ⟨0, [8]⟩)) = true)
    have similar : List.Forall₂ Similar
        [.dealloc 0, .destroy 0, .memory (.write ⟨0, 0, 0⟩ [7]), .start 0, .create fun _ => 0]
        [.dealloc 0, .destroy 0, .memory (.write ⟨0, 0, 0⟩ [8]), .start 0, .create fun _ => 0] :=
      .cons (.same _) (.cons (.same _) (.cons (.write rfl) (.cons (.same _) (.cons (.same _) .nil))))
    have same := isolated _ _ _ _ _ 0 l l' m m' s s' _ _ _ _ _ _ earlier earlier' similar created
      created' later later' .nil rfl guarded guarded' ran ran'
    exact absurd same (by decide)
  · intro isolated
    obtain ⟨l, m, s, after, earlier, created, later, guarded, ran⟩ := read_replies
      (by decide : ((replayCreation Step.Allowed (initialSystem 2 2 1 1 2 1) [] (fun _ => 0)
        [.create fun _ => 0, .memory (.write ⟨1, 0, 4294967295⟩ [7])]).any fun r =>
        decide (r.1 = ⟨(0 : Nat), []⟩ ∧ Step.Allowed r.2.2.2 (.memory (.read ⟨0, 0, 0⟩ 1)) ∧
          ((Step.memory (.read ⟨0, 0, 0⟩ 1)).run r.2.2.2).map (·.1) = .ok ⟨0, [7]⟩)) = true)
    obtain ⟨l', m', s', after', earlier', created', later', guarded', ran'⟩ := read_replies
      (by decide : ((replayCreation Step.Allowed (initialSystem 2 2 1 1 2 1) [] (fun _ => 0)
        [.create fun _ => 0, .memory (.write ⟨1, 0, 4294967295⟩ [8])]).any fun r =>
        decide (r.1 = ⟨(0 : Nat), []⟩ ∧ Step.Allowed r.2.2.2 (.memory (.read ⟨0, 0, 0⟩ 1)) ∧
          ((Step.memory (.read ⟨0, 0, 0⟩ 1)).run r.2.2.2).map (·.1) = .ok ⟨0, [8]⟩)) = true)
    have foreign : Foreign 0 [.memory (.write ⟨1, 0, 4294967295⟩ [7]), .create fun _ => 0]
        [.memory (.write ⟨1, 0, 4294967295⟩ [8]), .create fun _ => 0] :=
      .write (.same _ .nil (by simp)) (by decide) rfl
    have same := isolated _ _ _ _ _ 0 l l' m m' s s' _ _ _ _ _ _ earlier earlier' ⟨_, .nil⟩ created
      created' later later' foreign rfl guarded guarded' ran ran'
    exact absurd same (by decide)

end VmSim.ProcessTable
