import VmSim.Library.LinkedChain
import VmSim.Types

/-!
util/queue.c over the nodes of util/list.c. A pointer to a node is its address,
`none` is NULL, and the store says which addresses are allocated; `malloc` may
return any address that is not. An item is a `void*`, so NULL is an item like
any other and also what an empty queue returns. Head, tail and size are kept
apart, as the code keeps them.
-/

namespace VmSim.LinkedQueue
open LinkedChain

structure Node where
  data : Nat
  next : Option Nat
  deriving DecidableEq, Repr

abbrev Store := Nat → Option Node

def null : Nat := 0

def deref (store : Store) : Option Nat → Outcome Node
  | none => .error .nullPointer
  | some addr =>
      match store addr with
      | none => .error .outOfBounds
      | some node => .ok node

/-- `node_init`, where `malloc` has returned `addr`. -/
def nodeInit (store : Store) (addr : Nat) : Store :=
  Function.update store addr (some ⟨null, none⟩)

def nodeSetData (store : Store) (nd : Option Nat) (data : Nat) : Outcome (Int × Store) :=
  match nd with
  | none => .ok (-1, store)
  | some addr => do
      let node ← deref store (some addr)
      pure (0, Function.update store addr (some { node with data := data }))

def nodeSetNext (store : Store) (nd nodeNext : Option Nat) : Outcome (Int × Store) :=
  match nd with
  | none => .ok (1, store)
  | some addr => do
      let node ← deref store (some addr)
      pure (0, Function.update store addr (some { node with next := nodeNext }))

/-- `node_destroy` without a destructor; a node is freed once. -/
def nodeDestroy (store : Store) (nd : Option Nat) : Outcome (Int × Store) :=
  match nd with
  | none => .ok (1, store)
  | some addr => do
      let _ ← deref store (some addr)
      pure (1, Function.update store addr none)

structure Queue where
  head : Option Nat
  tail : Option Nat
  size : Nat
  deriving DecidableEq, Repr

def queueInit : Queue := ⟨none, none, 0⟩

def queuePop (store : Store) (item : Queue) : Outcome (Nat × Store × Queue) :=
  if 0 < item.size then do
    let nodeToPop := item.head
    let tail := if nodeToPop = item.tail then none else item.tail
    let node ← deref store item.head
    let (_, store) ← nodeDestroy store nodeToPop
    pure (node.data, store, ⟨node.next, tail, item.size - 1⟩)
  else .ok (null, store, item)

def queuePush (store : Store) (queue : Queue) (addr item : Nat) : Outcome (Int × Store × Queue) := do
  let store := nodeInit store addr
  let (_, store) ← nodeSetData store (some addr) item
  let (toReturn, store) ← nodeSetNext store queue.tail (some addr)
  let head := if toReturn = 1 then some addr else queue.head
  pure (toReturn, store, ⟨head, some addr, queue.size + 1⟩)

/-! The chain of a queue. -/

def nextOf (store : Store) (addr : Nat) : Option Nat := (store addr).bind Node.next

def dataOf (store : Store) (addr : Nat) : Option Nat := (store addr).map Node.data

/-- The queue is the chain of `nodes`, which hold `items`. -/
structure Holds (store : Store) (queue : Queue) (nodes items : List Nat) : Prop where
  forward : Forward (nextOf store) queue.head nodes
  unique : nodes.Nodup
  data : nodes.map (dataOf store) = items.map some
  tail : queue.tail = nodes.getLast?
  size : queue.size = nodes.length

section Operations
variable {store : Store} {queue : Queue} {nodes items : List Nat}

theorem init_holds (store : Store) : Holds store queueInit [] [] :=
  ⟨rfl, List.nodup_nil, rfl, rfl, rfl⟩

theorem holds_length (holds : Holds store queue nodes items) : items.length = nodes.length := by
  have same := congrArg List.length holds.data
  simpa using same.symm

theorem holds_allocated (holds : Holds store queue nodes items) {addr : Nat} (member : addr ∈ nodes) :
    ∃ node, store addr = some node := by
  have there : dataOf store addr ∈ items.map some := by
    rw [← holds.data]
    exact List.mem_map_of_mem member
  obtain ⟨item, -, same⟩ := List.mem_map.mp there
  obtain ⟨node, found, -⟩ := Option.map_eq_some_iff.mp same.symm
  exact ⟨node, found⟩

theorem data_congr {store' : Store} (same : ∀ addr ∈ nodes, dataOf store' addr = dataOf store addr)
    (data : nodes.map (dataOf store) = items.map some) :
    nodes.map (dataOf store') = items.map some :=
  (List.map_congr_left same).trans data

theorem pop_empty (holds : Holds store queue nodes []) : queuePop store queue = .ok (null, store, queue) := by
  have empty : queue.size = 0 := by rw [holds.size, ← holds_length holds]; rfl
  rw [queuePop, if_neg (by omega)]

theorem pop_first {item : Nat} (holds : Holds store queue nodes (item :: items)) :
    ∃ first rest queue', nodes = first :: rest ∧
      queuePop store queue = .ok (item, Function.update store first none, queue') ∧
      Holds (Function.update store first none) queue' rest items := by
  obtain ⟨forward, unique, data, tail, size⟩ := holds
  cases nodes with
  | nil => cases data
  | cons first rest =>
      obtain ⟨head, onward⟩ := forward
      obtain ⟨fresh, uniqueRest⟩ := List.nodup_cons.mp unique
      rw [List.map_cons, List.map_cons, List.cons.injEq] at data
      obtain ⟨node, found, same⟩ := Option.map_eq_some_iff.mp data.1
      have positive : 0 < queue.size := by simp [size]
      have apart : ∀ addr ∈ rest, addr ≠ first := fun addr member same => fresh (same ▸ member)
      have kept : ∀ addr ∈ rest, Function.update store first none addr = store addr :=
        fun addr member => Function.update_of_ne (apart addr member) ..
      refine ⟨first, rest, ⟨node.next, if some first = queue.tail then none else queue.tail,
        queue.size - 1⟩, rfl, ?_, ?_, uniqueRest, ?_, ?_, ?_⟩
      · simp [queuePop, positive, head, nodeDestroy, deref, found, same]
      -- The chain goes on from the second node, none of whose cells was freed.
      · have onwards : Forward (nextOf store) node.next rest := by simpa [nextOf, found] using onward
        exact forward_congr onwards fun addr member => by simp only [nextOf, kept addr member]
      · exact data_congr (fun addr member => by simp only [dataOf, kept addr member]) data.2
      · -- The tail is given up exactly with the last node.
        rw [tail]
        cases rest with
        | nil => simp
        | cons second rest =>
            have other : some first ≠ (first :: second :: rest).getLast? := by
              rw [List.getLast?_cons_of_ne_nil (by simp)]
              exact fun last => fresh (List.mem_of_getLast? last.symm)
            rw [if_neg other, List.getLast?_cons_of_ne_nil (by simp)]
      · simp [size]

theorem push_last (holds : Holds store queue nodes items) {addr : Nat} (fresh : store addr = none)
    (item : Nat) : ∃ store' queue',
      queuePush store queue addr item = .ok (if nodes = [] then 1 else 0, store', queue') ∧
      Holds store' queue' (nodes ++ [addr]) (items ++ [item]) ∧
      ∀ other, other ≠ addr → other ∉ nodes → store' other = store other := by
  have unused : addr ∉ nodes := by
    intro member
    obtain ⟨node, found⟩ := holds_allocated holds member
    rw [fresh] at found
    cases found
  have unique : (nodes ++ [addr]).Nodup := by
    simpa [List.nodup_append, holds.unique] using fun c member (same : c = addr) =>
      unused (same ▸ member)
  rcases List.eq_nil_or_concat nodes with empty | ⟨front, last, concat⟩
  -- An empty queue gets its head and tail from the new node.
  · have noItems : items = [] := List.eq_nil_of_length_eq_zero (by
      rw [holds_length holds, empty, List.length_nil])
    have noTail : queue.tail = none := by rw [holds.tail, empty]; rfl
    subst empty noItems
    refine ⟨Function.update store addr (some ⟨item, none⟩), ⟨some addr, some addr, queue.size + 1⟩,
      ?_, ⟨?_, ?_, ?_, rfl, ?_⟩, ?_⟩
    · simp [queuePush, nodeInit, nodeSetData, nodeSetNext, deref, noTail, Function.update_idem]
    · exact ⟨rfl, by simp [Forward, nextOf]⟩
    · exact List.nodup_singleton addr
    · simp [dataOf]
    · simp [holds.size]
    · exact fun other apart _ => Function.update_of_ne apart ..
  · rw [List.concat_eq_append] at concat
    have tail : queue.tail = some last := by rw [holds.tail, concat]; simp
    have member : last ∈ nodes := by simp [concat]
    obtain ⟨node, found⟩ := holds_allocated holds member
    have apart : last ≠ addr := fun same => unused (same ▸ member)
    have nonempty : nodes ≠ [] := List.ne_nil_of_mem member
    -- Otherwise the last node is redirected to the new one and the head stays.
    let store' := Function.update (Function.update store addr (some ⟨item, none⟩)) last
      (some { node with next := some addr })
    have new : store' addr = some ⟨item, none⟩ := by simp [store', apart.symm]
    have redirected : store' last = some { node with next := some addr } := by simp [store']
    have kept : ∀ other, other ≠ addr → other ≠ last → store' other = store other :=
      fun other notNew notLast => by simp [store', notNew, notLast]
    have sameData : ∀ other ∈ nodes, dataOf store' other = dataOf store other := by
      intro other inside
      by_cases isLast : other = last
      · simp [dataOf, isLast, redirected, found]
      · simp [dataOf, kept other (fun same => unused (same ▸ inside)) isLast]
    refine ⟨store', ⟨queue.head, some addr, queue.size + 1⟩, ?_, ⟨?_, unique, ?_, ?_, ?_⟩, ?_⟩
    · simp [queuePush, nodeInit, nodeSetData, nodeSetNext, deref, tail, found, apart, nonempty, store',
        Function.update_idem]
    · have forward : Forward (nextOf store') (if nodes = [] then some addr else queue.head)
          (nodes ++ [addr]) := by
        refine forward_append holds.forward holds.unique (fun cell inside other => ?_)
          (fun cell isLast => ?_) (by simp [nextOf, new])
        · have notLast : cell ≠ last := fun same => other (by simp [same, concat])
          simp [nextOf, kept cell (fun same => unused (same ▸ inside)) notLast]
        · have same : cell = last := by simpa [concat] using isLast.symm
          simp [nextOf, same, redirected]
      simpa [nonempty] using forward
    · rw [List.map_append, List.map_append, data_congr sameData holds.data]
      simp [dataOf, new]
    · simp
    · simp [holds.size]
    · exact fun other notNew outside => kept other notNew fun same => outside (same ▸ member)

end Operations

/-! Histories. -/

/-- A call with what it depends on and returned: the address `malloc` gave, and the item. -/
inductive Call where
  | push (addr item : Nat)
  | pop (item : Nat)
  deriving DecidableEq, Repr

inductive Run (begin : Store) : List Call → Store → Queue → Prop where
  | init : Run begin [] begin queueInit
  | push {past store queue code store' queue'} (addr item : Nat) : Run begin past store queue →
      store addr = none → queuePush store queue addr item = .ok (code, store', queue') →
      Run begin (.push addr item :: past) store' queue'
  | pop {past store queue store' queue'} (item : Nat) : Run begin past store queue →
      queuePop store queue = .ok (item, store', queue') → Run begin (.pop item :: past) store' queue'

/-- The items of a FIFO list after the same calls. -/
def waiting : List Call → List Nat
  | [] => []
  | .push _ item :: past => waiting past ++ [item]
  | .pop _ :: past => (waiting past).tail

def pushed : List Call → List Nat
  | [] => []
  | .push _ item :: past => pushed past ++ [item]
  | .pop _ :: past => pushed past

/-- What the pops of a queue that was not empty returned, in their order. -/
def popped : List Call → List Nat
  | [] => []
  | .push _ _ :: past => popped past
  | .pop item :: past => if waiting past = [] then popped past else popped past ++ [item]

structure Fifo (past : List Call) (store : Store) (queue : Queue) : Prop where
  chain : ∃ nodes, Forward (nextOf store) queue.head nodes ∧ nodes.length = queue.size ∧
    queue.tail = nodes.getLast? ∧ nodes.map (dataOf store) = (waiting past).map some
  empty : (queue.tail = none ↔ queue.size = 0) ∧ (queue.head = none ↔ queue.size = 0)
  order : popped past ++ waiting past = pushed past
  pops : ∃ store' queue', queuePop store queue = .ok ((waiting past).headD null, store', queue')
  nothing : waiting past = [] → queuePop store queue = .ok (null, store, queue)
  pushes : ∀ addr item, store addr = none → ∃ code store' queue',
    queuePush store queue addr item = .ok (code, store', queue')

section Runs
variable {begin store : Store} {queue : Queue} {past : List Call}

theorem run_holds (run : Run begin past store queue) : ∃ nodes, Holds store queue nodes (waiting past) := by
  induction run with
  | init => exact ⟨[], init_holds begin⟩
  | push addr item run fresh pushes ih =>
      obtain ⟨nodes, holds⟩ := ih
      obtain ⟨store', queue', ran, after, -⟩ := push_last holds fresh item
      rw [pushes] at ran
      cases ran
      exact ⟨nodes ++ [addr], after⟩
  | @pop past store queue store' queue' item run pops ih =>
      obtain ⟨nodes, holds⟩ := ih
      cases items : waiting past with
      | nil =>
          rw [items] at holds
          have stays := pop_empty holds
          rw [pops] at stays
          cases stays
          exact ⟨nodes, by simpa [waiting, items] using holds⟩
      | cons first rest =>
          rw [items] at holds
          obtain ⟨node, others, queue', -, ran, after⟩ := pop_first holds
          rw [pops] at ran
          cases ran
          exact ⟨others, by simpa [waiting, items] using after⟩

theorem run_order (run : Run begin past store queue) : popped past ++ waiting past = pushed past := by
  induction run with
  | init => rfl
  | push addr item run fresh pushes ih => rw [popped, waiting, pushed, ← ih, List.append_assoc]
  | @pop past store queue store' queue' item run pops ih =>
      obtain ⟨nodes, holds⟩ := run_holds run
      cases items : waiting past with
      | nil => simpa [popped, waiting, pushed, items] using ih
      | cons first rest =>
          rw [items] at holds ih
          obtain ⟨_, _, _, -, ran, -⟩ := pop_first holds
          rw [pops] at ran
          cases ran
          simpa [popped, waiting, pushed, items] using ih

/-- The queue refines the list of its items. -/
theorem queue_refines_fifo (run : Run begin past store queue) : Fifo past store queue := by
  obtain ⟨nodes, holds⟩ := run_holds run
  have none_iff : queue.size = 0 ↔ nodes = [] := by rw [holds.size, List.length_eq_zero_iff]
  constructor
  · exact ⟨nodes, holds.forward, holds.size.symm, holds.tail, holds.data⟩
  · rw [none_iff, holds.tail, List.getLast?_eq_none_iff]
    refine ⟨Iff.rfl, ?_⟩
    have forward := holds.forward
    cases nodes with
    | nil => exact iff_of_true forward rfl
    | cons node rest => simp [forward.1]
  · exact run_order run
  · cases items : waiting past with
    | nil =>
        rw [items] at holds
        exact ⟨store, queue, pop_empty holds⟩
    | cons first rest =>
        rw [items] at holds
        obtain ⟨node, others, queue', -, ran, -⟩ := pop_first holds
        exact ⟨_, queue', ran⟩
  · intro empty
    rw [empty] at holds
    exact pop_empty holds
  · intro addr item fresh
    obtain ⟨store', queue', ran, -, -⟩ := push_last holds fresh item
    exact ⟨_, store', queue', ran⟩

end Runs

/-- Emptied, popped once more and refilled; the address of a freed node comes back. -/
theorem queue_refines_fifo_refilled : ∃ store queue,
    Fifo [.push 1 9, .pop null, .pop 5, .pop null, .push 2 5, .push 1 null] store queue := by
  have two : Run (fun _ => none) [.push 2 5, .push 1 null] _ _ :=
    .push 2 5 (.push 1 null .init rfl rfl) rfl rfl
  have emptied : Run (fun _ => none) [.pop null, .pop 5, .pop null, .push 2 5, .push 1 null] _ _ :=
    .pop null (.pop 5 (.pop null two rfl) rfl) rfl
  exact ⟨_, _, queue_refines_fifo (.push 1 9 emptied rfl rfl)⟩

end VmSim.LinkedQueue
