import Mathlib.Logic.Relation
import Mathlib.Tactic.Common

/-!
Sequential programs with their callees taken away. A tree stops with a result
or for a reason, or makes a call and goes on with the reply. `Every` looks at
the calls alone; `Executes` runs a tree in a world that other parties move
between its calls, and `Ensures` is what has to hold of the world for such
a run to make its calls where they are ready and to end as it should.
-/

namespace VmSim.CallTree

inductive Tree (Call : Type) (Reply : Call → Type) (Stop α : Type) where
  | done (result : α)
  | stop (reason : Stop)
  | call (callee : Call) (next : Reply callee → Tree Call Reply Stop α)

variable {Call : Type} {Reply : Call → Type} {Stop α β σ : Type}

def Tree.andThen : Tree Call Reply Stop α → (α → Tree Call Reply Stop β) → Tree Call Reply Stop β
  | .done result, rest => rest result
  | .stop reason, _ => .stop reason
  | .call callee next, rest => .call callee fun reply => (next reply).andThen rest

instance : Monad (Tree Call Reply Stop) where
  pure := .done
  bind := .andThen

@[simp] theorem pure_done (result : α) : (pure result : Tree Call Reply Stop α) = .done result :=
  rfl

@[simp] theorem done_bind (result : α) (rest : α → Tree Call Reply Stop β) :
    (Tree.done result >>= rest) = rest result := rfl

@[simp] theorem stop_bind (reason : Stop) (rest : α → Tree Call Reply Stop β) :
    (Tree.stop reason >>= rest) = .stop reason := rfl

/-- Whatever the callees reply within `gives`, every call is `ready`, the program
does not stop and its result is as in `post`. -/
def Every (ready : Call → Prop) (gives : ∀ callee, Reply callee → Prop) (post : α → Prop) :
    Tree Call Reply Stop α → Prop
  | .done result => post result
  | .stop _ => False
  | .call callee next => ready callee ∧ ∀ reply, gives callee reply →
      Every ready gives post (next reply)

section Calls
variable {ready : Call → Prop} {gives : ∀ callee, Reply callee → Prop} {post : α → Prop}

theorem every_bind (program : Tree Call Reply Stop β) (rest : β → Tree Call Reply Stop α) :
    Every ready gives post (program >>= rest) ↔
      Every ready gives (fun result => Every ready gives post (rest result)) program := by
  induction program with
  | done result => rfl
  | stop reason => rfl
  | call callee next ih =>
      exact and_congr_right fun _ => forall_congr' fun reply =>
        imp_congr_right fun _ => ih reply

end Calls

/-- Whatever the callees reply within `gives`, the program stops for no reason in
`bad`, and its result is as in `post`. -/
def Avoids (bad : Stop → Prop) (gives : ∀ callee, Reply callee → Prop) (post : α → Prop) :
    Tree Call Reply Stop α → Prop
  | .done result => post result
  | .stop reason => ¬ bad reason
  | .call callee next => ∀ reply, gives callee reply → Avoids bad gives post (next reply)

section Stops
variable {bad : Stop → Prop} {gives : ∀ callee, Reply callee → Prop} {post post' : α → Prop}

theorem avoids_bind (program : Tree Call Reply Stop β) (rest : β → Tree Call Reply Stop α) :
    Avoids bad gives post (program >>= rest) ↔
      Avoids bad gives (fun result => Avoids bad gives post (rest result)) program := by
  induction program with
  | done result => rfl
  | stop reason => rfl
  | call callee next ih => exact forall_congr' fun reply => imp_congr_right fun _ => ih reply

theorem avoids_mono {program : Tree Call Reply Stop α} (weaken : ∀ result, post result → post' result)
    (avoids : Avoids bad gives post program) : Avoids bad gives post' program := by
  induction program with
  | done result => exact weaken result avoids
  | stop reason => exact avoids
  | call callee next ih => exact fun reply given => ih reply (avoids reply given)

end Stops

section Worlds
variable (others : σ → σ → Prop) (performs : σ → (callee : Call) → Reply callee → σ → Prop)

inductive Executes (program : Tree Call Reply Stop α) (begin : σ) :
    Tree Call Reply Stop α → σ → Prop where
  | start : Executes program begin program begin
  | other {rest s after} : Executes program begin rest s → others s after →
      Executes program begin rest after
  | call {callee next s reply after} : Executes program begin (.call callee next) s →
      performs s callee reply after → Executes program begin (next reply) after

variable (ready : σ → Call → Prop)

/-- Whatever the others do in between, every call of the program is made in a world
that is `ready` for it, and the program ends, in a world as in `post`. -/
def Ensures (post : α → σ → Prop) : Tree Call Reply Stop α → σ → Prop
  | .done result, s => ∀ after, Relation.ReflTransGen others s after → post result after
  | .stop _, _ => False
  | .call callee next, s => ∀ middle, Relation.ReflTransGen others s middle →
      ready middle callee ∧
        ∀ reply after, performs middle callee reply after → Ensures post (next reply) after

variable {others performs ready}
variable {post post' : α → σ → Prop} {program rest : Tree Call Reply Stop α} {s after : σ}

theorem ensures_other (ensures : Ensures others performs ready post program s)
    (moved : others s after) : Ensures others performs ready post program after := by
  cases program with
  | done result => exact fun last later => ensures last (later.head moved)
  | stop reason => exact ensures
  | call callee next => exact fun middle later => ensures middle (later.head moved)

theorem ensures_mono (weaken : ∀ result s, post result s → post' result s)
    (ensures : Ensures others performs ready post program s) :
    Ensures others performs ready post' program s := by
  induction program generalizing s with
  | done result => exact fun last later => weaken result last (ensures last later)
  | stop reason => exact ensures
  | call callee next ih =>
      intro middle later
      obtain ⟨here, rest⟩ := ensures middle later
      exact ⟨here, fun reply after performed => ih reply (rest reply after performed)⟩

theorem ensures_bind {program : Tree Call Reply Stop β} {next : β → Tree Call Reply Stop α}
    (ensures : Ensures others performs ready
      (fun result s => Ensures others performs ready post (next result) s) program s) :
    Ensures others performs ready post (program >>= next) s := by
  induction program generalizing s with
  | done result => exact ensures s .refl
  | stop reason => exact ensures
  | call callee first ih =>
      intro middle later
      obtain ⟨here, rest⟩ := ensures middle later
      exact ⟨here, fun reply after performed => ih reply (rest reply after performed)⟩

theorem ensures_done {keeps : σ → Prop} (stable : ∀ s after, others s after → keeps s → keeps after)
    (here : keeps s) {result : α} (ends : ∀ s, keeps s → post result s) :
    Ensures others performs ready post (.done result : Tree Call Reply Stop α) s := by
  intro last later
  apply ends
  induction later with
  | refl => exact here
  | tail _ moved ih => exact stable _ _ moved ih

theorem ensures_call {keeps : σ → Prop} (stable : ∀ s after, others s after → keeps s → keeps after)
    (here : keeps s) {callee : Call} {next : Reply callee → Tree Call Reply Stop α}
    (calls : ∀ s, keeps s → ready s callee ∧ ∀ reply after, performs s callee reply after →
      Ensures others performs ready post (next reply) after) :
    Ensures others performs ready post (.call callee next) s := by
  intro middle later
  apply calls
  induction later with
  | refl => exact here
  | tail _ moved ih => exact stable _ _ moved ih

theorem ensures_executes (ensures : Ensures others performs ready post program s)
    (executes : Executes others performs program s rest after) :
    Ensures others performs ready post rest after := by
  induction executes with
  | start => exact ensures
  | other _ moved ih => exact ensures_other ih moved
  | call _ performed ih => exact (ih _ .refl).2 _ _ performed

theorem ensures_here (holds : σ → Prop) (ends : ∀ result s, post result s → holds s)
    (calls : ∀ s callee, ready s callee → holds s)
    (ensures : Ensures others performs ready post program s) : holds s := by
  cases program with
  | done result => exact ends result s (ensures s .refl)
  | stop reason => exact absurd ensures id
  | call callee next => exact calls s callee (ensures s .refl).1

theorem ensures_completes
    (progress : ∀ s callee, ready s callee → ∃ middle reply after,
      Relation.ReflTransGen others s middle ∧ performs middle callee reply after)
    (ensures : Ensures others performs ready post program s) :
    ∃ result last, Executes others performs program s (.done result) last ∧ post result last := by
  have waits : ∀ {rest : Tree Call Reply Stop α} {middle last : σ},
      Executes others performs program s rest middle → Relation.ReflTransGen others middle last →
      Executes others performs program s rest last := by
    intro rest middle last before later
    induction later with
    | refl => exact before
    | tail _ moved ih => exact ih.other moved
  have ends : ∀ (rest : Tree Call Reply Stop α) (middle : σ),
      Executes others performs program s rest middle →
      Ensures others performs ready post rest middle →
      ∃ result last, Executes others performs program s (.done result) last ∧ post result last := by
    intro rest
    -- the rest of the program shrinks with every call
    induction rest with
    | done result => exact fun middle before ensures => ⟨result, middle, before, ensures middle .refl⟩
    | stop reason => exact fun middle before ensures => absurd ensures id
    | call callee next ih =>
        intro middle before ensures
        obtain ⟨waited, reply, last, later, performed⟩ :=
          progress middle callee (ensures middle .refl).1
        exact ih reply last ((waits before later).call performed)
          ((ensures waited later).2 reply last performed)
  exact ends program s .start ensures

theorem executes_to_stop {reason : Stop} {start left : Tree Call Reply Stop α}
    (stops : ∃ first : Tree Call Reply Stop β, start = first >>= fun _ => .stop reason)
    (executes : Executes others performs start s left after) :
    ∃ first : Tree Call Reply Stop β, left = first >>= fun _ => .stop reason := by
  induction executes with
  | start => exact stops
  | other _ _ ih => exact ih
  | call _ _ ih =>
      obtain ⟨first, same⟩ := ih
      cases first with
      | done result => cases same
      | stop other => cases same
      | call callee next =>
          cases same
          exact ⟨_, rfl⟩

theorem stop_not_done {reason : Stop} (first : Tree Call Reply Stop β) (result : α) :
    (first >>= fun _ => .stop reason) ≠ (.done result : Tree Call Reply Stop α) := by
  cases first <;> exact fun same => by cases same

end Worlds

end VmSim.CallTree
