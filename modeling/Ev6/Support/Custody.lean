import Mathlib.Algebra.Group.Defs

/-!
# Programs that hold resources

A `Program` is what one thread does with an object that it shares with others: a tree of
operations on the object, each followed by what the thread does with the answer. A
`Contract` says what an operation takes from the thread that performs it and what it gives.
`Holds` is the triple of a program: with what the thread holds at its start, it has enough
for each of its operations, and its result meets a condition with what is left. The rules
are those of a sequential program. `Backed` says that the object keeps the contract, and
with it the triples of all threads hold in any order of their operations. `Yields` is about
one program alone, for all answers that the contract allows: how it ends, and its faults.
-/

namespace Ev6.Support

/-- The operations of a thread on a shared object, up to a result or a fault. -/
inductive Program (Op : Type) (Answer : Op → Type) (Fault α : Type) where
  | done (result : α)
  | fault (reason : Fault)
  | call (op : Op) (rest : Answer op → Program Op Answer Fault α)

namespace Program

variable {Op Fault State α β : Type} {Answer : Op → Type}

/-- One program after the other. -/
def bind (first : Program Op Answer Fault α) (second : α → Program Op Answer Fault β) :
    Program Op Answer Fault β :=
  match first with
  | done result => second result
  | fault reason => fault reason
  | call op rest => call op fun answer => (rest answer).bind second

instance : Monad (Program Op Answer Fault) where
  pure := done
  bind := bind

/-- One operation. -/
def perform (op : Op) : Program Op Answer Fault (Answer op) := call op done

/-- The next operation. -/
def nextOp : Program Op Answer Fault α → Option Op
  | call op _ => some op
  | _ => none

/-- One operation of a program. -/
def step (object : State → (op : Op) → Answer op × State) :
    Program Op Answer Fault α → State → Option (Program Op Answer Fault α × State)
  | call op rest, state => some (rest (object state op).1, (object state op).2)
  | _, _ => none

/-- With answers that `learns` allows, a program ends in a result that meets a condition or in
a fault that is allowed. -/
def Yields (learns : (op : Op) → Answer op → Prop) (allowed : Fault → Prop) :
    Program Op Answer Fault α → (α → Prop) → Prop
  | done result, post => post result
  | fault reason, _ => allowed reason
  | call op rest, post => ∀ answer, learns op answer → Yields learns allowed (rest answer) post

section Yields

variable {learns : (op : Op) → Answer op → Prop} {allowed : Fault → Prop}
variable {program : Program Op Answer Fault α} {post : α → Prop}

theorem Yields.pure {result : α} (met : post result) :
    (Pure.pure result : Program Op Answer Fault α).Yields learns allowed post :=
  met

theorem Yields.fault {reason : Fault} (fine : allowed reason) :
    (Program.fault reason : Program Op Answer Fault α).Yields learns allowed post :=
  fine

theorem Yields.perform {op : Op} {post : Answer op → Prop}
    (met : ∀ answer, learns op answer → post answer) :
    (Program.perform op : Program Op Answer Fault (Answer op)).Yields learns allowed post :=
  met

theorem Yields.mono {weaker : α → Prop} (yields : program.Yields learns allowed post)
    (implies : ∀ result, post result → weaker result) : program.Yields learns allowed weaker := by
  induction program with
  | done result => exact implies result yields
  | fault reason => exact yields
  | call op rest ih => exact fun answer told => ih answer (yields answer told)

theorem Yields.bind {second : α → Program Op Answer Fault β} {last : β → Prop}
    (yields : program.Yields learns allowed post)
    (after : ∀ result, post result → (second result).Yields learns allowed last) :
    (program >>= second).Yields learns allowed last := by
  induction program with
  | done result => exact after result yields
  | fault reason => exact yields
  | call op rest ih => exact fun answer told => ih answer (yields answer told)

end Yields

end Program

/-- What the operations of an object take and give. `learns` is what an answer tells,
`Valid` what a thread can hold at all, and `Update` changes the reckoning of what a thread
holds while the object stays as it is. -/
structure Contract (Op : Type) (Answer : Op → Type) (Resource : Type) [AddCommMonoid Resource] where
  takes : Op → Resource
  gives : (op : Op) → Answer op → Resource
  learns : (op : Op) → Answer op → Prop
  Valid : Resource → Prop
  Update : Resource → Resource → Prop
  valid_left : ∀ {held frame}, Valid (held + frame) → Valid held
  valid_update : ∀ {held kept}, Update held kept → Valid held → Valid kept
  update_refl : ∀ held, Update held held
  update_trans : ∀ {held next kept}, Update held next → Update next kept → Update held kept

namespace Contract

variable {Op Fault State Resource α β : Type} {Answer : Op → Type} [AddCommMonoid Resource]

/-- With what the thread holds, the program never lacks what an operation takes, and its
result comes with the resources that `post` allows. -/
def Holds (contract : Contract Op Answer Resource) :
    Resource → Program Op Answer Fault α → (α → Resource → Prop) → Prop
  | held, .done result, post =>
    contract.Valid held → ∃ kept, contract.Update held kept ∧ post result kept
  | _, .fault _, _ => True
  | held, .call op rest, post =>
    contract.Valid held → ∃ frame, contract.Update held (contract.takes op + frame) ∧
      ∀ answer, contract.learns op answer →
        Holds contract (contract.gives op answer + frame) (rest answer) post

variable {contract : Contract Op Answer Resource} {held kept spare : Resource}
variable {program : Program Op Answer Fault α} {post : α → Resource → Prop}

/-! ## Rules -/

/-- What a thread holds may be taken to be valid. -/
theorem Holds.of_valid (holds : contract.Valid held → contract.Holds held program post) :
    contract.Holds held program post := by
  cases program with
  | done result => exact fun valid => holds valid valid
  | fault reason => trivial
  | call op rest => exact fun valid => holds valid valid

theorem Holds.of_update (change : contract.Update held kept)
    (holds : contract.Holds kept program post) : contract.Holds held program post := by
  cases program with
  | done result =>
    intro valid
    obtain ⟨last, update, met⟩ := holds (contract.valid_update change valid)
    exact ⟨last, contract.update_trans change update, met⟩
  | fault reason => trivial
  | call op rest =>
    intro valid
    obtain ⟨frame, update, after⟩ := holds (contract.valid_update change valid)
    exact ⟨frame, contract.update_trans change update, after⟩

theorem Holds.done {result : α} (met : post result held) :
    contract.Holds held (.done result : Program Op Answer Fault α) post :=
  fun _ => ⟨held, contract.update_refl held, met⟩

theorem Holds.pure {result : α} (met : post result held) :
    contract.Holds held (Pure.pure result : Program Op Answer Fault α) post :=
  Holds.done met

theorem Holds.fault {reason : Fault} :
    contract.Holds held (.fault reason : Program Op Answer Fault α) post :=
  trivial

/-- An operation, with what it takes in front. -/
theorem Holds.call {op : Op} {rest : Answer op → Program Op Answer Fault α}
    (after : ∀ answer, contract.learns op answer →
      contract.Holds (contract.gives op answer + spare) (rest answer) post) :
    contract.Holds (contract.takes op + spare) (.call op rest) post :=
  fun _ => ⟨spare, contract.update_refl _, after⟩

/-- An operation as a program of its own. -/
theorem Holds.perform (op : Op) :
    contract.Holds (contract.takes op + spare)
      (Program.perform op : Program Op Answer Fault (Answer op)) fun answer kept =>
        contract.learns op answer ∧ kept = contract.gives op answer + spare :=
  Holds.call fun _ told => Holds.done ⟨told, rfl⟩

theorem Holds.mono {weaker : α → Resource → Prop} (holds : contract.Holds held program post)
    (implies : ∀ result kept, post result kept → weaker result kept) :
    contract.Holds held program weaker := by
  induction program generalizing held with
  | done result =>
    intro valid
    obtain ⟨kept, update, met⟩ := holds valid
    exact ⟨kept, update, implies _ _ met⟩
  | fault reason => trivial
  | call op rest ih =>
    intro valid
    obtain ⟨frame, update, after⟩ := holds valid
    exact ⟨frame, update, fun answer told => ih answer (after answer told)⟩

theorem Holds.bind {second : α → Program Op Answer Fault β} {last : β → Resource → Prop}
    (holds : contract.Holds held program post)
    (after : ∀ result kept, post result kept → contract.Holds kept (second result) last) :
    contract.Holds held (program >>= second) last := by
  induction program generalizing held with
  | done result =>
    refine Holds.of_valid fun valid => ?_
    obtain ⟨kept, update, met⟩ := holds valid
    exact Holds.of_update update (after _ _ met)
  | fault reason => trivial
  | call op rest ih =>
    intro valid
    obtain ⟨frame, update, next⟩ := holds valid
    exact ⟨frame, update, fun answer told => ih answer (next answer told)⟩

/-! ## The object -/

/-- The object keeps the contract: what all threads hold together stays accounted for. -/
structure Backed (contract : Contract Op Answer Resource) (Accounts : State → Resource → Prop) :
    Prop where
  valid : ∀ {state held}, Accounts state held → contract.Valid held
  update : ∀ {state held kept frame}, contract.Update held kept → Accounts state (held + frame) →
    Accounts state (kept + frame)

/-- One operation keeps the contract. -/
def Performs (contract : Contract Op Answer Resource) (Accounts : State → Resource → Prop)
    (object : State → (op : Op) → Answer op × State) (op : Op) : Prop :=
  ∀ state frame, Accounts state (contract.takes op + frame) →
    contract.learns op (object state op).1 ∧
      Accounts (object state op).2 (contract.gives op (object state op).1 + frame)

variable {Accounts : State → Resource → Prop} {object : State → (op : Op) → Answer op × State}
variable {state : State} {others : Resource}

/-- A step of one thread. -/
theorem Holds.step {op : Op} {rest : Answer op → Program Op Answer Fault α}
    (holds : contract.Holds held (.call op rest) post) (backed : contract.Backed Accounts)
    (performs : contract.Performs Accounts object op) (accounts : Accounts state (held + others)) :
    ∃ kept, contract.Holds kept (rest (object state op).1) post ∧
      Accounts (object state op).2 (kept + others) ∧
      contract.learns op (object state op).1 := by
  obtain ⟨frame, update, after⟩ := holds (contract.valid_left (backed.valid accounts))
  have ready := backed.update update accounts
  rw [add_assoc] at ready
  obtain ⟨told, performed⟩ := performs state (frame + others) ready
  exact ⟨_, after _ told, by rwa [add_assoc], told⟩

/-- The next step of a thread, which keeps what the program yields. -/
theorem Holds.advance {next : Program Op Answer Fault α} {after : State}
    (holds : contract.Holds held program post) (backed : contract.Backed Accounts)
    (performs : ∀ op, program.nextOp = some op → contract.Performs Accounts object op)
    (accounts : Accounts state (held + others))
    (taken : program.step object state = some (next, after)) :
    ∃ kept, contract.Holds kept next post ∧ Accounts after (kept + others) ∧
      ∀ {allowed : Fault → Prop} {ends : α → Prop}, program.Yields contract.learns allowed ends →
        next.Yields contract.learns allowed ends := by
  cases program with
  | done result => cases taken
  | fault reason => cases taken
  | call op rest =>
    cases taken
    obtain ⟨kept, after, performed, told⟩ := holds.step backed (performs op rfl) accounts
    exact ⟨kept, after, performed, fun yields => yields _ told⟩

/-- The end of a program. -/
theorem Holds.finish {result : α}
    (holds : contract.Holds held (.done result : Program Op Answer Fault α) post)
    (backed : contract.Backed Accounts) (accounts : Accounts state (held + others)) :
    ∃ kept, post result kept ∧ Accounts state (kept + others) := by
  obtain ⟨kept, update, met⟩ := holds (contract.valid_left (backed.valid accounts))
  exact ⟨kept, met, backed.update update accounts⟩

end Contract

end Ev6.Support
