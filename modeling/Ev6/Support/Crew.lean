import Ev6.Support.Custody
import Ev6.Support.LabelledSystem
import Mathlib.Algebra.Group.Basic

/-!
# Threads that share an object

A crew is a list of threads with an object. A thread rests, or does a program on the object,
one operation at a time between those of the others; a program ends with the threads that
rest from then on. Where every program holds what the contract asks for, and the object keeps
the contract, the accounts of the object are those of what the threads hold, in every state
that is reached.
-/

namespace Ev6.Support

variable {Op Fault State Rest Call Resource : Type} {Answer : Op → Type}

/-- A thread rests or does a program. -/
inductive Member (Op : Type) (Answer : Op → Type) (Fault Rest : Type) where
  | idle (rest : Rest)
  | busy (program : Program Op Answer Fault (List Rest))

/-- The object and the threads. -/
structure Crew (State Op : Type) (Answer : Op → Type) (Fault Rest : Type) where
  object : State
  members : List (Member Op Answer Fault Rest)

/-- A thread begins with a call, goes on with its program, or ends it. -/
inductive CrewEvent (Call : Type) where
  | call (i : Nat) (what : Call)
  | step (i : Nat)
  | ret (i : Nat)

namespace Crew

/-- Put other threads in the place of one. -/
def replace (crew : Crew State Op Answer Fault Rest) (i : Nat)
    (members : List (Member Op Answer Fault Rest)) : Crew State Op Answer Fault Rest :=
  { crew with members := crew.members.take i ++ members ++ crew.members.drop (i + 1) }

/-- One event; `body` is the program of a call. -/
def step (perform : State → (op : Op) → Answer op × State)
    (body : Rest → Call → Program Op Answer Fault (List Rest))
    (crew : Crew State Op Answer Fault Rest) :
    CrewEvent Call → Option (Crew State Op Answer Fault Rest)
  | .call i what =>
    match crew.members[i]? with
    | some (.idle rest) => some (crew.replace i [.busy (body rest what)])
    | _ => none
  | .step i =>
    match crew.members[i]? with
    | some (.busy program) =>
      (program.step perform crew.object).map fun done =>
        { crew.replace i [.busy done.1] with object := done.2 }
    | _ => none
  | .ret i =>
    match crew.members[i]? with
    | some (.busy (.done rests)) => some (crew.replace i (rests.map .idle))
    | _ => none

variable [AddCommMonoid Resource]

/-- What a thread holds, between and in its calls. -/
def Meets (contract : Contract Op Answer Resource) (has : Rest → Resource) (held : Resource) :
    Member Op Answer Fault Rest → Prop
  | .idle rest => held = has rest
  | .busy program => contract.Holds held program fun rests kept => kept = (rests.map has).sum

/-- What a list of threads holds. -/
inductive Holds (contract : Contract Op Answer Resource) (has : Rest → Resource) :
    List (Member Op Answer Fault Rest) → Resource → Prop where
  | nil : Holds contract has [] 0
  | cons {member members held others} (meets : Meets contract has held member)
      (rest : Holds contract has members others) :
      Holds contract has (member :: members) (held + others)

variable {contract : Contract Op Answer Resource} {has : Rest → Resource}
variable {members more : List (Member Op Answer Fault Rest)} {held others : Resource}

theorem Holds.append (first : Holds contract has members held)
    (second : Holds contract has more others) :
    Holds contract has (members ++ more) (held + others) := by
  induction first with
  | nil => rwa [List.nil_append, zero_add]
  | cons meets _ ih =>
    rw [List.cons_append, add_assoc]
    exact .cons meets ih

theorem Holds.of_append (holds : Holds contract has (members ++ more) held) :
    ∃ front back, held = front + back ∧ Holds contract has members front ∧
      Holds contract has more back := by
  induction members generalizing held with
  | nil => exact ⟨0, held, (zero_add held).symm, .nil, holds⟩
  | cons member members ih =>
    obtain _ | ⟨meets, rest⟩ := holds
    obtain ⟨front, back, rfl, first, second⟩ := ih rest
    exact ⟨_, back, (add_assoc _ _ _).symm, .cons meets first, second⟩

/-- Threads that rest. -/
theorem Holds.idle (rests : List Rest) :
    Holds contract has (rests.map .idle : List (Member Op Answer Fault Rest))
      (rests.map has).sum := by
  induction rests with
  | nil => exact .nil
  | cons rest rests ih =>
    rw [List.map_cons, List.map_cons, List.sum_cons]
    exact .cons rfl ih

theorem Holds.single {member : Member Op Answer Fault Rest}
    (meets : Meets contract has held member) :
    Holds contract has [member] held := by
  have one := Holds.cons meets Holds.nil
  rwa [add_zero] at one

/-- What the threads hold besides the one that others take the place of. -/
theorem Holds.at {crew : Crew State Op Answer Fault Rest} {i : Nat}
    {member : Member Op Answer Fault Rest} (holds : Holds contract has crew.members held)
    (at_ : crew.members[i]? = some member) :
    ∃ own rest, held = own + rest ∧ Meets contract has own member ∧
      ∀ {members other}, Holds contract has members other →
        Holds contract has (crew.replace i members).members (other + rest) := by
  obtain ⟨inside, rfl⟩ := List.getElem?_eq_some_iff.mp at_
  have split : crew.members =
      crew.members.take i ++ (crew.members[i] :: crew.members.drop (i + 1)) := by
    rw [List.getElem_cons_drop, List.take_append_drop]
  rw [split] at holds
  obtain ⟨front, back, rfl, first, second⟩ := holds.of_append
  obtain _ | ⟨meets, last⟩ := second
  refine ⟨_, _, add_left_comm _ _ _, meets, fun {members other} between => ?_⟩
  have whole := (first.append between).append last
  rwa [add_comm front, add_assoc] at whole

/-- The accounts are those of what the threads hold. -/
def Sound (contract : Contract Op Answer Resource) (has : Rest → Resource)
    (Accounts : State → Resource → Prop) (crew : Crew State Op Answer Fault Rest) : Prop :=
  ∃ held, Holds contract has crew.members held ∧ Accounts crew.object held

section Runs

variable {Accounts : State → Resource → Prop} {perform : State → (op : Op) → Answer op × State}
variable {body : Rest → Call → Program Op Answer Fault (List Rest)}
variable {crew next : Crew State Op Answer Fault Rest}

/-- Every event keeps the accounts. -/
theorem Sound.step {event : CrewEvent Call} (sound : Sound contract has Accounts crew)
    (backed : contract.Backed Accounts) (performs : ∀ op, contract.Performs Accounts perform op)
    (bodies : ∀ rest what, contract.Holds (has rest) (body rest what) fun rests kept =>
      kept = (rests.map has).sum)
    (taken : crew.step perform body event = some next) : Sound contract has Accounts next := by
  obtain ⟨held, holds, accounts⟩ := sound
  unfold Crew.step at taken
  cases event with
  | call i what =>
    dsimp only at taken
    split at taken
    · next rest here =>
       cases taken
       obtain ⟨own, others, rfl, meets, replaced⟩ := holds.at here
       obtain rfl : own = has rest := meets
       exact ⟨_, replaced (.single (bodies rest what)), accounts⟩
    · cases taken
  | step i =>
    dsimp only at taken
    split at taken
    · next program here =>
       obtain ⟨⟨rest, object⟩, done, rfl⟩ := Option.map_eq_some_iff.mp taken
       obtain ⟨own, others, rfl, meets, replaced⟩ := holds.at here
       obtain ⟨kept, further, after, -⟩ :=
         Contract.Holds.advance meets backed (fun op _ => performs op) accounts done
       exact ⟨_, replaced (.single further), after⟩
    · cases taken
  | ret i =>
    dsimp only at taken
    split at taken
    · next rests here =>
       cases taken
       obtain ⟨own, others, rfl, meets, replaced⟩ := holds.at here
       have done : contract.Holds own (.done rests : Program Op Answer Fault (List Rest))
         fun rests kept => kept = (rests.map has).sum := meets
       obtain ⟨kept, rfl, after⟩ := done.finish backed accounts
       exact ⟨_, replaced (.idle rests), after⟩
    · cases taken

/-- The next operation of a thread gets an answer as the contract says. -/
theorem Sound.learns (sound : Sound contract has Accounts crew) (backed : contract.Backed Accounts)
    (performs : ∀ op, contract.Performs Accounts perform op) {i : Nat} {op : Op}
    {program : Program Op Answer Fault (List Rest)}
    (here : crew.members[i]? = some (.busy program)) (due : program.nextOp = some op) :
    contract.learns op (perform crew.object op).1 := by
  obtain ⟨held, holds, accounts⟩ := sound
  obtain ⟨own, others, rfl, meets, -⟩ := holds.at here
  cases program with
  | call first rest =>
    obtain rfl := Option.some.inj due
    obtain ⟨-, -, -, told⟩ := Contract.Holds.step meets backed (performs first) accounts
    exact told
  | done rests => cases due
  | fault reason => cases due

/-- The accounts hold in every state that a crew reaches. -/
theorem Sound.of_runs {Starts : Crew State Op Answer Fault Rest → Prop}
    {events : List (CrewEvent Call)}
    (starts : ∀ crew, Starts crew → Sound contract has Accounts crew)
    (backed : contract.Backed Accounts) (performs : ∀ op, contract.Performs Accounts perform op)
    (bodies : ∀ rest what, contract.Holds (has rest) (body rest what) fun rests kept =>
      kept = (rests.map has).sum)
    (runs : (LabelledSystem.ofFunction Starts (Crew.step perform body)).Runs events crew) :
    Sound contract has Accounts crew := by
  refine runs.invariant (Sound contract has Accounts) starts ?_
  intro before event after sound taken
  exact Sound.step sound backed performs bodies taken

end Runs

end Crew

end Ev6.Support
