import ApiLint.Work

/-!
# Pools of workers

A `Pool` does something for each element of a list.  Without workers the caller does it, for one element after another.  With
workers there is a job for each element, and as many are underway at a time as there are workers; which job is started
next, and which worker makes the next action, is open.  What comes of the jobs is kept in the order of the elements,
whatever is finished first.
-/

namespace ApiLint

inductive Job (α : Type) where
  | waiting (w : Work α)
  | started (w : Work α)

namespace Job

variable {α : Type}

def finished (a : α) : Job α :=
  started (.done a)

def isUnderway : Job α → Bool
  | started (.act ..) => true
  | _ => false

end Job

inductive Pool where
  | caller
  | workers (n : Nat)

namespace Pool

variable {α β : Type}

/-- The pools that may be made for a number of workers.  A pool may fail to start, and then the caller does the work. -/
inductive Made (workers : Nat) : Pool → Prop
  | caller : Made workers .caller
  | workers : 1 < workers → Made workers (.workers workers)

def size : Pool → Nat
  | caller => 1
  | workers n => n

/-- The parts of a list that are left to a single worker.  A single element is left to the caller. -/
def parts (pool : Pool) (xs : List α) : List (List α) :=
  match pool with
  | caller => [xs]
  | workers _ => if 1 < xs.length then xs.map fun x => [x] else [xs]

def jobs (pool : Pool) (f : α → Work β) (xs : List α) : List (Job (List β)) :=
  (pool.parts xs).map fun part => .waiting (Work.each f part)

/-- A job is started, or an action of one is made. -/
inductive Step (pool : Pool) : List (Job α) × Shared → List (Job α) × Shared → Prop
  | start {before after : List (Job α)} {w : Work α} {s : Shared} :
    (before ++ after).countP Job.isUnderway < pool.size →
    Step pool (before ++ .waiting w :: after, s) (before ++ .started w :: after, s)
  | act {before after : List (Job α)} {ready : Shared → Bool} {effect : Shared → Shared} {next : Shared → Work α}
    {s : Shared} : ready s = true →
    Step pool (before ++ .started (.act ready effect next) :: after, s) (before ++ .started (next s) :: after, effect s)

end Pool

end ApiLint
