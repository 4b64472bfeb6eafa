import Mathlib.Data.Finset.Insert
import Mathlib.Data.Int.Notation
import Mathlib.Logic.Function.Basic

/-!
# The children of a process and their exit statuses

`poTato_fork()` records a child in `po.childPids`, `sigChildHandler()` clears the
entry of a child that is no more, and `poTato_removeChildren()` waits for the
children that are left.  The handler may interrupt the main thread between any two
of the steps here.

* A `SIGCHLD` that is sent while another one is pending is lost.
* A process id is not used a second time.
* The main thread evaluates `po.exitStatus + WEXITSTATUS(status)` and stores the sum
  in two steps.
* An `ASSERT` that fails ends the process.  So `poTato_fork()` records each child that
  it makes, unless the process ends in its `read()`: `sigaction()` is called without
  `SA_RESTART`, and a `SIGCHLD` that is handled while it blocks makes it fail.
-/

namespace Tidbits.Potato

/-- There is an exit status `0`. -/
instance neZero_statuses : @NeZero ℕ Zero.ofOfNat0 256 := ⟨Nat.succ_ne_zero 255⟩

/-- What has become of a child. -/
inductive ChildState
  | running
  | exited (status : Fin 256)
  | killed
deriving DecidableEq, Repr

/-- `si_code`. -/
inductive ChildCode
  | exited
  | killed
  | dumped
  | trapped
  | stopped
  | continued
deriving DecidableEq, Repr

/-- What a `SIGCHLD` tells. -/
structure ChildNotice where
  pid : ℤ
  code : ChildCode
deriving DecidableEq, Repr

/-- Where the main thread is. -/
inductive ParentControl
  /-- In none of the functions. -/
  | idle
  /-- In `poTato_fork()`, behind `fork()`. -/
  | started (pid : ℤ)
  /-- In the `read()` from the pipe, which blocks. -/
  | reading (pid : ℤ)
  /-- Behind it. -/
  | forked (pid : ℤ)
  /-- Behind `++po.numChildren`. -/
  | growing (pid : ℤ)
  /-- Behind `po.childPids = realloc()`. -/
  | grown (pid : ℤ)
  /-- In `poTato_removeChildren()`, at the test of its loop with `i = k - 1`. -/
  | loop (k : ℕ)
  /-- Behind `if(pid < 1)`. -/
  | kill (i : ℕ) (pid : ℤ)
  /-- In `waitpid()`. -/
  | wait (i : ℕ) (pid : ℤ)
  /-- Behind `waitpid()`, with `WEXITSTATUS(status)`. -/
  | test (i : ℕ) (pid : ℤ) (status : Fin 256)
  /-- Behind the test of `po.childPids[i] > 0`. -/
  | load (i : ℕ) (pid : ℤ) (status : Fin 256)
  /-- In front of the store of the sum. -/
  | store (i : ℕ) (pid : ℤ) (status : Fin 256) (sum : ℕ)
  /-- At `if(po.exitStatus > 255)`. -/
  | clamp (i : ℕ)
  /-- At `po.childPids[i] = -1`. -/
  | clear (i : ℕ)
  /-- Behind `free(po.childPids)`. -/
  | freed
  /-- Behind `po.numChildren = 0`. -/
  | done
  | returned (status : ℕ)
  /-- The process has ended in `poTato_fork()`. -/
  | ended
  /-- Memory that is not in the array was read. -/
  | fault
deriving DecidableEq, Repr

/-- A process and its children. -/
structure Parent where
  /-- The children. -/
  pids : Finset ℤ
  state : ℤ → ChildState
  /-- The `SIGCHLD` that is pending. -/
  pending : Option ChildNotice
  /-- `po.childPids`, with `po.numChildren` entries. -/
  childPids : Option (List ℤ)
  exitStatus : ℕ
  control : ParentControl

/-- What happens next. -/
inductive ParentAction
  /-- `fork()` returns in the parent. -/
  | fork (pid : ℤ)
  /-- `realloc()` returns; the new entry is not set. -/
  | realloc (entry : ℤ)
  /-- `poTato_removeChildren()` is called. -/
  | remove
  /-- The main thread goes on. -/
  | go
  /-- A child exits. -/
  | exit (pid : ℤ) (status : Fin 256)
  /-- A child is killed by a signal. -/
  | die (pid : ℤ) (dumped : Bool)
  /-- The `read()` from the pipe returns `0`. -/
  | eof
  /-- A `SIGCHLD` about a child that runs. -/
  | report (pid : ℤ) (code : ChildCode)
  /-- `sigChildHandler()` is called. -/
  | handle
deriving DecidableEq, Repr

/-- Clear the first entry that holds the process id. -/
def clearPid (pid : ℤ) : List ℤ → List ℤ
  | [] => []
  | entry :: entries => if entry = pid then -1 :: entries else entry :: clearPid pid entries

namespace Parent

def start : Parent := ⟨∅, fun _ ↦ .running, none, none, 0, .idle⟩

/-- The entries of `po.childPids`. -/
def entries (p : Parent) : List ℤ := p.childPids.getD []

/-- A `SIGCHLD` is sent. -/
def post (p : Parent) (n : ChildNotice) : Parent :=
  { p with pending := some (p.pending.getD n) }

/-- `removePidFromChildList()`. -/
def removePidFromChildList (p : Parent) (pid : ℤ) : Parent :=
  match p.control with
  | .growing _ =>
      -- `po.numChildren` counts an entry that is not there yet
      if pid ∈ p.entries then { p with childPids := p.childPids.map (clearPid pid) }
      else { p with control := .fault }
  | .freed => { p with control := .fault }
  | _ => { p with childPids := p.childPids.map (clearPid pid) }

/-- `sigChildHandler()`. -/
def sigChildHandler (p : Parent) (n : ChildNotice) : Parent :=
  match n.code with
  | .killed | .dumped | .trapped =>
      let sum := p.exitStatus + 1
      { p with exitStatus := if 255 < sum then 255 else sum }.removePidFromChildList n.pid
  | .exited => p.removePidFromChildList n.pid
  | .stopped | .continued => p

/-- A signal was handled: a `read()` that blocks fails with `EINTR`, and its `ASSERT` with it. -/
def interrupted (p : Parent) : Parent :=
  match p.control with
  | .reading _ => { p with control := .ended }
  | _ => p

/-- The main thread goes on. -/
def go (p : Parent) : Option Parent :=
  match p.control with
  | .started pid => some { p with control := .reading pid }
  | .reading pid => some { p with control := .forked pid }
  | .forked pid => some { p with control := .growing pid }
  | .grown pid =>
      some { p with
        childPids := some (p.entries.set (p.entries.length - 1) pid)
        control := .idle }
  | .loop 0 => some { p with control := .freed }
  | .loop (i + 1) =>
      let pid := p.entries.getD i (-1)
      if pid < 1 then some { p with control := .loop i }
      else some { p with control := .kill i pid }
  | .kill i pid =>
      if p.entries.getD i (-1) < 1 then some { p with control := .loop i }
      else some { p with control := .wait i pid }
  | .wait i pid =>
      match p.state pid with
      | .running => none
      | .exited status => some { p with control := .test i pid status }
      | .killed => some { p with control := .test i pid 0 }
  | .test i pid status =>
      if status ≠ 0 ∧ 0 < p.entries.getD i (-1) then
        some { p with control := .load i pid status }
      else some { p with control := .clear i }
  | .load i pid status => some { p with control := .store i pid status (p.exitStatus + status) }
  | .store i _ _ sum => some { p with exitStatus := sum, control := .clamp i }
  | .clamp i =>
      some { p with
        exitStatus := if 255 < p.exitStatus then 255 else p.exitStatus
        control := .clear i }
  | .clear i => some { p with childPids := some (p.entries.set i (-1)), control := .loop i }
  | .freed => some { p with childPids := none, control := .done }
  | .done => some { p with control := .returned p.exitStatus }
  | .idle | .growing _ | .returned _ | .ended | .fault => none

/-- The transitions of a process and its children. -/
def step (p : Parent) : ParentAction → Option Parent
  | .fork pid =>
      if p.control = .idle ∧ 0 < pid ∧ pid ∉ p.pids then
        some { p with
          pids := insert pid p.pids
          state := Function.update p.state pid .running
          control := .started pid }
      else none
  | .realloc entry =>
      match p.control with
      | .growing pid =>
          some { p with childPids := some (p.entries ++ [entry]), control := .grown pid }
      | _ => none
  | .remove =>
      if p.control = .idle then
        match p.childPids with
        | none => some { p with control := .returned 0 }
        | some entries => some { p with control := .loop entries.length }
      else none
  | .go => p.go
  | .exit pid status =>
      if pid ∈ p.pids ∧ p.state pid = .running then
        some ({ p with state := Function.update p.state pid (.exited status) }.post ⟨pid, .exited⟩)
      else none
  | .die pid dumped =>
      if pid ∈ p.pids ∧ p.state pid = .running then
        some ({ p with state := Function.update p.state pid .killed }.post
          ⟨pid, if dumped then .dumped else .killed⟩)
      else none
  | .eof =>
      match p.control with
      -- the child has not written to the pipe, and nobody else can
      | .reading pid => if p.state pid ≠ .running then some { p with control := .ended } else none
      | _ => none
  | .report pid code =>
      if pid ∈ p.pids ∧ p.state pid = .running ∧
          (code = .trapped ∨ code = .stopped ∨ code = .continued) then
        some (p.post ⟨pid, code⟩)
      else none
  | .handle =>
      if p.control = .fault ∨ p.control = .ended then none
      else
        match p.pending with
        | none => none
        | some n => some ({ p with pending := none }.sigChildHandler n).interrupted

end Parent

end Tidbits.Potato
