import CaptureLint.Failure
import CaptureLint.Log.Basic

/-!
# Tasks

What a command does: it reads and changes a workspace, logs, and gives a value or fails.  What a task
has changed before it fails stays changed.
-/

namespace CaptureLint

abbrev Task (α : Type) := ExceptT Failure (StateT Workspace Logged) α

namespace Task

def runIn {α : Type} (workspace : Workspace) (task : Task α) :
    Logged (Except Failure α × Workspace) :=
  StateT.run (ExceptT.run task) workspace

def reading {α : Type} (look : Workspace → Logged (Except Failure α)) : Task α :=
  ExceptT.mk fun workspace => do pure (← look workspace, workspace)

def ofExcept {α : Type} (ended : Except Failure α) : Task α := reading fun _ => pure ended

/-- Makes the file at a path, or empties the one that is there; the result is its place. -/
def create (context : Option String) (path : String) : Task Place :=
  ExceptT.mk fun workspace =>
    match workspace.writable path with
    | .error fault => pure (.error (.system context fault), workspace)
    | .ok place => pure (.ok place, workspace.fill place "")

def fill (place : Place) (text : String) : Task Unit :=
  ExceptT.mk fun workspace => pure (.ok (), workspace.fill place text)

def write (context : Option String) (path text : String) : Task Unit := do
  let place ← create context path
  fill place text

/-! ## What the workspace is after each kind of task -/

section

variable {α β : Type} (workspace : Workspace)

@[simp] theorem value_pure (value : α) :
    ((pure value : Task α).runIn workspace).value = (.ok value, workspace) := rfl

@[simp] theorem value_throw (failure : Failure) :
    ((throw failure : Task α).runIn workspace).value = (.error failure, workspace) := rfl

@[simp] theorem value_lift (logged : Logged α) :
    ((liftM logged : Task α).runIn workspace).value = (.ok logged.value, workspace) := rfl

@[simp] theorem value_reading (look : Workspace → Logged (Except Failure α)) :
    ((reading look).runIn workspace).value = ((look workspace).value, workspace) := rfl

@[simp] theorem value_ofExcept (ended : Except Failure α) :
    ((ofExcept ended).runIn workspace).value = (ended, workspace) := rfl

@[simp] theorem value_fill (place : Place) (text : String) :
    ((fill place text).runIn workspace).value = (.ok (), workspace.fill place text) := rfl

/-- A task goes on from the workspace that the one before it leaves, unless that one fails. -/
theorem value_bind (task : Task α) (next : α → Task β) :
    ((task >>= next).runIn workspace).value =
      match (task.runIn workspace).value with
      | (.ok value, after) => ((next value).runIn after).value
      | (.error failure, after) => (.error failure, after) := by
  have hbind : ((task >>= next).runIn workspace).value =
      (ExceptT.bindCont next (task.runIn workspace).value.1 (task.runIn workspace).value.2).value :=
    rfl
  rw [hbind]
  obtain ⟨ended, after⟩ := (task.runIn workspace).value
  cases ended <;> rfl

end

end Task

end CaptureLint
