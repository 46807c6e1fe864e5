import Mathlib.Logic.Function.Basic
import Mathlib.Data.List.Basic

/-!
# Files of a disk

A disk is the content of each path, and a program's use of it a list of operations with their outcomes. What a crash can leave
are the disks after `ops.take k`.
-/

namespace NuWicam.Lib

open Function

abbrev Disk (P α : Type*) := P → Option (List α)

inductive FileOp (P α : Type*)
  | openRead (p : P) (ok : Bool)
  /-- opened for writing: the file is created, or cut to nothing -/
  | create (p : P) (ok : Bool)
  | write (p : P) (data : List α) (accepted : Nat)
  | close (p : P)
  | remove (p : P) (ok : Bool)
  | rename (p q : P) (ok : Bool)
  | sync

namespace FileOp

variable {P α : Type*} [DecidableEq P]

def apply (d : Disk P α) : FileOp P α → Disk P α
  | .create p ok => if ok then update d p (some []) else d
  | .write p data accepted => update d p ((d p).map (· ++ data.take accepted))
  | .remove p ok => if ok then update d p none else d
  | .rename p q ok => if ok then update (update d q (d p)) p none else d
  | .openRead _ _ | .close _ | .sync => d

def Spares (p : P) : FileOp P α → Prop
  | .create q ok => ok = true → q ≠ p
  | .write q _ _ => q ≠ p
  | .remove q ok => ok = true → q ≠ p
  | .rename q r ok => ok = true → q ≠ p ∧ r ≠ p
  | .openRead _ _ | .close _ | .sync => True

theorem Spares.apply_eq {p : P} {op : FileOp P α} (h : op.Spares p) (d : Disk P α) : op.apply d p = d p := by
  cases op with
  | create q ok =>
    cases ok with
    | false => rfl
    | true => exact update_of_ne (Ne.symm (h rfl)) ..
  | write q data accepted => exact update_of_ne (Ne.symm h) ..
  | remove q ok =>
    cases ok with
    | false => rfl
    | true => exact update_of_ne (Ne.symm (h rfl)) ..
  | rename q r ok =>
    cases ok with
    | false => rfl
    | true =>
      exact (update_of_ne (Ne.symm (h rfl).1) ..).trans (update_of_ne (Ne.symm (h rfl).2) ..)
  | openRead | close | sync => rfl

def applyAll (d : Disk P α) (ops : List (FileOp P α)) : Disk P α := ops.foldl apply d

theorem applyAll_append (d : Disk P α) (ops ops' : List (FileOp P α)) :
    applyAll d (ops ++ ops') = applyAll (applyAll d ops) ops' := List.foldl_append

theorem applyAll_spares {p : P} : ∀ {ops : List (FileOp P α)}, (∀ op ∈ ops, op.Spares p) → ∀ d : Disk P α,
    applyAll d ops p = d p
  | [], _, _ => rfl
  | op :: ops, h, d => by
    rw [List.forall_mem_cons] at h
    exact (applyAll_spares h.2 (op.apply d)).trans (h.1.apply_eq d)

def written (ws : List (List α × Nat)) : List α := ws.flatMap fun w => w.1.take w.2

theorem applyAll_writes (p : P) : ∀ (ws : List (List α × Nat)) {d : Disk P α} {content : List α}, d p = some content →
    applyAll d (ws.map fun w => .write p w.1 w.2) p = some (content ++ written ws)
  | [], d, content, h => by simp [applyAll, written, h]
  | w :: ws, d, content, h => by
    have hstep : (write p w.1 w.2 : FileOp P α).apply d p = some (content ++ w.1.take w.2) := by
      simp [apply, h]
    have ih := applyAll_writes p ws hstep
    rw [List.map_cons, applyAll, List.foldl_cons]
    rw [written, List.flatMap_cons, ← List.append_assoc]
    exact ih

theorem written_of_full {ws : List (List α × Nat)} (h : ∀ w ∈ ws, w.1.length ≤ w.2) :
    written ws = (ws.map Prod.fst).flatten := by
  rw [written, List.flatMap]
  exact congrArg List.flatten (List.map_congr_left fun w hw => List.take_of_length_le (h w hw))

end FileOp

end NuWicam.Lib
