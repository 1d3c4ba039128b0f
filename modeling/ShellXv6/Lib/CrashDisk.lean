import Mathlib.Data.Nat.Notation
import Mathlib.Logic.Function.Basic

/-!
# Disks that lose power

A disk is an array of blocks, and a block is a few sectors.  A program for the disk is a
list of writes, each of which may look at the disk first.  The power may fail between two
writes, and also during one: then each sector of the block is written or not.
-/

namespace ShellXv6.CrashDisk

variable {κ V : Type*}

abbrev Block (κ V : Type*) := κ → V

abbrev Disk (κ V : Type*) := ℕ → Block κ V

/-- Where a write goes and what it writes. -/
abbrev Write (κ V : Type*) := Disk κ V → ℕ × Block κ V

def Write.exec (w : Write κ V) (d : Disk κ V) : Disk κ V :=
  Function.update d (w d).1 (w d).2

/-- Only the sectors in `done` have been written. -/
def Write.torn (w : Write κ V) (done : κ → Bool) (d : Disk κ V) : Disk κ V :=
  Function.update d (w d).1 fun i => if done i then (w d).2 i else d (w d).1 i

def execAll : List (Write κ V) → Disk κ V → Disk κ V
  | [], d => d
  | w :: ws, d => execAll ws (w.exec d)

/-- The disks that a program may leave when the power fails. -/
inductive Crash : List (Write κ V) → Disk κ V → Disk κ V → Prop
  | now (ws : List (Write κ V)) (d : Disk κ V) : Crash ws d d
  | torn (w : Write κ V) (ws : List (Write κ V)) (d : Disk κ V) (done : κ → Bool) :
      Crash (w :: ws) d (w.torn done d)
  | later {w : Write κ V} {ws : List (Write κ V)} {d d' : Disk κ V} :
      Crash ws (w.exec d) d' → Crash (w :: ws) d d'

variable {w : Write κ V} {ws ws' : List (Write κ V)} {d d' : Disk κ V} {b : ℕ}

theorem Write.exec_of_ne (h : b ≠ (w d).1) : w.exec d b = d b := Function.update_of_ne h _ _

theorem Write.torn_of_ne (h : b ≠ (w d).1) (done : κ → Bool) : w.torn done d b = d b :=
  Function.update_of_ne h _ _

/-- A write all of whose sectors are written is complete. -/
theorem Write.torn_all : w.torn (fun _ => true) d = w.exec d := by
  simp [Write.torn, Write.exec]

theorem execAll_append : execAll (ws ++ ws') d = execAll ws' (execAll ws d) := by
  induction ws generalizing d with
  | nil => rfl
  | cons w ws ih => exact ih

/-- A program that is cut off is cut off in its first or in its second part. -/
theorem Crash.append (h : Crash (ws ++ ws') d d') :
    Crash ws d d' ∨ Crash ws' (execAll ws d) d' := by
  induction ws generalizing d with
  | nil => exact .inr h
  | cons w ws ih =>
      cases h with
      | now => exact .inl (.now _ _)
      | torn _ _ _ done => exact .inl (.torn _ _ _ done)
      | later h => exact (ih h).imp_left .later

/-- A property that every write keeps, complete or torn, survives the program wherever
it is cut off. -/
theorem Crash.invariant {P : Disk κ V → Prop} (h : Crash ws d d') (hd : P d)
    (htorn : ∀ w ∈ ws, ∀ d done, P d → P (w.torn done d)) : P d' := by
  induction h with
  | now => exact hd
  | torn w ws d done => exact htorn w List.mem_cons_self d done hd
  | later h ih =>
      obtain ⟨hw, hws⟩ := List.forall_mem_cons.mp htorn
      refine ih ?_ hws
      rw [← Write.torn_all]
      exact hw _ _ hd

end ShellXv6.CrashDisk
