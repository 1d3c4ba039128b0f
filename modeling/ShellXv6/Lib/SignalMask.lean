import Mathlib.Data.Finset.Insert

/-!
# Programs that change their signal mask

A process has a mask of blocked signals, which a child inherits and a program
keeps when it is executed.  `Neutral` says of a program that it gives back the
mask it was started with, and with which masks it and its children have executed
others; the rules below derive it along the text of a program.
-/

namespace ShellXv6.SignalMask

variable {σ : Type}

structure Process (σ : Type) where
  mask : Finset σ
  /-- The masks of the programs that were executed. -/
  execs : List (Finset σ)
  deriving DecidableEq

abbrev Prog (σ : Type) := StateM (Process σ)

/-- `sigprocmask(SIG_BLOCK, {s}, &prev)` -/
def block [DecidableEq σ] (s : σ) : Prog σ (Finset σ) := do
  let p ← get
  set { p with mask := insert s p.mask }
  return p.mask

/-- `sigprocmask(SIG_SETMASK, &mask, NULL)` -/
def setmask (mask : Finset σ) : Prog σ Unit := modify fun p => { p with mask := mask }

def execv : Prog σ Unit := modify fun p => { p with execs := p.execs ++ [p.mask] }

/-- The mask of the child is its own. -/
def fork (child : Prog σ Unit) : Prog σ Unit :=
  modify fun p => { p with execs := (child.run p).2.execs }

/-- The programs that are executed when it is started with a mask. -/
def Execs (p : Prog σ Unit) (f : Finset σ → List (Finset σ)) : Prop :=
  ∀ s, (p.run s).2.execs = s.execs ++ f s.mask

/-- Moreover, the mask is at the end what it was at the start. -/
def Neutral (p : Prog σ Unit) (f : Finset σ → List (Finset σ)) : Prop :=
  ∀ s, (p.run s).2 = ⟨s.mask, s.execs ++ f s.mask⟩

theorem Neutral.execs {p : Prog σ Unit} {f : Finset σ → List (Finset σ)} (h : Neutral p f) :
    Execs p f := by
  intro s
  rw [h s]

theorem Neutral.congr {p : Prog σ Unit} {f g : Finset σ → List (Finset σ)} (h : Neutral p f)
    (hfg : ∀ m, f m = g m) : Neutral p g :=
  funext hfg ▸ h

theorem neutral_skip : Neutral (pure () : Prog σ Unit) fun _ => [] := by
  intro s
  exact congrArg (Process.mk s.mask) (List.append_nil s.execs).symm

theorem neutral_execv : Neutral (execv : Prog σ Unit) fun m => [m] := fun _ => rfl

theorem Neutral.seq {p q : Prog σ Unit} {f g : Finset σ → List (Finset σ)} (hp : Neutral p f)
    (hq : Neutral q g) : Neutral (do p; q) fun m => f m ++ g m := by
  intro s
  change (q.run (p.run s).2).2 = _
  rw [hp s, hq, List.append_assoc]

theorem Neutral.when {p : Prog σ Unit} {f : Finset σ → List (Finset σ)} (hp : Neutral p f)
    (c : Prop) [Decidable c] :
    Neutral (if c then p else pure ()) fun m => if c then f m else [] := by
  split_ifs
  · exact hp
  · exact neutral_skip

theorem neutral_fork {child : Prog σ Unit} {f : Finset σ → List (Finset σ)} (h : Execs child f) :
    Neutral (fork child) f := by
  intro s
  exact congrArg (Process.mk s.mask) (h s)

/-- A child that first sets its mask. -/
theorem execs_setmask {p : Prog σ Unit} {f : Finset σ → List (Finset σ)} (h : Execs p f)
    (mask : Finset σ) : Execs (do setmask mask; p) fun _ => f mask := by
  intro s
  exact h ⟨mask, s.execs⟩

/-- The mask may be changed as long as it is set again. -/
theorem neutral_restored [DecidableEq σ] {s : σ} {body : Finset σ → Prog σ Unit}
    {f : Finset σ → Finset σ → List (Finset σ)} (h : ∀ prev, Execs (body prev) (f prev)) :
    Neutral (do let prev ← block s; body prev; setmask prev) fun m => f m (insert s m) := by
  intro p
  exact congrArg (Process.mk p.mask) (h p.mask ⟨insert s p.mask, p.execs⟩)

end ShellXv6.SignalMask
