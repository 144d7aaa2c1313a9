import Mathlib.Data.List.TakeDrop
import Mathlib.Logic.Function.Basic
import Cheesecloth.CodeLib.Lts

/-!
# Pipes

A pipe takes items in at one end and hands them on at the other, in order and
without loss.  What it has handed on is a number of the items that it took, so
a pipe that has lost, repeated or reordered an item cannot be built
(`Pipe.output_isPrefix`).

`pipes` is the system of as many pipes as there are numbers, each on its own.
It is what a relay is for.
-/

namespace Cheesecloth.CodeLib

/-- The items taken in, and how many of them have been handed on. -/
structure Pipe (α : Type*) where
  taken : List α
  handed : Nat
  handed_le : handed ≤ taken.length

namespace Pipe

variable {α : Type*}

/-- The items handed on. -/
def output (p : Pipe α) : List α := p.taken.take p.handed

/-- Nothing is lost, repeated or reordered. -/
theorem output_isPrefix (p : Pipe α) : p.output <+: p.taken := List.take_prefix _ _

@[simp] theorem length_output (p : Pipe α) : p.output.length = p.handed :=
  List.length_take_of_le p.handed_le

/-- The pipe that has taken nothing. -/
def empty : Pipe α := ⟨[], 0, Nat.le_refl 0⟩

@[simp] theorem taken_empty : (empty : Pipe α).taken = [] := rfl

@[simp] theorem output_empty : (empty : Pipe α).output = [] := rfl

/-- Takes more items in. -/
def take (p : Pipe α) (xs : List α) : Pipe α :=
  ⟨p.taken ++ xs, p.handed, by
    rw [List.length_append]
    exact Nat.le_add_right_of_le p.handed_le⟩

@[simp] theorem taken_take (p : Pipe α) (xs : List α) : (p.take xs).taken = p.taken ++ xs := rfl

@[simp] theorem output_take (p : Pipe α) (xs : List α) : (p.take xs).output = p.output :=
  List.take_append_of_le_length p.handed_le

/-- Hands `n` more items on. -/
def hand (p : Pipe α) (n : Nat) (h : p.handed + n ≤ p.taken.length) : Pipe α :=
  ⟨p.taken, p.handed + n, h⟩

@[simp] theorem taken_hand (p : Pipe α) (n : Nat) (h : p.handed + n ≤ p.taken.length) :
    (p.hand n h).taken = p.taken := rfl

theorem output_hand (p : Pipe α) (n : Nat) (h : p.handed + n ≤ p.taken.length) :
    (p.hand n h).output = p.output ++ (p.taken.drop p.handed).take n :=
  List.take_add

end Pipe

/-- What happens at a pipe. -/
inductive PipeAction (α : Type*) where
  | take (t : Nat) (xs : List α)
  | hand (t n : Nat)

/-- Pipes that work independently of each other. -/
def pipes (α : Type*) : System (Nat → Pipe α) (PipeAction α) where
  init _ := Pipe.empty
  step p
    | .take t xs => some (Function.update p t ((p t).take xs))
    | .hand t n =>
      if h : (p t).handed + n ≤ (p t).taken.length then
        some (Function.update p t ((p t).hand n h))
      else none

section Steps

variable {α : Type*} (p : Nat → Pipe α) (t : Nat)

theorem pipes_take (xs : List α) :
    Relation.ReflTransGen ((pipes α).StepVia fun _ _ => True) p
      (Function.update p t ((p t).take xs)) :=
  .single ⟨.take t xs, trivial, rfl⟩

theorem pipes_hand (n : Nat) (h : (p t).handed + n ≤ (p t).taken.length) :
    Relation.ReflTransGen ((pipes α).StepVia fun _ _ => True) p
      (Function.update p t ((p t).hand n h)) :=
  .single ⟨.hand t n, trivial, dif_pos h⟩

end Steps

end Cheesecloth.CodeLib
