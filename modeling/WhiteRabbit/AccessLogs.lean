import Mathlib.Data.List.Basic

/-!
# Computations that note what they read

A computation has a value and a list of the places that it read for it. Where all of them are in a
set, it stays within the set.
-/

namespace WhiteRabbit.AccessLogs

structure Logged (A α : Type) where
  reads : List A
  value : α

namespace Logged

variable {A α β : Type}

instance : Monad (Logged A) where
  pure a := ⟨[], a⟩
  bind x f := ⟨x.reads ++ (f x.value).reads, (f x.value).value⟩

/-- One place is read. -/
def read (memory : A → α) (place : A) : Logged A α := ⟨[place], memory place⟩

def Within (S : A → Prop) (x : Logged A α) : Prop := ∀ place ∈ x.reads, S place

variable {S : A → Prop} {x : Logged A α} {f : α → Logged A β} {a : α} {memory : A → α} {place : A}

@[simp] theorem value_pure : (pure a : Logged A α).value = a := rfl

@[simp] theorem value_bind : (x >>= f).value = (f x.value).value := rfl

@[simp] theorem value_read : (read memory place).value = memory place := rfl

@[simp] theorem within_pure : (pure a : Logged A α).Within S := fun _ h => absurd h List.not_mem_nil

@[simp] theorem within_bind : (x >>= f).Within S ↔ x.Within S ∧ (f x.value).Within S :=
  List.forall_mem_append

@[simp] theorem within_read : (read memory place).Within S ↔ S place :=
  List.forall_mem_singleton

end Logged

end WhiteRabbit.AccessLogs
