import Mathlib.Data.List.Basic

/-!
# Unbounded multi-producer channels

One queue, a count of live senders and a flag for the receiver. A send to a
dropped receiver is discarded; a receive takes the oldest message, reports
the closed channel once every sender is gone, and otherwise stays pending.
Each operation is one indivisible step of whatever system uses the channel.
-/

namespace TokioCompat.Channel

/-- An unbounded channel carrying values of type `α`. -/
structure Chan (α : Type*) where
  /-- Undelivered messages, oldest first. -/
  queue : List α
  /-- Live clones of the sending half. -/
  senders : ℕ
  /-- The receiving half has not been dropped. -/
  rxAlive : Bool
  deriving DecidableEq, Repr

variable {α : Type*}

/-- A fresh channel has one sender, its receiver and no message. -/
def unbounded : Chan α := ⟨[], 1, true⟩

/-- Clone the sending half. -/
def Chan.cloneTx (c : Chan α) : Chan α := { c with senders := c.senders + 1 }

/-- Drop one sending half. -/
def Chan.dropTx (c : Chan α) : Chan α := { c with senders := c.senders - 1 }

/-- Drop the receiving half together with every undelivered message. -/
def Chan.dropRx (c : Chan α) : Chan α := { c with queue := [], rxAlive := false }

/-- Enqueue a message unless the receiver is gone. -/
def Chan.send (c : Chan α) (a : α) : Chan α :=
  if c.rxAlive then { c with queue := c.queue ++ [a] } else c

/-- What polling the receiver yields. -/
inductive Recv (α : Type*) where
  /-- The oldest message. -/
  | message (a : α)
  /-- Every sender is gone and the queue is empty. -/
  | closed
  /-- Nothing to deliver yet. -/
  | pending
  deriving DecidableEq, Repr

/-- Poll the receiver. -/
def Chan.recv (c : Chan α) : Recv α × Chan α :=
  match c.queue with
  | a :: rest => (.message a, { c with queue := rest })
  | [] => if c.senders = 0 then (.closed, c) else (.pending, c)

@[simp] theorem cloneTx_senders (c : Chan α) : c.cloneTx.senders = c.senders + 1 := rfl
@[simp] theorem dropTx_senders (c : Chan α) : c.dropTx.senders = c.senders - 1 := rfl
@[simp] theorem dropTx_rxAlive (c : Chan α) : c.dropTx.rxAlive = c.rxAlive := rfl

@[simp] theorem send_senders (c : Chan α) (a : α) : (c.send a).senders = c.senders := by
  unfold Chan.send
  split <;> rfl

@[simp] theorem send_rxAlive (c : Chan α) (a : α) : (c.send a).rxAlive = c.rxAlive := by
  unfold Chan.send
  split <;> rfl

/-- A send to a live receiver adds exactly its message at the end. -/
theorem send_queue {c : Chan α} (h : c.rxAlive = true) (a : α) :
    (c.send a).queue = c.queue ++ [a] := by
  unfold Chan.send
  rw [if_pos h]

/-- Everything one receive can do. -/
theorem recv_cases (c : Chan α) :
    (∃ a rest, c.queue = a :: rest ∧ c.recv = (.message a, { c with queue := rest })) ∨
      (c.queue = [] ∧ c.senders = 0 ∧ c.recv = (.closed, c)) ∨
      (c.queue = [] ∧ c.senders ≠ 0 ∧ c.recv = (.pending, c)) := by
  unfold Chan.recv
  cases hq : c.queue with
  | cons a rest => exact Or.inl ⟨a, rest, rfl, rfl⟩
  | nil =>
    by_cases hs : c.senders = 0
    · exact Or.inr (Or.inl ⟨rfl, hs, by simp only [hs, if_true]⟩)
    · exact Or.inr (Or.inr ⟨rfl, hs, by simp only [hs, if_false]⟩)

end TokioCompat.Channel
