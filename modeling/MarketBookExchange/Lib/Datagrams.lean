import Mathlib.Data.List.Perm.Basic
import Mathlib.Data.List.Nodup

/- Messages that are each handed to a sender of its own, and a network that may lose, repeat
   and reorder what has been sent. Nothing is sent twice, and nothing is received that was not
   sent. -/
namespace Datagrams
variable {α : Type}

structure Net (α : Type) where
  waiting : List α := []
  sent : List α := []
  received : List α := []

/-- New messages, each with a sender that has not come to send it yet. -/
def Net.post (net : Net α) (l : List α) : Net α := { net with waiting := net.waiting ++ l }

inductive Moves : Net α → Net α → Prop
  | send {net : Net α} {a : α} {before after : List α} (waits : net.waiting = before ++ a :: after) :
      Moves net { net with waiting := before ++ after, sent := net.sent ++ [a] }
  | receive {net : Net α} {a : α} (was : a ∈ net.sent) :
      Moves net { net with received := net.received ++ [a] }

/-- Any sender may be the next to send, and what it sends the next to arrive. -/
theorem exists_delivery {net : Net α} {a : α} (waits : a ∈ net.waiting) :
    ∃ net₁ net₂, Moves net net₁ ∧ Moves net₁ net₂ ∧ net₂.received = net.received ++ [a] ∧
      ∀ b ∈ net.waiting, b ≠ a → b ∈ net₂.waiting := by
  obtain ⟨before, after, split⟩ := List.append_of_mem waits
  refine ⟨_, _, .send split, .receive (List.mem_concat_self), rfl, fun b member other => ?_⟩
  rw [split] at member
  simpa [other] using member

structure Accounts (posted : List α) (net : Net α) : Prop where
  once : (net.waiting ++ net.sent).Perm posted
  authentic : ∀ a ∈ net.received, a ∈ net.sent

theorem accounts_new : Accounts [] ({} : Net α) := by
  constructor
  · exact List.Perm.refl _
  · intro a member
    cases member

namespace Accounts
variable {posted : List α} {net net' : Net α}

theorem post (h : Accounts posted net) (l : List α) : Accounts (posted ++ l) (net.post l) := by
  constructor
  · have swap : (net.waiting ++ l ++ net.sent).Perm (net.waiting ++ net.sent ++ l) := by
      rw [List.append_assoc, List.append_assoc]
      exact List.perm_append_comm.append_left _
    exact swap.trans (h.once.append_right l)
  · exact h.authentic

theorem moves (h : Accounts posted net) (moved : Moves net net') : Accounts posted net' := by
  cases moved with
  | @send a before after waits =>
    constructor
    · have once := h.once
      rw [waits] at once
      have swap : (before ++ after ++ (net.sent ++ [a])).Perm (before ++ a :: after ++ net.sent) := by
        rw [← List.append_assoc]
        apply (List.perm_append_singleton a _).trans
        rw [List.append_assoc, List.append_assoc]
        exact List.perm_middle.symm
      exact swap.trans once
    · intro x member
      exact List.mem_append_left _ (h.authentic x member)
  | receive was =>
    constructor
    · exact h.once
    · intro x member
      rcases List.mem_append.mp member with old | new
      · exact h.authentic x old
      · rw [List.mem_singleton.mp new]
        exact was

theorem sent_posted (h : Accounts posted net) {a : α} (member : a ∈ net.sent) : a ∈ posted :=
  h.once.subset (List.mem_append_right _ member)

theorem received_posted (h : Accounts posted net) {a : α} (member : a ∈ net.received) :
    a ∈ posted :=
  h.sent_posted (h.authentic a member)

theorem sent_once (h : Accounts posted net) (distinct : posted.Nodup) : net.sent.Nodup :=
  (h.once.nodup_iff.mpr distinct).of_append_right

end Accounts
end Datagrams
