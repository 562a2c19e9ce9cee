import Mathlib.Tactic

/-!
# Buffered channels

A channel keeps what is sent in a buffer of bounded length until it is received. A send to a
closed channel panics, and a send to a full one waits, as a receive from an empty one does. What
has been sent is what has been received, followed by the buffer.
-/
namespace Deckard

/-- The buffer is within the capacity. -/
structure Channel (α : Type) where
  capacity : ℕ
  buffer : List α
  closed : Bool
  bounded : buffer.length ≤ capacity

namespace Channel

variable {α : Type} {c c' : Channel α} {a : α} {sent received : List α}

def new (α : Type) (capacity : ℕ) : Channel α := ⟨capacity, [], false, Nat.zero_le _⟩

/-- What comes of a send. -/
inductive Sent (α : Type)
  | panics
  | waits
  | done (c : Channel α)

def send (c : Channel α) (a : α) : Sent α :=
  if c.closed then .panics
  else if h : c.buffer.length < c.capacity then
    .done { c with buffer := c.buffer ++ [a], bounded := by simpa using h }
  else .waits

/-- The first element and the channel without it, unless the buffer is empty. -/
def receive (c : Channel α) : Option (α × Channel α) :=
  match h : c.buffer with
  | [] => none
  | a :: buffer =>
      some (a, { c with
        buffer := buffer
        bounded := by
          have hbounded := c.bounded
          rw [h, List.length_cons] at hbounded
          omega })

def close (c : Channel α) : Channel α := { c with closed := true }

theorem send_panics (h : c.send a = .panics) : c.closed = true := by
  unfold send at h
  split_ifs at h with hclosed
  exact hclosed

theorem send_done (h : c.send a = .done c') :
    c.closed = false ∧ c'.closed = false ∧ c'.buffer = c.buffer ++ [a] := by
  unfold send at h
  split_ifs at h with hclosed hroom
  cases h
  rw [Bool.not_eq_true] at hclosed
  exact ⟨hclosed, hclosed, rfl⟩

theorem receive_some (h : c.receive = some (a, c')) :
    c.buffer = a :: c'.buffer ∧ c'.closed = c.closed := by
  unfold receive at h
  split at h
  · cases h
  · next hbuffer =>
    cases h
    exact ⟨hbuffer, rfl⟩

/-- What has been sent is what has been received, followed by the buffer. -/
def Carries (c : Channel α) (sent received : List α) : Prop := sent = received ++ c.buffer

theorem Carries.send (h : c.Carries sent received) (hsend : c.send a = .done c') :
    c'.Carries (sent ++ [a]) received := by
  rw [Carries, (send_done hsend).2.2, ← List.append_assoc, ← h]

theorem Carries.receive (h : c.Carries sent received) (hreceive : c.receive = some (a, c')) :
    c'.Carries sent (received ++ [a]) := by
  unfold Carries at h
  rw [Carries, h, (receive_some hreceive).1, List.append_cons]

/-- What has been received is the beginning of what has been sent. -/
theorem Carries.begins (h : c.Carries sent received) : received <+: sent := by
  unfold Carries at h
  rw [h]
  exact List.prefix_append _ _

end Channel

end Deckard
