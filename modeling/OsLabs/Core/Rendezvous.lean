import Mathlib.Data.List.Basic

/-!
# Mailboxes for one message

The owner of a mailbox asks for a message, somebody posts one, the owner takes
it.  Nothing can be posted before the owner asks, and the owner asks again only
after taking, so that in every run the messages taken are the messages posted,
in order, except for one that may still lie in the mailbox.
-/

namespace OsLabs.Rendezvous

variable {Message : Type*}

/-- What is in the mailbox. -/
inductive Slip (Message : Type*)
  | shut
  | asked
  | full (message : Message)

def Slip.pending : Slip Message → List Message
  | .shut => []
  | .asked => []
  | .full message => [message]

/-- A mailbox with what has gone through it. -/
structure Mailbox (Message : Type*) where
  slip : Slip Message
  posted : List Message
  taken : List Message

namespace Mailbox

def empty : Mailbox Message := ⟨.shut, [], []⟩

def ask (box : Mailbox Message) : Mailbox Message := { box with slip := .asked }

def post (box : Mailbox Message) (message : Message) : Mailbox Message :=
  { box with slip := .full message, posted := box.posted ++ [message] }

def take (box : Mailbox Message) (message : Message) : Mailbox Message :=
  { box with slip := .shut, taken := box.taken ++ [message] }

/-- A mailbox that its owner and the senders have used in the order asked for. -/
inductive Orderly : Mailbox Message → Prop
  | empty : Orderly empty
  | ask {box : Mailbox Message} : Orderly box → box.slip = .shut → Orderly box.ask
  | post {box : Mailbox Message} (message : Message) : Orderly box → box.slip = .asked →
      Orderly (box.post message)
  | take {box : Mailbox Message} {message : Message} : Orderly box → box.slip = .full message →
      Orderly (box.take message)

variable {box : Mailbox Message}

/-- Nothing is lost, duplicated or reordered. -/
theorem Orderly.conserves (h : Orderly box) : box.posted = box.taken ++ box.slip.pending := by
  induction h with
  | empty => rfl
  | ask _ hshut ih =>
    rw [hshut] at ih
    exact ih
  | post message _ hasked ih =>
    rw [hasked, Slip.pending, List.append_nil] at ih
    rw [Mailbox.post, Slip.pending, ih]
  | take _ hfull ih =>
    rw [hfull] at ih
    rw [Mailbox.take, Slip.pending, List.append_nil]
    exact ih

theorem Orderly.taken_initial (h : Orderly box) : box.taken <+: box.posted :=
  ⟨box.slip.pending, h.conserves.symm⟩

/-- A mailbox without a message has given out all that was posted. -/
theorem Orderly.taken_eq (h : Orderly box) (hnone : box.slip.pending = []) :
    box.taken = box.posted := by
  rw [h.conserves, hnone, List.append_nil]

end Mailbox

end OsLabs.Rendezvous
