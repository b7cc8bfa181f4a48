/-!
# Dialogues

A dialogue is a computation that may only ask: it makes requests one after another, goes on with
each answer, and ends in a value. Whoever answers may keep a state. A program that is given as
a dialogue therefore cannot do anything but what its requests allow.
-/

namespace FencedCode

/-- A computation that asks requests and goes on with the answers. -/
inductive Dialogue {Request : Type} (Answer : Request → Type) (α : Type)
  | done (value : α)
  | ask (request : Request) (next : Answer request → Dialogue Answer α)

namespace Dialogue

variable {Request : Type} {Answer : Request → Type} {α β γ : Type}

protected def bind : Dialogue Answer α → (α → Dialogue Answer β) → Dialogue Answer β
  | done a, f => f a
  | ask request next, f => ask request fun answer ↦ (next answer).bind f

instance : Monad (Dialogue Answer) where
  pure := done
  bind := Dialogue.bind

/-- The outcome of a dialogue when its requests are answered in a monad. -/
def run {m : Type → Type} [Monad m] (answer : (r : Request) → m (Answer r)) :
    Dialogue Answer α → m α
  | done a => pure a
  | ask r next => do run answer (next (← answer r))

protected theorem map_id (x : Dialogue Answer α) : id <$> x = x := by
  induction x with
  | done a => rfl
  | ask r next ih => exact congrArg (ask r) (funext ih)

protected theorem bind_assoc (x : Dialogue Answer α) (f : α → Dialogue Answer β)
    (g : β → Dialogue Answer γ) : x >>= f >>= g = x >>= fun a ↦ f a >>= g := by
  induction x with
  | done a => rfl
  | ask r next ih => exact congrArg (ask r) (funext ih)

instance : LawfulMonad (Dialogue Answer) :=
  LawfulMonad.mk' _ Dialogue.map_id (fun _ _ ↦ rfl) Dialogue.bind_assoc

theorem run_pure {m : Type → Type} [Monad m] (answer : (r : Request) → m (Answer r)) (a : α) :
    run answer (pure a : Dialogue Answer α) = pure a := rfl

theorem run_bind {m : Type → Type} [Monad m] [LawfulMonad m]
    (answer : (r : Request) → m (Answer r)) (x : Dialogue Answer α)
    (f : α → Dialogue Answer β) :
    run answer (x >>= f) = run answer x >>= fun a ↦ run answer (f a) := by
  induction x with
  | done a => simp [run, bind, Dialogue.bind]
  | ask r next ih =>
    show (answer r >>= fun b ↦ run answer (next b >>= f)) = _
    simp only [ih, run, bind_assoc]

end Dialogue

end FencedCode
