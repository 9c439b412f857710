import Mathlib.Logic.Relation
import Mathlib.Data.List.Basic

/-!
# Transaction programs

A program that talks to a transactional store does six things: it reads, it
sends a write that stays pending in its own transaction, it commits, it rolls
back, it calls something outside the store, and it ends in a value or in an
exception.  `Prog` is the tree of these choices.  A read node carries what the
program does with *whatever* state it is shown, so one tree describes the
program under every schedule.

Every node that can fail carries, besides its continuation, what the program
does when that operation raises.  So `tryCatch` is a change of the leaves and
an exception can come out of any operation without a second semantics.

The parameters are the state `σ` of the store, its writes `ω`, the world `W`
outside it, the answers `ι` of that world (clocks, random values), and the
exceptions `ε`.
-/

namespace ReadCommitted

/-- A program against a transactional store, with result `α`. -/
inductive Prog (σ ω W ι ε α : Type) : Type
  | ret (a : α)
  | raise (e : ε)
  | select (k : σ → Prog σ ω W ι ε α) (err : ε → Prog σ ω W ι ε α)
  | flush (w : ω) (k : Prog σ ω W ι ε α) (err : ε → Prog σ ω W ι ε α)
  | commit (k : Prog σ ω W ι ε α) (err : ε → Prog σ ω W ι ε α)
  | rollback (k : Prog σ ω W ι ε α)
  | call (f : W → ι → W) (k : W → ι → Prog σ ω W ι ε α) (err : ε → Prog σ ω W ι ε α)

namespace Prog

variable {σ ω W ι ε α β : Type}

/-- `r` takes over where the program returns, `h` where it raises. -/
def graft : Prog σ ω W ι ε α → (α → Prog σ ω W ι ε β) → (ε → Prog σ ω W ι ε β) →
    Prog σ ω W ι ε β
  | .ret a, r, _ => r a
  | .raise e, _, h => h e
  | .select k err, r, h => .select (fun v => (k v).graft r h) (fun e => (err e).graft r h)
  | .flush w k err, r, h => .flush w (k.graft r h) (fun e => (err e).graft r h)
  | .commit k err, r, h => .commit (k.graft r h) (fun e => (err e).graft r h)
  | .rollback k, r, h => .rollback (k.graft r h)
  | .call g k err, r, h => .call g (fun w i => (k w i).graft r h) (fun e => (err e).graft r h)

def bind (p : Prog σ ω W ι ε α) (f : α → Prog σ ω W ι ε β) : Prog σ ω W ι ε β :=
  p.graft f .raise

/-- `h` handles what `p` raises. -/
def tryCatch (p : Prog σ ω W ι ε α) (h : ε → Prog σ ω W ι ε α) : Prog σ ω W ι ε α :=
  p.graft .ret h

/-- What a session does when it is closed: an open transaction is rolled back,
whether the program returns or raises. -/
def closing (p : Prog σ ω W ι ε α) : Prog σ ω W ι ε α :=
  p.graft (fun a => .rollback (.ret a)) (fun e => .rollback (.raise e))

instance : Monad (Prog σ ω W ι ε) where
  pure := .ret
  bind := .bind

def isDone : Prog σ ω W ι ε α → Bool
  | .ret _ | .raise _ => true
  | _ => false

def atCommit : Prog σ ω W ι ε α → Bool
  | .commit _ _ => true
  | _ => false

/-! ### The operations as programs -/

/-- One query, answered from the state the transaction sees. -/
def query (f : σ → α) : Prog σ ω W ι ε α := .select (fun v => .ret (f v)) .raise

def send (w : ω) : Prog σ ω W ι ε Unit := .flush w (.ret ()) .raise

def commitNow : Prog σ ω W ι ε Unit := .commit (.ret ()) .raise

def rollbackNow : Prog σ ω W ι ε Unit := .rollback (.ret ())

/-- Call the world: `f` is what the call does to it, `r` what it answers. -/
def invoke (f : W → ι → W) (r : W → ι → Except ε α) : Prog σ ω W ι ε α :=
  .call f (fun w i => match r w i with
    | .ok a => .ret a
    | .error e => .raise e) .raise

@[simp] theorem pure_eq (a : α) : (pure a : Prog σ ω W ι ε α) = .ret a := rfl

@[simp] theorem bind_eq (p : Prog σ ω W ι ε α) (f : α → Prog σ ω W ι ε β) :
    p >>= f = p.bind f := rfl

@[simp] theorem ret_bind (a : α) (f : α → Prog σ ω W ι ε β) :
    (Prog.ret a : Prog σ ω W ι ε α).bind f = f a := rfl

@[simp] theorem raise_bind (e : ε) (f : α → Prog σ ω W ι ε β) :
    (Prog.raise e : Prog σ ω W ι ε α).bind f = .raise e := rfl

end Prog

end ReadCommitted
