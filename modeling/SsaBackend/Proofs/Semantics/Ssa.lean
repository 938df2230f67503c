import SsaBackend.Ir.Function
import SsaBackend.Target

/-!
# What a function means

A function runs block by block over an environment that maps ids to words. Reading an id that was
never assigned makes the run stuck; a run that is never stuck goes on, returns or traps. The phis of
a block are read all at once, in the environment of the edge on which the block is entered.

What a run shows to the outside is its trace: the blocks it enters behind the entry, its calls with
their arguments, and its stores. What operations compute and what calls reply is left open
(`World`): a reply may depend on everything that happened before.
-/

namespace SsaBackend

/-! ### Runs -/

/-- What a run shows to the outside. -/
inductive Event
  | enter (b : BlockId)
  | call (callee : String) (args : List Int64)
  | store (addr value : Int64)
  deriving DecidableEq

/-- What runs depend on besides the code. -/
structure World where
  /-- The result of an operation; `none` if it traps. -/
  compute : BinOp → Int64 → Int64 → Option Int64
  /-- The result of a call, after the given events. -/
  reply : List Event → String → List Int64 → Int64
  /-- What a call leaves in a register that it may change, after the given events. -/
  clobber : List Event → Register → Int64

/-- How a step ends. -/
inductive Outcome (σ : Type)
  | next (s : σ)
  | returned (value : Option Int64)
  | trapped

/-- From one state to another in `n` steps. A state without an outcome is stuck. -/
inductive Steps {σ : Type} (step : σ → Option (Outcome σ)) : Nat → σ → σ → Prop
  | refl (s : σ) : Steps step 0 s s
  | head {n : Nat} {s s' s'' : σ} :
      step s = some (.next s') → Steps step n s' s'' → Steps step (n + 1) s s''

namespace Steps

variable {σ : Type} {step : σ → Option (Outcome σ)}

theorem single {s s' : σ} (h : step s = some (.next s')) : Steps step 1 s s' :=
  .head h (.refl s')

theorem trans {m n : Nat} {s s' s'' : σ} (h : Steps step m s s') (h' : Steps step n s' s'') :
    Steps step (m + n) s s'' := by
  induction h with
  | refl => rwa [Nat.zero_add]
  | head hstep _ ih =>
    rw [Nat.add_right_comm]
    exact .head hstep (ih h')

end Steps

/-! ### Functions -/

namespace Ssa

/-- The values of the ids that were assigned. -/
abbrev Env := ValueId → Option Int64

namespace Env

/-- The word that a value stands for. -/
def read (env : Env) : Value → Option Int64
  | .constant literal _ => some literal
  | .parameter id _ _ | .temporary id _ => env id

/-- Assigns a word to a value. -/
def assign (env : Env) (v : Value) (x : Int64) : Env :=
  match v.id? with
  | some id => fun w => if w = id then some x else env w
  | none => env

/-- Assigns words to values one by one. -/
def assignAll (env : Env) (vs : List (Value × Int64)) : Env :=
  vs.foldl (fun env v => env.assign v.1 v.2) env

end Env

/-- A point of a run: the next instruction of a block, counted from 0. -/
structure State where
  block : BlockId
  index : Nat
  env : Env
  trace : List Event

/-- Carries out an instruction. -/
def exec (w : World) (s : State) : Instruction → Option (Outcome State)
  | .binop dst op lhs rhs => do
    let x ← s.env.read lhs
    let y ← s.env.read rhs
    match w.compute op x y with
    | some z => return .next { s with index := s.index + 1, env := s.env.assign dst z }
    | none => return .trapped
  | .call dst callee args => do
    let xs ← args.mapM s.env.read
    let z := w.reply s.trace callee xs
    return .next
      { s with
        index := s.index + 1
        env := dst.elim s.env fun d => s.env.assign d z
        trace := s.trace ++ [.call callee xs] }
  | .load dst src => do
    let x ← s.env.read src
    return .next { s with index := s.index + 1, env := s.env.assign dst x }
  | .store addr src => do
    let x ← s.env.read addr
    let y ← s.env.read src
    return .next { s with index := s.index + 1, trace := s.trace ++ [.store x y] }

/-- The words that the phis of `succ` take on the edge from `pred`. -/
def phiWords (f : Function) (env : Env) (pred succ : BlockId) : Option (List Int64) :=
  (f.block succ).phis.mapM fun phi => (phi.source? pred).bind env.read

/-- Enters `succ`, all phis at once. -/
def goTo (f : Function) (s : State) (succ : BlockId) : Option (Outcome State) := do
  let xs ← phiWords f s.env s.block succ
  return .next
    { block := succ
      index := 0
      env := s.env.assignAll (((f.block succ).phis.map Phi.dst).zip xs)
      trace := s.trace ++ [.enter succ] }

/-- Carries out a terminator. -/
def finish (f : Function) (s : State) : Terminator → Option (Outcome State)
  | .ret none => some (.returned none)
  | .ret (some v) => do return .returned (some (← s.env.read v))
  | .branch succ => goTo f s succ
  | .condBranch cond onTrue onFalse => do
    let x ← s.env.read cond
    goTo f s (if x = 0 then onFalse else onTrue)

/-- One step of a function. -/
def step (f : Function) (w : World) (s : State) : Option (Outcome State) :=
  match (f.block s.block).instructions[s.index]? with
  | some i => exec w s i
  | none => finish f s (f.block s.block).terminator

/-- The start of a run with the given arguments. -/
def start (f : Function) (args : List Int64) : State :=
  ⟨0, 0, Env.assignAll (fun _ => none) (f.params.zip args), []⟩

end Ssa

end SsaBackend
