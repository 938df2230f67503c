import SsaBackend.Ir.Draft

/-!
# Building a function

A draft is built into a function when nothing is wrong with it. `Draft.faults` lists everything that
is wrong, in the order in which faults are reported; `Draft.build` reports the first. So a draft is
accepted exactly when each group of faults is empty, and each group reads as one rule of
well-formedness.
-/

namespace SsaBackend

inductive BuildError
  | noBlocks (function : String)
  | unterminated (function block : String)
  | invalidName (name : String)
  | duplicateLabel (function block : String)
  | unknownBlock (function : String) (target : BlockId)
  | entryHasPredecessors (function : String)
  | phiMismatch (function block : String) (phi : Value)
  | constantDestination (function : String) (instruction : Instruction)
  | redefined (function : String) (value : ValueId)
  | undefined (function : String) (value : ValueId)
  deriving DecidableEq

def BuildError.message : BuildError → String
  | noBlocks f => "function " ++ f ++ " has no blocks"
  | unterminated f b => "function " ++ f ++ ": block `" ++ b ++ "` has no terminator"
  | invalidName name => "`" ++ name ++ "` is not a valid symbol name"
  | duplicateLabel f b => "function " ++ f ++ ": duplicate block label `" ++ b ++ "`"
  | unknownBlock f target =>
    "function " ++ f ++ ": branch to unknown block " ++ blockName target
  | entryHasPredecessors f =>
    "function " ++ f ++ ": the entry block cannot be a branch target"
  | phiMismatch f b phi =>
    "function " ++ f ++ ": phi " ++ phi.render ++ " in `" ++ b ++
      "` does not match the block's predecessors"
  | constantDestination f i =>
    "function " ++ f ++ ": `" ++ i.render ++ "` writes to a constant"
  | redefined f v => "function " ++ f ++ ": " ++ valueName v ++ " is defined more than once"
  | undefined f v => "function " ++ f ++ ": " ++ valueName v ++ " is used but never defined"

def isSymbol (name : String) : Bool :=
  !name.toList.isEmpty && name.toList.all fun c => c.isAlphanum || c == '_'

def isFunctionName (name : String) : Bool :=
  isSymbol name && !(name.toList.head?.any Char.isDigit)

inductive Site
  | param (value : Value)
  | phi (label : String) (preds : List BlockId) (p : Phi)
  | instruction (i : Instruction)

def Site.def? : Site → Option ValueId
  | param value => value.id?
  | phi _ _ p => p.dst.id?
  | instruction i => i.def?

def Phi.covers (phi : Phi) (preds : List BlockId) : Bool :=
  phi.sources.length == preds.length && preds.all (fun p => phi.sources.any fun s => s.1 == p) &&
    phi.sources.all fun s => preds.contains s.1

namespace Draft

def preds (d : Draft) (b : BlockId) : List BlockId :=
  predecessors (d.blocks.map DraftBlock.succs) b

def sites (d : Draft) : List Site :=
  d.params.map Site.param ++ d.blocks.zipIdx.flatMap fun b =>
    b.1.phis.map (Site.phi b.1.label (d.preds b.2)) ++ b.1.instructions.map Site.instruction

def defs (d : Draft) : List ValueId := d.sites.filterMap Site.def?

def uses (d : Draft) : List ValueId := d.blocks.flatMap DraftBlock.uses

def nameFaults (d : Draft) : List BuildError :=
  if isFunctionName d.name then [] else [.invalidName d.name]

def entryFaults (d : Draft) : List BuildError :=
  if d.blocks.isEmpty then [.noBlocks d.name] else []

def labelFaults (d : Draft) (seen : List String) : List DraftBlock → List BuildError
  | [] => []
  | b :: bs =>
    (if !isSymbol b.label then [.invalidName b.label]
      else if seen.contains b.label then [.duplicateLabel d.name b.label] else []) ++
      d.labelFaults (b.label :: seen) bs

def targetFaults (d : Draft) : List BuildError :=
  d.blocks.flatMap fun b =>
    match b.terminator with
    | none => [.unterminated d.name b.label]
    | some t =>
      (t.successors.filter (d.blocks.length ≤ ·)).map (.unknownBlock d.name)

def backEdgeFaults (d : Draft) : List BuildError :=
  if (d.preds 0).isEmpty then [] else [.entryHasPredecessors d.name]

def siteFaults (d : Draft) : Site → List BuildError
  | .param _ => []
  | .phi label preds p => if p.covers preds then [] else [.phiMismatch d.name label p.dst]
  | .instruction i =>
    if i.dst?.any Value.isConstant then [.constantDestination d.name i] else []

/-- Sites have to be right by themselves and define an id at most once; `seen` holds the ids defined
so far. -/
def definitionFaults (d : Draft) (seen : List ValueId) : List Site → List BuildError
  | [] => []
  | s :: ss =>
    d.siteFaults s ++
      match s.def? with
      | none => d.definitionFaults seen ss
      | some v =>
        (if seen.contains v then [.redefined d.name v] else []) ++ d.definitionFaults (v :: seen) ss

def useFaults (d : Draft) : List BuildError :=
  let defs := d.defs
  (d.uses.filter fun v => !defs.contains v).map (.undefined d.name)

def faults (d : Draft) : List BuildError :=
  d.nameFaults ++ d.entryFaults ++ d.labelFaults [] d.blocks ++ d.targetFaults ++
    d.backEdgeFaults ++ d.definitionFaults [] d.sites ++ d.useFaults

def toFunction (d : Draft) : Function :=
  { name := d.name, params := d.params, ret := d.ret, blocks := d.blocks.map DraftBlock.toBlock,
    valueCount := d.nextId }

def build (d : Draft) : Except BuildError Function :=
  match d.faults with
  | [] => .ok d.toFunction
  | e :: _ => .error e

theorem build_eq_ok_iff {d : Draft} {f : Function} :
    d.build = .ok f ↔ d.faults = [] ∧ d.toFunction = f := by
  unfold build
  split <;> simp_all

end Draft

end SsaBackend
