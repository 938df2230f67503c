import SsaBackend.Dialect.Basic

/-!
# Checks on single instructions

What can be said of an instruction without its neighbours: whether its names exist, its memory
operands are well formed, and its destinations can be written.
-/

namespace SsaBackend.Dialect

/-- The faults in the names of an instruction. Operands of an unknown mnemonic are not looked at, and
neither is the name of a label. -/
def nameFaults (d : Dialect) (i : AsmInstr) : List Fault :=
  if d.isMnemonic i.mnemonic then
    (i.operands.zipIdx.filter fun o => d.labelOperand? i ≠ some o.2).flatMap fun o =>
      ((d.registers o.1).filter fun r => !d.isRegister r).map .illegalRegister
  else [.unknownMnemonic i.mnemonic]

def memoryFaults (d : Dialect) (i : AsmInstr) : List Fault :=
  (i.operands.filter d.isMemory).flatMap fun op => ((d.memoryFault? op).map (.memory op)).toList

def destinationFaults (d : Dialect) (i : AsmInstr) : List Fault :=
  (((d.destinations i).filterMap i.operand?).filter d.isImmediate).map fun _ =>
    .immediateDestination

def operandFindings (d : Dialect) (i : AsmInstr) : List Finding :=
  (d.nameFaults i ++ d.memoryFaults i ++ d.destinationFaults i ++ d.operandFaults i).map .fault ++
    (d.operandWarnings i).map .warning

end SsaBackend.Dialect
