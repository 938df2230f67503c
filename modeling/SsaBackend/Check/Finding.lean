/-!
# Findings

What a check of assembly text can find. Faults make the text invalid; warnings do not.
-/

namespace SsaBackend

inductive MemoryFault
  | malformed
  | scale (text : String)
  | unreadableOffset
  | offsetRange (offset : Int)
  | offset
  | shift
  deriving DecidableEq

def MemoryFault.message (operand : String) : MemoryFault → String
  | malformed => "malformed memory operand `" ++ operand ++ "`"
  | scale text => "invalid scale " ++ text ++ " in `" ++ operand ++ "`"
  | unreadableOffset => "bad offset in `" ++ operand ++ "`"
  | offsetRange n => "offset " ++ toString n ++ " out of range in `" ++ operand ++ "`"
  | offset => "offset out of range in `" ++ operand ++ "`"
  | shift => "invalid shift in `" ++ operand ++ "`"

inductive Fault
  | unknownMnemonic (mnemonic : String)
  | illegalRegister (name : String)
  | memory (operand : String) (fault : MemoryFault)
  | immediateDestination
  | memoryToMemory
  | divisionByZeroRegister
  | stackUnderflow
  | signedOutsidePrologue
  | authenticatedUnsigned
  | returnUnauthenticated
  | notRestored (register : String)
  deriving DecidableEq

def Fault.message : Fault → String
  | unknownMnemonic m => "unknown mnemonic `" ++ m ++ "`"
  | illegalRegister name => "illegal register `" ++ name ++ "`"
  | memory operand fault => fault.message operand
  | immediateDestination => "immediate used as a destination"
  | memoryToMemory => "memory-to-memory operands"
  | divisionByZeroRegister => "division by the zero register"
  | stackUnderflow => "stack underflow"
  | signedOutsidePrologue => "return address signed outside the prologue"
  | authenticatedUnsigned => "return address authenticated but never signed"
  | returnUnauthenticated => "signed return address is not authenticated before return"
  | notRestored r => "callee-saved register " ++ r ++ " is saved but not restored before return"

inductive Warning
  | discardedWrite (operand : String)
  | stackImbalance (bytes : Int)
  | framePairUnsaved
  | framePointerNotRestored
  | linkRegisterNotRestored
  | clobberedRead (register : String)
  | missingPredecessor (mnemonic required : String)
  | selfMove
  | swapBack
  | overwrittenMove
  deriving DecidableEq

def Warning.message : Warning → String
  | discardedWrite operand => "write to `" ++ operand ++ "` is discarded"
  | stackImbalance bytes =>
    "possible stack imbalance: " ++ toString bytes ++ " byte(s) at return"
  | framePairUnsaved => "frame pointer and link register are not saved as a pair"
  | framePointerNotRestored => "frame pointer is not restored before return"
  | linkRegisterNotRestored => "link register is not restored before return"
  | clobberedRead r => r ++ " is read after a call clobbered it"
  | missingPredecessor mnemonic required => mnemonic ++ " without a preceding " ++ required
  | selfMove => "self-move"
  | swapBack => "swap idiom: the second move is redundant"
  | overwrittenMove => "move result is immediately overwritten"

inductive Finding
  | fault (cause : Fault)
  | warning (cause : Warning)
  deriving DecidableEq

end SsaBackend
