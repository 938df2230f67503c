import SsaBackend.Amd64.Select
import SsaBackend.Arm64.Select
import SsaBackend.Riscv64.Select

/-!
# The instruction sets

Which instruction set belongs to which architecture.
-/

namespace SsaBackend

def Arch.isa : Arch → Isa
  | amd64 => Amd64.isa
  | arm64 => Arm64.isa
  | riscv64 => Riscv64.isa

end SsaBackend
