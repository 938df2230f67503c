import SsaBackend.Proofs.Semantics.Amd64
import SsaBackend.Proofs.Semantics.Arm64
import SsaBackend.Proofs.Semantics.Riscv64

/-!
# The machines

Which instructions a machine of each architecture carries out.
-/

namespace SsaBackend.Arch

/-- What an instruction does. -/
def exec : Arch → Asm.Host → Asm.Exec
  | amd64 => Amd64.exec
  | arm64 => Arm64.exec
  | riscv64 => Riscv64.exec

/-- The code that a machine reads from the text of assembly. -/
def code (arch : Arch) (a : Assembly) : List Asm.Cell := Asm.readCode arch.dialect a.render

end SsaBackend.Arch
