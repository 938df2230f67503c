import SsaBackend.Amd64.Dialect
import SsaBackend.Arm64.Dialect
import SsaBackend.Riscv64.Dialect

/-!
# The dialects

Which assembly syntax belongs to which architecture.
-/

namespace SsaBackend

def Arch.dialect : Arch → Dialect
  | amd64 => Amd64.dialect
  | arm64 => Arm64.dialect
  | riscv64 => Riscv64.dialect

end SsaBackend
