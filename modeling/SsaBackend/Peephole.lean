import SsaBackend.Arm64.Peephole
import SsaBackend.Dialect

/-!
# Tidying up the assembly of every architecture

The common rules apply everywhere; arm64 has rules of its own.
-/

namespace SsaBackend.Arch

def furtherRules : Arch → List Rule
  | arm64 => Arm64.rules
  | _ => []

def optimize (arch : Arch) (a : Assembly) : Assembly :=
  Peephole.run arch.dialect arch.furtherRules a

end SsaBackend.Arch
