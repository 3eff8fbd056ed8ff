import Lockstep.Program.Builder
import Lockstep.Program.Flatten

/-!
# Freezing a builder

The two ways to get a program from a builder, which differ in what becomes of nested forks only.

- `Builder.freezeBinary`: the program as it was built.
- `Builder.freeze`: the program with its forks flattened.
-/

namespace Lockstep

namespace Builder

/-- The finished program with every fork as it was built. -/
def freezeBinary (b : Builder) : Except Error Program := b.finish.mapError .malformed

/-- The finished program with its forks flattened. -/
def freeze (b : Builder) : Except Error Program := b.freezeBinary.map Program.flatten

end Builder

end Lockstep
