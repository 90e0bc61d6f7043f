import JavaText.Proofs.OutputFiles

/-!
# The standard output of a run

The standard output of a run without an output directory: the texts of the inputs that hold a unit, one
after the other. An input that cannot be read or parsed is passed over and makes the run fail, and
nothing else changes for it; a configuration that cannot be loaded stops the run before any output.
-/

namespace JavaText

namespace Desk

end Desk

end JavaText
