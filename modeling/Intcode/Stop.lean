/-! Why a computation ends without an answer. -/
namespace Intcode

/-- An error to report, a write that breaks down (as the tape cannot grow so far, as there is no number
for its length or as it has no such cell), a wait for input that nothing is left to send, or a run that
was cut off with instructions still to come. -/
inductive Stop (ε : Type) where
  | error (error : ε)
  | tapeOverflow
  | sumOverflow
  | noCell (size index : Nat)
  | waiting
  | unfinished
deriving DecidableEq

namespace Stop

/-- The same reason with its error seen as another kind of error. -/
def map {ε δ : Type} (f : ε → δ) : Stop ε → Stop δ
  | error e => error (f e)
  | tapeOverflow => tapeOverflow
  | sumOverflow => sumOverflow
  | noCell size index => noCell size index
  | waiting => waiting
  | unfinished => unfinished

end Stop

end Intcode
