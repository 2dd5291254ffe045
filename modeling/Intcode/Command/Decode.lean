import Intcode.Listing
import Intcode.Report

/-! The command that writes the listing of a program image. -/
namespace Intcode.Command

/-- The lines of a listing. -/
def listingText (program : Program) : String :=
  String.join ((listing program.words).map fun entry => entry.line ++ "\n")

def listingPortions (program : Program) : List Portion :=
  (listing program.words).map fun entry => .plain (entry.line ++ "\n")

@[simp] theorem join_listingPortions (program : Program) :
    String.join ((listingPortions program).map Portion.text) = listingText program := by
  rw [listingPortions, List.map_map]
  rfl

def decode (program : Program) : Dialogue (Except (Stop Failure) Unit) :=
  .writePortions (listingPortions program) (fun f => .error (.error f)) (.ok ())

end Intcode.Command
