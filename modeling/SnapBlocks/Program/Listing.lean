import SnapBlocks.Program.Basic

/-! Listings of programs for people to read. Each call stands on a line of its own with its
inputs; branches and scope follow in braces, four spaces further in. -/

namespace SnapBlocks

/-- The space in front of a line. -/
def indent (level : Nat) : String := "".pushn ' ' (4 * level)

/-- An input: its internal name and its variable, an underscore when none is bound. -/
def BoundInput.listing (i : BoundInput) : String :=
  " " ++ i.internalName ++ "=" ++ i.key.getD "_"

/-- The inputs of a call, segment by segment. -/
def Call.inputsListing (inputs : List (String × List BoundInput)) : String :=
  "; ".intercalate (inputs.map fun p => p.1 ++ ":" ++ String.join (p.2.map BoundInput.listing))

mutual
/-- A call at a level. -/
def Call.listing (level : Nat) : Call → String
  | .mk target _ inputs branches scope =>
    let head := indent level ++ target ++ "(" ++ Call.inputsListing inputs ++ ")"
    if branches.isEmpty && scope.isNone then head ++ "\n"
    else
      head ++ " \x7b\n" ++ Branch.listings level branches ++ Scope.listing level scope ++
        indent level ++ "\x7d\n"

/-- Calls at a level. -/
def Chain.listingAt (level : Nat) : List Call → String
  | [] => ""
  | c :: rest => c.listing level ++ Chain.listingAt level rest

/-- Branches of a call at a level. -/
def Branch.listings (level : Nat) : List (String × BranchOf Call) → String
  | [] => ""
  | (id, ⟨_, body⟩) :: rest =>
    indent (level + 1) ++ "[" ++ id ++ "] => \x7b\n" ++ Chain.listingAt (level + 2) body ++
      indent (level + 1) ++ "\x7d\n" ++ Branch.listings level rest

/-- The scope of a call at a level. -/
def Scope.listing (level : Nat) : Option (List Call) → String
  | none => ""
  | some calls => Chain.listingAt (level + 1) calls
end

/-- The listing of a chain. -/
def Chain.listing (chain : Chain) : String := Chain.listingAt 0 chain

/-- The listing of a program, with an empty line between chains. -/
def Program.listing (p : Program) : String :=
  "\n".intercalate (p.entries.map Chain.listing)

end SnapBlocks
