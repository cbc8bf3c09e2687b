import ConstraintAlgebra.Placement

/-! Command line: `placement [TASKS] [--hosts N] [--capacity N] [--count]`. -/
namespace ConstraintAlgebra.Placement

def word? (s : String) : Option Int64 := s.toInt?.bind toWord?

def Request.read? : List String → Request → Option Request
  | [], r => some r
  | "--count" :: rest, r => read? rest { r with count := true }
  | "--hosts" :: n :: rest, r => do read? rest { r with hosts := ← word? n }
  | "--capacity" :: n :: rest, r => do read? rest { r with capacity := ← word? n }
  | arg :: rest, r =>
    match arg.splitOn "=" with
    | ["--hosts", n] => do read? rest { r with hosts := ← word? n }
    | ["--capacity", n] => do read? rest { r with capacity := ← word? n }
    | _ => do read? rest { r with tasks := ← arg.toNat? }

end ConstraintAlgebra.Placement

open ConstraintAlgebra Placement in
def main (args : List String) : IO UInt32 := do
  match Request.read? args .standard with
  | none =>
    IO.eprintln "usage: placement [TASKS] [--hosts N] [--capacity N] [--count]"
    return 2
  | some r =>
    match r.refusal with
    | some reason =>
      IO.println s!"args = {r.text}"
      IO.eprintln s!"Error: {reason}"
      return 1
    | none =>
      match report r with
      | .ok lines =>
        lines.forM IO.println
        return 0
      | .error e =>
        IO.eprintln e.message
        return 101
