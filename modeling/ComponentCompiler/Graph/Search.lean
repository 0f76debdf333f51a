namespace ComponentCompiler.Search

/-- Looks for `goal` from the nodes of a list on. The path found and the nodes entered; `seen` are
those entered before, which are not entered again. Each node passed over or entered costs fuel. -/
def pathFrom (next : Nat → List Nat) (goal : Nat) :
    Nat → List Nat → List Nat → Option (List Nat) × List Nat
  | 0, _, seen => (none, seen)
  | _ + 1, [], seen => (none, seen)
  | fuel + 1, n :: rest, seen =>
    if n = goal then
      (some [n], seen)
    else if seen.contains n then
      pathFrom next goal fuel rest seen
    else
      match pathFrom next goal fuel (next n) (n :: seen) with
      | (some path, seen) => (some (n :: path), seen)
      | (none, seen) => pathFrom next goal fuel rest seen

def path? (next : Nat → List Nat) (fuel start goal : Nat) : Option (List Nat) :=
  if start = goal then
    some [start]
  else
    (pathFrom next goal fuel (next start) [start]).1.map (start :: ·)

structure Finish where
  entered : List Nat := []
  left : List Nat := []

/-- Enters the nodes of a list one after the other; a node is left after all its next ones. -/
def finish (next : Nat → List Nat) : Nat → List Nat → Finish → Finish
  | 0, _, f => f
  | _ + 1, [], f => f
  | fuel + 1, n :: rest, f =>
    if f.entered.contains n then
      finish next fuel rest f
    else
      let below := finish next fuel (next n) { f with entered := n :: f.entered }
      finish next fuel rest { below with left := below.left ++ [n] }

end ComponentCompiler.Search
