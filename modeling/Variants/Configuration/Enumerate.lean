import Variants.Configuration.Key
import Variants.Directive

/-!
# The configurations of a text

Every opening directive and every `#elif` of a text starts a branch, and the path of the branch are
the conditions that lead to it (`branchPaths`). Code after an `#else` stands under the flipped
condition of the branch before it. The configurations are the baseline and the keys of the paths,
each once, in the order of the text.
-/

namespace Variants.Configuration

/-- The path after a directive. The innermost condition comes first. -/
def extendPath (path : List Condition) : Directive → List Condition
  | .opening _ condition => condition :: path
  | .elif condition => condition :: path.tail
  | .otherwise =>
    match path with
    | [] => []
    | innermost :: outer => innermost.flipped :: outer
  | .endif => path.tail
  | .define => path

/-- The paths of the branches that some directives start, each with its outermost condition first.
`path` leads to the first directive. -/
def branchPaths (path : List Condition) : List Directive → List (List Condition)
  | [] => []
  | directive :: rest =>
    let next := extendPath path directive
    if directive.condition?.isSome then next.reverse :: branchPaths next rest
    else branchPaths next rest

/-- The keys of the branches of a text, in order and with repetitions. A branch that is never taken
has none. -/
def branchKeys (t : Text) : List Text :=
  (branchPaths [] (Directive.ofLines (Text.lines t))).filterMap keyOfPath

/-- The configurations of a text: the baseline first. -/
def enumerate (t : Text) : List Text := ([] :: branchKeys t).eraseDups

end Variants.Configuration
