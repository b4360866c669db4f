import RouteGuard.Path.Percent
import RouteGuard.Text.Pieces
import RouteGuard.Text.Utf8

/-! # Canonical request paths

Rules are looked up under one spelling of a path: without query and fragment,
decoded, with one slash before each segment, without empty and dot segments,
and with every `..` resolved. A `..` at the root stays at the root, so no path
leaves it.
-/

namespace RouteGuard.Path

/-- The part of a request target before its query and its fragment. -/
def pathPart (cs : List Char) : List Char := cs.takeWhile fun c => c != '?' && c != '#'

def segments (cs : List Char) : List (List Char) := Text.pieces '/' cs

/-- One step of a walk from the root; `here` lists the segments walked so far,
the latest first. -/
def walk (here : List (List Char)) (seg : List Char) : List (List Char) :=
  if seg = [] ∨ seg = ['.'] then here
  else if seg = ['.', '.'] then here.tail
  else seg :: here

/-- The segments where a walk along `segs` ends. -/
def resolve (segs : List (List Char)) : List (List Char) := (segs.foldl walk []).reverse

def render : List (List Char) → List Char
  | [] => ['/']
  | [seg] => '/' :: seg
  | seg :: segs => '/' :: (seg ++ render segs)

/-- The canonical path of a request target, or `none` if the decoded bytes
spell no text. -/
def canonical? (target : String) : Option String :=
  (Text.decode? (percentDecode (Text.encode (pathPart target.toList)))).map fun cs =>
    String.ofList (render (resolve (segments cs)))

end RouteGuard.Path
