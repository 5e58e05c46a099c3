/-
  SvgComponent.Path.Simplify — path data with fewer letters and separators and the same shape.

  Line segments join the segment before them when that continues with lines anyway; an absolute move that
  nothing is drawn after gives way to the next; one close stands for several in a row.
-/

import SvgComponent.Path.Segment

namespace SvgComponent.Path

/-- What becomes of a segment and the one after it. -/
inductive Joint where
  | extend
  | supersede
  | absorb
  | apart
  deriving DecidableEq

def joint (last next : Segment) : Joint :=
  match last.letter, next.letter with
  | 'L', 'L' | 'l', 'l' | 'M', 'L' | 'm', 'l' => .extend
  | 'M', 'M' => if last.args.length = 2 then .supersede else .apart
  | 'Z', 'Z' | 'Z', 'z' | 'z', 'Z' | 'z', 'z' => .absorb
  | _, _ => .apart

/-- Simplifies from a segment on that may still change. -/
def simplifyFrom (last : Segment) : List Segment → List Segment
  | [] => [last]
  | next :: segs =>
    match joint last next with
    | .extend => simplifyFrom { last with args := last.args ++ next.args } segs
    | .supersede => simplifyFrom next segs
    | .absorb => simplifyFrom last segs
    | .apart => last :: simplifyFrom next segs

def simplifySegments : List Segment → List Segment
  | [] => []
  | seg :: segs => simplifyFrom seg segs

def simplify (d : String) : Except PathFault String := (parse d).map fun segs => write (simplifySegments segs)

end SvgComponent.Path
