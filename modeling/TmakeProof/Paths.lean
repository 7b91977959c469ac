import Mathlib.Logic.Basic

/-! # Path names

The path helpers of `lib/compat.tcl` that the dependency engine and the include
scanner use.  A path is a string; `file-split` cuts it at the slashes and
`file-join` puts the parts together again without `.` and with `..` resolved
against the part before it.
-/
namespace Tmake

/-- A file name as tmake handles it: relative to the top of the project, or absolute. -/
abbrev Path := String

/-- `split $path /` on characters: the parts between the slashes, empty ones included. -/
def splitSlash : List Char → List (List Char)
  | [] => [[]]
  | c :: cs =>
    match splitSlash cs with
    | [] => []
    | p :: ps => if c = '/' then [] :: p :: ps else (c :: p) :: ps

/-- The procedure `file-split` of `compat.tcl`: a leading slash is kept as a part of its own. -/
def fileSplit (path : Path) : List String :=
  if path = "" then []
  else
    let parts := (splitSlash path.toList).map String.ofList
    if path.toList.head? = some '/' then "/" :: parts else parts

/-- One step of the built-in `file join`: an absolute part replaces what is there, and no
slash is doubled or left at the end. -/
def joinPart (acc part : String) : String :=
  if part.toList.head? = some '/' then part
  else if part = "" then acc
  else if acc = "" then part
  else if acc.toList.getLast? = some '/' then acc ++ part
  else acc ++ "/" ++ part

/-- The loop of `file-join` over the parts of both paths; `result` is the list built so far,
last part first. -/
def fileJoinParts : List String → List String → List String
  | [], result => result.reverse
  | part :: parts, result =>
    if part = "." then fileJoinParts parts result
    else if part = ".." && result.head? ∉ [some "..", some "", none] then
      fileJoinParts parts result.tail
    else if part.toList.head? = some '/' then fileJoinParts parts [part]
    else fileJoinParts parts (part :: result)

/-- The procedure `file-join` of `compat.tcl`. -/
def fileJoin (dir path : Path) : Path :=
  match fileJoinParts (fileSplit dir ++ fileSplit path) [] with
  | [] => "."
  | result => result.foldl joinPart ""

/-- `file dirname`: what stands before the last slash. -/
def fileDirname (path : Path) : Path :=
  match (path.toList.reverse.dropWhile (· ≠ '/')) with
  | [] => if path = ".." then ".." else "."
  | [_] => "/"
  | _ :: before => String.ofList before.reverse

example : fileJoin "abc/def" "../ghi" = "abc/ghi" := by decide
example : fileDirname "sub/x.h" = "sub" ∧ fileDirname "" = "." := by decide

end Tmake
