/-! Paths of files as texts: components between slashes, with an empty component and `.` for the same
    place and `..` for the folder above. -/

namespace TypeCalculus.Path

def isAbsolute (path : String) : Bool := path.toList.head? == some '/'

/-- The components that lead somewhere else. -/
def components (path : String) : List String :=
  (path.splitOn "/").filter fun c => c ≠ "" && c ≠ "."

/-- One component further, where the components so far have the last one first. Above the root there is
    only the root. -/
def follow (rooted : Bool) (done : List String) (c : String) : List String :=
  if c = ".." then
    match done with
    | [] => if rooted then [] else [c]
    | d :: rest => if d = ".." then c :: d :: rest else rest
  else c :: done

/-- The shortest path to the same place. -/
def clean (path : String) : String :=
  let rooted := isAbsolute path
  let text := "/".intercalate ((components path).foldl (follow rooted) []).reverse
  if rooted then "/" ++ text
  else if text = "" then "."
  else text

/-- A path seen from a folder. -/
def join (folder path : String) : String :=
  if folder = "" then (if path = "" then "" else clean path)
  else clean (folder ++ "/" ++ path)

/-- The folder that a path lies in. -/
def folder (path : String) : String :=
  clean (String.ofList (path.toList.reverse.dropWhile (· ≠ '/')).reverse)

/-- The last dot of a name and what follows it. -/
def extension (name : String) : String :=
  let after := name.toList.reverse.takeWhile fun c => c ≠ '.' && c ≠ '/'
  match name.toList.reverse.drop after.length with
  | '.' :: _ => String.ofList ('.' :: after.reverse)
  | _ => ""

/-- A folder and the folders above it, the nearest first. -/
def ancestors (folder : String) : List String :=
  upwards (components folder).reverse
where
  upwards : List String → List String
    | [] => ["/"]
    | c :: cs => ("/" ++ "/".intercalate (c :: cs).reverse) :: upwards cs

end TypeCalculus.Path
