/-!
# Files

A directory can be held in memory, as a list of files with their paths from it; each directory
on the way to a file exists, and so does the one around the whole. A path is followed part by
part:

* a part that is empty or `.` stays where it is, and `..` goes one directory up;
* every part but the first starts from a directory, so nothing lies behind a file;
* above the directory that is held there are directories only, and a path that starts with a
  slash starts there. No name leads back from them.

Of two files with one path the later counts.
-/
namespace CatScript.CommandLine

/-- Whether a part of a path means the directory it is followed from. -/
def isHere (part : String) : Bool := part = "" || part = "."

/-- The parts of a path that lead away from where they start. -/
def components (path : String) : List String := (path.splitOn "/").filter fun part => !isHere part

/-- The last part of a path, the path itself if that names no file. -/
def fileName (path : String) : String :=
  match (components path).getLast? with
  | none => path
  | some last => if last = ".." then path else last

/-- Why a file could not be read. -/
inductive ReadFault where
  | notFound
  | isDirectory
  | notDirectory
  | notText
  deriving DecidableEq, Repr

def ReadFault.message : ReadFault → String
  | notFound => "No such file or directory (os error 2)"
  | isDirectory => "Is a directory (os error 21)"
  | notDirectory => "Not a directory (os error 20)"
  | notText => "stream did not contain valid UTF-8"

/-- Files with their contents, by path from the directory they stand in. -/
abbrev Files := List (String × ByteArray)

/-- Where a path can lead. -/
inductive Location where
  | above                          -- a directory that the held files are not in
  | directory (path : List String) -- from the one around the whole
  | file (content : ByteArray)

/-- One directory up. -/
def Location.parent : List String → Location
  | [] => .above
  | path => .directory path.dropLast

namespace Files

/-- Whether a directory leads to one of the files. -/
def isDirectory (files : Files) (dir : List String) : Bool :=
  dir.isEmpty || files.any fun f => dir.isPrefixOf (components f.1).dropLast

def content? (files : Files) (path : List String) : Option ByteArray :=
  (files.reverse.find? fun f => components f.1 == path).map (·.2)

/-- What stands at a path from the directory around the whole. -/
def locate (files : Files) (path : List String) : Except ReadFault Location :=
  match files.content? path with
  | some content => .ok (.file content)
  | none => if files.isDirectory path then .ok (.directory path) else .error .notFound

/-- Follows one part of a path. -/
def follow (files : Files) (start : Location) (part : String) : Except ReadFault Location :=
  match start with
  | .file _ => .error .notDirectory
  | .above => if isHere part || part = ".." then .ok .above else .error .notFound
  | .directory dir =>
    if isHere part then .ok start
    else if part = ".." then .ok (.parent dir)
    else files.locate (dir ++ [part])

/-- Where a path starts. -/
def origin (path : String) : Location :=
  if path.toList.head? = some '/' then .above else .directory []

end Files

def decode (bytes : ByteArray) : Except ReadFault String :=
  match String.fromUTF8? bytes with
  | some text => .ok text
  | none => .error .notText

/-- The text of a file. -/
def Files.read (files : Files) (path : String) : Except ReadFault String :=
  if path.isEmpty then .error .notFound
  else do
    match ← (path.splitOn "/").foldlM files.follow (origin path) with
    | .file content => decode content
    | _ => .error .isDirectory

end CatScript.CommandLine
