/-
  HotPath.Cli.Directory

  Files in memory: a working directory in which commands find the files that
  they name. Paths are read as file systems read them, one name after another;
  of what lies outside the working directory nothing is known but that its
  ancestors are directories.
-/
import HotPath.Fault

namespace HotPath.Cli

/-- A working directory: the files in it and below it, by their names. -/
structure Directory where
  files : List (List String × String)

namespace Directory

/-- Where a path leads. -/
inductive Place where
  /-- A directory at or below the working directory. -/
  | inside (names : List String)
  /-- A directory above it. -/
  | outside
  | file (text : String)

/-- The names of a path. -/
def namesOf (path : String) : List String := path.splitOn "/"

/-- A directory of files with the given paths. -/
def ofFiles (files : List (String × String)) : Directory :=
  ⟨files.map (fun f => (namesOf f.1, f.2))⟩

/-- The most bytes of a name. -/
def maxName : Nat := 255

/-- The most bytes of a path. -/
def maxPath : Nat := 4095

/-- The file or directory with the given names. -/
def find (d : Directory) (names : List String) : Except FileFault Place :=
  match d.files.find? (fun f => f.1 == names) with
  | some f => .ok (.file f.2)
  | none =>
    if d.files.any (fun f => names.isPrefixOf f.1) then .ok (.inside names) else .error .missing

/-- Follows one name of a path. -/
def follow (d : Directory) (p : Place) (name : String) : Except FileFault Place :=
  match p with
  | .file _ => .error .notDirectory
  | p =>
    if name = "" ∨ name = "." then .ok p
    else if maxName < name.utf8ByteSize then .error .nameTooLong
    else match p with
      | .inside [] => if name = ".." then .ok .outside else d.find [name]
      | .inside names =>
        if name = ".." then .ok (.inside names.dropLast) else d.find (names ++ [name])
      | p => if name = ".." then .ok p else .error .missing

/-- The place that a path starts from. -/
def start (path : String) : Place :=
  match path.toList with
  | '/' :: _ => .outside
  | _ => .inside []

/-- The text of the file that a path leads to. -/
def read (d : Directory) (path : String) : Except FileFault String :=
  if path = "" then .error .missing
  else if maxPath < path.utf8ByteSize then .error .nameTooLong
  else
    match (namesOf path).foldlM d.follow (start path) with
    | .ok (.file text) => .ok text
    | .ok _ => .error .isDirectory
    | .error e => .error e

end Directory

end HotPath.Cli
