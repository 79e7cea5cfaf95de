import Influence.Study.Error
import Influence.Text.Listing

/-!
# File trees

What a run sees of the file system: for every path the file or directory that it leads to,
or the reason why it leads nowhere.  `FileTree.ofFiles` is the tree of a directory whose
files are listed; directories stand where a listed name needs one.
-/

namespace Influence

/-- What a path leads to. -/
inductive FileEntry where
  | file (text : String)
  /-- A file whose bytes are no text. -/
  | binary
  /-- A file that the system does not open. -/
  | sealedOff (reason : String)
  | directory
  deriving Repr, DecidableEq

/-- Looks up paths; where one leads nowhere, the reason. -/
abbrev FileTree := String → Except String FileEntry

namespace FileTree

/-! ## Reasons -/

/-- Nothing has the name. -/
def missing : String := "No such file or directory (os error 2)"

/-- The path goes on behind a file. -/
def throughFile : String := "Not a directory (os error 20)"

/-- A directory has no text. -/
def isDirectory : String := "Is a directory (os error 21)"

/-- A name or a whole path is too long. -/
def tooLong : String := "File name too long (os error 36)"

/-- Bytes that are no text. -/
def notText : String := "stream did not contain valid UTF-8"

/-! ## Looking at paths -/

/-- There is something at a path. -/
def exists? (files : FileTree) (path : String) : Bool := (files path).isOk

/-- There is a file at a path. -/
def isFile (files : FileTree) (path : String) : Bool :=
  match files path with
  | .ok .directory | .error _ => false
  | .ok _ => true

/-- The text of a file. -/
def text (files : FileTree) (path : String) : Except String String :=
  match files path with
  | .ok (.file text) => .ok text
  | .ok .binary => .error notText
  | .ok (.sealedOff reason) => .error reason
  | .ok .directory => .error isDirectory
  | .error reason => .error reason

/-- Reads the text of a file. -/
def read {α : Type} (files : FileTree) (path : String) : Except (FileError α) String :=
  (files.text path).mapError (.io path)

/-- The directory that a path lies in. -/
def parent (path : String) : String :=
  let cs := ((path.toList.reverse.dropWhile (· = '/')).dropWhile (· ≠ '/')).reverse
  if cs.isEmpty then "." else String.ofList cs

/-- A name that stands for a directory even if nothing is in it. -/
def endsOpen (path : String) : Bool := path.toList.getLast? == some '/'

/-- A file can be written at a path: at one that is there and is no directory, and at a new name
in a directory.  A path that ends in a slash is never one of a file. -/
def creation (files : FileTree) (path : String) : Except String Unit :=
  match files path with
  | .ok .directory => .error isDirectory
  | .ok _ => .ok ()
  | .error reason =>
    if reason ≠ missing ∧ reason ≠ throughFile then .error reason
    else do
      match ← files (parent path) with
      | .directory => if endsOpen path then .error isDirectory else pure ()
      | _ => .error throughFile

/-- The tree of the paths that have been looked up. -/
def ofEntries (entries : List (String × Except String FileEntry)) : FileTree := fun path =>
  (entries.lookup path).getD (.error missing)

/-! ## Listed files -/

/-- The length in bytes that a name may have. -/
def maxNameLength : Nat := 255

/-- The length in bytes that a path does not reach. -/
def maxPathLength : Nat := 4096

/-- The names along a path. -/
def names (path : String) : List String := (path.splitOn "/").filter (· ≠ "")

/-- Goes from a directory to a name: a single dot stays there, two dots lead back up. -/
def descend (here : List String) (name : String) : List String :=
  if name = "." then here
  else if name = ".." then here.dropLast
  else here ++ [name]

/-- The names that lead straight to a path. -/
def straight (path : String) : List String := (names path).foldl descend []

/-- What a list of names without detours leads to, among listed files. -/
def entryAt (files : List (String × String)) (here : List String) : Except String FileEntry :=
  if here.isEmpty then .ok .directory
  else match files.find? fun (name, _) => straight name = here && !endsOpen name with
    | some (_, text) => .ok (.file text)
    | none =>
      if files.any fun (name, _) => here.isPrefixOf (straight name) then .ok .directory
      else .error missing

/-- Follows names from a directory.  Every name, a dot as well, is looked up in a directory. -/
def follow (files : List (String × String)) (here : List String) :
    List String → Except String FileEntry
  | [] => entryAt files here
  | name :: rest => do
    match ← entryAt files here with
    | .directory =>
      if maxNameLength < name.utf8ByteSize then .error tooLong
      else follow files (descend here name) rest
    | _ => .error throughFile

/-- A path as it is seen from a directory. -/
def below (home path : String) : String :=
  if path.startsWith "/" then path else home ++ "/" ++ path

/-- The tree seen from a directory with the listed files.  A listed name that ends in a slash
is a directory. -/
def ofFiles (home : String) (files : List (String × String)) : FileTree := fun path =>
  if path = "" then .error missing
  else if maxPathLength ≤ path.utf8ByteSize then .error tooLong
  else do
    let listed := (home ++ "/", "") :: files.map fun (name, text) => (below home name, text)
    let entry ← follow listed [] (names (below home path))
    if endsOpen path && entry != .directory then .error throughFile else pure entry

end FileTree

end Influence
