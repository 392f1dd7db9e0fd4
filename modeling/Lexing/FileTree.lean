import Lexing.CommandLine
import Lexing.Log.Filter

/-!
# Surroundings with a tree of files

The program finds files by asking what is around it. Here are surroundings to run it in, with a tree
of files that hangs from the root of a file system. Directories and files are added to it by paths
and read by paths. A path is walked component by component from the working directory, or from the
root if it begins with a slash. Adding makes the directories that the walk needs; reading fails where
one is missing. Around the working directory stands what every system has: its usual directories, the
null device, and the standard input, which is a file for those who read it by its name.
-/

namespace Lexing

/-- A place in a tree: the names that lead to it from the root, the last name first. The place above
is the tail, and the root is above itself. -/
abbrev Location := List Bytes

/-- A tree of files. -/
inductive FileTree
  | file (content : Bytes)
  /-- Of two entries with one name the first counts. -/
  | directory (entries : List (Bytes × FileTree))
  /-- Another name for a place that is no link itself. -/
  | link (target : Location)

namespace FileTree

/-! ## Places in a tree -/

/-- The tree that a directory holds under a name. -/
def child? (name : Bytes) : FileTree → Option FileTree
  | directory entries => entries.lookup name
  | _ => none

/-- The tree at a place. -/
def find? (tree : FileTree) : Location → Option FileTree
  | [] => some tree
  | name :: above => (find? tree above).bind (child? name)

/-- Changes what some entries hold under a name. A missing entry counts as an empty directory. -/
def changeEntries (name : Bytes) (f : FileTree → FileTree) :
    List (Bytes × FileTree) → List (Bytes × FileTree)
  | [] => [(name, f (directory []))]
  | (other, tree) :: entries =>
    if name == other then (other, f tree) :: entries
    else (other, tree) :: changeEntries name f entries

/-- Changes what a directory holds under a name. What is no directory stays as it is. -/
def changeEntry (name : Bytes) (f : FileTree → FileTree) : FileTree → FileTree
  | directory entries => directory (changeEntries name f entries)
  | tree => tree

/-- Changes the tree at a place, and makes the directories that are missing on the way to it. -/
def change (f : FileTree → FileTree) : Location → FileTree → FileTree
  | [] => f
  | name :: above => change (changeEntry name f) above

/-! ## Paths -/

/-- The pieces of a path between its slashes. -/
def components (path : Bytes) : List Bytes :=
  match path with
  | [] => [[]]
  | b :: rest =>
    match components rest with
    | [] => []
    | piece :: pieces =>
      if b = Bytes.slash then [] :: piece :: pieces else (b :: piece) :: pieces

/-- The component that stands for the directory itself. -/
def dot : Bytes := .ofString "."

/-- The component that stands for the directory above. -/
def dotDot : Bytes := .ofString ".."

/-- The component names nothing: it is empty or a dot, and the walk stays where it is. -/
def isStay (component : Bytes) : Bool := component.isEmpty || component == dot

/-- The place to which a component leads, if it is no link. -/
def onward (here : Location) (component : Bytes) : Location :=
  if isStay component then here
  else if component == dotDot then here.tail
  else component :: here

/-- The working directory. It lies in the directory for temporary files, under the empty name, which
no path can spell. -/
def workingDirectory : Location := [[], .ofString "tmp"]

/-- Where the walk along a path begins. -/
def origin (path : Bytes) : Location :=
  if path.head? = some Bytes.slash then [] else workingDirectory

/-- The longest component that a file system allows. -/
def maxComponent : Nat := 255

/-- The longest path that a file system allows, in bytes. -/
def maxPath : Nat := 4095

/-! ## Building -/

/-- Goes on by one component and makes the directory to which it leads. -/
def enter : FileTree × Location → Bytes → FileTree × Location
  | (tree, here), component => (tree.change id (onward here component), onward here component)

/-- Adds a directory and those on the way to it. -/
def addDirectory (tree : FileTree) (path : Bytes) : FileTree :=
  ((components path).foldl enter (tree, origin path)).1

/-- Puts a tree at the end of a path, in the place of what was there, and adds the directories on the
way. -/
def put (tree : FileTree) (path : Bytes) (leaf : FileTree) : FileTree :=
  let (tree, here) := (components path).dropLast.foldl enter (tree, origin path)
  tree.change (fun _ => leaf) (((components path).getLastD []) :: here)

/-! ## What every system has -/

/-- The usual directories, besides those in which something else is put. -/
def usualDirectories : List String :=
  ["/boot", "/dev/pts", "/dev/shm", "/etc", "/home", "/media", "/mnt", "/opt", "/proc/sys", "/root",
    "/run", "/srv", "/sys", "/usr/bin", "/usr/include", "/usr/lib", "/usr/local/bin",
    "/usr/local/lib", "/usr/local/share", "/usr/sbin", "/usr/share", "/usr/src", "/var/cache",
    "/var/lib", "/var/log", "/var/tmp"]

/-- The usual files and links. The null device reads as an empty file. -/
def usualLeaves (input : Bytes) : List (String × FileTree) :=
  let names := List.map Bytes.ofString
  [("/dev/null", file []), ("/proc/self/fd/0", file input),
    ("/dev/stdin", link (names ["0", "fd", "self", "proc"])),
    ("/dev/fd", link (names ["fd", "self", "proc"])),
    ("/proc/self/cwd", link workingDirectory), ("/proc/self/root", link []),
    ("/bin", link (names ["bin", "usr"])), ("/lib", link (names ["lib", "usr"])),
    ("/sbin", link (names ["sbin", "usr"]))]

/-- A system whose working directory is empty, with its standard input. -/
def standard (input : Bytes) : FileTree :=
  let tree := usualDirectories.foldl (fun tree path => tree.addDirectory (.ofString path))
    (change id workingDirectory (directory []))
  (usualLeaves input).foldl (fun tree (path, leaf) => tree.put (.ofString path) leaf) tree

/-- A system with some directories and then some files added. -/
def ofLists (input : Bytes) (directories : List Bytes) (files : List (Bytes × Bytes)) : FileTree :=
  let tree := directories.foldl addDirectory (standard input)
  files.foldl (fun tree (path, content) => tree.put path (file content)) tree

/-! ## Reading -/

/-- Goes on from a place by one component. -/
def step (tree : FileTree) (here : Location) (component : Bytes) : Except Fault Location :=
  match tree.find? here with
  | some (.directory entries) =>
    if isStay component || component == dotDot then .ok (onward here component)
    else if maxComponent < component.length then .error .nameTooLong
    else
      match entries.lookup component with
      | some (.link target) => .ok target
      | some _ => .ok (onward here component)
      | none => .error .notFound
  | _ => .error .notDirectory

/-- Reads the file that a path leads to. -/
def read (tree : FileTree) (path : Bytes) : Except Fault Bytes :=
  if path.contains 0 then .error .zeroByteInName
  else if path.isEmpty then .error .notFound
  else if maxPath < path.length then .error .nameTooLong
  else
    match (components path).foldlM tree.step (origin path) with
    | .error fault => .error fault
    | .ok here =>
      match tree.find? here with
      | some (.file content) => .ok content
      | _ => .error .isDirectory

end FileTree

/-- Surroundings with a tree of files, an input, and the text that spells a log filter, if there is
one. -/
def Surroundings.ofTree (tree : FileTree) (input : Bytes) (filter : Option String) : Surroundings where
  contentOf := tree.read
  input := .ofBytes input
  filter := filter.map Log.Filter.ofText

end Lexing
